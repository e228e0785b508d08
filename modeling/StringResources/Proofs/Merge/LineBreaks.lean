import StringResources.Proofs.Merge.RoundTrip
import StringResources.Proofs.Text.Returned

/-! Line breaks with a carriage return. They stay what they are in the parts of a document that are kept and in those
    that come from another, and the lines that are added end as those of the document do. Main statements:
    `returned_of_parse`, what is taken from a document, and `returned_merged`. -/

namespace StringResources.Parse
open Markup Text Namespace

/-! ### What is taken from a document -/

theorem returned_value_of_fields {t : Text} {as : List Attribute} (h : Fields t as) (ht : Returned t) :
    ∀ a ∈ as, Returned a.value := by
  induction h with
  | nil => simp
  | @cons gap field rest a as hgap hfield _ ih =>
    obtain ⟨c, word, before, after, q, -, rfl, -, -, -, -, hq, -⟩ := hfield
    have hquote : q ≠ '\r' := by rcases hq with rfl | rfl <;> decide
    have hvalue : gap ++ (c :: (word ++ (before ++ '=' :: (after ++ q :: (a.value ++ [q])))) ++ rest) =
        (gap ++ c :: (word ++ (before ++ '=' :: after))) ++ q :: (a.value ++ q :: rest) := by simp
    rw [hvalue] at ht
    have hafter := ht.after hquote
    exact List.forall_mem_cons.mpr ⟨hafter.left, ih (hafter.after hquote)⟩

/-- The text of the tag of a root begins with its name and goes on with its fields. -/
theorem Root.exists_opening_tag (root : Root) :
    ∃ s, root.opening.source = '<' :: (root.tag.name ++ (root.tag.fields ++ s)) := by
  cases root with
  | empty tag => exact ⟨['/', '>'], by simp [Root.opening, Root.tag, Token.source, Tag.content]⟩
  | element tag body written closes => exact ⟨['>'], by simp [Root.opening, Root.tag, Token.source, Tag.content]⟩

/-- The elements of a document and what its root declares have the line breaks of the document. -/
theorem returned_of_parse {path t : Text} (ht : Unmarked t) {d : Document} (h : parse path t = .ok d)
    (hreturned : Returned t) :
    (∀ e ∈ d.entries, Returned e.element) ∧ ∀ n ∈ d.namespaces, Returned n.uri := by
  obtain ⟨o, attributes, rfl, htight, hreads, hd⟩ := exists_outline_of_parse ht h
  obtain ⟨s, hs⟩ := o.root.exists_opening_tag
  obtain ⟨closing, hclosing⟩ := o.root.exists_source_eq
  have hroot : Returned (o.root.source ++ sources o.after) := hreturned.right (Or.inr (by simp [hclosing, hs]))
  constructor
  · intro e he
    obtain ⟨B, A, child, hchildren, hmakes, -⟩ := exists_child_of_mem_entries? htight.root.2 hreads.children he
    obtain ⟨u, hu⟩ := hmakes.exists_element
    have hsplit : o.root.source ++ sources o.after = (o.root.opening.source ++ B.source) ++
        (e.element ++ (A.source ++ (closing ++ sources o.after))) := by
      rw [hclosing, hchildren]
      simp [Root.source_forest, hmakes.element]
    rw [hsplit] at hroot
    exact (hroot.right (Or.inr (by simp [hu]))).left
  · intro n hn
    rw [hd, Outline.document] at hn
    obtain ⟨w, hw⟩ : ∃ w, o.root.tag.name = w ++ ['s'] := ⟨"resource".toList, by rw [hreads.name]; rfl⟩
    have hsplit : o.root.source ++ sources o.after = ('<' :: w) ++ 's' ::
        (o.root.tag.fields ++ (s ++ (o.root.children.source ++ (closing ++ sources o.after)))) := by
      simp [hclosing, hs, hw]
    rw [hsplit] at hroot
    have hfields : Returned o.root.tag.fields := (hroot.after (by decide)).left
    exact returned_value_of_fields (Tag.allAttributes_eq_ok_iff.mp hreads.fields).1 hfields _
      (mem_namespacesOf_iff.mp hn)

end StringResources.Parse

namespace StringResources.Render
open Markup Namespace Parse Text

/-! ### What is added -/

theorem returned_written {ns : List Namespace} (hns : ∀ n ∈ ns, n.WellWritten) (h : ∀ n ∈ ns, Returned n.uri) :
    Returned (written ns) := by
  induction ns with
  | nil => exact returned_of_notMem (by simp [written])
  | cons n ns ih =>
    rw [List.forall_mem_cons] at hns h
    have hlabel : '\n' ∉ n.label := fun hmem => by
      have := hns.1.1 _ hmem
      rw [Attribute.isKeyChar_of_isBlank (by decide)] at this
      cases this
    have hquote : quote n.uri ≠ '\n' := by rcases quote_eq n.uri with hq | hq <;> rw [hq] <;> decide
    have hstart : '\n' ∉ ' ' :: (keyStart ++ (n.label ++ ['=', quote n.uri])) := by
      simp [keyStart, hlabel, hquote.symm]
    have hwritten : written (n :: ns) =
        ' ' :: (keyStart ++ (n.label ++ ['=', quote n.uri])) ++ (n.uri ++ ([quote n.uri] ++ written ns)) := by
      simp [written, display]
    rw [hwritten]
    exact (returned_of_notMem hstart).append (h.1.append
      ((returned_of_notMem (by simp [hquote.symm])).append (ih hns.2 h.2)))

theorem returned_block {indent newline : Text} (hindent : '\n' ∉ indent) (hnewline : Returned newline) (mark : Bool)
    {elements : List Text} (h : ∀ e ∈ elements, Returned e) : Returned (block indent newline mark elements) := by
  induction elements with
  | nil => exact returned_of_notMem (by simp [block])
  | cons e elements ih =>
    rw [List.forall_mem_cons] at h
    have hblock : block indent newline mark (e :: elements) =
        leadIn indent newline mark ++ (e ++ (newline ++ block indent newline mark elements)) := by
      simp [block, lines_eq]
    have hleadIn : Returned (leadIn indent newline mark) := by
      rw [leadIn]
      refine Returned.append ?_ (returned_of_notMem hindent)
      split
      · exact ((returned_of_notMem hindent).append (returned_of_notMem (by decide))).append hnewline
      · exact returned_of_notMem (by simp)
    rw [hblock]
    exact hleadIn.append (h.1.append (hnewline.append (ih h.2)))

theorem newline_of_returned {t : Text} (h : Returned t) (hmem : '\n' ∈ t) : newline t = ['\r', '\n'] := by
  obtain ⟨s, r, rfl⟩ := List.append_of_mem hmem
  obtain ⟨s, rfl⟩ := List.getLast?_eq_some_iff.mp (h s r rfl)
  rw [newline, if_pos]
  have hfound := splitAt?_isSome ['\r', '\n'] s r
  simpa using hfound

/-! ### What is kept -/

theorem returned_retagged {root : Root} (hname : root.tag.name = rootName) (hopening : root.opening.Alone)
    (h : Returned root.opening.source) {ns : List Namespace} (hns : Returned (written ns)) :
    Returned (retagged ns root) := by
  have hdeclaring : Returned (Token.start (declaring root.tag ns)).source := by
    obtain ⟨w, hw, -⟩ := exists_trimEnd isSpace root.tag.fields
    obtain ⟨s, hs⟩ : ∃ s, root.opening.source = '<' :: (root.tag.name ++ trimEndSpaces root.tag.fields) ++ s := by
      obtain ⟨s, hs⟩ := root.exists_opening_tag
      exact ⟨w ++ s, by rw [hs]; nth_rewrite 1 [hw]; simp [trimEndSpaces]⟩
    have hsource : (Token.start (declaring root.tag ns)).source =
        '<' :: (root.tag.name ++ trimEndSpaces root.tag.fields) ++ (written ns ++ ['>']) := by
      simp [Token.source, declaring, Tag.content]
    rw [hs] at h
    rw [hsource]
    exact h.left.append (hns.append (returned_of_notMem (by decide)))
  cases root with
  | empty tag =>
    have hretagged : retagged ns (.empty tag) = (Token.start (declaring tag ns)).source := startTag_declare hname ns
    rw [hretagged]
    exact hdeclaring
  | element tag body written closes =>
    by_cases hnil : ns = []
    · rw [hnil]
      exact h
    · rw [retagged_eq hname hopening hnil]
      exact hdeclaring

/-- A document in which each line feed follows a carriage return is such a text with lines added. -/
theorem returned_merged {o : Outline} (htight : o.Tight) (hname : o.root.tag.name = rootName)
    (h : Returned o.source) (hmem : '\n' ∈ o.source) {ns : List Namespace} (hns : Returned (written ns)) {added : Text}
    (hadded : Returned added) : Returned (merged o ns (newline o.source) added) := by
  have hnewline : Returned (newline o.source) := by
    rw [newline_of_returned h hmem]
    exact returned_crlf
  obtain ⟨s, hs⟩ := o.root.exists_opening_tag
  obtain ⟨closing, hclosing⟩ := o.root.exists_source_eq
  have hroot : Returned (o.root.source ++ sources o.after) := h.right (Or.inr (by simp [hclosing, hs]))
  have hopening : Returned o.root.opening.source := by
    rw [hclosing] at hroot
    exact hroot.left.left
  refine h.left.append ((returned_retagged hname htight.root.1 hopening hns).append ?_)
  cases hr : o.root with
  | empty tag =>
    rw [hr, Root.source] at hroot
    obtain ⟨u, hu⟩ := Token.exists_source_concat (k := .empty tag) rfl
    rw [hu, List.append_assoc] at hroot
    have hafter : Returned (sources o.after) := hroot.after (by decide)
    have hend : '\n' ∉ rootEnd := by decide
    exact (hnewline.append hadded).append ((returned_of_notMem hend).append hafter)
  | element tag body written closes =>
    rw [hr, Root.source, elementSource] at hroot
    obtain ⟨u, hu⟩ := Token.exists_source_concat (k := .start tag) rfl
    rw [hu, List.append_assoc, List.append_assoc, List.append_assoc] at hroot
    have hbody : Returned (body.source ++ ((Token.close written).source ++ sources o.after)) := hroot.after (by decide)
    have hend : Returned ((Token.close written).source ++ sources o.after) :=
      hbody.right (Or.inr (by simp [Token.source]))
    have hkept : Returned (trimEnd isIndent body.source) := by
      have hleft := hbody.left
      rw [← trimEnd_append_takeWhile isIndent body.source] at hleft
      exact hleft.left
    have hblanks : '\n' ∉ indentEnd body.source := by
      intro hmem
      rw [indentEnd, List.mem_reverse] at hmem
      exact absurd (List.mem_takeWhile_imp hmem) (by decide)
    have hline : Returned (lineEnd (trimEnd isIndent body.source) (newline o.source)) := by
      unfold lineEnd
      split
      · exact returned_of_notMem (by simp)
      · exact hnewline
    exact (hkept.append (hline.append (hadded.append (returned_of_notMem hblanks)))).append hend

/-- Elements are added to a document with the line breaks that the document has. -/
theorem returned_render {path t : Text} (ht : Unmarked t) {locale : Document} (hlocale : parse path t = .ok locale)
    (hreturned : Returned t) (hmem : '\n' ∈ t) {elements : List Text} (hne : elements ≠ []) {style : Style}
    (helements : ∀ e ∈ elements, Returned e) (hindent : ∀ c ∈ indent locale style, isIndent c = true)
    (hns : ∀ n ∈ style.namespaces, n.WellWritten) (huris : ∀ n ∈ style.namespaces, Returned n.uri) {out : Text}
    (hout : render locale elements style = some out) : Returned out := by
  obtain ⟨o, attributes, rfl, htight, hreads, hd⟩ := exists_outline_of_parse ht hlocale
  have hrender := @render_document o attributes locale.entries path elements hne style
  rw [← hd, hout] at hrender
  rw [Option.some.inj hrender]
  have hfree : '\n' ∉ indent locale style := fun hmem => absurd (hindent _ hmem) (by decide)
  have hsub := (@missing_labels locale elements style.namespaces).1.subset
  refine returned_merged htight hreads.name hreturned hmem
    (returned_written (fun n hn => hns n (hsub hn)) fun n hn => huris n (hsub hn)) (returned_block hfree ?_ _ helements)
  rw [newline_of_returned hreturned hmem]
  exact returned_crlf

end StringResources.Render
