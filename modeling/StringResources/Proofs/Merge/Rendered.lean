import StringResources.Proofs.Merge.Splice

/-! The text of a document with elements added. Main statements: `render_of_parts`, the text in the parts
    between which it is cut, and `render_document`, the text in the parts of the outline. -/

namespace StringResources.Render
open Markup Parse Text

/-! ### The text that is made -/

/-- The tag that opens a root, with declarations and as a start tag. -/
def retagged (ns : List Namespace) : Root → Text
  | .empty tag => startTag (declare (Token.empty tag).source ns)
  | .element tag _ _ _ => declare (Token.start tag).source ns

/-- The indentation at the end of a text. -/
def indentEnd (t : Text) : Text := (t.reverse.takeWhile isIndent).reverse

/-- What stands between the tags of a root with lines added. -/
def filled (newline added : Text) : Root → Text
  | .empty _ => newline ++ added
  | .element _ body _ _ =>
    trimEnd isIndent body.source ++ ((if (trimEnd isIndent body.source).getLast? = some '\n' then [] else newline) ++
      (added ++ indentEnd body.source))

def ending : Root → Text
  | .empty _ => rootEnd
  | .element _ _ written _ => (Token.close written).source

/-- The text of an outline with lines added in its root. -/
def merged (o : Outline) (ns : List Namespace) (newline added : Text) : Text :=
  sources o.before ++ (retagged ns o.root ++ (filled newline added o.root ++ (ending o.root ++ sources o.after)))

theorem newline_eq (t : Text) : newline t = ['\r', '\n'] ∨ newline t = ['\n'] := by
  unfold newline
  split
  · exact Or.inl rfl
  · exact Or.inr rfl

theorem slice?_of_eq (before after : Text) {t part : Text} (ht : t = before ++ (part ++ after)) {start stop : Nat}
    (hstart : start = before.size) (hstop : stop = (before ++ part).size) : Text.slice? t start stop = some part := by
  subst hstart hstop ht
  exact slice?_spanAfter before part after

section Render
variable {d : Document} {elements : List Text} {style : Style} {before tag body after : Text}

theorem render_of_selfClosing (h : elements ≠ []) (ht : d.text = before ++ (tag ++ after))
    (ho : d.rootOpen = spanAfter before tag) (hc : d.rootClose = .selfClosing (spanAfter before tag)) :
    render d elements style = some (before ++ (startTag (declare tag (Labels.missing d elements style.namespaces)) ++
      (newline d.text ++ block (indent d style) (newline d.text) style.mark elements ++ (rootEnd ++ after)))) := by
  have hwritten : (spanAfter before tag).slice? d.text = some tag := slice?_of_eq before _ ht rfl rfl
  have hopening : Text.slice? d.text 0 (spanAfter before tag).start = some before :=
    slice?_of_eq [] _ ht rfl rfl
  have hclosing : Text.slice? d.text (spanAfter before tag).stop d.text.size = some after :=
    slice?_of_eq (before ++ tag) [] (by rw [ht]; simp) rfl (by rw [ht]; simp)
  rw [render, if_neg h, ho]
  simp only [hwritten, hc, hopening, hclosing, Option.bind_eq_bind, Option.bind_some, Option.pure_def,
    List.append_assoc]

theorem trimEnd_isIndent_append (htag : ∃ u, tag = u ++ ['>']) :
    trimEnd isIndent (before ++ (tag ++ body)) = before ++ (tag ++ trimEnd isIndent body) := by
  obtain ⟨u, rfl⟩ := htag
  have htrim : trimEnd isIndent (before ++ (u ++ ['>'])) = before ++ (u ++ ['>']) := by
    rw [← List.append_assoc]
    exact trimEnd_concat_of_neg (by decide) _
  rw [← List.append_assoc, trimEnd_append]
  split
  · next hnil => rw [htrim, hnil, List.append_nil]
  · rw [List.append_assoc]

theorem getLast?_isIndent_append (htag : ∃ u, tag = u ++ ['>']) (s : Text) :
    (before ++ (tag ++ s)).getLast? = some '\n' ↔ s.getLast? = some '\n' := by
  obtain ⟨u, rfl⟩ := htag
  rcases List.eq_nil_or_concat s with rfl | ⟨s, c, rfl⟩
  · simp [← List.append_assoc]
  · simp [← List.append_assoc]

/-- A document whose root has an end tag, in the parts between which elements are added: the indentation of the end tag
    is `blanks`. -/
structure Parts (d : Document) (opening tag body blanks rest : Text) : Prop where
  text : d.text = opening ++ (tag ++ (body ++ (blanks ++ rest)))
  rootOpen : d.rootOpen = spanAfter opening tag
  rootClose : d.rootClose = .endTag (opening ++ (tag ++ (body ++ blanks))).size
  isIndent : ∀ c ∈ blanks, isIndent c = true
  trimmed : trimEnd Text.isIndent (opening ++ (tag ++ body)) = opening ++ (tag ++ body)

/-- The line break before lines that are added after `head`. -/
def lineEnd (head newline : Text) : Text := if head.getLast? = some '\n' then [] else newline

/-- A text of parts with lines added before the indentation of the end tag. -/
def spliced (opening tag body blanks rest : Text) (ns : List Namespace) (newline added : Text) : Text :=
  opening ++ (declare tag ns ++ (body ++ (lineEnd (opening ++ (tag ++ body)) newline ++ (added ++ (blanks ++ rest)))))

theorem render_of_parts {opening blanks rest : Text} (hparts : Parts d opening tag body blanks rest)
    (h : elements ≠ []) : render d elements style =
      some (spliced opening tag body blanks rest (Labels.missing d elements style.namespaces) (newline d.text)
        (block (indent d style) (newline d.text) style.mark elements)) := by
  obtain ⟨ht, ho, hc, hblanks, htrimmed⟩ := hparts
  have hwritten : (spanAfter opening tag).slice? d.text = some tag := slice?_of_eq opening _ ht rfl rfl
  have hbefore : Text.slice? d.text 0 (opening ++ (tag ++ (body ++ blanks))).size =
      some (opening ++ (tag ++ (body ++ blanks))) := slice?_of_eq [] rest (by rw [ht]; simp) rfl rfl
  have hhead : trimEnd Text.isIndent (opening ++ (tag ++ (body ++ blanks))) = opening ++ (tag ++ body) := by
    have hsplit : opening ++ (tag ++ (body ++ blanks)) = (opening ++ (tag ++ body)) ++ blanks := by simp
    rw [hsplit, trimEnd_append_of_all hblanks, htrimmed]
  have hopening : Text.slice? d.text 0 (spanAfter opening tag).start = some opening := slice?_of_eq [] _ ht rfl rfl
  have hbody : Text.slice? (opening ++ (tag ++ body)) (spanAfter opening tag).stop (opening ++ (tag ++ body)).size =
      some body := slice?_of_eq (opening ++ tag) [] (by simp) rfl (by simp)
  have hdrop : d.text.drop (opening ++ (tag ++ body)).length = blanks ++ rest := by
    have hsplit : d.text = (opening ++ (tag ++ body)) ++ (blanks ++ rest) := by rw [ht]; simp
    rw [hsplit, List.drop_left]
  rw [render, if_neg h, ho]
  simp only [hwritten, hc, hbefore, hhead, hopening, hbody, hdrop, Option.bind_eq_bind, Option.bind_some,
    Option.pure_def, spliced, lineEnd, List.append_assoc]

/-- Elements can only be added to a document that falls into parts. -/
theorem exists_parts_of_render {start : Nat} (hc : d.rootClose = .endTag start) (h : elements ≠ []) {out : Text}
    (hout : render d elements style = some out) :
    ∃ opening tag body blanks rest, Parts d opening tag body blanks rest := by
  rw [render, if_neg h] at hout
  simp only [hc, Option.bind_eq_bind, Option.bind_eq_some_iff] at hout
  obtain ⟨written, hwritten, head, hbefore, opening, hopening, body, hbody, -⟩ := hout
  obtain ⟨a, b, ht, ha, hsize⟩ := slice?_eq_some_iff.mp hwritten
  obtain ⟨e, rest, ht', he, rfl⟩ := slice?_eq_some_iff.mp hbefore
  obtain rfl := size_eq_zero.mp he
  obtain ⟨blanks, hhead, hblanks⟩ := exists_trimEnd Text.isIndent head
  obtain ⟨x, y, hx, hxsize, hysize⟩ := slice?_eq_some_iff.mp hbody
  have hy : y = [] := by
    rw [hx, size_append, size_append] at hysize
    exact size_eq_zero.mp (by omega)
  rw [hy, List.append_nil] at hx
  have hwhole : (a ++ written) ++ b = x ++ (body ++ (blanks ++ rest)) := by
    rw [List.append_assoc, ← ht, ht', List.nil_append, hhead, hx]
    simp
  obtain ⟨rfl, hrest⟩ := append_inj_of_size hwhole (by rw [size_append]; omega)
  have hx : trimEnd Text.isIndent head = a ++ (written ++ body) := by rw [hx, List.append_assoc]
  refine ⟨a, written, body, blanks, rest, ?_, ?_, ?_, hblanks, ?_⟩
  · rw [ht, hrest]
  · rw [spanAfter, ha, size_append, ha, hsize]
  · rw [hc, hhead, hx]
    simp
  · rw [← hx, trimEnd_trimEnd]

theorem parts_of_endTag (ht : d.text = before ++ (tag ++ (body ++ after))) (ho : d.rootOpen = spanAfter before tag)
    (hc : d.rootClose = .endTag (before ++ (tag ++ body)).size) (htag : ∃ u, tag = u ++ ['>']) :
    Parts d before tag (trimEnd isIndent body) (indentEnd body) after := by
  have hbody : trimEnd isIndent body ++ indentEnd body = body := trimEnd_append_takeWhile isIndent body
  refine ⟨?_, ho, by rw [hc, hbody], ?_, ?_⟩
  · rw [ht, ← List.append_assoc (trimEnd isIndent body), hbody]
  · intro c hc
    rw [indentEnd, List.mem_reverse] at hc
    exact List.mem_takeWhile_imp hc
  · rw [trimEnd_isIndent_append htag, trimEnd_trimEnd]

theorem render_of_endTag (h : elements ≠ []) (ht : d.text = before ++ (tag ++ (body ++ after)))
    (ho : d.rootOpen = spanAfter before tag) (hc : d.rootClose = .endTag (before ++ (tag ++ body)).size)
    (htag : ∃ u, tag = u ++ ['>']) :
    render d elements style = some (before ++ (declare tag (Labels.missing d elements style.namespaces) ++
      (trimEnd isIndent body ++ ((if (trimEnd isIndent body).getLast? = some '\n' then [] else newline d.text) ++
        (block (indent d style) (newline d.text) style.mark elements ++ (indentEnd body ++ after)))))) := by
  rw [render_of_parts (parts_of_endTag ht ho hc htag) h, spliced, lineEnd]
  simp only [getLast?_isIndent_append htag]

end Render

theorem render_document {o : Outline} {attributes : List Attribute} {entries : List Entry} {path : Text}
    {elements : List Text} (h : elements ≠ []) (style : Style) :
    render (o.document path attributes entries) elements style =
      some (merged o (Labels.missing (o.document path attributes entries) elements style.namespaces)
        (newline o.source)
        (block (indent (o.document path attributes entries) style) (newline o.source) style.mark elements)) := by
  rw [merged]
  cases hroot : o.root with
  | empty tag =>
    refine (@render_of_selfClosing (o.document path attributes entries) elements style (sources o.before)
      (Token.empty tag).source (sources o.after) h ?_ ?_ ?_).trans ?_
    · rw [Outline.document, Outline.source, hroot, Root.source]
    · rw [Outline.document, hroot, Root.opening]
    · rw [Outline.document, hroot, Root.close]
    · simp [retagged, filled, ending, Outline.document]
  | element tag body written closes =>
    refine (@render_of_endTag (o.document path attributes entries) elements style (sources o.before)
      (Token.start tag).source body.source ((Token.close written).source ++ sources o.after) h ?_ ?_ ?_
      (Token.exists_source_concat rfl)).trans ?_
    · rw [Outline.document, Outline.source, hroot, Root.source, elementSource]
      simp
    · rw [Outline.document, hroot, Root.opening]
    · rw [Outline.document, hroot, Root.close]
    · simp [retagged, filled, ending, Outline.document]

end StringResources.Render
