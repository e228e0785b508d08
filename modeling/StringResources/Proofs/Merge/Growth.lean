import StringResources.Proofs.Merge.Displaced

/-! A document to which elements are added gets another text. Its length need not grow, for white space in
    the root's tag is dropped, but the number of opening brackets does. Main statement: `render_ne_text`. -/

namespace StringResources.Render
open Markup Namespace Parse Text

/-- The new tag of a root has all brackets of the old one. -/
theorem count_retagged {root : Root} (hname : root.tag.name = rootName) (hopening : root.opening.Alone)
    (ns : List Namespace) : root.opening.source.count '<' ≤ (retagged ns root).count '<' := by
  have hdeclaring : ('<' :: root.tag.content).count '<' ≤ (Token.start (declaring root.tag ns)).source.count '<' := by
    have hfields : (trimEndSpaces root.tag.fields).count '<' = root.tag.fields.count '<' := count_trimEndSpaces rfl _
    simp only [Token.source, declaring, Tag.content, List.count_cons, List.count_append, hfields]
    omega
  cases root with
  | empty tag =>
    have hstart : retagged ns (.empty tag) = (Token.start (declaring tag ns)).source := startTag_declare hname ns
    rw [hstart]
    refine le_trans ?_ hdeclaring
    simp [Root.opening, Root.tag, Token.source]
  | element tag body written closes =>
    by_cases h : ns = []
    · rw [retagged, declare, if_pos h]
      exact le_rfl
    · rw [retagged_eq hname hopening h]
      refine le_trans ?_ hdeclaring
      simp [Root.opening, Root.tag, Token.source]

/-- All brackets of an outline are still there with lines added, and those of the lines. -/
theorem count_merged {o : Outline} (hname : o.root.tag.name = rootName) (hopening : o.root.opening.Alone)
    (ns : List Namespace) (newline added : Text) :
    o.source.count '<' + added.count '<' ≤ (merged o ns newline added).count '<' := by
  have htag := count_retagged hname hopening ns
  rw [merged, Outline.source]
  cases hroot : o.root with
  | empty tag =>
    rw [hroot] at htag
    have hopen : (Root.empty tag).source = (Root.empty tag).opening.source := rfl
    simp only [hopen, filled, List.count_append]
    omega
  | element tag body written closes =>
    rw [hroot] at htag
    have hbody : (trimEnd isIndent body.source).count '<' + (indentEnd body.source).count '<' =
        body.source.count '<' := by
      rw [← List.count_append, indentEnd, trimEnd_append_takeWhile]
    have hopen : (Root.element tag body written closes).opening = .start tag := rfl
    rw [hopen] at htag
    simp only [Root.source, elementSource, filled, ending, List.count_append]
    omega

theorem mem_block {c : Char} {elements : List Text} (h : ∃ e ∈ elements, c ∈ e) (indent newline : Text) (mark : Bool) :
    c ∈ block indent newline mark elements := by
  obtain ⟨e, he, hc⟩ := h
  exact List.mem_flatMap.mpr ⟨e, he, by simp [lines, hc]⟩

/-- With markup added, a document has another text. -/
theorem render_ne_text {path t : Text} (ht : Unmarked t) {locale : Document} (hlocale : parse path t = .ok locale)
    {elements : List Text} (h : ∃ e ∈ elements, '<' ∈ e) {style : Style} {out : Text}
    (hout : render locale elements style = some out) : out ≠ t := by
  obtain ⟨o, attributes, rfl, htight, hreads, hd⟩ := exists_outline_of_parse ht hlocale
  have hne : elements ≠ [] := by
    rintro rfl
    simp at h
  have hmerged := @render_document o attributes locale.entries path elements hne style
  rw [← hd, hout] at hmerged
  have hcount := count_merged hreads.name htight.root.1 (Labels.missing locale elements style.namespaces)
    (newline o.source) (block (indent locale style) (newline o.source) style.mark elements)
  have hadded := List.count_pos_iff.mpr (mem_block h (indent locale style) (newline o.source) style.mark)
  rw [Option.some.inj hmerged]
  intro heq
  rw [heq] at hcount
  omega

end StringResources.Render
