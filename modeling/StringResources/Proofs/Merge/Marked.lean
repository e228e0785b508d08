import StringResources.Proofs.Merge.Again
import StringResources.Proofs.Merge.Displaced
import StringResources.Proofs.Resource.Marked

/-! Merging into a text after a byte order mark. The plan is that for the text alone, but the elements are written
    three bytes too early, which does no harm only inside the indentation of the root's end tag (`KeepsMark`). Main
    statement: `plan_marked`. -/

namespace StringResources
open Markup Parse Render Text

/-- A plan depends on the keys of the locale document alone. -/
theorem MergePlan.compute_of_alike {d d' : Document} (h : d.Alike d') (base : Document) (options : MergeOptions) :
    MergePlan.compute base d' options = MergePlan.compute base d options := by
  have hkeys : d'.keys = d.keys := map_key_of_alike h.entries
  have hmissing : MergePlan.missing base d' = MergePlan.missing base d := by
    rw [MergePlan.missing, MergePlan.missing, hkeys]
  rw [MergePlan.compute, MergePlan.compute, hmissing, h.entries.length_eq]

/-! ### Roots of one tag -/

/-- What follows a tag in a marked text, cut where the tag ends in the text alone, begins before the end of the tag. -/
theorem exists_append_of_slice?_marked {t lead after closing : Text} {slash : Text} (ht : t = lead ++ (slash ++ after))
    (hslash : size slash < 3)
    (h : Text.slice? (byteOrderMark :: t) (lead ++ slash).size (size (byteOrderMark :: t)) = some closing) :
    ∃ w, closing = w ++ (slash ++ after) := by
  obtain ⟨a, b, hwhole, ha, hsize⟩ := slice?_eq_some_iff.mp h
  have hnil : b = [] := by
    rw [hwhole, ← ha, size_append, size_append] at hsize
    exact size_eq_zero.mp (by omega)
  rw [hnil, List.append_nil, ht, ← List.cons_append] at hwhole
  have hmark : byteOrderMark.utf8Size = 3 := by decide
  obtain ⟨w, -, hclosing⟩ := exists_append_of_size_le hwhole.symm (by
    rw [ha, size_append, size_cons, hmark]
    omega)
  exact ⟨w, hclosing⟩

/-- Where the root is one tag, what follows it in the text ends the rendered text too, after the end tag of the root. -/
theorem exists_of_render_selfClosing {d : Document} {span : Span} (hclose : d.rootClose = .selfClosing span)
    {elements : List Text} (hne : elements ≠ []) {style : Style} {out : Text} (h : render d elements style = some out) :
    ∃ lead closing, Text.slice? d.text span.stop d.text.size = some closing ∧ out = lead ++ (rootEnd ++ closing) := by
  rw [render, if_neg hne] at h
  simp only [hclose, Option.bind_eq_bind, Option.bind_eq_some_iff, Option.pure_def, Option.some.injEq] at h
  obtain ⟨written, -, opening, -, closing, hclosing, rfl⟩ := h
  exact ⟨_, closing, hclosing, List.append_assoc _ rootEnd closing⟩

theorem exists_parts_of_selfClosing {t path : Text} (ht : Unmarked t) {d : Document} (hd : parse path t = .ok d)
    {span : Span} (hclose : d.rootClose = .selfClosing span) :
    ∃ lead after, t = lead ++ (['/', '>'] ++ after) ∧ span.stop = (lead ++ ['/', '>']).size := by
  obtain ⟨o, attributes, rfl, -, -, ho⟩ := exists_outline_of_parse ht hd
  rw [ho, Outline.document] at hclose
  cases hroot : o.root with
  | empty tag =>
    rw [hroot] at hclose
    obtain rfl := RootClose.selfClosing.inj hclose
    refine ⟨sources o.before ++ '<' :: tag.content, sources o.after, ?_, ?_⟩
    · simp [Outline.source, hroot, Root.source, Token.source]
    · simp [spanAfter, Token.source]
  | element tag body written closes =>
    rw [hroot] at hclose
    cases hclose

/-- Elements that are added to a root of one tag after a byte order mark do not stand where they would without it: the
    end of the tag stays behind them. -/
theorem render_marked_ne {t path : Text} (ht : Unmarked t) {d d' : Document} (hd : parse path t = .ok d)
    (hd' : parse path (byteOrderMark :: t) = .ok d') (halike : d.Alike d') {span : Span}
    (hclose : d.rootClose = .selfClosing span) {elements : List Text} (hne : elements ≠ []) {style : Style} {out : Text}
    (hout : render d elements style = some out) : render d' elements style ≠ some (byteOrderMark :: out) := by
  intro hout'
  obtain ⟨lead, after, htext, hstop⟩ := exists_parts_of_selfClosing ht hd hclose
  obtain ⟨opening, closing, hclosing, rfl⟩ := exists_of_render_selfClosing hclose hne hout
  obtain ⟨opening', closing', hclosing', hsame⟩ :=
    exists_of_render_selfClosing (halike.rootClose.trans hclose) hne hout'
  rw [text_of_parse hd, hstop] at hclosing
  rw [text_of_parse hd', hstop] at hclosing'
  obtain rfl : closing = after := by
    have hafter : Text.slice? t (lead ++ ['/', '>']).size t.size = some after :=
      slice?_of_eq (lead ++ ['/', '>']) [] (by simp [htext]) rfl (by simp [htext])
    exact Option.some.inj (hclosing.symm.trans hafter)
  obtain ⟨w, rfl⟩ := exists_append_of_slice?_marked htext (by decide) hclosing'
  have hend : rootEnd = "</resource".toList ++ ['s', '>'] := by decide
  have hsplit : (byteOrderMark :: opening ++ "</resource".toList) ++ (['s', '>'] ++ closing) =
      (opening' ++ rootEnd ++ w) ++ (['/', '>'] ++ closing) := by
    rw [hend] at hsame ⊢
    simpa using hsame
  cases List.append_inj_right' hsplit rfl

/-! ### Roots with an end tag -/

/-- Elements can be added to a document that is read after a byte order mark, `d'`, as to the document without it: the
    end tag of the root stands after three blanks or tabs, nothing is declared, the start tag can be cut from the marked
    text, and the indentation is the same. -/
structure KeepsMark (d d' : Document) (elements : List Text) (style : Style) : Prop where
  ending : ∃ start before blanks, d.rootClose = .endTag start ∧ Text.slice? d.text 0 start = some (before ++ blanks) ∧
    blanks.length = 3 ∧ ∀ c ∈ blanks, isIndent c = true
  declared : Labels.missing d elements style.namespaces = []
  cut : (d.rootOpen.slice? d'.text).isSome = true
  indent : Render.indent d' style = Render.indent d style

theorem newline_marked (t : Text) : newline (byteOrderMark :: t) = newline t := by
  have hcr : ¬ '\r' = byteOrderMark := by decide
  simp [newline, splitAt?, stripStart?, hcr]

theorem missing_of_alike {d d' : Document} (h : d.Alike d') (elements : List Text) (available : List Namespace) :
    Labels.missing d' elements available = Labels.missing d elements available := by
  simp only [Labels.missing, Document.declares, h.namespaces]

theorem exists_parts_of_parse {t path : Text} (ht : Unmarked t) {d : Document} (hd : parse path t = .ok d) {start : Nat}
    (hclose : d.rootClose = .endTag start) :
    ∃ opening tag body blanks rest, Parts d opening tag body blanks rest ∧ ∃ u, tag = u ++ ['>'] := by
  obtain ⟨o, attributes, -, -, -, ho⟩ := exists_outline_of_parse ht hd
  rw [ho, Outline.document] at hclose ⊢
  cases hroot : o.root with
  | empty tag =>
    rw [hroot] at hclose
    cases hclose
  | element tag body written closes =>
    have htag := Token.exists_source_concat (k := .start tag) rfl
    refine ⟨_, _, _, _, _, @parts_of_endTag _ (sources o.before) (Token.start tag).source body.source
      ((Token.close written).source ++ sources o.after) ?_ ?_ ?_ htag, htag⟩
    · simp [Outline.source, hroot, Root.source, elementSource]
    · rfl
    · rfl

section KeepsMark
variable {d d' : Document} {elements : List Text} {style : Style}
  {opening tag body blanks rest opening' tag' body' blanks' rest' : Text}

/-- The marked text falls into the parts of the text alone, but the last three blanks of the indentation are behind the
    end of the cut. -/
theorem exists_parts_of_keepsMark (h : KeepsMark d d' elements style) (halike : d.Alike d')
    (htext : d'.text = byteOrderMark :: d.text) (hparts : Parts d opening tag body blanks rest) :
    ∃ opening' tag' body' blanks' w, Parts d' opening' tag' body' blanks' (w ++ rest) ∧ blanks = blanks' ++ w ∧
      opening' ++ (tag' ++ body') = byteOrderMark :: (opening ++ (tag ++ body)) := by
  obtain ⟨start, before, w, hclose, hbefore, hw, hblank⟩ := h.ending
  obtain ⟨tag', htag'⟩ := Option.isSome_iff_exists.mp h.cut
  obtain ⟨opening', after, hcut, hopening, hsize⟩ := slice?_eq_some_iff.mp htag'
  rw [hparts.rootOpen, spanAfter] at hopening hsize
  have hmark : byteOrderMark.utf8Size = 3 := by decide
  obtain rfl := RootClose.endTag.inj (hclose.symm.trans hparts.rootClose)
  -- The head has no blanks at its end, so the three blanks are the last ones of the indentation.
  obtain ⟨blanks', rfl⟩ : ∃ blanks', blanks = blanks' ++ w := by
    have hall : Text.slice? d.text 0 (opening ++ (tag ++ (body ++ blanks))).size =
        some (opening ++ (tag ++ (body ++ blanks))) := slice?_of_eq [] rest (by rw [hparts.text]; simp) rfl rfl
    have hends : before ++ w = (opening ++ (tag ++ body)) ++ blanks := by
      simpa using Option.some.inj (hbefore.symm.trans hall)
    rcases List.append_eq_append_iff.mp hends with ⟨v, hhead, rfl⟩ | ⟨v, -, rfl⟩
    · have htrim := hparts.trimmed
      rw [hhead, trimEnd_append_of_all (List.forall_mem_append.mp hblank).1] at htrim
      obtain ⟨u, hu, -⟩ := exists_trimEnd isIndent before
      rw [htrim, List.append_assoc, List.self_eq_append_right] at hu
      rw [(List.append_eq_nil_iff.mp hu).1]
      exact ⟨[], rfl⟩
    · exact ⟨v, rfl⟩
  have hwhole : (opening' ++ tag') ++ after =
      (byteOrderMark :: (opening ++ (tag ++ body))) ++ (blanks' ++ (w ++ rest)) := by
    rw [List.append_assoc, ← hcut, htext, hparts.text]
    simp
  obtain ⟨body', hhead, rfl⟩ := exists_append_of_size_le hwhole (by
    simp only [size_append, size_cons] at hopening hsize ⊢
    omega)
  have hhead : opening' ++ (tag' ++ body') = byteOrderMark :: (opening ++ (tag ++ body)) := by
    rw [hhead, List.append_assoc]
  have hw3 : size w = 3 := by rw [size_of_isIndent hblank, hw]
  refine ⟨opening', tag', body', blanks', w, ⟨?_, ?_, ?_, ?_, ?_⟩, rfl, hhead⟩
  · rw [hcut]
  · rw [halike.rootOpen, hparts.rootOpen, spanAfter, spanAfter, hopening, size_append opening' tag', hopening, hsize]
  · have hsizes := congrArg size hhead
    rw [halike.rootClose, hparts.rootClose, RootClose.endTag.injEq]
    simp only [size_append, size_cons, hmark] at hsizes ⊢
    omega
  · exact (List.forall_mem_append.mp hparts.isIndent).1
  · rw [hhead, trimEnd_cons_of_neg (by decide), hparts.trimmed]

theorem render_of_keepsMark (h : KeepsMark d d' elements style) (halike : d.Alike d')
    (htext : d'.text = byteOrderMark :: d.text) (hparts : Parts d opening tag body blanks rest) (hne : elements ≠ []) :
    render d' elements style = (render d elements style).map (byteOrderMark :: ·) := by
  obtain ⟨opening', tag', body', blanks', w, hparts', rfl, hhead⟩ := exists_parts_of_keepsMark h halike htext hparts
  have hmark : byteOrderMark ≠ '\n' := by decide
  rw [render_of_parts hparts hne, render_of_parts hparts' hne, missing_of_alike halike, h.declared, h.indent, htext,
    newline_marked, Option.map_some, spliced_nil, spliced_nil, hhead, lineEnd_cons hmark]
  simp

/-- The parts are cut at the same offsets. -/
theorem sizes_of_parts (halike : d.Alike d') (hparts : Parts d opening tag body blanks rest)
    (hparts' : Parts d' opening' tag' body' blanks' rest') :
    size (opening' ++ tag') = size (opening ++ tag) ∧
      size (opening' ++ (tag' ++ (body' ++ blanks'))) = size (opening ++ (tag ++ (body ++ blanks))) := by
  have hspan := hparts'.rootOpen
  rw [halike.rootOpen, hparts.rootOpen, spanAfter, spanAfter, Span.mk.injEq] at hspan
  have hclose := hparts'.rootClose
  rw [halike.rootClose, hparts.rootClose, RootClose.endTag.injEq] at hclose
  exact ⟨hspan.2.symm, hclose.symm⟩

theorem keepsMark_of_render (halike : d.Alike d') (htext : d'.text = byteOrderMark :: d.text)
    (hparts : Parts d opening tag body blanks rest) (htag : ∃ u, tag = u ++ ['>']) (hne : elements ≠ [])
    (hbegin : ∀ e ∈ elements, ∃ (kind : Kind) (s : Text), e = '<' :: (kind.tag ++ s))
    (hindent : ∀ c ∈ Render.indent d style, isIndent c = true)
    (hindent' : ∀ c ∈ Render.indent d' style, isIndent c = true)
    (h : render d' elements style = (render d elements style).map (byteOrderMark :: ·)) :
    KeepsMark d d' elements style := by
  rw [render_of_parts hparts hne, Option.map_some] at h
  obtain ⟨opening', tag', body', blanks', rest', hparts'⟩ :=
    exists_parts_of_render (halike.rootClose.trans hparts.rootClose) hne h
  rw [render_of_parts hparts' hne, missing_of_alike halike, htext, newline_marked, Option.some.injEq] at h
  obtain ⟨hstop, hclose⟩ := sizes_of_parts halike hparts hparts'
  have hwhole := hparts'.text
  rw [htext, hparts.text] at hwhole
  have hbracket : '>' ∉ newline d.text := by rcases newline_eq d.text with hn | hn <;> simp [hn]
  have hnone := eq_nil_of_spliced hwhole.symm hstop htag hbracket
    (count_block (by decide) hindent hindent' _ _ _) h
  -- Without declarations the two texts differ only in where the lines stand.
  have hmark : byteOrderMark ≠ '\n' := by decide
  rw [hnone, spliced_nil, spliced_nil, ← lineEnd_cons hmark (opening ++ (tag ++ body))] at h
  have hheads : (opening' ++ (tag' ++ body')) ++ (blanks' ++ rest') =
      (byteOrderMark :: (opening ++ (tag ++ body))) ++ (blanks ++ rest) := by simpa using hwhole.symm
  have hsizes : size ((opening' ++ (tag' ++ body')) ++ blanks') + 3 =
      size ((byteOrderMark :: (opening ++ (tag ++ body))) ++ blanks) := by
    have hthree : byteOrderMark.utf8Size = 3 := by decide
    simp only [size_append, size_cons, hthree] at hclose ⊢
    omega
  have htrim : trimEnd isIndent (byteOrderMark :: (opening ++ (tag ++ body))) =
      byteOrderMark :: (opening ++ (tag ++ body)) := by rw [trimEnd_cons_of_neg (by decide), hparts.trimmed]
  obtain ⟨hsame, w, rfl, hw⟩ := eq_of_lines hheads hsizes hparts.isIndent hparts'.isIndent htrim hparts'.trimmed
    (lines_block hne hbegin hindent _ _) (lines_block hne hbegin hindent' _ _)
    (count_block (by decide) hindent hindent' _ _ _) h
  refine ⟨⟨_, opening ++ (tag ++ (body ++ blanks')), w, hparts.rootClose, ?_, hw,
    (List.forall_mem_append.mp hparts.isIndent).2⟩, hnone, ?_, hsame⟩
  · exact slice?_of_eq [] rest (by rw [hparts.text]; simp) rfl (by simp)
  · rw [← halike.rootOpen, hparts'.rootOpen]
    exact Option.isSome_iff_exists.mpr ⟨tag', slice?_of_eq opening' _ hparts'.text rfl rfl⟩

end KeepsMark

section Added
variable {t path : Text} {d d' : Document} {elements : List Text} {style : Style} {out : Text}

theorem render_marked_of_keepsMark (ht : Unmarked t) (hd : parse path t = .ok d)
    (hd' : parse path (byteOrderMark :: t) = .ok d') (hne : elements ≠ []) (hout : render d elements style = some out)
    (h : KeepsMark d d' elements style) : render d' elements style = some (byteOrderMark :: out) := by
  obtain ⟨start, -, -, hclose, -⟩ := h.ending
  obtain ⟨opening, tag, body, blanks, rest, hparts, -⟩ := exists_parts_of_parse ht hd hclose
  have htext : d'.text = byteOrderMark :: d.text := by rw [text_of_parse hd, text_of_parse hd']
  rw [render_of_keepsMark h (alike_of_parse ht hd hd') htext hparts hne, hout, Option.map_some]

theorem keepsMark_of_render_marked (ht : Unmarked t) (hd : parse path t = .ok d)
    (hd' : parse path (byteOrderMark :: t) = .ok d') (hne : elements ≠ []) (hout : render d elements style = some out)
    (hbegin : ∀ e ∈ elements, ∃ (kind : Kind) (s : Text), e = '<' :: (kind.tag ++ s))
    (hfallback : ∀ i ∈ style.fallbackIndent, ∀ c ∈ i, isIndent c = true)
    (h : render d' elements style = some (byteOrderMark :: out)) : KeepsMark d d' elements style := by
  have halike := alike_of_parse ht hd hd'
  cases hclose : d.rootClose with
  | selfClosing span => exact absurd h (render_marked_ne ht hd hd' halike hclose hne hout)
  | endTag start =>
    obtain ⟨opening, tag, body, blanks, rest, hparts, htag⟩ := exists_parts_of_parse ht hd hclose
    have htext : d'.text = byteOrderMark :: d.text := by rw [text_of_parse hd, text_of_parse hd']
    refine keepsMark_of_render halike htext hparts htag hne hbegin (isIndent_indent hd hfallback)
      (isIndent_indent hd' hfallback) ?_
    rw [h, hout, Option.map_some]

end Added

/-- A text after a byte order mark is read as it is read alone exactly if it has no entry and what is cut for its text
    outside the root is white space. Where both are read, the same is missing, and what is missing is added after the
    mark as it is without it exactly if it is nothing or the root's end leaves room for the mark. -/
theorem plan_marked {t : Text} (ht : Unmarked t) (path : Text) :
    (∀ d', parse path (byteOrderMark :: t) = .ok d' → (∃ d, parse path t = .ok d ∧ d.Alike d') ∨
      ∃ location, parse path t = .error (.error { path := path, location := location, cause := .textOutside })) ∧
    (∀ d, parse path t = .ok d →
      ((∃ d', parse path (byteOrderMark :: t) = .ok d' ∧ d'.entries = d.entries ∧ d'.namespaces = d.namespaces ∧
        d'.indent = d.indent) ↔
        d.entries = [] ∧ SpacesIn (byteOrderMark :: t) (outsideSpans 0 0 (Markup.read t).tokens))) ∧
    ∀ d d', parse path t = .ok d → parse path (byteOrderMark :: t) = .ok d' →
      ∀ base options mark plan style, MergePlan.compute base d options = plan →
        style = { mark := mark, fallbackIndent := base.indent, namespaces := base.namespaces } →
        MergePlan.compute base d' options = plan ∧ ∃ out, plan.render base d mark = some out ∧
          (plan.additions = [] ∨ KeepsMark d d' (plan.additions.map (·.element)) style →
            plan.render base d' mark = some (byteOrderMark :: out)) ∧
          ∀ basePath baseText, Unmarked baseText → parse basePath baseText = .ok base →
            plan.render base d' mark = some (byteOrderMark :: out) →
            plan.additions = [] ∨ KeepsMark d d' (plan.additions.map (·.element)) style := by
  refine ⟨fun d' hd' => parse_of_parse_marked ht hd', fun d hd => parse_marked_iff ht hd, ?_⟩
  rintro d d' hd hd' base options mark plan style rfl rfl
  refine ⟨MergePlan.compute_of_alike (alike_of_parse ht hd hd') base options, ?_⟩
  obtain ⟨out, hout⟩ : ∃ out, (MergePlan.compute base d options).render base d mark = some out :=
    exists_render ht hd _ _
  refine ⟨out, hout, fun h => ?_, fun basePath baseText hbaseText hbase h => ?_⟩
  · by_cases hnil : (MergePlan.compute base d options).additions = []
    · rw [MergePlan.render_of_additions_eq_nil hnil, text_of_parse hd] at hout
      rw [MergePlan.render_of_additions_eq_nil hnil, text_of_parse hd', Option.some.inj hout]
    · exact render_marked_of_keepsMark ht hd hd' (by simpa using hnil) hout (h.resolve_left hnil)
  · by_cases hnil : (MergePlan.compute base d options).additions = []
    · exact Or.inl hnil
    · refine Or.inr (keepsMark_of_render_marked ht hd hd' (by simpa using hnil) hout ?_
        (fun i hi => isIndent_of_parse hbase hi) h)
      intro e he
      obtain ⟨a, ha, rfl⟩ := List.mem_map.mp he
      have hread : a.Read := ⟨basePath, baseText, base, hbaseText, hbase, MergePlan.additions_sublist.subset ha⟩
      exact hread.exists_forest.1

/-- An element is added after a byte order mark where the end tag of the root is indented. -/
theorem plan_marked_indented :
    ∃ base d d' out, parse [] "<resources><string name=\x22k\x22>v</string></resources>".toList = .ok base ∧
      parse [] "<resources>\n\t\t\t</resources>".toList = .ok d ∧
      parse [] (byteOrderMark :: "<resources>\n\t\t\t</resources>".toList) = .ok d' ∧
      (MergePlan.compute base d {}).additions = base.entries ∧
      (MergePlan.compute base d {}).render base d true = some out ∧
      (MergePlan.compute base d {}).render base d' true = some (byteOrderMark :: out) := by
  have hbase : parse [] "<resources><string name=\x22k\x22>v</string></resources>".toList = .ok
      { path := [], text := "<resources><string name=\x22k\x22>v</string></resources>".toList
        entries := [{ key := ⟨.string, ['k']⟩, value := ['v'], translatable := true,
                      element := "<string name=\x22k\x22>v</string>".toList }]
        indent := none, rootOpen := ⟨0, 11⟩, rootClose := .endTag 38, namespaces := [] } := by decide +kernel
  have hd : parse [] "<resources>\n\t\t\t</resources>".toList = .ok
      { path := [], text := "<resources>\n\t\t\t</resources>".toList, entries := [], indent := none
        rootOpen := ⟨0, 11⟩, rootClose := .endTag 15, namespaces := [] } := by decide +kernel
  obtain ⟨-, hread, hmerge⟩ := @plan_marked "<resources>\n\t\t\t</resources>".toList (by decide) []
  have hspans : outsideSpans 0 0 (Markup.read "<resources>\n\t\t\t</resources>".toList).tokens = [] := by decide +kernel
  obtain ⟨d', hd', -, -, hindent⟩ := (hread _ hd).mpr ⟨rfl, by rw [hspans]; simp [SpacesIn]⟩
  obtain ⟨-, out, hout, hkeeps, -⟩ := hmerge _ d' hd hd' _ {} true _ _ rfl rfl
  refine ⟨_, _, d', out, hbase, hd, hd', rfl, hout, hkeeps (Or.inr
    ⟨⟨15, "<resources>\n".toList, "\t\t\t".toList, rfl, ?_, ?_, ?_⟩, ?_, ?_, ?_⟩)⟩
  · decide +kernel
  · rfl
  · exact List.all_eq_true.mp (by decide : "\t\t\t".toList.all isIndent = true)
  · decide +kernel
  · rw [text_of_parse hd']
    decide +kernel
  · rw [Render.indent, Render.indent, hindent]

/-- After a byte order mark an entry gets the text that begins three bytes before its own, and a line feed before the
    root is cut from the mark. -/
theorem plan_marked_shifted :
    (∃ d d', parse [] "<resources><string name=\x22k\x22>v</string></resources>".toList = .ok d ∧
      parse [] (byteOrderMark :: "<resources><string name=\x22k\x22>v</string></resources>".toList) = .ok d' ∧
      d.entries.map (·.value) = [['v']] ∧ d'.entries.map (·.value) = [['k']]) ∧
    (parse [] "\n<resources/>".toList).isOk = true ∧
    parse [] (byteOrderMark :: "\n<resources/>".toList) = .error .torn := by
  have hd : parse [] "<resources><string name=\x22k\x22>v</string></resources>".toList = .ok
      { path := [], text := "<resources><string name=\x22k\x22>v</string></resources>".toList
        entries := [{ key := ⟨.string, ['k']⟩, value := ['v'], translatable := true,
                      element := "<string name=\x22k\x22>v</string>".toList }]
        indent := none, rootOpen := ⟨0, 11⟩, rootClose := .endTag 38, namespaces := [] } := by decide +kernel
  have hd' : parse [] (byteOrderMark :: "<resources><string name=\x22k\x22>v</string></resources>".toList) = .ok
      { path := [], text := byteOrderMark :: "<resources><string name=\x22k\x22>v</string></resources>".toList
        entries := [{ key := ⟨.string, ['k']⟩, value := ['k'], translatable := true,
                      element := "es><string name=\x22k\x22>v</stri".toList }]
        indent := none, rootOpen := ⟨0, 11⟩, rootClose := .endTag 38, namespaces := [] } := by decide +kernel
  exact ⟨⟨_, _, hd, hd', rfl, rfl⟩, by decide +kernel, by decide +kernel⟩

end StringResources
