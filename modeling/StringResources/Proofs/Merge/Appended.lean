import StringResources.Proofs.Merge.LineBreaks

/-! How new elements stand in a document. Each is on a line that begins with the indentation of the document and nothing
    else, after the line of its comment if there is one, and ends its line; the document shows that indentation when it
    is read again. Main statements: `appended_places`, `parse_render_appended` and `plan_appended`. -/

namespace StringResources.Render
open Markup Parse Text

/-- Entries of a text whose elements were added to it, each with the text before its element. Nothing but the
    indentation is before an element on its line. With comments the line before it is the indentation and the comment,
    and without them an element begins on the line after the one before it. A line break follows each element. -/
structure Appended (t indent newline : Text) (mark : Bool) (ps : List (Text × Entry)) : Prop where
  entryAt : ∀ p ∈ ps, EntryAt t p.1 p.2
  indented : ∀ p ∈ ps, lastLine p.1 = indent
  marked : mark = true → ∀ p ∈ ps, ∃ lead, p.1 = lead ++ (indent ++ (marker ++ (newline ++ indent))) ∧
    lead.getLast? = some '\n'
  adjacent : mark = false → ps.IsChain fun p q => q.1 = p.1 ++ (p.2.element ++ (newline ++ indent))
  ended : ∀ p ∈ ps, ∃ rest, t = p.1 ++ (p.2.element ++ (newline ++ rest))

/-! ### Lines -/

section Lines
variable {indent newline lead : Text} {mark : Bool} {entries : List Entry}

theorem map_snd_places (lead : Text) (entries : List Entry) :
    (places indent newline mark lead entries).map Prod.snd = entries := by
  induction entries generalizing lead with
  | nil => rfl
  | cons e entries ih => rw [places, List.map_cons, ih]

theorem getLast?_append_newline (hnewline : newline.getLast? = some '\n') (s : Text) :
    (s ++ newline).getLast? = some '\n' := by
  rw [List.getLast?_append, hnewline]
  rfl

/-- An element is added after the end of a line and what leads in to it. -/
theorem exists_lead_of_mem_places (hlead : lead.getLast? = some '\n') (hnewline : newline.getLast? = some '\n')
    {p : Text × Entry} (h : p ∈ places indent newline mark lead entries) :
    ∃ s, p.1 = s ++ leadIn indent newline mark ∧ s.getLast? = some '\n' := by
  induction entries generalizing lead with
  | nil => cases h
  | cons e entries ih =>
    rcases List.mem_cons.mp h with rfl | h
    · exact ⟨lead, rfl, hlead⟩
    · refine ih ?_ h
      rw [lines_eq, ← List.append_assoc, ← List.append_assoc]
      exact getLast?_append_newline hnewline _

theorem isChain_places (lead : Text) (entries : List Entry) :
    (places indent newline mark lead entries).IsChain fun p q =>
      q.1 = p.1 ++ (p.2.element ++ (newline ++ leadIn indent newline mark)) := by
  induction entries generalizing lead with
  | nil => exact .nil
  | cons e entries ih =>
    cases entries with
    | nil => exact .singleton _
    | cons f entries =>
      refine .cons_cons ?_ (ih _)
      simp [lines_eq]

theorem exists_rest_of_mem_places {p : Text × Entry} (h : p ∈ places indent newline mark lead entries) :
    ∃ rest, lead ++ block indent newline mark (entries.map (·.element)) =
      p.1 ++ (p.2.element ++ (newline ++ rest)) := by
  induction entries generalizing lead with
  | nil => cases h
  | cons e entries ih =>
    have hblock : lead ++ block indent newline mark ((e :: entries).map (·.element)) =
        lead ++ lines indent newline mark e.element ++ block indent newline mark (entries.map (·.element)) := by
      simp [block]
    rw [hblock]
    rcases List.mem_cons.mp h with rfl | h
    · exact ⟨block indent newline mark (entries.map (·.element)), by simp [lines_eq]⟩
    · exact ih h

theorem lastLine_append_of_getLast? {s w : Text} (hs : s.getLast? = some '\n') (hw : '\n' ∉ w) :
    lastLine (s ++ w) = w := by
  obtain ⟨s, rfl⟩ := List.getLast?_eq_some_iff.mp hs
  rw [lastLine_append_of_notMem hw]
  simp [lastLine]

theorem lastLine_leadIn (hlead : lead.getLast? = some '\n') (hnewline : newline.getLast? = some '\n')
    (hindent : '\n' ∉ indent) : lastLine (lead ++ leadIn indent newline mark) = indent := by
  rw [leadIn, ← List.append_assoc]
  refine lastLine_append_of_getLast? ?_ hindent
  cases mark with
  | false => simpa using hlead
  | true =>
    rw [if_pos rfl, ← List.append_assoc]
    exact getLast?_append_newline hnewline _

/-- Lines added after the end of a line stand as they should. -/
theorem appended_places {t rest : Text}
    (ht : t = lead ++ (block indent newline mark (entries.map (·.element)) ++ rest)) (hlead : lead.getLast? = some '\n')
    (hnewline : newline.getLast? = some '\n') (hindent : '\n' ∉ indent)
    (hat : ∀ p ∈ places indent newline mark lead entries, EntryAt t p.1 p.2) :
    Appended t indent newline mark (places indent newline mark lead entries) where
  entryAt := hat
  indented p hp := by
    obtain ⟨s, hs, hlast⟩ := exists_lead_of_mem_places hlead hnewline hp
    rw [hs, lastLine_leadIn hlast hnewline hindent]
  marked hmark p hp := by
    obtain ⟨s, hs, hlast⟩ := exists_lead_of_mem_places hlead hnewline hp
    exact ⟨s, by simp [hs, leadIn, hmark], hlast⟩
  adjacent hmark := by
    have hchain := @isChain_places indent newline mark lead entries
    have hleadIn : leadIn indent newline mark = indent := by simp [leadIn, hmark]
    rwa [hleadIn] at hchain
  ended p hp := by
    obtain ⟨after, hafter⟩ := exists_rest_of_mem_places hp
    rw [← List.append_assoc, hafter] at ht
    exact ⟨after ++ rest, by simpa using ht⟩

end Lines

/-! ### A document -/

theorem getLast?_newline (t : Text) : (newline t).getLast? = some '\n' := by
  rcases newline_eq t with h | h <;> simp [h]

theorem getLast?_filledHead (t : Text) (root : Root) : (filledHead (newline t) root).getLast? = some '\n' := by
  cases root with
  | empty tag => exact getLast?_newline t
  | element tag body written closes =>
    rw [filledHead, lineEnd]
    split
    · next h => rwa [List.append_nil]
    · exact getLast?_append_newline (getLast?_newline t) _

theorem ne_nil_of_indent {path t : Text} (ht : Unmarked t) {d : Document} (h : parse path t = .ok d) {i : Text}
    (hi : d.indent = some i) : i ≠ [] := by
  obtain ⟨o, attributes, -, -, -, hd⟩ := exists_outline_of_parse ht h
  rw [hd, Outline.document] at hi
  exact Forest.ne_nil_of_indent? hi

theorem indent_ne_nil {path t : Text} (ht : Unmarked t) {locale : Document} (h : parse path t = .ok locale)
    {style : Style} (hfallback : ∀ i ∈ style.fallbackIndent, i ≠ []) : indent locale style ≠ [] := by
  rw [indent]
  cases hi : locale.indent with
  | some i => exact ne_nil_of_indent ht h hi
  | none =>
    rw [Option.none_or]
    cases hf : style.fallbackIndent with
    | some i => exact hfallback i hf
    | none => decide

/-- The first of the elements that are added shows the indentation of them all. -/
theorem shownIndent?_block {indent newline lead : Text} {mark : Bool} {entries : List Entry} (hadd : entries ≠ [])
    {B : Forest} (hB : List.Forall₂ (fun p q => p.1 = q.1 ∧ p.2.Makes q.2) (B.placed lead)
      (places indent newline mark lead entries))
    (hlead : lead.getLast? = some '\n') (hnewline : newline.getLast? = some '\n') (hne : indent ≠ [])
    (hindent : ∀ c ∈ indent, isIndent c = true) : Forest.shownIndent? (B.placed lead) = some indent := by
  have hfree : '\n' ∉ indent := fun hmem => absurd (hindent _ hmem) (by decide)
  obtain ⟨e, entries, rfl⟩ := List.exists_cons_of_ne_nil hadd
  obtain ⟨⟨before, child⟩, rest, ⟨rfl, hmakes⟩, -, hplaced⟩ := List.forall₂_cons_right_iff.mp hB
  have hline : lineIndent? (lead ++ leadIn indent newline mark) = some indent :=
    lineIndent?_eq_some_iff.mpr ⟨lastLine_leadIn hlead hnewline hfree, hne, hindent⟩
  have hkind : Kind.ofTag? child.tag.name = some e.key.kind := by rw [hmakes.kind, Kind.ofTag?_tag]
  rw [hplaced, ← List.singleton_append, Forest.shownIndent?_append, Forest.shownIndent?_singleton, indentOf?, hkind,
    Option.bind_some, hline, Option.some_or]

/-- Elements with the indentation of a merge do not change what the elements before them show. -/
theorem shownIndent?_append_of_indent {locale : Document} {style : Style} {ps qs : List (Text × Root)}
    (hps : Forest.shownIndent? ps = locale.indent) (hqs : Forest.shownIndent? qs = some (indent locale style)) :
    Forest.shownIndent? (ps ++ qs) = some (indent locale style) := by
  rw [Forest.shownIndent?_append, hps, hqs]
  cases hi : locale.indent with
  | none => rw [Option.none_or]
  | some i => rw [Option.some_or, indent, hi, Option.some_or, Option.getD_some]

/-- The indentation of the children of a root does not depend on its tag and what stands before it. -/
theorem indent?_after_opening (F : Forest) (before before' : Text) (root root' : Root) :
    F.indent? (before ++ root.opening.source) = F.indent? (before' ++ root'.opening.source) := by
  have hbracket : ∀ (s : Text) (r : Root), F.indent? (s ++ r.opening.source) = F.indent? ['>'] := by
    intro s r
    obtain ⟨u, hu⟩ : ∃ u, r.opening.source = u ++ ['>'] := by
      cases r <;> exact Token.exists_source_concat rfl
    rw [hu, ← List.append_assoc]
    exact F.indent?_append_bracket (s ++ u) []
  rw [hbracket, hbracket]

/-- Entries are added to a document on lines of their own, all with the indentation that the document shows when it is
    read again. -/
theorem parse_render_appended {path t : Text} (ht : Unmarked t) {locale : Document}
    (hlocale : parse path t = .ok locale) {additions : List Entry} (hadd : additions ≠ [])
    (hread : ∀ e ∈ additions, e.Read) (hdistinct : Distinct (locale.entries ++ additions)) {style : Style}
    (hfallback : ∀ i ∈ style.fallbackIndent, i ≠ [] ∧ ∀ c ∈ i, isIndent c = true)
    (hns : ∀ n ∈ style.namespaces, n.WellWritten) (hlabels : (style.namespaces.map (·.label)).Nodup)
    (hclosed : Closed (Labels.missing locale (additions.map (·.element)) style.namespaces)) (path' : Text) :
    ∃ out merged ps, render locale (additions.map (·.element)) style = some out ∧ parse path' out = .ok merged ∧
      merged.indent = some (indent locale style) ∧ ps.map Prod.snd = additions ∧
      Appended out (indent locale style) (newline t) style.mark ps := by
  obtain ⟨o, attributes, rfl, htight, hreads, hd⟩ := exists_outline_of_parse ht hlocale
  obtain ⟨hsub, hnew⟩ := @missing_labels locale (additions.map (·.element)) style.namespaces
  have hindent := isIndent_indent hlocale fun i hi => (hfallback i hi).2
  have hne := indent_ne_nil ht hlocale fun i hi => (hfallback i hi).1
  have hfree : '\n' ∉ indent locale style := fun hmem => absurd (hindent _ hmem) (by decide)
  have hnamespaces : locale.namespaces = namespacesOf attributes := by rw [hd, Outline.document]
  rw [hnamespaces] at hnew
  obtain ⟨B, hB, hBsource, hBentries, hBplaced⟩ := exists_block (not_mem_indent hindent).1 (not_mem_newline o.source)
    style.mark fun e he => (hread e he).exists_child
  obtain ⟨o', hsource, hmark', htight', hreads', hopening, hplaced⟩ := exists_outline_merged htight hreads ht
    (fun n hn => hns n (hsub.subset hn)) (hlabels.sublist (hsub.map _)) hnew hclosed hB hBentries hdistinct
    (not_mem_newline o.source)
  have hrender := @render_document o attributes locale.entries path (additions.map (·.element)) (by simpa using hadd)
    style
  rw [← hd, ← hBsource, ← hsource] at hrender
  -- What stands before the new elements ends a line.
  let lead : Text := sources o.before ++ retagged (Labels.missing locale (additions.map (·.element)) style.namespaces)
    o.root ++ filledHead (newline o.source) o.root
  have hlead : lead.getLast? = some '\n' := by
    rw [List.getLast?_append, getLast?_filledHead]
    rfl
  have htext : o'.source = lead ++ (block (indent locale style) (newline o.source) style.mark
      (additions.map (·.element)) ++ (filledTail o.root ++ (ending o.root ++ sources o.after))) := by
    rw [hsource, merged, filled_eq, hBsource]
    simp [lead]
  have hchildren : o'.root.children.placed (sources o'.before ++ o'.root.opening.source) =
      (o.root.children.placed (sources o'.before ++ o'.root.opening.source) ++ B.placed lead).map
        (Prod.map id Root.glue) := by
    rw [hplaced, hopening]
  have hat : ∀ p ∈ places (indent locale style) (newline o.source) style.mark lead additions,
      EntryAt o'.source p.1 p.2 := by
    intro p hp
    obtain ⟨⟨before, child⟩, hmem, hbefore, hmakes⟩ := exists_of_mem_right (hBplaced lead) hp
    refine Outline.entryAt htight' hreads' hmark' ?_ hmakes.glue
    rw [hchildren, ← hbefore]
    exact List.mem_map_of_mem (List.mem_append_right _ hmem)
  have hold : o.root.children.indent? (sources o'.before ++ o'.root.opening.source) = locale.indent := by
    rw [hd, Outline.document]
    exact indent?_after_opening o.root.children _ _ o'.root o.root
  have hshown : o'.root.children.indent? (sources o'.before ++ o'.root.opening.source) =
      some (indent locale style) := by
    rw [Forest.indent?_eq, hchildren, Forest.shownIndent?_map_glue]
    rw [Forest.indent?_eq] at hold
    exact shownIndent?_append_of_indent hold
      (shownIndent?_block hadd (hBplaced lead) hlead (getLast?_newline o.source) hne hindent)
  exact ⟨o'.source, _, _, hrender, (parse_eq_ok_iff hmark').mpr ⟨o', _, _, rfl, htight', hreads', rfl⟩, hshown,
    map_snd_places lead additions, appended_places htext hlead (getLast?_newline o.source) hfree hat⟩

end StringResources.Render

namespace StringResources
open Markup Parse Render Text

/-- What a merge adds is laid out in the way of the document: its indentation, else that of the base, else four spaces
    are before each element on its line, and the document that is made shows this indentation, so that the next merge
    takes it too. Where each line feed of both documents follows a carriage return, and the locale document has one,
    each line feed of the result does. -/
theorem plan_appended {basePath baseText path t : Text} {base locale : Document} (hbaseText : Unmarked baseText)
    (hbase : parse basePath baseText = .ok base) (hplain : ∀ n ∈ base.namespaces, n.Plain) (ht : Unmarked t)
    (hlocale : parse path t = .ok locale) (options : MergeOptions) (mark : Bool)
    (hadd : (MergePlan.compute base locale options).isEmpty = false) (path' : Text) :
    ∃ (out : Text) (merged : Document) (i br : Text) (ps : List (Text × Entry)),
      (MergePlan.compute base locale options).render base locale mark = some out ∧ parse path' out = .ok merged ∧
      i = (locale.indent.or base.indent).getD [' ', ' ', ' ', ' '] ∧ (br = ['\n'] ∨ br = ['\r', '\n']) ∧
      ps.map Prod.snd = (MergePlan.compute base locale options).additions ∧ Appended out i br mark ps ∧
      merged.indent = some i ∧ (∀ style, indent merged style = i) ∧
      ('\n' ∈ t → Returned t → Returned baseText → Returned out) := by
  obtain ⟨hns, hlabels⟩ := wellWritten_of_parse hbase
  have hne : (MergePlan.compute base locale options).additions ≠ [] := by
    simpa [MergePlan.isEmpty] using hadd
  have hfallback : ∀ i ∈ base.indent, i ≠ [] ∧ ∀ c ∈ i, isIndent c = true := fun i hi =>
    ⟨ne_nil_of_indent hbaseText hbase hi, isIndent_of_parse hbase hi⟩
  obtain ⟨out, merged, ps, hrender, hmerged, hindent, hps, happended⟩ :=
    @parse_render_appended path t ht locale hlocale _ hne
      (fun e he => ⟨basePath, baseText, base, hbaseText, hbase, MergePlan.additions_sublist.subset he⟩)
      (MergePlan.distinct_merged (distinct_of_parse hbaseText hbase) (distinct_of_parse ht hlocale))
      { mark := mark, fallbackIndent := base.indent, namespaces := base.namespaces } hfallback hns hlabels
      (closed_missing hns hplain) path'
  refine ⟨out, merged, _, newline t, ps, hrender, hmerged, rfl, (newline_eq t).symm, hps, happended, hindent,
    fun style => by rw [indent, hindent, Option.some_or, Option.getD_some]; rfl, fun hmem hreturned hbaseReturned => ?_⟩
  obtain ⟨helements, huris⟩ := returned_of_parse hbaseText hbase hbaseReturned
  refine returned_render ht hlocale hreturned hmem (by simpa using hne) ?_ ?_ hns huris hrender
  · intro e he
    obtain ⟨a, ha, rfl⟩ := List.mem_map.mp he
    exact helements a (MergePlan.additions_sublist.subset ha)
  · exact isIndent_indent hlocale fun i hi => (hfallback i hi).2

/-- An element of two lines and one after it are added to a document without entries, each after four spaces. -/
theorem plan_appended_two_lines :
    ∃ (base locale : Document) (out : Text) (merged : Document) (br : Text) (ps : List (Text × Entry)),
      parse [] "<resources><string name=\x22a\x22>x\r\ny</string><string name=\x22b\x22/></resources>".toList =
        .ok base ∧
      parse [] "<resources>\r\n</resources>".toList = .ok locale ∧
      (MergePlan.compute base locale {}).render base locale false = some out ∧ parse [] out = .ok merged ∧
      ps.map Prod.snd = base.entries ∧ Appended out [' ', ' ', ' ', ' '] br false ps ∧
      merged.indent = some [' ', ' ', ' ', ' '] ∧ Returned out := by
  have hbase : parse [] "<resources><string name=\x22a\x22>x\r\ny</string><string name=\x22b\x22/></resources>".toList =
    .ok
      { path := []
        text := "<resources><string name=\x22a\x22>x\r\ny</string><string name=\x22b\x22/></resources>".toList
        entries := [{ key := ⟨.string, ['a']⟩, value := "x\r\ny".toList, translatable := true,
                      element := "<string name=\x22a\x22>x\r\ny</string>".toList },
                    { key := ⟨.string, ['b']⟩, value := [], translatable := true,
                      element := "<string name=\x22b\x22/>".toList }]
        indent := none, rootOpen := ⟨0, 11⟩, rootClose := .endTag 59, namespaces := [] } := by decide +kernel
  have hlocale : parse [] "<resources>\r\n</resources>".toList = .ok
      { path := [], text := "<resources>\r\n</resources>".toList, entries := [], indent := none,
        rootOpen := ⟨0, 11⟩, rootClose := .endTag 13, namespaces := [] } := by decide +kernel
  have hreturned : ∀ {s r : Text}, '\n' ∉ s → '\n' ∉ r → Returned (s ++ (['\r', '\n'] ++ r)) := fun hs hr =>
    (returned_of_notMem hs).append (returned_crlf.append (returned_of_notMem hr))
  have hlocaleReturned : Returned "<resources>\r\n</resources>".toList :=
    @hreturned "<resources>".toList "</resources>".toList (by decide) (by decide)
  have hbaseReturned : Returned
      "<resources><string name=\x22a\x22>x\r\ny</string><string name=\x22b\x22/></resources>".toList :=
    @hreturned "<resources><string name=\x22a\x22>x".toList "y</string><string name=\x22b\x22/></resources>".toList
      (by decide) (by decide)
  obtain ⟨out, merged, i, br, ps, hrender, hmerged, rfl, -, hps, happended, hindent, -, hout⟩ :=
    plan_appended (by decide) hbase (by decide) (by decide) hlocale {} false (by decide) []
  exact ⟨_, _, out, merged, br, ps, hbase, hlocale, hrender, hmerged, hps, happended, hindent,
    hout (by decide) hlocaleReturned hbaseReturned⟩

end StringResources
