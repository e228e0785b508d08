import StringResources.Proofs.Merge.Planned
import StringResources.Proofs.Merge.Reread

/-! Rendering and reading again. A document with entries added is read as the old entries and then the new
    ones, all as they were written, and its root declares the old namespaces and those that were copied.
    Main statements: `parse_render_of_closed` and `parse_render`. -/

namespace StringResources
open Markup Parse Render Text

/-- An entry of a document that was read from a text without a byte order mark. -/
def Entry.Read (e : Entry) : Prop := ∃ path t d, Unmarked t ∧ parse path t = .ok d ∧ e ∈ d.entries

/-! ### What was read -/

theorem exists_outline_of_parse {path t : Text} (ht : Unmarked t) {d : Document} (h : parse path t = .ok d) :
    ∃ (o : Outline) (attributes : List Attribute), o.source = t ∧ o.Tight ∧ o.Reads attributes d.entries ∧
      d = o.document path attributes d.entries := by
  obtain ⟨o, attributes, entries, hsource, htight, hreads, rfl⟩ := (parse_eq_ok_iff ht).mp h
  exact ⟨o, attributes, hsource, htight, hreads, rfl⟩

theorem Entry.Read.exists_child {e : Entry} (h : e.Read) : ∃ child : Root, child.Makes e ∧ child.forest.Loose := by
  obtain ⟨path, t, d, ht, hd, he⟩ := h
  obtain ⟨o, attributes, -, htight, hreads, -⟩ := exists_outline_of_parse ht hd
  obtain ⟨-, -, child, -, hchild⟩ := exists_child_of_mem_entries? htight.root.2 hreads.children he
  exact ⟨child, hchild⟩

theorem Entry.Read.exists_forest {e : Entry} (h : e.Read) :
    (∃ (kind : Kind) (s : Text), e.element = '<' :: (kind.tag ++ s)) ∧
      ∃ E : Forest, E.Loose ∧ E.source = e.element ∧ E.entries? = some [e] := by
  obtain ⟨child, hmakes, hloose⟩ := h.exists_child
  refine ⟨⟨_, hmakes.exists_element⟩, child.forest, hloose, ?_, hmakes.entries?_forest⟩
  rw [Root.source_forest, hmakes.element]

theorem missing_labels {locale : Document} {elements : List Text} {available : List Namespace} :
    (Labels.missing locale elements available).Sublist available ∧
      ∀ n ∈ Labels.missing locale elements available, n.label ∉ locale.namespaces.map (·.label) := by
  refine ⟨List.filter_sublist, fun n hn hmem => ?_⟩
  obtain ⟨m, hm, hlabel⟩ := List.mem_map.mp hmem
  have hkeep := (List.mem_filter.mp hn).2
  have hdeclares : locale.declares n.label = true :=
    List.any_eq_true.mpr ⟨m, hm, beq_iff_eq.mpr hlabel⟩
  rw [hdeclares] at hkeep
  simp at hkeep

theorem closed_missing {locale : Document} {elements : List Text} {available : List Namespace}
    (hns : ∀ n ∈ available, n.WellWritten) (hplain : ∀ n ∈ available, n.Plain) :
    Closed (Labels.missing locale elements available) := by
  have hsub := (@missing_labels locale elements available).1.subset
  exact closed_of_plain (fun n hn => hns n (hsub hn)) fun n hn => hplain n (hsub hn)

theorem missing_nil {locale : Document} {available : List Namespace} : Labels.missing locale [] available = [] := by
  simp [Labels.missing]

theorem isIndent_indent {path t : Text} {locale : Document} (h : parse path t = .ok locale)
    {style : Style} (hfallback : ∀ i ∈ style.fallbackIndent, ∀ c ∈ i, isIndent c = true) :
    ∀ c ∈ indent locale style, isIndent c = true := by
  rw [indent]
  cases hi : locale.indent with
  | some i => exact isIndent_of_parse h hi
  | none =>
    rw [Option.none_or]
    cases hf : style.fallbackIndent with
    | some i => exact hfallback i hf
    | none => exact List.all_eq_true.mp (by decide : defaultIndent.all isIndent = true)

/-! ### Reading what was rendered -/

/-- Entries are added as they are if the declarations to copy leave no quote open. -/
theorem parse_render_of_closed {path t : Text} (ht : Unmarked t) {locale : Document}
    (hlocale : parse path t = .ok locale) {additions : List Entry} (hread : ∀ e ∈ additions, e.Read)
    (hdistinct : Distinct (locale.entries ++ additions)) {style : Style}
    (hfallback : ∀ i ∈ style.fallbackIndent, ∀ c ∈ i, isIndent c = true) (hns : ∀ n ∈ style.namespaces, n.WellWritten)
    (hlabels : (style.namespaces.map (·.label)).Nodup)
    (hclosed : Closed (Labels.missing locale (additions.map (·.element)) style.namespaces)) (path' : Text) :
    ∃ out merged, render locale (additions.map (·.element)) style = some out ∧ Unmarked out ∧
      parse path' out = .ok merged ∧ merged.entries = locale.entries ++ additions ∧
        merged.namespaces =
          locale.namespaces ++ Labels.missing locale (additions.map (·.element)) style.namespaces := by
  obtain ⟨o, attributes, rfl, htight, hreads, hd⟩ := exists_outline_of_parse ht hlocale
  by_cases hnil : additions = []
  · subst hnil
    have hsame : parse path' o.source = .ok (o.document path' attributes locale.entries) :=
      (parse_eq_ok_iff ht).mpr ⟨o, attributes, locale.entries, rfl, htight, hreads, rfl⟩
    have htext : locale.text = o.source := by rw [hd, Outline.document]
    have hnamespaces : locale.namespaces = namespacesOf attributes := by rw [hd, Outline.document]
    refine ⟨o.source, _, by rw [List.map_nil, render, if_pos rfl, htext], ht, hsame, by simp [Outline.document], ?_⟩
    rw [List.map_nil, missing_nil, List.append_nil, hnamespaces, Outline.document]
  · obtain ⟨hsub, hnew⟩ := @missing_labels locale (additions.map (·.element)) style.namespaces
    obtain ⟨B, hB, hBsource, hBentries, -⟩ := exists_block (not_mem_indent (isIndent_indent hlocale hfallback)).1
      (not_mem_newline o.source) style.mark fun e he => (hread e he).exists_child
    have hnamespaces : locale.namespaces = namespacesOf attributes := by rw [hd, Outline.document]
    rw [hnamespaces] at hnew
    obtain ⟨merged, hmerged, hunmarked, hentries, hmergedNamespaces⟩ := parse_merged htight hreads ht
      (fun n hn => hns n (hsub.subset hn)) (hlabels.sublist (hsub.map _)) hnew hclosed hB hBentries hdistinct
      (not_mem_newline o.source) path'
    have hrender := @render_document o attributes locale.entries path (additions.map (·.element))
      (by simpa using hnil) style
    rw [← hd, ← hBsource] at hrender
    rw [← hnamespaces] at hmergedNamespaces
    exact ⟨_, merged, hrender, hunmarked, hmerged, hentries, hmergedNamespaces⟩

theorem distinct_of_parse {path t : Text} (ht : Unmarked t) {d : Document} (h : parse path t = .ok d) :
    Distinct d.entries := by
  obtain ⟨o, attributes, -, -, hreads, -⟩ := exists_outline_of_parse ht h
  exact hreads.distinct

theorem parse_plan_of_closed {basePath baseText path t : Text} {base locale : Document} (hbaseText : Unmarked baseText)
    (hbase : parse basePath baseText = .ok base) (ht : Unmarked t) (hlocale : parse path t = .ok locale)
    (options : MergeOptions) (mark : Bool)
    (hclosed : Closed (Labels.missing locale ((MergePlan.compute base locale options).additions.map (·.element))
      base.namespaces)) (path' : Text) :
    ∃ out merged, (MergePlan.compute base locale options).render base locale mark = some out ∧ Unmarked out ∧
      parse path' out = .ok merged ∧
        merged.entries = locale.entries ++ (MergePlan.compute base locale options).additions ∧
        merged.namespaces = locale.namespaces ++
          Labels.missing locale ((MergePlan.compute base locale options).additions.map (·.element))
            base.namespaces := by
  obtain ⟨hns, hlabels⟩ := wellWritten_of_parse hbase
  have hread : ∀ e ∈ (MergePlan.compute base locale options).additions, e.Read := fun e he =>
    ⟨basePath, baseText, base, hbaseText, hbase, MergePlan.additions_sublist.subset he⟩
  have hdistinct : Distinct (locale.entries ++ (MergePlan.compute base locale options).additions) :=
    MergePlan.distinct_merged (distinct_of_parse hbaseText hbase) (distinct_of_parse ht hlocale)
  have hfallback : ∀ i ∈ base.indent, ∀ c ∈ i, isIndent c = true := fun i hi => isIndent_of_parse hbase hi
  exact @parse_render_of_closed path t ht locale hlocale _ hread hdistinct
    { mark := mark, fallbackIndent := base.indent, namespaces := base.namespaces } hfallback hns hlabels hclosed path'

/-- A document with entries added is read as its old entries and the new ones, and its root declares the
    old namespaces and those the new entries need. -/
theorem parse_render {path t : Text} (ht : Unmarked t) {locale : Document} (hlocale : parse path t = .ok locale)
    {additions : List Entry} (hread : ∀ e ∈ additions, e.Read) (hkeys : (additions.map (·.key)).Nodup)
    (hfresh : ∀ e ∈ additions, e.key ∉ locale.keys) {rootPath rootText : Text} {root : Document}
    (hroot : parse rootPath rootText = .ok root) (hplain : ∀ n ∈ root.namespaces, n.Plain) {fallback : Option Text}
    (hfallback : ∀ i ∈ fallback, ∀ c ∈ i, c = ' ' ∨ c = '\t') (mark : Bool) (path' : Text) :
    ∃ out merged,
      render locale (additions.map (·.element))
        { mark := mark, fallbackIndent := fallback, namespaces := root.namespaces } = some out ∧
      parse path' out = .ok merged ∧ merged.entries = locale.entries ++ additions ∧
        merged.namespaces =
          locale.namespaces ++ Labels.missing locale (additions.map (·.element)) root.namespaces := by
  obtain ⟨hns, hlabels⟩ := wellWritten_of_parse hroot
  have hdistinct : Distinct (locale.entries ++ additions) := by
    rw [Distinct, List.map_append, List.nodup_append]
    refine ⟨distinct_of_parse ht hlocale, hkeys, ?_⟩
    rintro _ hold _ hnew rfl
    obtain ⟨e, he, hkey⟩ := List.mem_map.mp hnew
    exact hfresh e he (hkey ▸ hold)
  have hblank : ∀ i ∈ fallback, ∀ c ∈ i, isIndent c = true := fun i hi c hc => by
    rcases hfallback i hi c hc with rfl | rfl <;> decide
  obtain ⟨out, merged, hrender, -, hmerged, hentries, hnamespaces⟩ :=
    @parse_render_of_closed path t ht locale hlocale additions hread hdistinct
    { mark := mark, fallbackIndent := fallback, namespaces := root.namespaces } hblank hns hlabels
    (closed_missing hns hplain) path'
  exact ⟨out, merged, hrender, hmerged, hentries, hnamespaces⟩

/-- An entry of a document is added to another together with the declaration it needs. -/
theorem parse_render_declared_label :
    ∃ locale root out merged, parse [] "<resources>\n  <string name=\x22a\x22>x</string>\n</resources>".toList = .ok locale ∧
      parse [] "<resources xmlns:n=\x22u\x22><string name=\x22b\x22 n:k=\x221\x22>y</string></resources>".toList = .ok root ∧
      render locale (root.entries.map (·.element))
        { mark := true, fallbackIndent := some ['\t'], namespaces := root.namespaces } = some out ∧
      parse [] out = .ok merged ∧ merged.entries = locale.entries ++ root.entries ∧
        merged.namespaces = [{ label := ['n'], uri := ['u'] }] := by
  have hlocale : parse [] "<resources>\n  <string name=\x22a\x22>x</string>\n</resources>".toList = .ok
      { path := [], text := "<resources>\n  <string name=\x22a\x22>x</string>\n</resources>".toList
        entries := [{ key := ⟨.string, ['a']⟩, value := ['x'], translatable := true,
                      element := "<string name=\x22a\x22>x</string>".toList }]
        indent := some [' ', ' '], rootOpen := ⟨0, 11⟩, rootClose := .endTag 42, namespaces := [] } := by decide +kernel
  have hroot : parse [] "<resources xmlns:n=\x22u\x22><string name=\x22b\x22 n:k=\x221\x22>y</string></resources>".toList = .ok
      { path := [], text := "<resources xmlns:n=\x22u\x22><string name=\x22b\x22 n:k=\x221\x22>y</string></resources>".toList
        entries := [{ key := ⟨.string, ['b']⟩, value := ['y'], translatable := true,
                      element := "<string name=\x22b\x22 n:k=\x221\x22>y</string>".toList }]
        indent := none, rootOpen := ⟨0, 23⟩, rootClose := .endTag 58,
        namespaces := [{ label := ['n'], uri := ['u'] }] } := by decide +kernel
  obtain ⟨out, merged, hrender, hmerged, hentries, hnamespaces⟩ :=
    parse_render (by decide) hlocale (fun e he => ⟨_, _, _, by decide, hroot, he⟩) (by decide) (by decide) hroot
      (by decide) (by simp : ∀ i ∈ some ['\t'], ∀ c ∈ i, c = ' ' ∨ c = '\t') true []
  exact ⟨_, _, out, merged, hlocale, hroot, hrender, hmerged, hentries, hnamespaces.trans (by decide +kernel)⟩

end StringResources
