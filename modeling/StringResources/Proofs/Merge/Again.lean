import StringResources.Proofs.Merge.RoundTrip

/-! Merging a second time. What a merge leaves missing is what it left out on purpose, so a second merge
    has nothing to add unless it takes what the first skipped. Main statement: `plan_again`. -/

namespace StringResources.MergePlan
open Parse

section Again
variable {base locale merged : Document} {first second : MergeOptions}

/-- After a merge the entries still missing are those that were skipped. -/
theorem missing_merged (hbase : Distinct base.entries)
    (hmerged : merged.entries = locale.entries ++ (compute base locale first).additions) :
    missing base merged = base.entries.filter fun e => decide (e.key ∈ (compute base locale first).skipped) := by
  refine List.filter_congr fun e he => ?_
  have hkey := @mem_merged_iff base locale first hbase e he
  rw [← hmerged, ← Document.keys] at hkey
  rw [Bool.eq_iff_iff, Bool.not_eq_true', decide_eq_true_iff, ← Bool.not_eq_true, List.contains_iff_mem, hkey, not_not]

theorem not_translatable_of_mem_skipped (hbase : Distinct base.entries) {e : Entry} (he : e ∈ base.entries)
    (h : e.key ∈ (compute base locale first).skipped) : e.translatable = false := by
  obtain ⟨f, hf, hleft, -, hkey⟩ := mem_skipped_iff.mp h
  obtain rfl := List.inj_on_of_nodup_map hbase hf he hkey
  simp only [leavesOut, Bool.and_eq_true, Bool.not_eq_true'] at hleft
  exact hleft.2

theorem additions_again_eq_nil (hbase : Distinct base.entries)
    (hmerged : merged.entries = locale.entries ++ (compute base locale first).additions)
    (hskip : first.skipUntranslatable = false ∨ second.skipUntranslatable = true) :
    (compute base merged second).additions = [] := by
  rw [compute, missing_merged hbase hmerged, List.filter_eq_nil_iff]
  intro e he
  obtain ⟨he, hskipped⟩ := List.mem_filter.mp he
  rw [decide_eq_true_iff] at hskipped
  rcases hskip with hfirst | hsecond
  · rw [skipped_of_not_skipUntranslatable hfirst] at hskipped
    cases hskipped
  · simp [leavesOut, hsecond, not_translatable_of_mem_skipped hbase he hskipped]

theorem additions_again_eq_skipped (hbase : Distinct base.entries)
    (hmerged : merged.entries = locale.entries ++ (compute base locale first).additions)
    (hsecond : second.skipUntranslatable = false) :
    (compute base merged second).additions =
      base.entries.filter fun e => decide (e.key ∈ (compute base locale first).skipped) := by
  have hkept : (!leavesOut second ·) = fun _ : Entry => true := by
    funext e
    simp [leavesOut, hsecond]
  rw [compute, missing_merged hbase hmerged, hkept]
  exact List.filter_true _

end Again

theorem render_of_additions_eq_nil {plan : MergePlan} (h : plan.additions = []) (base locale : Document) (mark : Bool) :
    plan.render base locale mark = some locale.text := by
  rw [MergePlan.render, h, List.map_nil, StringResources.render, if_pos rfl]

end StringResources.MergePlan

namespace StringResources
open Parse

/-- A merge into a merged text adds nothing, unless the first left entries out and the second does not: then
    it adds those entries. -/
theorem plan_again {basePath baseText path t : Text} {base locale : Document} (hbaseText : Unmarked baseText)
    (hbase : parse basePath baseText = .ok base) (hplain : ∀ n ∈ base.namespaces, n.Plain) (ht : Unmarked t)
    (hlocale : parse path t = .ok locale) (first second : MergeOptions) (path' : Text) :
    ∃ out merged,
      (MergePlan.compute base locale first).render base locale first.markUntranslated = some out ∧
      parse path' out = .ok merged ∧
      (first.skipUntranslatable = false ∨ second.skipUntranslatable = true →
        (MergePlan.compute base merged second).additions = [] ∧
        (MergePlan.compute base merged second).render base merged second.markUntranslated = some out) ∧
      (first.skipUntranslatable = true → second.skipUntranslatable = false →
        (MergePlan.compute base merged second).additions =
          base.entries.filter fun e => decide (e.key ∈ (MergePlan.compute base locale first).skipped)) := by
  have hclosed := @closed_missing locale ((MergePlan.compute base locale first).additions.map (·.element)) _
    (wellWritten_of_parse hbase).1 hplain
  obtain ⟨out, merged, hrender, -, hmerged, hentries, -⟩ :=
    parse_plan_of_closed hbaseText hbase ht hlocale first first.markUntranslated hclosed path'
  have hdistinct := distinct_of_parse hbaseText hbase
  refine ⟨out, merged, hrender, hmerged, fun hskip => ?_, fun _ hsecond => ?_⟩
  · have hnil := @MergePlan.additions_again_eq_nil base locale merged first second hdistinct hentries hskip
    refine ⟨hnil, ?_⟩
    rw [MergePlan.render_of_additions_eq_nil hnil, text_of_parse hmerged]
  · exact MergePlan.additions_again_eq_skipped hdistinct hentries hsecond

/-- An entry that is not to be translated is skipped, and added by a second merge that takes it. -/
theorem plan_again_skipped :
    ∃ base locale out merged,
      parse [] "<resources><string name=\x22a\x22/><string name=\x22b\x22 translatable=\x22false\x22/></resources>".toList =
        .ok base ∧ parse [] "<resources/>".toList = .ok locale ∧
      (MergePlan.compute base locale { skipUntranslatable := true }).render base locale true = some out ∧
      parse [] out = .ok merged ∧
      (MergePlan.compute base merged {}).addedKeys = [{ kind := .string, name := ['b'] }] ∧
      (MergePlan.compute base merged { skipUntranslatable := true }).render base merged true = some out := by
  have hbase :
      parse [] "<resources><string name=\x22a\x22/><string name=\x22b\x22 translatable=\x22false\x22/></resources>".toList =
        .ok
      { path := []
        text := "<resources><string name=\x22a\x22/><string name=\x22b\x22 translatable=\x22false\x22/></resources>".toList
        entries := [{ key := ⟨.string, ['a']⟩, value := [], translatable := true,
                      element := "<string name=\x22a\x22/>".toList },
                    { key := ⟨.string, ['b']⟩, value := [], translatable := false,
                      element := "<string name=\x22b\x22 translatable=\x22false\x22/>".toList }]
        indent := none, rootOpen := ⟨0, 11⟩, rootClose := .endTag 68, namespaces := [] } := by decide +kernel
  have hlocale : parse [] "<resources/>".toList = .ok
      { path := [], text := "<resources/>".toList, entries := [], indent := none, rootOpen := ⟨0, 12⟩
        rootClose := .selfClosing ⟨0, 12⟩, namespaces := [] } := by decide +kernel
  obtain ⟨out, merged, hrender, hmerged, -, hskipped⟩ :=
    plan_again (by decide) hbase (by simp) (by decide) hlocale { skipUntranslatable := true } {} []
  obtain ⟨out', merged', hrender', hmerged', hsame, -⟩ :=
    plan_again (by decide) hbase (by simp) (by decide) hlocale { skipUntranslatable := true }
      { skipUntranslatable := true } []
  obtain rfl := Option.some.inj (hrender.symm.trans hrender')
  obtain rfl := Except.ok.inj (hmerged.symm.trans hmerged')
  refine ⟨_, _, out, merged, hbase, hlocale, hrender, hmerged, ?_, (hsame (Or.inr rfl)).2⟩
  rw [MergePlan.addedKeys, hskipped rfl rfl]
  decide +kernel

end StringResources
