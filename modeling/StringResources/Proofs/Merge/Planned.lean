import Mathlib.Data.List.Nodup
import StringResources.Proofs.Resource.Children
import StringResources.Merge.Plan

/-! What a plan adds and leaves out: the entries of the base under keys that the locale document lacks, in
    the order of the base. -/

namespace StringResources.MergePlan
open Parse

section Compute
variable {base locale : Document} {options : MergeOptions}

theorem mem_additions_iff {e : Entry} :
    e ∈ (compute base locale options).additions ↔
      e ∈ base.entries ∧ leavesOut options e = false ∧ e.key ∉ locale.keys := by
  simp [compute, missing]

theorem additions_sublist : (compute base locale options).additions.Sublist base.entries :=
  List.filter_sublist.trans List.filter_sublist

theorem mem_skipped_iff {k : Key} :
    k ∈ (compute base locale options).skipped ↔
      ∃ e ∈ base.entries, leavesOut options e = true ∧ e.key ∉ locale.keys ∧ e.key = k := by
  simp [compute, missing, and_assoc]

theorem skipped_of_not_skipUntranslatable (h : options.skipUntranslatable = false) :
    (compute base locale options).skipped = [] := by
  simp [compute, leavesOut, h]

theorem skipped_of_skipUntranslatable (h : options.skipUntranslatable = true) :
    (compute base locale options).skipped =
      (base.entries.filter fun e => decide (e.key ∉ locale.keys ∧ e.translatable = false)).map (·.key) := by
  simp only [compute, missing, List.filter_filter, leavesOut, h, Bool.true_and]
  congr 1
  refine List.filter_congr fun e _ => ?_
  simp [Bool.and_comm]

theorem additions_of_not_skipUntranslatable (h : options.skipUntranslatable = false) :
    (compute base locale options).additions = base.entries.filter fun e => decide (e.key ∉ locale.keys) := by
  simp [compute, missing, leavesOut, h]

theorem additions_of_skipUntranslatable (h : options.skipUntranslatable = true) :
    (compute base locale options).additions =
      base.entries.filter fun e => decide (e.key ∉ locale.keys ∧ e.translatable = true) := by
  simp only [compute, missing, List.filter_filter, leavesOut, h, Bool.true_and]
  refine List.filter_congr fun e _ => ?_
  simp [Bool.and_comm]

/-- Entries chosen from a list are found again in it by their keys. -/
theorem filter_mem_keys {es : List Entry} (h : Distinct es) (p : Entry → Bool) :
    es.filter (fun e => decide (e.key ∈ (es.filter p).map (·.key))) = es.filter p := by
  refine List.filter_congr fun e he => ?_
  rw [Bool.eq_iff_iff, decide_eq_true_iff]
  constructor
  · intro hmem
    obtain ⟨f, hf, hkey⟩ := List.mem_map.mp hmem
    obtain ⟨hf, hp⟩ := List.mem_filter.mp hf
    obtain rfl := List.inj_on_of_nodup_map h hf he hkey
    exact hp
  · intro hp
    exact List.mem_map_of_mem (List.mem_filter.mpr ⟨he, hp⟩)

theorem filter_mem_addedKeys (h : Distinct base.entries) :
    base.entries.filter (fun e => decide (e.key ∈ (compute base locale options).addedKeys)) =
      (compute base locale options).additions := by
  rw [addedKeys, compute, missing, List.filter_filter]
  exact filter_mem_keys h _

theorem filter_mem_skipped (h : Distinct base.entries) :
    base.entries.filter (fun e => decide (e.key ∈ (compute base locale options).skipped)) =
      (missing base locale).filter (leavesOut options) := by
  simp only [compute, missing, List.filter_filter]
  exact filter_mem_keys h _

theorem distinct_merged (hbase : Distinct base.entries) (hlocale : Distinct locale.entries) :
    Distinct (locale.entries ++ (compute base locale options).additions) := by
  rw [Distinct, List.map_append, List.nodup_append]
  refine ⟨hlocale, hbase.sublist (additions_sublist.map _), ?_⟩
  rintro _ hold _ hnew rfl
  obtain ⟨e, he, hkey⟩ := List.mem_map.mp hnew
  exact (mem_additions_iff.mp he).2.2 (hkey ▸ hold)

/-- A key of the base is in the merged document, or it was left out on purpose. -/
theorem mem_merged_iff (hbase : Distinct base.entries) {e : Entry} (he : e ∈ base.entries) :
    e.key ∈ (locale.entries ++ (compute base locale options).additions).map (·.key) ↔
      e.key ∉ (compute base locale options).skipped := by
  rw [List.map_append, List.mem_append, mem_skipped_iff]
  constructor
  · rintro hmem ⟨f, hf, hleft, hmissing, hkey⟩
    obtain rfl := List.inj_on_of_nodup_map hbase hf he hkey
    rcases hmem with hmem | hmem
    · exact hmissing hmem
    · obtain ⟨g, hg, hgkey⟩ := List.mem_map.mp hmem
      obtain ⟨hgbase, hgkept, -⟩ := mem_additions_iff.mp hg
      obtain rfl := List.inj_on_of_nodup_map hbase hgbase he hgkey
      rw [hleft] at hgkept
      cases hgkept
  · intro hskip
    by_cases hmissing : e.key ∈ locale.keys
    · exact Or.inl hmissing
    · refine Or.inr (List.mem_map_of_mem (mem_additions_iff.mpr ⟨he, ?_, hmissing⟩))
      rw [← Bool.not_eq_true]
      exact fun hleft => hskip ⟨e, he, hleft, hmissing, rfl⟩

end Compute
end StringResources.MergePlan
