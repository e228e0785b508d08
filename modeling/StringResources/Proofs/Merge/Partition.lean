import StringResources.Proofs.Merge.Planned
import StringResources.Proofs.Resource.Outline

/-! The parts of what is missing. A plan takes the entries of the base that the locale document lacks, in their order,
    and parts them into those it adds and those it leaves out. With the entries the locale document has, the added ones
    make up its keys and those of the base, but for the keys left out. Main statement: `plan_parts`. -/

namespace StringResources
open Parse MergePlan

/-- A list made of two others, the items of each in their order. -/
inductive Interleaved {α : Type} : List α → List α → List α → Prop
  | nil : Interleaved [] [] []
  | left {x : α} {xs ys zs : List α} : Interleaved xs ys zs → Interleaved (x :: xs) ys (x :: zs)
  | right {y : α} {xs ys zs : List α} : Interleaved xs ys zs → Interleaved xs (y :: ys) (y :: zs)

/-- A list is made of its items with a property and of the others. -/
theorem interleaved_filter {α : Type} (p : α → Bool) (l : List α) :
    Interleaved (l.filter (!p ·)) (l.filter p) l := by
  induction l with
  | nil => exact .nil
  | cons x l ih =>
    cases hx : p x with
    | true =>
      rw [List.filter_cons_of_neg (by simp [hx]), List.filter_cons_of_pos hx]
      exact .right ih
    | false =>
      rw [List.filter_cons_of_pos (by simp [hx]), List.filter_cons_of_neg (by simp [hx])]
      exact .left ih

namespace Interleaved
variable {α β : Type} {xs ys zs : List α}

theorem perm (h : Interleaved xs ys zs) : zs.Perm (xs ++ ys) := by
  induction h with
  | nil => exact .nil
  | left _ ih => exact ih.cons _
  | right _ ih => exact (ih.cons _).trans List.perm_middle.symm

theorem nil_right (xs : List α) : Interleaved xs [] xs := by
  induction xs with
  | nil => exact .nil
  | cons x xs ih => exact .left ih

/-- A list made of two others has the order of one of them if the other gives nothing. -/
theorem filterMap_eq {f : α → Option β} (h : Interleaved xs ys zs) (hxs : ∀ x ∈ xs, f x = none) :
    zs.filterMap f = ys.filterMap f := by
  induction h with
  | nil => rfl
  | left _ ih =>
    rw [List.filterMap_cons_none (hxs _ List.mem_cons_self)]
    exact ih fun x hx => hxs x (List.mem_cons_of_mem _ hx)
  | @right y _ _ _ _ ih => rw [List.filterMap_cons, List.filterMap_cons, ih hxs]

/-- Related lists are put together in the same way. -/
theorem exists_forall₂ {r : α → β → Prop} {us vs : List β} (h : Interleaved xs ys zs) (hus : List.Forall₂ r xs us)
    (hvs : List.Forall₂ r ys vs) : ∃ ws, List.Forall₂ r zs ws ∧ Interleaved us vs ws := by
  induction h generalizing us vs with
  | nil =>
    cases hus
    cases hvs
    exact ⟨[], .nil, .nil⟩
  | left _ ih =>
    cases hus with
    | @cons _ u _ _ hu hus =>
      obtain ⟨ws, hws, hmade⟩ := ih hus hvs
      exact ⟨u :: ws, .cons hu hws, .left hmade⟩
  | right _ ih =>
    cases hvs with
    | @cons _ v _ _ hv hvs =>
      obtain ⟨ws, hws, hmade⟩ := ih hus hvs
      exact ⟨v :: ws, .cons hv hws, .right hmade⟩

end Interleaved

namespace MergePlan

section Parts
variable {base locale : Document} {whole part options : MergeOptions}

/-- What a plan without omissions adds is what any plan adds and what it leaves out. -/
theorem interleaved_additions (hbase : Distinct base.entries) (hwhole : whole.skipUntranslatable = false) :
    Interleaved (compute base locale part).additions
      (base.entries.filter fun e => decide (e.key ∈ (compute base locale part).skipped))
      (compute base locale whole).additions := by
  have hall : (compute base locale whole).additions = missing base locale := by
    rw [additions_of_not_skipUntranslatable hwhole, missing]
    refine List.filter_congr fun e _ => ?_
    simp
  rw [hall, filter_mem_skipped hbase]
  exact interleaved_filter (leavesOut part) (missing base locale)

theorem map_key_filter_mem_skipped (hbase : Distinct base.entries) :
    (base.entries.filter fun e => decide (e.key ∈ (compute base locale options).skipped)).map (·.key) =
      (compute base locale options).skipped := by
  rw [filter_mem_skipped hbase]
  rfl

theorem disjoint_skipped (hbase : Distinct base.entries) :
    (compute base locale options).addedKeys.Disjoint (compute base locale options).skipped := by
  intro k hadded hskipped
  obtain ⟨e, he, rfl⟩ := List.mem_map.mp hadded
  obtain ⟨hmem, hkept, -⟩ := mem_additions_iff.mp he
  obtain ⟨f, hf, hleft, -, hkey⟩ := mem_skipped_iff.mp hskipped
  obtain rfl := List.inj_on_of_nodup_map hbase hf hmem hkey
  rw [hleft] at hkept
  cases hkept

theorem mem_keys_merged_iff (hbase : Distinct base.entries) {k : Key} :
    k ∈ ((compute base locale options).merged locale).map (·.key) ↔
      k ∈ locale.keys ∨ k ∈ base.keys ∧ k ∉ (compute base locale options).skipped := by
  constructor
  · intro hmem
    rw [merged, List.map_append, List.mem_append] at hmem
    rcases hmem with hmem | hmem
    · exact Or.inl hmem
    · refine Or.inr ⟨?_, disjoint_skipped hbase hmem⟩
      obtain ⟨e, he, rfl⟩ := List.mem_map.mp hmem
      exact List.mem_map_of_mem (additions_sublist.subset he)
  · rintro (hmem | ⟨hmem, hskipped⟩)
    · rw [merged, List.map_append]
      exact List.mem_append_left _ hmem
    · obtain ⟨e, he, rfl⟩ := List.mem_map.mp hmem
      exact (mem_merged_iff hbase he).mpr hskipped

/-- Marks and dry runs make no other plan. -/
theorem compute_congr (h : part.skipUntranslatable = whole.skipUntranslatable) :
    compute base locale part = compute base locale whole := by
  have hleaves : leavesOut part = leavesOut whole := by
    funext e
    rw [leavesOut, leavesOut, h]
  rw [compute, compute, hleaves]

end Parts
end MergePlan

/-- A plan adds all entries that the locale document lacks, or the ones to be translated, in the order of the base,
    and leaves out the others. The first plan is made of the parts of the second. The merged document begins with the
    entries of the locale document and has each of its keys and of those of the base once, but for the ones left out.
    Nothing else in the options counts. -/
theorem plan_parts {basePath baseText path t : Text} {base locale : Document}
    (hbase : parse basePath baseText = .ok base) (hlocale : parse path t = .ok locale) :
    (∀ options, options.skipUntranslatable = false →
      (compute base locale options).additions = base.entries.filter (fun e => decide (e.key ∉ locale.keys)) ∧
      (compute base locale options).skipped = []) ∧
    (∀ options, options.skipUntranslatable = true →
      (compute base locale options).additions =
        base.entries.filter (fun e => decide (e.key ∉ locale.keys ∧ e.translatable = true)) ∧
      (compute base locale options).skipped =
        (base.entries.filter fun e => decide (e.key ∉ locale.keys ∧ e.translatable = false)).map (·.key)) ∧
    (∀ whole part, whole.skipUntranslatable = false → part.skipUntranslatable = true →
      Interleaved (compute base locale part).additions
        (base.entries.filter fun e => decide (e.key ∈ (compute base locale part).skipped))
        (compute base locale whole).additions ∧
      (base.entries.filter fun e => decide (e.key ∈ (compute base locale part).skipped)).map (·.key) =
        (compute base locale part).skipped ∧
      (compute base locale part).addedKeys.Disjoint (compute base locale part).skipped) ∧
    ∀ options,
      (((compute base locale options).merged locale).map (·.key)).Nodup ∧
      locale.entries <+: (compute base locale options).merged locale ∧
      (∀ k, k ∈ ((compute base locale options).merged locale).map (·.key) ↔
        k ∈ locale.keys ∨ k ∈ base.keys ∧ k ∉ (compute base locale options).skipped) ∧
      ∀ other, other.skipUntranslatable = options.skipUntranslatable →
        compute base locale other = compute base locale options := by
  have hdistinct := distinct_entries_of_parse hbase
  refine ⟨fun options hskip => ⟨additions_of_not_skipUntranslatable hskip, skipped_of_not_skipUntranslatable hskip⟩,
    fun options hskip => ⟨additions_of_skipUntranslatable hskip, skipped_of_skipUntranslatable hskip⟩,
    fun whole part hwhole _ => ⟨interleaved_additions hdistinct hwhole, map_key_filter_mem_skipped hdistinct,
      disjoint_skipped hdistinct⟩,
    fun options => ⟨distinct_merged hdistinct (distinct_entries_of_parse hlocale), List.prefix_append _ _,
      fun k => mem_keys_merged_iff hdistinct, fun other => compute_congr⟩⟩

/-- A base with an entry that is not to be translated before one that is. -/
def partlyTranslatable : Text :=
  "<resources><string name=\x22a\x22 translatable=\x22false\x22/><string name=\x22b\x22/></resources>".toList

/-- What a plan adds is made of the key it would leave out and the key it adds in any case. -/
theorem plan_parts_left_out :
    ∃ base locale,
      parse [] partlyTranslatable = .ok base ∧
      parse [] "<resources><string name=\x22c\x22/></resources>".toList = .ok locale ∧
      (compute base locale {}).addedKeys = [⟨.string, ['a']⟩, ⟨.string, ['b']⟩] ∧
      (compute base locale { skipUntranslatable := true }).addedKeys = [⟨.string, ['b']⟩] ∧
      (compute base locale { skipUntranslatable := true }).skipped = [⟨.string, ['a']⟩] ∧
      (((compute base locale { skipUntranslatable := true }).merged locale).map (·.key)).Nodup := by
  have hbase : parse [] partlyTranslatable = .ok
      { path := [], text := partlyTranslatable
        entries := [{ key := ⟨.string, ['a']⟩, value := [], translatable := false,
                      element := "<string name=\x22a\x22 translatable=\x22false\x22/>".toList },
                    { key := ⟨.string, ['b']⟩, value := [], translatable := true,
                      element := "<string name=\x22b\x22/>".toList }]
        indent := none, rootOpen := ⟨0, 11⟩, rootClose := .endTag 68, namespaces := [] } := by decide +kernel
  have hlocale : parse [] "<resources><string name=\x22c\x22/></resources>".toList = .ok
      { path := [], text := "<resources><string name=\x22c\x22/></resources>".toList
        entries := [{ key := ⟨.string, ['c']⟩, value := [], translatable := true,
                      element := "<string name=\x22c\x22/>".toList }]
        indent := none, rootOpen := ⟨0, 11⟩, rootClose := .endTag 29, namespaces := [] } := by decide +kernel
  obtain ⟨hwhole, hpart, -, hmerged⟩ := plan_parts hbase hlocale
  obtain ⟨hall, -⟩ := hwhole {} rfl
  obtain ⟨hadded, hskipped⟩ := hpart { skipUntranslatable := true } rfl
  obtain ⟨hnodup, -⟩ := hmerged { skipUntranslatable := true }
  refine ⟨_, _, hbase, hlocale, ?_, ?_, hskipped, hnodup⟩
  · rw [addedKeys, hall]
    rfl
  · rw [addedKeys, hadded]
    rfl

end StringResources
