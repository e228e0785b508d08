import StringResources.Proofs.Resource.Outline

/-! Namespace declarations as fields of a tag. What was read as a declaration can be written as one again:
    its label has none of the characters that end a key, and the quotes its value is written in are not in
    the value. Main statements: `wellWritten_of_parse` and `fields_written`. -/

namespace StringResources
open Markup

namespace Namespace

def toAttribute (n : Namespace) : Attribute where
  key := keyStart ++ n.label
  value := n.uri

/-- A declaration that is read back from what is written for it. -/
def WellWritten (n : Namespace) : Prop :=
  (∀ c ∈ n.label, Attribute.isKeyChar c = true) ∧ quote n.uri ∉ n.uri

/-- Declarations after the attributes of a tag. -/
def written (ns : List Namespace) : Text := ns.flatMap fun n => ' ' :: n.display

theorem quote_eq (uri : Text) : quote uri = '\x22' ∨ quote uri = '\x27' := by
  unfold quote
  split <;> simp

theorem isField_display {n : Namespace} (h : n.WellWritten) : IsField n.toAttribute n.display := by
  refine ⟨'x', ['m', 'l', 'n', 's', ':'] ++ n.label, [], [], quote n.uri, rfl,
    by simp [display, keyStart, toAttribute], rfl, ?_, by simp [AllBlank], by simp [AllBlank], quote_eq n.uri, h.2⟩
  intro c hc
  rcases List.mem_append.mp hc with hc | hc
  · exact List.all_eq_true.mp (by decide : ['m', 'l', 'n', 's', ':'].all Attribute.isKeyChar = true) c hc
  · exact h.1 c hc

theorem fields_written {ns : List Namespace} (h : ∀ n ∈ ns, n.WellWritten) :
    Fields (written ns) (ns.map toAttribute) := by
  induction ns with
  | nil => exact @Fields.nil [] (by simp [AllBlank])
  | cons n ns ih =>
    rw [List.forall_mem_cons] at h
    have hblank : AllBlank [' '] := by simp [AllBlank, isBlank]
    exact .cons hblank (isField_display h.1) (ih h.2)

theorem nodup_keys_toAttribute {ns : List Namespace} (h : (ns.map (·.label)).Nodup) :
    ((ns.map toAttribute).map (·.key)).Nodup := by
  have hmap : (ns.map toAttribute).map (·.key) = (ns.map (·.label)).map (keyStart ++ ·) := by
    simp [toAttribute, Function.comp_def]
  rw [hmap]
  exact List.Pairwise.map _ (fun x y hxy heq => hxy (List.append_cancel_left heq)) h

theorem exists_written {ns : List Namespace} (h : ns ≠ []) : ∃ s, written ns = ' ' :: 'x' :: s := by
  obtain ⟨n, ns, rfl⟩ := List.exists_cons_of_ne_nil h
  exact ⟨_, rfl⟩

theorem endsQuoted_written (ns : List Namespace) : EndsQuoted (written ns) := by
  induction ns with
  | nil => exact Or.inl rfl
  | cons n ns ih =>
    have hcons : written (n :: ns) = ' ' :: n.display ++ written ns := rfl
    rw [hcons]
    exact EndsQuoted.append (Or.inr ⟨' ' :: (keyStart ++ n.label ++ ['=', quote n.uri] ++ n.uri), quote n.uri,
      by simp [display], quote_eq n.uri⟩) ih

end Namespace

namespace Parse
open Namespace

theorem mem_namespacesOf_iff {as : List Attribute} {n : Namespace} : n ∈ namespacesOf as ↔ n.toAttribute ∈ as := by
  simp only [namespacesOf, List.mem_filterMap, Option.map_eq_some_iff, Text.stripStart?_eq_some_iff]
  constructor
  · rintro ⟨a, ha, label, hkey, rfl⟩
    rw [toAttribute, ← hkey]
    exact ha
  · intro h
    exact ⟨n.toAttribute, h, n.label, rfl, rfl⟩

@[simp] theorem namespacesOf_append (as bs : List Attribute) :
    namespacesOf (as ++ bs) = namespacesOf as ++ namespacesOf bs := List.filterMap_append

@[simp] theorem namespacesOf_toAttributes (ns : List Namespace) : namespacesOf (ns.map toAttribute) = ns := by
  have hstrip : ∀ n : Namespace, Text.stripStart? keyStart n.toAttribute.key = some n.label := fun n =>
    Text.stripStart?_eq_some_iff.mpr rfl
  simp only [namespacesOf, List.filterMap_map, Function.comp_def, hstrip, Option.map_some]
  exact List.filterMap_some

theorem wellWritten_of_fields {t : Text} {as : List Attribute} (h : Fields t as) :
    ∀ n ∈ namespacesOf as, n.WellWritten := by
  intro n hn
  rw [mem_namespacesOf_iff] at hn
  obtain ⟨field, hf⟩ : ∃ field, IsField n.toAttribute field := by
    induction h with
    | nil => cases hn
    | cons _ hf _ ih =>
      rcases List.mem_cons.mp hn with rfl | hn
      · exact ⟨_, hf⟩
      · exact ih hn
  obtain ⟨c, word, before, after, q, hkey, -, -, hword, -, -, hq, hv⟩ := hf
  obtain ⟨rfl, rfl⟩ : c = 'x' ∧ word = ['m', 'l', 'n', 's', ':'] ++ n.label := by
    simpa [toAttribute, keyStart, eq_comm] using hkey
  refine ⟨fun c hc => hword c (List.mem_append_right _ hc), ?_⟩
  change q ∉ n.uri at hv
  unfold quote
  split
  · next hmem =>
    rcases hq with rfl | rfl
    · exact absurd hmem hv
    · exact hv
  · next hmem => exact hmem

theorem nodup_labels {as : List Attribute} (h : (as.map (·.key)).Nodup) :
    ((namespacesOf as).map (·.label)).Nodup := by
  induction as with
  | nil => exact List.nodup_nil
  | cons a as ih =>
    rw [List.map_cons, List.nodup_cons] at h
    cases ha : Text.stripStart? keyStart a.key with
    | none =>
      have hcons : namespacesOf (a :: as) = namespacesOf as := by simp [namespacesOf, ha]
      rw [hcons]
      exact ih h.2
    | some label =>
      have hcons : namespacesOf (a :: as) = { label := label, uri := a.value } :: namespacesOf as := by
        simp [namespacesOf, ha]
      rw [hcons, List.map_cons, List.nodup_cons]
      refine ⟨fun hmem => ?_, ih h.2⟩
      obtain ⟨n, hn, hlabel⟩ := List.mem_map.mp hmem
      rw [mem_namespacesOf_iff] at hn
      -- A second declaration of the label would have the key of the first.
      have hkey : n.toAttribute.key = a.key := by
        rw [Text.stripStart?_eq_some_iff.mp ha, toAttribute, hlabel]
      exact h.1 (List.mem_map.mpr ⟨_, hn, hkey⟩)

/-- The namespaces of a document can be written as they were read, and no label is declared twice. -/
theorem wellWritten_of_parse {path t : Text} {d : Document} (h : parse path t = .ok d) :
    (∀ n ∈ d.namespaces, n.WellWritten) ∧ (d.namespaces.map (·.label)).Nodup := by
  obtain ⟨tag, as, has, hns⟩ := exists_allAttributes h
  obtain ⟨hfields, hkeys⟩ := Tag.allAttributes_eq_ok_iff.mp has
  rw [hns]
  exact ⟨wellWritten_of_fields hfields, nodup_labels hkeys⟩

end Parse
end StringResources
