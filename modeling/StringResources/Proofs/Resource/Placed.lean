import StringResources.Proofs.Resource.Grammar
import StringResources.Proofs.Text.Located

/-! The places of elements. Each element of a forest that is in no other has a place, the text before it, and the
    indentation of the forest is read off the places of its entries. Main statements: `placed_append`, `indent?_eq`
    and `Outline.entryAt`. -/

namespace StringResources.Parse
open Markup Text

/-! ### Indentation -/

theorem lineIndent?_eq_some_iff {before i : Text} :
    lineIndent? before = some i ↔ before.lastLine = i ∧ i ≠ [] ∧ ∀ c ∈ i, isIndent c = true := by
  unfold lineIndent?
  split
  · next h =>
    rw [h]
    simp +contextual
  · next c line h =>
    rw [h]
    split
    · next hall =>
      rw [List.all_eq_true] at hall
      constructor
      · rintro ⟨⟩
        exact ⟨rfl, List.cons_ne_nil _ _, hall⟩
      · rintro ⟨rfl, -, -⟩
        rfl
    · next hall =>
      rw [List.all_eq_true] at hall
      constructor
      · rintro ⟨⟩
      · rintro ⟨rfl, -, h⟩
        exact absurd h hall

/-- A line with a bracket is no indentation, so what stands before the bracket does not matter. -/
theorem lineIndent?_append_bracket (u w : Text) : lineIndent? (u ++ '>' :: w) = lineIndent? ('>' :: w) := by
  by_cases hw : '\n' ∈ w
  · have hline : lastLine (u ++ '>' :: w) = lastLine ('>' :: w) := by
      have hlast := fun s => lastLine_append_of_mem hw s
      have hsplit : u ++ '>' :: w = (u ++ ['>']) ++ w := by simp
      rw [hsplit, hlast, ← List.singleton_append, hlast]
    rw [lineIndent?, lineIndent?, hline]
  · have hnone : ∀ s : Text, lineIndent? (s ++ '>' :: w) = none := by
      intro s
      rw [Option.eq_none_iff_forall_ne_some]
      intro i hi
      obtain ⟨rfl, -, hindent⟩ := lineIndent?_eq_some_iff.mp hi
      have hfree : '\n' ∉ '>' :: w := by simp [hw]
      rw [lastLine_append_of_notMem hfree] at hindent
      exact absurd (hindent '>' (by simp)) (by decide)
    rw [hnone, ← hnone [], List.nil_append]

end StringResources.Parse

namespace StringResources.Markup.Forest
open Parse

/-! ### Places -/

/-- The elements of a forest that are in no other, each with the text before it; `lead` is the text before the
    forest. -/
def placed (lead : Text) : Forest → List (Text × Root)
  | nil => []
  | leaf k _ rest => k.elements.map (lead, ·) ++ rest.placed (lead ++ k.source)
  | element tag body written closes rest =>
    (lead, .element tag body written closes) :: rest.placed (lead ++ elementSource tag body written)

section Placed
variable {lead : Text}

theorem map_snd_placed (F : Forest) (lead : Text) : (F.placed lead).map Prod.snd = F.elements := by
  induction F generalizing lead with
  | nil => rfl
  | leaf k hk rest ih => simp [placed, elements, ih, Function.comp_def]
  | element tag body written closes rest _ ih => simp [placed, elements, ih]

theorem placed_append (F G : Forest) (lead : Text) :
    (F.append G).placed lead = F.placed lead ++ G.placed (lead ++ F.source) := by
  induction F generalizing lead with
  | nil => simp [append, placed]
  | leaf k hk rest ih => simp [append, placed, ih]
  | element tag body written closes rest _ ih => simp [append, placed, ih, elementSource]

@[simp] theorem placed_text (content lead : Text) : (text content).placed lead = [] := rfl

theorem placed_addText (content : Text) (F : Forest) (lead : Text) :
    (addText content F).placed lead = F.placed (lead ++ content) := by
  cases F with
  | nil => simp only [addText]; split <;> simp [placed, Token.elements]
  | leaf k hk rest =>
    cases k <;> simp only [addText]
    case text run => simp [placed, Token.elements, Token.source]
    all_goals
      split
      · next h => rw [h, List.append_nil]
      · rfl
  | element tag body written closes rest =>
    simp only [addText]
    split
    · next h => rw [h, List.append_nil]
    · rfl

end Placed

end StringResources.Markup.Forest

namespace StringResources.Parse
open Markup

/-- An element with neighbouring characters put together. -/
def Root.glue : Root → Root
  | empty tag => empty tag
  | element tag body written closes => element tag body.glue written closes

theorem Root.tag_glue (child : Root) : child.glue.tag = child.tag := by cases child <;> rfl

theorem Root.source_glue (child : Root) : child.glue.source = child.source := by
  cases child with
  | empty tag => rfl
  | element tag body written closes => rw [glue, source, source, elementSource, elementSource, Forest.source_glue]

theorem Root.Makes.glue {child : Root} {e : Entry} (h : child.Makes e) : child.glue.Makes e where
  kind := child.tag_glue ▸ h.kind
  name := child.tag_glue ▸ h.name
  named := h.named
  translatable := child.tag_glue ▸ h.translatable
  value := by
    rw [h.value]
    cases child with
    | empty tag => rfl
    | element tag body written closes => exact (Forest.source_glue body).symm
  element := child.source_glue ▸ h.element

theorem exists_of_mem_right {α β : Type} {R : α → β → Prop} {xs : List α} {ys : List β} (h : List.Forall₂ R xs ys)
    {y : β} (hy : y ∈ ys) : ∃ x ∈ xs, R x y := by
  induction h with
  | nil => cases hy
  | cons hhead _ ih =>
    rcases List.mem_cons.mp hy with rfl | hy
    · exact ⟨_, List.mem_cons_self, hhead⟩
    · obtain ⟨x, hx, hxy⟩ := ih hy
      exact ⟨x, List.mem_cons_of_mem _ hx, hxy⟩

theorem Root.Makes.isOfKind {child : Root} {e : Entry} (h : child.Makes e) : child.isOfKind = true := by
  rw [Root.isOfKind, h.kind, Kind.ofTag?_tag]
  rfl

end StringResources.Parse

namespace StringResources.Markup.Forest
open Parse

theorem placed_glue (F : Forest) (lead : Text) : F.glue.placed lead = (F.placed lead).map (Prod.map id Root.glue) := by
  induction F generalizing lead with
  | nil => rfl
  | leaf k hk rest ih =>
    cases k <;> simp [glue, placed, placed_addText, ih, Token.elements, Token.source, Root.glue]
  | element tag body written closes rest _ ih =>
    simp [glue, placed, ih, Root.glue, elementSource, source_glue]

/-- The entries of a forest are those of its elements. -/
theorem entries?_congr {F G : Forest} (h : F.elements = G.elements) : F.entries? = G.entries? := by
  refine Option.ext fun es => ?_
  rw [entries?_eq_some_iff, entries?_eq_some_iff, h]

/-- The indentation of the first entry among placed elements that has its line for itself. -/
def shownIndent? (ps : List (Text × Root)) : Option Text :=
  (ps.filter (·.2.isOfKind)).findSome? (lineIndent? ·.1)

theorem shownIndent?_append (ps qs : List (Text × Root)) :
    shownIndent? (ps ++ qs) = (shownIndent? ps).or (shownIndent? qs) := by
  rw [shownIndent?, List.filter_append, List.findSome?_append]
  rfl

theorem shownIndent?_singleton (lead : Text) (child : Root) :
    shownIndent? [(lead, child)] = indentOf? lead child.tag := by
  cases hkind : Kind.ofTag? child.tag.name with
  | none => simp [shownIndent?, Root.isOfKind, indentOf?, hkind]
  | some kind =>
    rw [shownIndent?, List.filter_cons_of_pos (by simp [Root.isOfKind, hkind]), indentOf?, hkind]
    cases h : lineIndent? lead <;> simp [h]

theorem shownIndent?_map_glue (ps : List (Text × Root)) :
    shownIndent? (ps.map (Prod.map id Root.glue)) = shownIndent? ps := by
  induction ps with
  | nil => rfl
  | cons p ps ih =>
    obtain ⟨lead, child⟩ := p
    rw [List.map_cons, ← List.singleton_append, shownIndent?_append, ih, ← List.singleton_append (l := ps),
      shownIndent?_append, Prod.map_apply, shownIndent?_singleton, shownIndent?_singleton, Root.tag_glue, id]

theorem indent?_eq (F : Forest) (lead : Text) : F.indent? lead = shownIndent? (F.placed lead) := by
  induction F generalizing lead with
  | nil => rfl
  | leaf k hk rest ih =>
    rw [indent?, placed, shownIndent?_append, ih]
    cases k <;> first | rfl | skip
    rw [Token.elements, List.map_singleton, shownIndent?_singleton]
    rfl
  | element tag body written closes rest _ ih =>
    rw [indent?, placed, ← List.singleton_append, shownIndent?_append, shownIndent?_singleton, ih]
    rfl

/-- The indentation of a forest after a bracket does not depend on what stands before the bracket. -/
theorem indent?_append_bracket (F : Forest) (u w : Text) : F.indent? (u ++ '>' :: w) = F.indent? ('>' :: w) := by
  induction F generalizing w with
  | nil => rfl
  | leaf k hk rest ih =>
    have hleaf : leafIndent? (u ++ '>' :: w) k = leafIndent? ('>' :: w) k := by
      cases k <;> first | rfl | skip
      rw [leafIndent?, indentOf?, lineIndent?_append_bracket]
      rfl
    rw [indent?, indent?, hleaf, List.append_assoc, List.cons_append, ih]
  | element tag body written closes rest _ ih =>
    rw [indent?, indent?, indentOf?, lineIndent?_append_bracket, List.append_assoc, List.cons_append, ih]
    rfl

theorem ne_nil_of_indent? {F : Forest} {lead i : Text} (h : F.indent? lead = some i) : i ≠ [] := by
  rw [indent?_eq, shownIndent?] at h
  obtain ⟨p, -, hp⟩ := List.exists_of_findSome?_eq_some h
  exact (lineIndent?_eq_some_iff.mp hp).2.1

theorem level_tokens (F : Forest) (n : Nat) : level n F.tokens = n := by
  induction F generalizing n with
  | nil => rfl
  | leaf k hk rest ih => rw [tokens, level, List.foldl_cons, nextLevel_of_isLeaf hk, ← level, ih]
  | element tag body written closes rest ihb ihr =>
    rw [tokens, level, List.foldl_cons, ← level, level_append, ihb, level, List.foldl_cons, ← level, ihr]
    rfl

end StringResources.Markup.Forest

namespace StringResources.Parse
open Markup

/-! ### One element -/

/-- The forest of one element. -/
def Root.forest : Root → Forest
  | empty tag => .leaf (.empty tag) rfl .nil
  | element tag body written closes => .element tag body written closes .nil

theorem Root.tokens_forest (child : Root) : child.forest.tokens = child.tokens := by cases child <;> rfl

theorem Root.source_forest (child : Root) : child.forest.source = child.source := by
  rw [Forest.source, tokens_forest, sources_tokens]

theorem Root.placed_forest (child : Root) (lead : Text) : child.forest.placed lead = [(lead, child)] := by
  cases child <;> rfl

theorem Root.Makes.entries?_forest {child : Root} {e : Entry} (h : child.Makes e) :
    child.forest.entries? = some [e] := by
  have helements : child.forest.elements = [child] := by
    rw [← child.forest.map_snd_placed [], Root.placed_forest]
    rfl
  rw [entries?_eq_some_iff, helements, List.filter_cons_of_pos h.isOfKind]
  exact .cons h .nil

theorem Root.Makes.exists_element {child : Root} {e : Entry} (h : child.Makes e) :
    ∃ s, e.element = '<' :: (e.key.kind.tag ++ s) := by
  rw [h.element, ← h.kind]
  cases child with
  | empty tag => exact ⟨tag.fields ++ ['/', '>'], by simp [Root.source, Root.tag, Token.source, Tag.content]⟩
  | element tag body written closes =>
    exact ⟨tag.fields ++ '>' :: (body.source ++ (Token.close written).source), by
      simp [Root.source, Root.tag, elementSource, Token.source, Tag.content]⟩

theorem Root.Makes.unmarked {child : Root} {e : Entry} (h : child.Makes e) : Unmarked e.element := by
  obtain ⟨s, hs⟩ := h.exists_element
  rw [hs, Unmarked, List.head?_cons]
  decide

/-! ### Places in a forest -/

/-- Where an element of a forest is placed, the forest splits. -/
theorem Forest.exists_append_of_mem_placed {F : Forest} {lead before : Text} {child : Root}
    (h : (before, child) ∈ F.placed lead) :
    ∃ B A : Forest, F = B.append (child.forest.append A) ∧ before = lead ++ B.source := by
  induction F generalizing lead with
  | nil => cases h
  | leaf k hk rest ih =>
    rcases List.mem_append.mp h with h | h
    · cases k <;> first | cases h; done | skip
      obtain ⟨rfl, rfl⟩ := Prod.mk.inj (List.mem_singleton.mp h)
      exact ⟨.nil, rest, rfl, by simp⟩
    · obtain ⟨B, A, rfl, rfl⟩ := ih h
      exact ⟨.leaf k hk B, A, rfl, by simp⟩
  | element tag body written closes rest _ ih =>
    rcases List.mem_cons.mp h with h | h
    · obtain ⟨rfl, rfl⟩ := Prod.mk.inj h
      exact ⟨.nil, rest, rfl, by simp⟩
    · obtain ⟨B, A, rfl, rfl⟩ := ih h
      exact ⟨.element tag body written closes B, A, rfl, by simp [Forest.tokens, elementSource, Forest.source]⟩

theorem exists_append_of_mem_elements {F : Forest} {child : Root} (h : child ∈ F.elements) :
    ∃ B A : Forest, F = B.append (child.forest.append A) := by
  rw [← F.map_snd_placed []] at h
  obtain ⟨⟨before, child⟩, hplaced, rfl⟩ := List.mem_map.mp h
  obtain ⟨B, A, hF, -⟩ := Forest.exists_append_of_mem_placed hplaced
  exact ⟨B, A, hF⟩

/-- An entry that a forest makes is made by one of its elements. -/
theorem exists_child_of_mem_entries? {F : Forest} (hF : F.Loose) {es : List Entry} (hes : F.entries? = some es)
    {e : Entry} (he : e ∈ es) :
    ∃ (B A : Forest) (child : Root), F = B.append (child.forest.append A) ∧ child.Makes e ∧ child.forest.Loose := by
  obtain ⟨child, hchild, hmakes⟩ := exists_of_mem_right (entries?_eq_some_iff.mp hes) he
  obtain ⟨B, A, rfl⟩ := exists_append_of_mem_elements (List.mem_filter.mp hchild).1
  refine ⟨B, A, child, rfl, hmakes, fun k hk => hF k ?_⟩
  rw [Forest.tokens_append, Forest.tokens_append]
  exact List.mem_append_right B.tokens (List.mem_append_left A.tokens hk)

/-! ### Places in a text -/

/-- The child of the root that makes an entry of a text stands after `before`. -/
def EntryAt (t before : Text) (e : Entry) : Prop :=
  ∃ (ks : List Token) (child : Root) (ms : List Token), (Markup.read t).tokens = ks ++ (child.tokens ++ ms) ∧
    sources ks = before ∧ level 0 ks = 1 ∧ child.Makes e

theorem level_of_outside {ks : List Token} (h : ∀ k ∈ ks, k.Outside) (n : Nat) : level n ks = n := by
  obtain ⟨F, rfl⟩ := exists_forest_of_isLeaf fun k hk => (h k hk).isLeaf
  exact F.level_tokens n

namespace Outline
variable {o : Outline} {attributes : List Attribute} {entries : List Entry}

/-- A child of the root that makes an entry makes it where it is placed. -/
theorem entryAt (htight : o.Tight) (hreads : o.Reads attributes entries) (hmark : Unmarked o.source) {before : Text}
    {child : Root} (h : (before, child) ∈ o.root.children.placed (sources o.before ++ o.root.opening.source))
    {e : Entry} (hmakes : child.Makes e) : EntryAt o.source before e := by
  obtain ⟨B, A, hchildren, rfl⟩ := Forest.exists_append_of_mem_placed h
  rw [EntryAt, read_source htight hreads hmark]
  cases hroot : o.root with
  | empty tag =>
    rw [hroot] at h
    cases h
  | element tag body written closes =>
    rw [hroot] at hchildren
    refine ⟨o.before ++ Token.start tag :: B.tokens, child, A.tokens ++ .close written :: o.after, ?_, ?_, ?_, hmakes⟩
    · have hbody : body = B.append (child.forest.append A) := hchildren
      simp [tokens, hroot, Root.tokens, hbody, Root.tokens_forest]
    · simp [Root.opening, Forest.source]
    · rw [level_append, level_of_outside hreads.before, level, List.foldl_cons]
      exact B.level_tokens 1

end Outline
end StringResources.Parse
