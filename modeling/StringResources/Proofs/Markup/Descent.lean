import StringResources.Proofs.Markup.Forest

/-! Tokens read as a forest by descent: a start tag is followed by the forest in its element and by the end tag that
    closes it. Main statement: `ofTokens?_eq_some_iff`, tokens are read as a forest exactly if they are its tokens, so
    no tokens are those of two forests. -/

namespace StringResources.Markup.Forest

/-- The forest that tokens begin with, and the tokens from the first end tag on that closes none of its elements. None
    if an element is not closed, or not by its end tag. -/
def descend (ks : List Token) : Option (Forest × { rest : List Token // rest.length ≤ ks.length }) :=
  match ks with
  | [] => some (nil, ⟨[], Nat.le_refl _⟩)
  | .close written :: ks => some (nil, ⟨.close written :: ks, Nat.le_refl _⟩)
  | .start tag :: ks =>
    match descend ks with
    | some (body, ⟨.close written :: after, hafter⟩) =>
      if closes : closeName written = tag.name then
        match descend after with
        | some (F, ⟨rest, hrest⟩) =>
          some (element tag body written closes F,
            ⟨rest, hrest.trans ((Nat.le_succ _).trans (hafter.trans (Nat.le_succ _)))⟩)
        | none => none
      else none
    | _ => none
  | k :: ks =>
    if isLeaf : k.isLeaf = true then
      match descend ks with
      | some (F, ⟨rest, hrest⟩) => some (leaf k isLeaf F, ⟨rest, Nat.le_succ_of_le hrest⟩)
      | none => none
    else none
termination_by ks.length
decreasing_by
  · exact Nat.lt_succ_self _
  · exact Nat.lt_succ_of_lt hafter
  · exact Nat.lt_succ_self _

/-- The forest whose tokens are given, read from them by descent. -/
def ofTokens? (ks : List Token) : Option Forest :=
  match descend ks with
  | some (F, ⟨[], _⟩) => some F
  | _ => none

/-- Reading by descent gives a forest with the tokens that were read. -/
theorem tokens_of_descend {ks : List Token} {F : Forest} {rest : { rest : List Token // rest.length ≤ ks.length }}
    (h : descend ks = some (F, rest)) : F.tokens ++ rest.val = ks := by
  fun_induction descend ks generalizing F with
  | case1 =>
    cases h
    rfl
  | case2 written ks =>
    cases h
    rfl
  | case3 tag ks body written after hafter hbody closes G rest' hrest hG ihbody ihrest =>
    cases h
    have hafter : body.tokens ++ .close written :: after = ks := ihbody hbody
    have hrest : G.tokens ++ rest' = after := ihrest hG
    simp [tokens, hrest, hafter]
  | case4 => cases h
  | case5 => cases h
  | case6 => cases h
  | case7 k ks _ _ isLeaf G rest' hrest hG ih =>
    cases h
    exact congrArg (k :: ·) (ih hG)
  | case8 => cases h
  | case9 => cases h

section Complete
variable {ks after : List Token} {F : Forest}

theorem descend_leaf {k : Token} (hk : k.isLeaf = true) {rest : { rest : List Token // rest.length ≤ ks.length }}
    (h : descend ks = some (F, rest)) :
    descend (k :: ks) = some (leaf k hk F, ⟨rest.val, Nat.le_succ_of_le rest.property⟩) := by
  cases k <;> first | cases hk; done | (rw [descend] <;> simp [h, hk])

theorem descend_element {tag : Tag} {body : Forest} {written : Text} (closes : closeName written = tag.name)
    {hafter : (.close written :: after : List Token).length ≤ ks.length}
    {rest : { rest : List Token // rest.length ≤ after.length }}
    (hbody : descend ks = some (body, ⟨.close written :: after, hafter⟩)) (h : descend after = some (F, rest)) :
    descend (.start tag :: ks) = some (element tag body written closes F,
      ⟨rest.val, rest.property.trans ((Nat.le_succ _).trans (hafter.trans (Nat.le_succ _)))⟩) := by
  simp [descend, hbody, closes, h]

/-- The tokens of a forest are read as the forest, and the tokens from an end tag on that follow it are left. -/
theorem descend_append (F : Forest) {rest : List Token} (hrest : descend rest = some (nil, ⟨rest, Nat.le_refl _⟩)) :
    ∃ h, descend (F.tokens ++ rest) = some (F, ⟨rest, h⟩) := by
  induction F generalizing rest with
  | nil => exact ⟨Nat.le_refl _, hrest⟩
  | leaf k hk F ih =>
    obtain ⟨_, hF⟩ := ih hrest
    exact ⟨_, descend_leaf hk hF⟩
  | element tag body written closes F ihbody ih =>
    obtain ⟨_, hF⟩ := ih hrest
    obtain ⟨_, hbody⟩ := @ihbody (.close written :: (F.tokens ++ rest)) (by rw [descend])
    rw [tokens, List.cons_append, List.append_assoc, List.cons_append]
    exact ⟨_, descend_element closes hbody hF⟩

end Complete

/-- Tokens are read as a forest exactly if they are its tokens. -/
theorem ofTokens?_eq_some_iff {ks : List Token} {F : Forest} : ofTokens? ks = some F ↔ F.tokens = ks := by
  constructor
  · intro h
    unfold ofTokens? at h
    split at h
    · next G hG hd =>
      cases h
      exact (List.append_nil _).symm.trans (tokens_of_descend hd)
    · cases h
  · rintro rfl
    obtain ⟨_, h⟩ := @descend_append F [] (by rw [descend])
    have hread : ofTokens? (F.tokens ++ []) = some F := by rw [ofTokens?, h]
    rwa [List.append_nil] at hread

theorem tokens_injective : Function.Injective tokens := fun _ _ h =>
  Option.some.inj ((ofTokens?_eq_some_iff.mpr h).symm.trans (ofTokens?_eq_some_iff.mpr rfl))

end StringResources.Markup.Forest
