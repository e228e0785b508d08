import StringResources.Proofs.Markup.Quotes

/-! Markup stands alone: the end of a token of markup is found within the token, so it is read as the same
    token whatever follows it. Main statement: `next_alone`. -/

namespace StringResources.Markup
open Text

/-- Whether a token is characters outside markup. -/
def Token.isText : Token → Bool
  | .text _ => true
  | _ => false

/-- Reader `f`, which starts after `lead`, reads markup `k` from `t`, leaves `r`, and would read the same
    token before any other rest. -/
def Stands (f : Text → Except Fault (Token × Text)) (lead t : Text) (k : Token) (r : Text) : Prop :=
  k.isText = false ∧ ∃ s, k.source = lead ++ s ∧ t = s ++ r ∧ ∀ r', f (s ++ r') = .ok (k, r')

theorem nextComment_stands {t r : Text} {k : Token} (h : nextComment t = .ok (k, r)) :
    Stands nextComment ['<', '!', '-', '-'] t k r := by
  unfold nextComment at h
  split at h
  · next content rest hs =>
    obtain ⟨rfl, rfl⟩ := Prod.mk.inj (Except.ok.inj h)
    refine ⟨rfl, content ++ Token.commentEnd, rfl, by simpa using eq_append_of_splitAt? hs, fun r' => ?_⟩
    rw [nextComment, List.append_assoc, splitAt?_append hs]
  · cases h

theorem nextCData_stands {t r : Text} {k : Token} (h : nextCData t = .ok (k, r)) :
    Stands nextCData ('<' :: '!' :: '[' :: Token.cdataKeyword) t k r := by
  unfold nextCData at h
  split at h
  · next content rest hs =>
    obtain ⟨rfl, rfl⟩ := Prod.mk.inj (Except.ok.inj h)
    refine ⟨rfl, content ++ Token.cdataEnd, rfl, by simpa using eq_append_of_splitAt? hs, fun r' => ?_⟩
    rw [nextCData, List.append_assoc, splitAt?_append hs]
  · cases h

theorem doctypeEnd?_append {depth : Nat} {t s r : Text} (h : doctypeEnd? depth t = some (s, r)) (r' : Text) :
    doctypeEnd? depth (s ++ '>' :: r') = some (s, r') := by
  induction t generalizing depth s with
  | nil => simp [doctypeEnd?] at h
  | cons c t ih =>
    have more : ∀ {depth : Nat}, (doctypeEnd? depth t).map (fun x => (c :: x.1, x.2)) = some (s, r) →
        ∃ s', s = c :: s' ∧ doctypeEnd? depth (s' ++ '>' :: r') = some (s', r') := by
      intro depth h
      obtain ⟨⟨s', u⟩, hs, heq⟩ := Option.map_eq_some_iff.mp h
      obtain ⟨rfl, rfl⟩ := Prod.mk.inj heq
      exact ⟨s', rfl, ih hs⟩
    rw [doctypeEnd?.eq_def] at h
    dsimp only at h
    split at h
    · next hc =>
      cases depth with
      | zero =>
        obtain ⟨rfl, rfl⟩ := Prod.mk.inj (Option.some.inj h)
        simp [doctypeEnd?]
      | succ depth =>
        obtain ⟨s', rfl, hs⟩ := more h
        simp [doctypeEnd?, hc, hs]
    · next hc =>
      obtain ⟨s', rfl, hs⟩ := more h
      rw [List.cons_append, doctypeEnd?.eq_def]
      simp [hc, hs]

theorem nextDoctype_stands {t r : Text} {k : Token} (h : nextDoctype t = .ok (k, r)) :
    Stands nextDoctype ['<', '!'] t k r := by
  unfold nextDoctype at h
  split at h
  · cases h
  · next content rest hs =>
    split at h
    · cases h
    · next name hn =>
      split at h
      · cases h
      · next hb =>
        obtain ⟨rfl, rfl⟩ := Prod.mk.inj (Except.ok.inj h)
        refine ⟨rfl, content ++ ['>'], rfl, by simpa using eq_append_of_doctypeEnd? hs, fun r' => ?_⟩
        have : doctypeEnd? 0 (content ++ ['>'] ++ r') = some (content, r') := by
          simpa using doctypeEnd?_append hs r'
        rw [nextDoctype, this]
        simp only [hn, if_neg hb]

theorem nextDeclaration_stands {t r : Text} {k : Token} (h : nextDeclaration t = .ok (k, r)) :
    Stands nextDeclaration ['<', '!'] t k r := by
  unfold nextDeclaration at h
  split at h
  · cases h
  · next c t =>
    split at h
    · next hc =>
      split at h
      · next u =>
        obtain ⟨hx, s, hk, rfl, hs⟩ := nextComment_stands h
        exact ⟨hx, '-' :: '-' :: s, hk, by rw [hc]; rfl, fun r' => hs r'⟩
      · cases h
    · next hc =>
      split at h
      · next hb =>
        split at h
        · next u hu =>
          obtain ⟨hx, s, hk, rfl, hs⟩ := nextCData_stands h
          rw [stripStart?_eq_some_iff] at hu
          refine ⟨hx, '[' :: (Token.cdataKeyword ++ s), hk, by simp [hb, hu], fun r' => ?_⟩
          have hstrip : stripStart? Token.cdataKeyword (Token.cdataKeyword ++ s ++ r') = some (s ++ r') :=
            stripStart?_eq_some_iff.mpr (List.append_assoc _ _ _)
          rw [List.cons_append, nextDeclaration.eq_def]
          dsimp only
          rw [if_neg (by decide), if_pos rfl, hstrip]
          exact hs r'
        · cases h
      · next hb =>
        split at h
        · next hd =>
          obtain ⟨hx, s, hk, ht, hs⟩ := nextDoctype_stands h
          refine ⟨hx, s, hk, ht, fun r' => ?_⟩
          cases s with
          | nil =>
            have := hs []
            simp [nextDoctype, doctypeEnd?, faultAtStart] at this
          | cons a s =>
            obtain ⟨rfl, -⟩ := List.cons.inj ht
            rw [List.cons_append, nextDeclaration.eq_def]
            dsimp only
            rw [if_neg hc, if_neg hb, if_pos hd]
            exact hs r'
        · cases h

theorem nextInstruction_stands {t r : Text} {k : Token} (h : nextInstruction t = .ok (k, r)) :
    Stands nextInstruction ['<', '?'] t k r := by
  unfold nextInstruction at h
  split at h
  · cases h
  · next hne =>
    split at h
    · next content rest hs =>
      obtain ⟨rfl, rfl⟩ := Prod.mk.inj (Except.ok.inj h)
      have ht := eq_append_of_splitAt? hs
      refine ⟨rfl, content ++ Token.instructionEnd, rfl, by simpa using ht, fun r' => ?_⟩
      have hstart : ∀ u, content ++ Token.instructionEnd ++ r' ≠ '>' :: u := by
        intro u hu
        cases content with
        | nil => cases hu
        | cons a content =>
          obtain ⟨rfl, -⟩ := List.cons.inj hu
          exact hne _ ht
      unfold nextInstruction
      split
      · next u hu => exact absurd hu (hstart u)
      · rw [List.append_assoc, splitAt?_append hs]
    · cases h

theorem nextClose_stands {t r : Text} {k : Token} (h : nextClose t = .ok (k, r)) :
    Stands nextClose ['<', '/'] t k r := by
  unfold nextClose at h
  split at h
  · next written rest hs =>
    obtain ⟨rfl, rfl⟩ := Prod.mk.inj (Except.ok.inj h)
    obtain ⟨ht, hq⟩ := tagEnd?_eq_some_iff.mp hs
    refine ⟨rfl, written ++ ['>'], rfl, by simpa using ht, fun r' => ?_⟩
    rw [nextClose, List.append_assoc, List.singleton_append, tagEnd?_eq_some_iff.mpr ⟨rfl, hq⟩]
  · cases h

theorem nextTag_stands {t r : Text} {k : Token} (h : nextTag t = .ok (k, r)) : Stands nextTag ['<'] t k r := by
  unfold nextTag at h
  split at h
  · next content rest hs =>
    obtain ⟨ht, hq⟩ := tagEnd?_eq_some_iff.mp hs
    have hend : ∀ r', tagEnd? none (content ++ ['>'] ++ r') = some (content, r') := fun r' => by
      rw [List.append_assoc, List.singleton_append, tagEnd?_eq_some_iff.mpr ⟨rfl, hq⟩]
    split at h
    · next inner hi =>
      obtain ⟨rfl, rfl⟩ := Prod.mk.inj (Except.ok.inj h)
      refine ⟨rfl, content ++ ['>'], ?_, by simpa using ht, fun r' => ?_⟩
      · simp [Token.source, stripEnd?_eq_some_iff.mp hi]
      · simp only [nextTag, hend, hi]
    · next hi =>
      obtain ⟨rfl, rfl⟩ := Prod.mk.inj (Except.ok.inj h)
      refine ⟨rfl, content ++ ['>'], by simp [Token.source], by simpa using ht, fun r' => ?_⟩
      simp only [nextTag, hend, hi]
  · cases h

theorem nextMarkup_stands {t r : Text} {k : Token} (h : nextMarkup t = .ok (k, r)) :
    Stands nextMarkup ['<'] t k r := by
  unfold nextMarkup at h
  split at h
  · cases h
  · next c u =>
    split at h
    · next hc =>
      obtain ⟨hx, s, hk, rfl, hs⟩ := nextDeclaration_stands h
      exact ⟨hx, '!' :: s, hk, by rw [hc]; rfl, fun r' => hs r'⟩
    · next hc =>
      split at h
      · next hq =>
        obtain ⟨hx, s, hk, rfl, hs⟩ := nextInstruction_stands h
        exact ⟨hx, '?' :: s, hk, by rw [hq]; rfl, fun r' => hs r'⟩
      · next hq =>
        split at h
        · next hd =>
          obtain ⟨hx, s, hk, rfl, hs⟩ := nextClose_stands h
          exact ⟨hx, '/' :: s, hk, by rw [hd]; rfl, fun r' => hs r'⟩
        · next hd =>
          obtain ⟨hx, s, hk, ht, hs⟩ := nextTag_stands h
          refine ⟨hx, s, hk, ht, fun r' => ?_⟩
          cases s with
          | nil =>
            have := hs []
            simp [nextTag, tagEnd?, faultAtStart] at this
          | cons a s =>
            obtain ⟨rfl, -⟩ := List.cons.inj ht
            rw [List.cons_append, nextMarkup, if_neg hc, if_neg hq, if_neg hd]
            exact hs r'

/-- Token `k` is read from its own text whatever follows. -/
def Token.Alone (k : Token) : Prop := ∀ r, next (k.source ++ r) = .ok (k, r)

/-- What begins with an angle bracket is read as markup that stands alone. -/
theorem next_alone {t r : Text} {k : Token} (h : next ('<' :: t) = .ok (k, r)) : k.isText = false ∧ k.Alone := by
  rw [next, if_pos rfl] at h
  obtain ⟨hx, s, hk, -, hs⟩ := nextMarkup_stands h
  refine ⟨hx, fun r' => ?_⟩
  rw [hk, List.append_assoc, List.singleton_append, next, if_pos rfl]
  exact hs r'

end StringResources.Markup
