import StringResources.Proofs.Text.Cuts

/-! Texts in which each line feed follows a carriage return. Parts put together are such a text if each of them is, and
    a part of such a text is one unless it begins between the two characters. -/

namespace StringResources.Text

/-- Each line feed of a text follows a carriage return. -/
def Returned (t : Text) : Prop := ∀ s r, t = s ++ '\n' :: r → s.getLast? = some '\r'

theorem returned_of_notMem {t : Text} (h : '\n' ∉ t) : Returned t := by
  rintro s r rfl
  simp at h

theorem Returned.append {s t : Text} (hs : Returned s) (ht : Returned t) : Returned (s ++ t) := by
  intro a b h
  rcases List.append_eq_append_iff.mp h with ⟨w, rfl, hw⟩ | ⟨w, hw, hb⟩
  · have hlast := ht w b hw
    rw [List.getLast?_append, hlast]
    rfl
  · cases w with
    | nil =>
      have hlast := ht [] b hb.symm
      cases hlast
    | cons c w =>
      obtain ⟨rfl, -⟩ := List.cons.inj hb
      exact hs a w hw

theorem Returned.left {s t : Text} (h : Returned (s ++ t)) : Returned s := by
  rintro a b rfl
  exact h a (b ++ t) (by simp)

/-- What follows does not begin between the two characters of a line break. -/
theorem Returned.right {s t : Text} (h : Returned (s ++ t)) (ht : s.getLast? ≠ some '\r' ∨ t.head? ≠ some '\n') :
    Returned t := by
  rintro a b rfl
  have hlast := h (s ++ a) b (by simp)
  rcases List.eq_nil_or_concat a with rfl | ⟨a, c, rfl⟩
  · rw [List.append_nil] at hlast
    simp [hlast] at ht
  · simpa using hlast

theorem Returned.after {s t : Text} {c : Char} (h : Returned (s ++ c :: t)) (hc : c ≠ '\r') : Returned t := by
  rw [← List.singleton_append, ← List.append_assoc] at h
  exact h.right (Or.inl (by simp [hc]))

theorem returned_crlf : Returned ['\r', '\n'] := by
  intro s r h
  cases s with
  | nil => cases h
  | cons c s =>
    obtain ⟨rfl, h⟩ := List.cons.inj h
    cases s with
    | nil => rfl
    | cons d s => simp at h

theorem splitAt?_isSome (mark s r : Text) : (splitAt? mark (s ++ (mark ++ r))).isSome = true := by
  induction s with
  | nil =>
    rw [List.nil_append]
    cases h : mark ++ r with
    | nil =>
      rw [List.append_eq_nil_iff] at h
      simp [splitAt?, h]
    | cons c t =>
      have hstart : stripStart? mark (c :: t) = some r := stripStart?_eq_some_iff.mpr h.symm
      rw [splitAt?, hstart]
      rfl
  | cons c s ih =>
    rw [List.cons_append, splitAt?]
    split
    · rfl
    · rw [Option.isSome_map]
      exact ih

end StringResources.Text
