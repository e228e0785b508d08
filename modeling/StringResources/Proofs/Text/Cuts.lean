import Mathlib.Data.List.TakeWhile
import StringResources.Text.Blank

/-! Cutting texts that were put together: a beginning is known by its size, trimming reaches only into the
    last part, and the first occurrence of a mark does not depend on what follows it. -/

namespace StringResources.Text

/-! ### Beginnings and their sizes -/

theorem exists_append_of_size_le {a b c d : Text} (h : a ++ b = c ++ d) (hsize : size a ≤ size c) :
    ∃ w, c = a ++ w ∧ b = w ++ d := by
  rcases List.append_eq_append_iff.mp h with ⟨w, rfl, rfl⟩ | ⟨w, rfl, rfl⟩
  · exact ⟨w, rfl, rfl⟩
  · have hnil : w = [] := by
      rw [size_append] at hsize
      exact size_eq_zero.mp (by omega)
    exact ⟨[], by simp [hnil], by simp [hnil]⟩

theorem append_inj_of_size {a b c d : Text} (h : a ++ b = c ++ d) (hsize : size a = size c) : a = c ∧ b = d := by
  obtain ⟨w, rfl, rfl⟩ := exists_append_of_size_le h hsize.le
  have hnil : w = [] := by
    rw [size_append] at hsize
    exact size_eq_zero.mp (by omega)
  rw [hnil]
  exact ⟨(List.append_nil a).symm, rfl⟩

theorem length_le_size (t : Text) : t.length ≤ size t := by
  induction t with
  | nil => exact Nat.le_refl 0
  | cons c t ih =>
    have := Char.utf8Size_pos c
    rw [List.length_cons, size_cons]
    omega

/-! ### Trimming -/

theorem trimEnd_append (p : Char → Bool) (s t : Text) :
    trimEnd p (s ++ t) = if trimEnd p t = [] then trimEnd p s else s ++ trimEnd p t := by
  simp only [trimEnd, List.reverse_append, List.dropWhile_append, List.reverse_eq_nil_iff, List.isEmpty_iff]
  split <;> simp

theorem trimEnd_eq_nil_iff {p : Char → Bool} {t : Text} : trimEnd p t = [] ↔ ∀ c ∈ t, p c = true := by
  simp [trimEnd, List.dropWhile_eq_nil_iff]

theorem trimEnd_concat_of_neg {p : Char → Bool} {c : Char} (h : p c = false) (t : Text) :
    trimEnd p (t ++ [c]) = t ++ [c] := by
  simp [trimEnd, h]

theorem trimEnd_append_of_all {p : Char → Bool} {w : Text} (h : ∀ c ∈ w, p c = true) (s : Text) :
    trimEnd p (s ++ w) = trimEnd p s := by
  rw [trimEnd_append, if_pos (trimEnd_eq_nil_iff.mpr h)]

theorem trimEnd_cons_of_neg {p : Char → Bool} {c : Char} (h : p c = false) (t : Text) :
    trimEnd p (c :: t) = c :: trimEnd p t := by
  have hcons := trimEnd_append p [c] t
  rw [List.singleton_append] at hcons
  rw [hcons]
  split
  · next hnil => rw [hnil, ← List.nil_append [c], trimEnd_concat_of_neg h]
  · rfl

theorem exists_trimEnd (p : Char → Bool) (t : Text) : ∃ w, t = trimEnd p t ++ w ∧ ∀ c ∈ w, p c = true := by
  refine ⟨_, (trimEnd_append_takeWhile p t).symm, fun c hc => ?_⟩
  rw [List.mem_reverse] at hc
  exact List.mem_takeWhile_imp hc

theorem trimEnd_trimEnd (p : Char → Bool) (t : Text) : trimEnd p (trimEnd p t) = trimEnd p t := by
  obtain ⟨w, ht, hw⟩ := exists_trimEnd p t
  have htwice := trimEnd_append_of_all hw (trimEnd p t)
  rw [← ht] at htwice
  exact htwice.symm

/-- What is left does not end in a character that is trimmed. -/
theorem neg_of_mem_getLast?_trimEnd {p : Char → Bool} {t : Text} {c : Char} (h : c ∈ (trimEnd p t).getLast?) :
    p c = false := by
  rw [trimEnd, List.getLast?_reverse] at h
  have hhead := List.head?_dropWhile_not p t.reverse
  rw [Option.mem_def.mp h] at hhead
  exact hhead

/-! ### The first occurrence of a mark -/

theorem stripStart?_append {mark s : Text} (h : mark.length ≤ s.length) {r : Text}
    (hs : stripStart? mark (s ++ r) = none) (r' : Text) : stripStart? mark (s ++ r') = none := by
  induction mark generalizing s with
  | nil => simp [stripStart?] at hs
  | cons a mark ih =>
    cases s with
    | nil => simp at h
    | cons c s =>
      rw [List.cons_append, stripStart?] at hs ⊢
      split at hs
      · next hac =>
        rw [if_pos hac]
        exact ih (by simpa using h) hs
      · next hac => rw [if_neg hac]

theorem splitAt?_append {mark t s r : Text} (h : splitAt? mark t = some (s, r)) (r' : Text) :
    splitAt? mark (s ++ (mark ++ r')) = some (s, r') := by
  induction t generalizing s with
  | nil =>
    rw [splitAt?] at h
    split at h
    · next hm =>
      obtain ⟨rfl, rfl⟩ := Prod.mk.inj (Option.some.inj h)
      cases r' <;> simp [hm, splitAt?, stripStart?]
    · cases h
  | cons c t ih =>
    have ht := eq_append_of_splitAt? h
    rw [splitAt?] at h
    split at h
    · obtain ⟨rfl, rfl⟩ := Prod.mk.inj (Option.some.inj h)
      have hr : stripStart? mark (mark ++ r') = some r' := stripStart?_eq_some_iff.mpr rfl
      rw [List.nil_append]
      cases hm : mark ++ r' with
      | nil =>
        rw [List.append_eq_nil_iff] at hm
        simp [splitAt?, hm]
      | cons d u =>
        rw [hm] at hr
        rw [splitAt?, hr]
    · next hnone =>
      obtain ⟨⟨s', u⟩, hs, heq⟩ := Option.map_eq_some_iff.mp h
      obtain ⟨rfl, rfl⟩ := Prod.mk.inj heq
      -- The mark cannot begin at `c`: where it would end is still inside what was read.
      have hstart : stripStart? mark (c :: (s' ++ (mark ++ r'))) = none := by
        rw [ht] at hnone
        have hlen : mark.length ≤ (c :: (s' ++ mark)).length := by
          simp only [List.length_cons, List.length_append]
          omega
        have := stripStart?_append hlen (by simpa using hnone) r'
        simpa using this
      rw [List.cons_append, splitAt?, hstart]
      simp [ih hs]

theorem splitAt?_singleton_eq_some_iff {c : Char} {t s r : Text} :
    splitAt? [c] t = some (s, r) ↔ t = s ++ c :: r ∧ c ∉ s := by
  constructor
  · intro h
    refine ⟨by simpa using eq_append_of_splitAt? h, ?_⟩
    induction t generalizing s with
    | nil => simp [splitAt?] at h
    | cons d t ih =>
      rw [splitAt?, stripStart?] at h
      by_cases hd : c = d
      · rw [if_pos hd, stripStart?] at h
        obtain ⟨rfl, -⟩ := Prod.mk.inj (Option.some.inj h)
        exact List.not_mem_nil
      · rw [if_neg hd] at h
        obtain ⟨⟨s', r'⟩, hs, heq⟩ := Option.map_eq_some_iff.mp h
        obtain ⟨rfl, rfl⟩ := Prod.mk.inj heq
        simp [hd, ih hs]
  · rintro ⟨rfl, hc⟩
    induction s with
    | nil => simp [splitAt?, stripStart?]
    | cons d s ih =>
      rw [List.mem_cons, not_or] at hc
      rw [List.cons_append, splitAt?, stripStart?, if_neg hc.1, ih hc.2]
      rfl

theorem append_inj_of_not_mem {c : Char} {a b s r : Text} (h : a ++ c :: b = s ++ c :: r) (ha : c ∉ a) (hs : c ∉ s) :
    a = s ∧ b = r := by
  have hfirst : splitAt? [c] (a ++ c :: b) = some (a, b) := splitAt?_singleton_eq_some_iff.mpr ⟨rfl, ha⟩
  rw [h, splitAt?_singleton_eq_some_iff.mpr ⟨rfl, hs⟩] at hfirst
  obtain ⟨rfl, rfl⟩ := Prod.mk.inj (Option.some.inj hfirst)
  exact ⟨rfl, rfl⟩

/-! ### Runs of characters -/

theorem takeWhile_append_of_stop {p : Char → Bool} {s r : Text} (hs : ∀ c ∈ s, p c = true)
    (hr : ∀ c ∈ r.head?, p c = false) : (s ++ r).takeWhile p = s := by
  rw [List.takeWhile_append_of_pos hs]
  cases r with
  | nil => simp
  | cons c r => simp [hr c rfl]

theorem dropWhile_append_of_stop {p : Char → Bool} {s r : Text} (hs : ∀ c ∈ s, p c = true)
    (hr : ∀ c ∈ r.head?, p c = false) : (s ++ r).dropWhile p = r := by
  rw [List.dropWhile_append_of_pos hs]
  cases r with
  | nil => simp
  | cons c r => simp [hr c rfl]

/-! ### Parts between separators -/

theorem splitOn_ne_nil (separator : Char) (t : Text) : splitOn separator t ≠ [] := by
  induction t with
  | nil => simp [splitOn]
  | cons c t ih =>
    rw [splitOn]
    split
    · simp
    · split <;> simp

theorem splitOn_append (separator : Char) (t r : Text) :
    splitOn separator (t ++ separator :: r) = splitOn separator t ++ splitOn separator r := by
  induction t with
  | nil => simp [splitOn]
  | cons c t ih =>
    rw [List.cons_append, splitOn, splitOn, ih]
    split
    · rfl
    · obtain ⟨part, parts, hparts⟩ := List.exists_cons_of_ne_nil (splitOn_ne_nil separator t)
      rw [hparts]
      rfl

theorem splitOn_of_notMem {separator : Char} {t : Text} (h : separator ∉ t) : splitOn separator t = [t] := by
  induction t with
  | nil => rfl
  | cons c t ih =>
    rw [List.mem_cons, not_or] at h
    rw [splitOn, if_neg (Ne.symm h.1), ih h.2]

theorem notMem_of_mem_splitOn {separator : Char} {t part : Text} (h : part ∈ splitOn separator t) :
    separator ∉ part := by
  induction t generalizing part with
  | nil =>
    obtain rfl := List.mem_singleton.mp h
    exact List.not_mem_nil
  | cons c t ih =>
    rw [splitOn] at h
    split at h
    · rcases List.mem_cons.mp h with rfl | h
      · exact List.not_mem_nil
      · exact ih h
    · next hc =>
      obtain ⟨first, parts, hparts⟩ := List.exists_cons_of_ne_nil (splitOn_ne_nil separator t)
      rw [hparts] at h ih
      rcases List.mem_cons.mp h with rfl | h
      · rw [List.mem_cons, not_or]
        exact ⟨Ne.symm hc, ih List.mem_cons_self⟩
      · exact ih (List.mem_cons_of_mem _ h)

end StringResources.Text
