import StringResources.Proofs.Text.Cuts
import StringResources.Text.Location

/-! Locations of the offsets between characters. With the lines first and the columns second they are in the order
    of the offsets, so no two offsets have one location, and a location is on a line of the text. Main statements:
    `location_lt_iff`, `location_inj` and `exists_line`. -/

namespace StringResources

/-- Lines come first, then columns. -/
instance : LT Location := ⟨fun a b => a.line < b.line ∨ a.line = b.line ∧ a.column < b.column⟩

theorem Location.lt_irrefl (a : Location) : ¬ a < a := by
  rintro (h | ⟨-, h⟩)
  · exact Nat.lt_irrefl _ h
  · exact Nat.lt_irrefl _ h

theorem Location.lt_asymm {a b : Location} (h : a < b) : ¬ b < a := by
  rintro (hline | ⟨hline, hcolumn⟩)
  · rcases h with h | ⟨h, -⟩ <;> omega
  · rcases h with h | ⟨-, h⟩ <;> omega

namespace Text

/-- An offset between the characters of a text, or at its start or end. -/
def Boundary (t : Text) (n : Nat) : Prop := ∃ s r, t = s ++ r ∧ size s = n

theorem boundary_zero (t : Text) : Boundary t 0 := ⟨[], t, rfl, rfl⟩

theorem boundary_size (t : Text) : Boundary t t.size := ⟨t, [], by simp, rfl⟩

/-! ### The last line -/

theorem lastLine_append_of_notMem {w : Text} (h : '\n' ∉ w) (s : Text) : lastLine (s ++ w) = lastLine s ++ w := by
  have hkept : ∀ c ∈ w.reverse, (c != '\n') = true := by
    intro c hc
    rw [bne_iff_ne]
    rintro rfl
    exact h (List.mem_reverse.mp hc)
  rw [lastLine, List.reverse_append, List.takeWhile_append_of_pos hkept]
  simp [lastLine]

theorem lastLine_append_of_mem {w : Text} (h : '\n' ∈ w) (s : Text) : lastLine (s ++ w) = lastLine w := by
  have hstop : ¬ ∀ c ∈ w.reverse, (c != '\n') = true := fun hall =>
    absurd (hall '\n' (List.mem_reverse.mpr h)) (by decide)
  have hshort : (w.reverse.takeWhile (· != '\n')).length ≠ w.reverse.length := by
    intro hlength
    refine hstop (List.takeWhile_eq_self_iff.mp ?_)
    exact (List.takeWhile_prefix _).eq_of_length hlength
  rw [lastLine, List.reverse_append, List.takeWhile_append, if_neg hshort, lastLine]

/-- A text is on its first line, or its last line follows a line feed. -/
theorem eq_or_exists_lastLine (s : Text) :
    ('\n' ∉ s ∧ lastLine s = s) ∨ ∃ lead, s = lead ++ '\n' :: lastLine s ∧ '\n' ∉ lastLine s := by
  have hfree : '\n' ∉ lastLine s := by
    intro hmem
    rw [lastLine, List.mem_reverse] at hmem
    exact absurd (List.mem_takeWhile_imp hmem) (by decide)
  have hsplit : trimEnd (· != '\n') s ++ lastLine s = s := trimEnd_append_takeWhile (· != '\n') s
  rcases List.eq_nil_or_concat (trimEnd (· != '\n') s) with hnil | ⟨lead, c, hlead⟩
  · rw [hnil, List.nil_append] at hsplit
    exact Or.inl ⟨hsplit ▸ hfree, hsplit⟩
  · rw [List.concat_eq_append] at hlead
    have hc : (c != '\n') = false := neg_of_mem_getLast?_trimEnd (p := (· != '\n')) (t := s) (by rw [hlead]; simp)
    obtain rfl : c = '\n' := by simpa using hc
    rw [hlead] at hsplit
    exact Or.inr ⟨lead, by simpa using hsplit.symm, hfree⟩

theorem length_splitOn (separator : Char) (t : Text) : (splitOn separator t).length = t.count separator + 1 := by
  induction t with
  | nil => rfl
  | cons c t ih =>
    obtain ⟨part, parts, hparts⟩ := List.exists_cons_of_ne_nil (splitOn_ne_nil separator t)
    rw [hparts] at ih
    rw [splitOn, hparts]
    by_cases hc : c = separator
    · rw [if_pos hc, hc, List.count_cons_self, List.length_cons, ih]
    · rw [if_neg hc, List.count_cons_of_ne hc]
      exact ih

/-- The last line of what stands before a cut begins the line that is cut. -/
theorem exists_line_of_append (s r : Text) :
    ∃ line, (splitOn '\n' (s ++ r))[s.count '\n']? = some line ∧ (lastLine s).length ≤ line.length := by
  have hfirst : ∀ w : Text, '\n' ∉ w → ∃ line lines, splitOn '\n' (w ++ r) = line :: lines ∧ w.length ≤ line.length := by
    intro w hw
    induction w with
    | nil =>
      obtain ⟨line, lines, hlines⟩ := List.exists_cons_of_ne_nil (splitOn_ne_nil '\n' r)
      exact ⟨line, lines, hlines, Nat.zero_le _⟩
    | cons c w ih =>
      rw [List.mem_cons, not_or] at hw
      obtain ⟨line, lines, hlines, hle⟩ := ih hw.2
      refine ⟨c :: line, lines, ?_, Nat.succ_le_succ hle⟩
      rw [List.cons_append, splitOn, if_neg (Ne.symm hw.1), hlines]
  rcases eq_or_exists_lastLine s with ⟨hfree, hlast⟩ | ⟨lead, hlead, hfree⟩
  · obtain ⟨line, lines, hlines, hle⟩ := hfirst s hfree
    exact ⟨line, by rw [hlines, List.count_eq_zero.mpr hfree]; rfl, hlast.symm ▸ hle⟩
  · obtain ⟨line, lines, hlines, hle⟩ := hfirst (lastLine s) hfree
    refine ⟨line, ?_, hle⟩
    have hcount : s.count '\n' = (splitOn '\n' lead).length := by
      rw [hlead, List.count_append, List.count_cons_self, List.count_eq_zero.mpr hfree, length_splitOn]
    have hsplit : splitOn '\n' (s ++ r) = splitOn '\n' lead ++ line :: lines := by
      calc splitOn '\n' (s ++ r) = splitOn '\n' ((lead ++ '\n' :: lastLine s) ++ r) := by rw [← hlead]
        _ = splitOn '\n' (lead ++ '\n' :: (lastLine s ++ r)) := by simp
        _ = splitOn '\n' lead ++ line :: lines := by rw [splitOn_append, hlines]
    rw [hcount, hsplit]
    simp

/-! ### The order of locations -/

theorem location_append {t : Text} {n : Nat} (h : Boundary t n) (u : Text) : location (t ++ u) n = location t n := by
  obtain ⟨s, r, rfl, rfl⟩ := h
  rw [List.append_assoc, location_size, location_size]

theorem location_of_size_le {t : Text} {n : Nat} (h : t.size ≤ n) : location t n = location t t.size := by
  simp only [location, Nat.min_eq_right h, Nat.min_self]

/-- More characters before an offset lead to a later line, or further on the same line. -/
theorem location_lt_of_append {w : Text} (hw : w ≠ []) (s r : Text) :
    location (s ++ (w ++ r)) s.size < location (s ++ (w ++ r)) (s ++ w).size := by
  have hlater := location_size (s ++ w) r
  rw [List.append_assoc] at hlater
  rw [location_size, hlater]
  by_cases hmem : '\n' ∈ w
  · refine Or.inl ?_
    have := List.count_pos_iff.mpr hmem
    rw [List.count_append]
    dsimp only
    omega
  · refine Or.inr ⟨?_, ?_⟩
    · rw [List.count_append, List.count_eq_zero.mpr hmem, Nat.add_zero]
    · have := List.length_pos_iff.mpr hw
      rw [lastLine_append_of_notMem hmem, List.length_append]
      dsimp only
      omega

section Boundary
variable {t : Text} {m n : Nat}

theorem location_lt_of_lt (hm : Boundary t m) (hn : Boundary t n) (h : m < n) : location t m < location t n := by
  obtain ⟨s, r, rfl, rfl⟩ := hm
  obtain ⟨s', r', ht, rfl⟩ := hn
  obtain ⟨w, rfl, rfl⟩ := exists_append_of_size_le ht h.le
  refine location_lt_of_append ?_ s r'
  rintro rfl
  rw [List.append_nil] at h
  exact Nat.lt_irrefl _ h

theorem location_inj (hm : Boundary t m) (hn : Boundary t n) : location t m = location t n ↔ m = n := by
  refine ⟨fun h => ?_, fun h => h ▸ rfl⟩
  rcases Nat.lt_trichotomy m n with hlt | heq | hlt
  · exact absurd (location_lt_of_lt hm hn hlt) (h ▸ Location.lt_irrefl _)
  · exact heq
  · exact absurd (location_lt_of_lt hn hm hlt) (h ▸ Location.lt_irrefl _)

theorem location_lt_iff (hm : Boundary t m) (hn : Boundary t n) : location t m < location t n ↔ m < n := by
  refine ⟨fun h => ?_, location_lt_of_lt hm hn⟩
  rcases Nat.lt_trichotomy m n with hlt | heq | hlt
  · exact hlt
  · exact absurd h (heq ▸ Location.lt_irrefl _)
  · exact absurd h (Location.lt_asymm (location_lt_of_lt hn hm hlt))

/-- The location of a boundary is on a line of the text, at most one column past its characters. -/
theorem exists_line (h : Boundary t n) : 1 ≤ (location t n).line ∧ 1 ≤ (location t n).column ∧
    ∃ line, (splitOn '\n' t)[(location t n).line - 1]? = some line ∧ (location t n).column ≤ line.length + 1 := by
  obtain ⟨s, r, rfl, rfl⟩ := h
  obtain ⟨line, hline, hle⟩ := exists_line_of_append s r
  rw [location_size]
  exact ⟨Nat.le_add_left 1 _, Nat.le_add_left 1 _, line, by rwa [Nat.add_sub_cancel], Nat.succ_le_succ hle⟩

end Boundary

end Text
end StringResources
