import StringResources.Text.Basic

/-! Line and column of a byte offset, as error messages give them. Both count from one. -/

namespace StringResources

/-- A line of a text and a column on it, each counted from one. -/
structure Location where
  line : Nat
  column : Nat
  deriving DecidableEq, Repr

namespace Text

/-- The characters that end at or before a byte offset. -/
def before : Nat → Text → Text
  | 0, _ => []
  | _ + 1, [] => []
  | n + 1, c :: t => if c.utf8Size ≤ n + 1 then c :: before (n + 1 - c.utf8Size) t else []

/-- The location of a byte offset; offsets past the end count as the end. The column counts characters.
    Inside a character no whole number of characters lies before the offset, and the column counts
    bytes. -/
def location (t : Text) (offset : Nat) : Location :=
  let n := min offset t.size
  let whole := before n t
  { line := whole.count '\n' + 1
    column :=
      if whole.size = n then whole.lastLine.length + 1
      else n - (whole.size - whole.lastLine.size) + 1 }

theorem before_size (s t : Text) : before (size s) (s ++ t) = s := by
  induction s with
  | nil => simp [before]
  | cons c s ih =>
    obtain ⟨n, hn, hle, hs⟩ := exists_size_cons c s
    rw [hn, List.cons_append, before, if_pos hle, hs, ih]

/-- Between characters the location is read off the text before. -/
theorem location_size (s t : Text) :
    location (s ++ t) (size s) = { line := s.count '\n' + 1, column := s.lastLine.length + 1 } := by
  simp [location, before_size]

end Text
end StringResources
