/-! Texts as lists of characters, addressed by the byte offsets of their UTF-8 form. A text can be cut
    only between characters; `drop?`, `take?` and `slice?` say `none` for every other offset. The main
    statements are `drop?_eq_some_iff`, `take?_eq_some_iff` and `slice?_eq_some_iff`: a slice is a way to
    write the text as three parts of known sizes. -/

namespace StringResources

/-- A text: its characters in order. -/
abbrev Text := List Char

namespace Text

/-! ### Sizes and cuts -/

/-- The number of bytes of the UTF-8 form. -/
def size : Text → Nat
  | [] => 0
  | c :: t => c.utf8Size + size t

@[simp] theorem size_nil : size [] = 0 := rfl

@[simp] theorem size_cons (c : Char) (t : Text) : size (c :: t) = c.utf8Size + size t := rfl

@[simp] theorem size_append (s t : Text) : size (s ++ t) = size s + size t := by
  induction s with
  | nil => simp
  | cons c s ih => simp [ih, Nat.add_assoc]

theorem size_eq_zero {t : Text} : size t = 0 ↔ t = [] := by
  cases t with
  | nil => simp
  | cons c t => simp [Nat.ne_of_gt (Char.utf8Size_pos c)]

/-- The text from a byte offset on; none inside a character or past the end. -/
def drop? : Nat → Text → Option Text
  | 0, t => some t
  | _ + 1, [] => none
  | n + 1, c :: t => if c.utf8Size ≤ n + 1 then drop? (n + 1 - c.utf8Size) t else none

/-- The text up to a byte offset; none inside a character or past the end. -/
def take? : Nat → Text → Option Text
  | 0, _ => some []
  | _ + 1, [] => none
  | n + 1, c :: t => if c.utf8Size ≤ n + 1 then (take? (n + 1 - c.utf8Size) t).map (c :: ·) else none

/-- The size of a text with one more character, less one, and what it leaves for the rest. -/
theorem exists_size_cons (c : Char) (t : Text) :
    ∃ n, size (c :: t) = n + 1 ∧ c.utf8Size ≤ n + 1 ∧ n + 1 - c.utf8Size = size t := by
  have := Char.utf8Size_pos c
  exact ⟨size (c :: t) - 1, by simp only [size_cons]; omega, by simp only [size_cons]; omega,
    by simp only [size_cons]; omega⟩

theorem drop?_append (s t : Text) : drop? (size s) (s ++ t) = some t := by
  induction s with
  | nil => simp [drop?]
  | cons c s ih =>
    obtain ⟨n, hn, hle, hs⟩ := exists_size_cons c s
    rw [hn, List.cons_append, drop?, if_pos hle, hs, ih]

theorem take?_append (s t : Text) : take? (size s) (s ++ t) = some s := by
  induction s with
  | nil => simp [take?]
  | cons c s ih =>
    obtain ⟨n, hn, hle, hs⟩ := exists_size_cons c s
    rw [hn, List.cons_append, take?, if_pos hle, hs, ih]
    rfl

theorem drop?_eq_some_iff {n : Nat} {t r : Text} : drop? n t = some r ↔ ∃ s, t = s ++ r ∧ size s = n := by
  constructor
  · intro h
    induction t generalizing n with
    | nil => cases n <;> simp [drop?] at h; exact ⟨[], by simp [h]⟩
    | cons c t ih =>
      cases n with
      | zero => exact ⟨[], by simpa [drop?] using h, rfl⟩
      | succ n =>
        rw [drop?] at h
        split at h
        · next hle =>
          obtain ⟨s, rfl, hs⟩ := ih h
          exact ⟨c :: s, rfl, by simp only [size_cons]; omega⟩
        · cases h
  · rintro ⟨s, rfl, rfl⟩
    exact drop?_append s r

theorem take?_eq_some_iff {n : Nat} {t s : Text} : take? n t = some s ↔ ∃ r, t = s ++ r ∧ size s = n := by
  constructor
  · intro h
    induction t generalizing n s with
    | nil => cases n <;> simp [take?] at h; exact ⟨[], by simp [h]⟩
    | cons c t ih =>
      cases n with
      | zero => exact ⟨c :: t, by simp [take?] at h; simp [h]⟩
      | succ n =>
        rw [take?] at h
        split at h
        · next hle =>
          obtain ⟨s', hs', rfl⟩ := Option.map_eq_some_iff.mp h
          obtain ⟨r, rfl, hs⟩ := ih hs'
          exact ⟨r, rfl, by simp only [size_cons]; omega⟩
        · cases h
  · rintro ⟨r, rfl, rfl⟩
    exact take?_append s r

/-- The part of a text between two byte offsets. It exists if both lie between characters of the text
    and the first is not past the second. -/
def slice? (t : Text) (start stop : Nat) : Option Text :=
  if start ≤ stop then (drop? start t).bind (take? (stop - start)) else none

theorem slice?_eq_some_iff {t s : Text} {start stop : Nat} :
    slice? t start stop = some s ↔ ∃ a b, t = a ++ (s ++ b) ∧ size a = start ∧ start + size s = stop := by
  constructor
  · intro h
    rw [slice?] at h
    split at h
    · next hle =>
      obtain ⟨r, hr, hs⟩ := Option.bind_eq_some_iff.mp h
      obtain ⟨a, rfl, ha⟩ := drop?_eq_some_iff.mp hr
      obtain ⟨b, rfl, hb⟩ := take?_eq_some_iff.mp hs
      exact ⟨a, b, rfl, ha, by omega⟩
    · cases h
  · rintro ⟨a, b, rfl, rfl, rfl⟩
    rw [slice?, if_pos (by omega), drop?_append, Nat.add_sub_cancel_left]
    exact take?_append s b

/-! ### Searching -/

/-- What follows `lead` in a text that starts with it. -/
def stripStart? : (lead : Text) → Text → Option Text
  | [], t => some t
  | _ :: _, [] => none
  | a :: lead, c :: t => if a = c then stripStart? lead t else none

theorem stripStart?_eq_some_iff {lead t r : Text} : stripStart? lead t = some r ↔ t = lead ++ r := by
  induction lead generalizing t with
  | nil => simp [stripStart?]
  | cons a lead ih =>
    cases t with
    | nil => simp [stripStart?]
    | cons c t =>
      rw [stripStart?]
      split
      · next hac => simp [ih, hac]
      · next hac => simp [Ne.symm hac]

/-- What precedes `tail` in a text that ends with it. -/
def stripEnd? (tail t : Text) : Option Text :=
  (stripStart? tail.reverse t.reverse).map List.reverse

theorem stripEnd?_eq_some_iff {tail t r : Text} : stripEnd? tail t = some r ↔ t = r ++ tail := by
  rw [stripEnd?, Option.map_eq_some_iff]
  constructor
  · rintro ⟨u, hu, rfl⟩
    rw [stripStart?_eq_some_iff] at hu
    rw [← List.reverse_reverse t, hu]
    simp
  · rintro rfl
    exact ⟨r.reverse, stripStart?_eq_some_iff.mpr (by simp), by simp⟩

/-- The parts of a text before and after the first occurrence of `mark`. -/
def splitAt? (mark : Text) : Text → Option (Text × Text)
  | [] => if mark = [] then some ([], []) else none
  | c :: t =>
    match stripStart? mark (c :: t) with
    | some r => some ([], r)
    | none => (splitAt? mark t).map fun (s, r) => (c :: s, r)

theorem eq_append_of_splitAt? {mark t s r : Text} (h : splitAt? mark t = some (s, r)) : t = s ++ (mark ++ r) := by
  induction t generalizing s with
  | nil =>
    rw [splitAt?] at h
    split at h
    · next hm => simp_all
    · cases h
  | cons c t ih =>
    rw [splitAt?] at h
    split at h
    · next r' hr =>
      obtain ⟨rfl, rfl⟩ := Prod.mk.inj (Option.some.inj h)
      simpa using stripStart?_eq_some_iff.mp hr
    · obtain ⟨⟨s', r'⟩, hs, heq⟩ := Option.map_eq_some_iff.mp h
      obtain ⟨rfl, rfl⟩ := Prod.mk.inj heq
      simp [ih hs]

/-- The parts of a text between the occurrences of `separator`, empty ones included. -/
def splitOn (separator : Char) : Text → List Text
  | [] => [[]]
  | c :: t =>
    if c = separator then [] :: splitOn separator t
    else
      match splitOn separator t with
      | [] => [[c]]
      | part :: parts => (c :: part) :: parts

/-! ### Trimming -/

/-- A text without the characters at its end for which `p` holds. -/
def trimEnd (p : Char → Bool) (t : Text) : Text := (t.reverse.dropWhile p).reverse

theorem trimEnd_append_takeWhile (p : Char → Bool) (t : Text) :
    trimEnd p t ++ (t.reverse.takeWhile p).reverse = t := by
  rw [trimEnd, ← List.reverse_append, List.takeWhile_append_dropWhile, List.reverse_reverse]

/-- The characters after the last line feed. -/
def lastLine (t : Text) : Text := (t.reverse.takeWhile (· != '\n')).reverse

def ofNat (n : Nat) : Text := Nat.toDigits 10 n

/-- The order of texts by their UTF-8 bytes, which is the order by code points. -/
def le : Text → Text → Bool
  | [], _ => true
  | _ :: _, [] => false
  | a :: s, b :: t => if a = b then le s t else a.val < b.val

end Text
end StringResources
