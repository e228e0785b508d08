import StringResources.Text.Basic

/-! UTF-8 as a reading of bytes: the text the bytes are the form of, or else the longest text with whose
    form they begin, or a text that shows all of them. Main statement: `firstChar?_eq_some_iff`, the first
    character of bytes is the one with whose form they begin. -/

namespace StringResources

abbrev Bytes := List UInt8

namespace Text

def encode (t : Text) : Bytes := t.flatMap String.utf8EncodeChar

/-- The character with whose form bytes begin. No form is longer than four bytes. -/
def firstChar? (b : Bytes) : Option Char := (b.take 4).toByteArray.utf8DecodeChar? 0

theorem firstChar?_eq_some_iff {b : Bytes} {c : Char} :
    firstChar? b = some c ↔ ∃ r, b = String.utf8EncodeChar c ++ r := by
  have hc : (String.utf8EncodeChar c).length ≤ 4 := String.length_utf8EncodeChar c ▸ c.utf8Size_le_four
  constructor
  · intro h
    obtain ⟨l, hl⟩ := ByteArray.exists_of_utf8DecodeChar?_eq_some h
    have hl' := congrArg (fun x => x.data.toList) hl
    simp only [List.data_toByteArray, ByteArray.data_append, Array.toList_append] at hl'
    exact ⟨l.data.toList ++ b.drop 4, by rw [← List.append_assoc, ← hl', List.take_append_drop]⟩
  · rintro ⟨r, rfl⟩
    rw [firstChar?, List.take_append, List.take_of_length_le hc, List.toByteArray_append]
    exact ByteArray.utf8DecodeChar?_utf8EncodeChar_append

/-- The longest text with whose form bytes begin, and the bytes after it. -/
def decodeStart (b : Bytes) : Text × Bytes :=
  match _h : firstChar? b with
  | none => ([], b)
  | some c =>
    let (t, r) := decodeStart (b.drop c.utf8Size)
    (c :: t, r)
termination_by b.length
decreasing_by
  obtain ⟨r, rfl⟩ := firstChar?_eq_some_iff.mp _h
  have := Char.utf8Size_pos c
  simp only [List.length_drop, List.length_append, String.length_utf8EncodeChar]
  omega

/-- The text of which bytes are the UTF-8 form, or the longest text with whose form they begin. -/
def decode (b : Bytes) : Except Text Text :=
  match decodeStart b with
  | (t, []) => .ok t
  | (t, _) => .error t

/-- Whether the form of a character of three or four bytes may begin with two bytes. -/
def opensLong (first second : UInt8) : Bool :=
  if first = 0xE0 then 0xA0 ≤ second && second ≤ 0xBF
  else if first = 0xED then 0x80 ≤ second && second ≤ 0x9F
  else if first = 0xF0 then 0x90 ≤ second && second ≤ 0xBF
  else if first = 0xF4 then 0x80 ≤ second && second ≤ 0x8F
  else 0xE1 ≤ first && first ≤ 0xF3 && 0x80 ≤ second && second ≤ 0xBF

/-- How many of the first bytes of a flaw are shown as one: those with which the form of a character may
    begin, or else one. -/
def flawSize : Bytes → Nat
  | first :: second :: rest =>
    if !opensLong first second then 1
    else if 0xF0 ≤ first && rest.head?.any (fun third => 0x80 ≤ third && third ≤ 0xBF) then 3
    else 2
  | _ => 1

theorem flawSize_pos (b : Bytes) : 0 < flawSize b := by
  unfold flawSize
  split
  · split
    · decide
    · split <;> decide
  · decide

/-- A text that shows bytes, whatever they are: each flaw stands as one replacement character. -/
def lossy (b : Bytes) : Text :=
  if b = [] then []
  else
    match _h : firstChar? b with
    | none => '\uFFFD' :: lossy (b.drop (flawSize b))
    | some c => c :: lossy (b.drop c.utf8Size)
termination_by b.length
decreasing_by
  · have := flawSize_pos b
    have := List.length_pos_iff.mpr ‹¬ b = []›
    rw [List.length_drop]
    omega
  · obtain ⟨r, rfl⟩ := firstChar?_eq_some_iff.mp _h
    have := Char.utf8Size_pos c
    simp only [List.length_drop, List.length_append, String.length_utf8EncodeChar]
    omega

end Text
end StringResources
