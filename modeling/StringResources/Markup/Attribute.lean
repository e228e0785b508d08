import StringResources.Markup.Token

/-! The attributes of a tag. Reading goes from left to right and past errors: a key without an equals sign
    is dropped, a value without quotes is skipped to the next blank. Positions in errors are byte offsets
    from the beginning of the tag's content. -/

namespace StringResources.Markup
open Text

structure Attribute where
  key : Text
  value : Text
  deriving DecidableEq

namespace Attribute

/-- What is wrong at a place where an attribute was looked for. -/
inductive Error where
  /-- A key that no equals sign follows; the position is that of what follows. -/
  | noEquals (position : Nat)
  /-- A key that stood before. -/
  | duplicate (position earlier : Nat)
  /-- A value without quotes. -/
  | unquoted (position : Nat)
  /-- An equals sign that nothing follows. -/
  | noValue (position : Nat)
  /-- A value whose quote is not closed. -/
  | openQuote (position : Nat) (quote : Char)
  deriving DecidableEq

def Error.message : Error → Text
  | .noEquals n => at_ n ++ "attribute key must be directly followed by `=` or space".toList
  | .duplicate n m => at_ n ++ "duplicated attribute, previous declaration at position ".toList ++ ofNat m
  | .unquoted n => at_ n ++ "attribute value must be enclosed in `\x22` or `'`".toList
  | .noValue n => at_ n ++ "`=` must be followed by an attribute value".toList
  | .openQuote n quote => at_ n ++ "missing closing quote `".toList ++ (quote :: "` in attribute value".toList)
where
  /-- How a message begins. -/
  at_ (n : Nat) : Text := "position ".toList ++ ofNat n ++ ": ".toList

/-- A character that can stand in a key after its first character. -/
def isKeyChar (c : Char) : Bool := c != '=' && !isBlank c

/-- What was read, and the rest of the tag to read next. -/
abbrev Reading := Except Error Attribute × Text

/-- The value after an equals sign. `total` is the number of bytes of the tag's content. -/
def nextValue (total : Nat) (key t : Text) : Reading :=
  match t.dropWhile isBlank with
  | [] => (.error (.noValue total), [])
  | c :: r =>
    if c = '\x22' ∨ c = '\x27' then
      match splitAt? [c] r with
      | some (value, rest) => (.ok { key := key, value := value }, rest)
      | none => (.error (.openQuote total c), [])
    else (.error (.unquoted (total - size (c :: r))), (c :: r).dropWhile (!isBlank ·))

/-- The attribute that begins with character `c`, and the keys read so far with their positions. With
    `unique`, a key may stand only once. -/
def nextField (total : Nat) (unique : Bool) (keys : List (Text × Nat)) (c : Char) (t : Text) :
    List (Text × Nat) × Reading :=
  let key := c :: t.takeWhile isKeyChar
  let start := total - size (c :: t)
  match (t.dropWhile isKeyChar).dropWhile isBlank with
  | [] => (keys, .error (.noEquals total), [])
  | d :: r =>
    if d = '=' then
      if unique then
        match keys.lookup key with
        | some earlier => (keys, .error (.duplicate start earlier), r.dropWhile (!isBlank ·))
        | none => ((key, start) :: keys, nextValue total key r)
      else (keys, nextValue total key r)
    else (keys, .error (.noEquals (total - size (d :: r))), d :: r)

theorem length_dropWhile_le (p : Char → Bool) (t : Text) : (t.dropWhile p).length ≤ t.length :=
  (List.dropWhile_sublist p).length_le

theorem length_nextValue_le (total : Nat) (key t : Text) : (nextValue total key t).2.length ≤ t.length := by
  have hd := length_dropWhile_le isBlank t
  unfold nextValue
  split
  · simp
  · next c r hr =>
    rw [hr] at hd
    split
    · split
      · next value rest hs =>
        have := congrArg List.length (eq_append_of_splitAt? hs)
        simp at this hd ⊢
        omega
      · simp
    · exact Nat.le_trans (length_dropWhile_le _ _) hd

theorem length_nextField_le (total : Nat) (unique : Bool) (keys : List (Text × Nat)) (c : Char) (t : Text) :
    (nextField total unique keys c t).2.2.length ≤ t.length := by
  have hd := Nat.le_trans (length_dropWhile_le isBlank (t.dropWhile isKeyChar)) (length_dropWhile_le isKeyChar t)
  unfold nextField
  dsimp only
  split
  · simp
  · next d r hr =>
    rw [hr] at hd
    simp only [List.length_cons] at hd
    split
    · split
      · split
        · exact Nat.le_trans (length_dropWhile_le _ _) (by omega)
        · exact Nat.le_trans (length_nextValue_le _ _ _) (by omega)
      · exact Nat.le_trans (length_nextValue_le _ _ _) (by omega)
    · simpa using hd

/-- All that is read from the rest `t` of a tag, errors included. -/
def readFrom (total : Nat) (unique : Bool) (keys : List (Text × Nat)) (t : Text) : List (Except Error Attribute) :=
  match _h : t.dropWhile isBlank with
  | [] => []
  | c :: r =>
    let field := nextField total unique keys c r
    field.2.1 :: readFrom total unique field.1 field.2.2
termination_by t.length
decreasing_by
  have h₁ := length_dropWhile_le isBlank t
  have h₂ := length_nextField_le total unique keys c r
  rw [_h] at h₁
  simp only [List.length_cons] at h₁
  show (nextField total unique keys c r).2.2.length < t.length
  omega

end Attribute

namespace Tag

/-- The attributes of a tag and the errors between them, in order. With `unique`, the second attribute
    of a key is an error. -/
def attributes (tag : Tag) (unique : Bool) : List (Except Attribute.Error Attribute) :=
  Attribute.readFrom (Text.size tag.content) unique [] tag.fields

/-- The first attribute of a key, unless an error comes before it. -/
def findAttribute (key : Text) : List (Except Attribute.Error Attribute) → Except Attribute.Error (Option Attribute)
  | [] => .ok none
  | .error e :: _ => .error e
  | .ok a :: rest => if a.key = key then .ok (some a) else findAttribute key rest

/-- The first attribute of a key. Keys may stand more than once. -/
def attribute? (tag : Tag) (key : Text) : Except Attribute.Error (Option Attribute) :=
  findAttribute key (tag.attributes false)

/-- All attributes of a tag, or its first error. -/
def allAttributes (tag : Tag) : Except Attribute.Error (List Attribute) := (tag.attributes true).mapM id

end Tag
end StringResources.Markup
