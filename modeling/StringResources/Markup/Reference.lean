import StringResources.Text.Basic

/-! References in attribute values: the five named ones, and numbers of code points. A value is rewritten
    from left to right and the first reference that means nothing is an error. -/

namespace StringResources.Markup
open Text

namespace Reference

inductive NumberError where
  | signed
  | empty
  | badDigit
  /-- The number takes more than 32 bits. -/
  | tooLarge
  | zero
  /-- The number is beyond the code points, or is that of a surrogate. -/
  | noScalar (code : Nat)
  deriving DecidableEq

/-- Why a reference cannot be replaced. Positions are byte offsets into the value. -/
inductive Error where
  /-- No semicolon follows; the second position is the end of the value. -/
  | unterminated (start stop : Nat)
  /-- The name, from `start` to `stop`, is not one of the five. -/
  | unknown (start stop : Nat) (name : Text)
  | number (e : NumberError)
  deriving DecidableEq

def NumberError.message : NumberError → Text
  | .signed => "unexpected number sign".toList
  | .empty => "cannot parse integer from empty string".toList
  | .badDigit => "invalid digit found in string".toList
  | .tooLarge => "number too large to fit in target type".toList
  | .zero => "0x0 character is not permitted in XML".toList
  | .noScalar code => '`' :: (ofNat code ++ "` is not a valid codepoint".toList)

def Error.message : Error → Text
  | .unterminated start stop =>
    "Error while escaping character at range ".toList ++ range start stop ++ ": Cannot find ';' after '&'".toList
  | .unknown start stop name =>
    "at ".toList ++ range start stop ++ ": unrecognized entity `".toList ++ name ++ ['`']
  | .number e => "invalid character reference: ".toList ++ e.message
where
  /-- How a message gives a range. -/
  range (start stop : Nat) : Text := ofNat start ++ "..".toList ++ ofNat stop

/-! ### Numbers -/

/-- The value of a digit, of either case, in a base up to sixteen. -/
def digit? (base : Nat) (c : Char) : Option Nat :=
  let n :=
    if '0' ≤ c ∧ c ≤ '9' then c.toNat - '0'.toNat
    else if 'a' ≤ c ∧ c ≤ 'f' then c.toNat - 'a'.toNat + 10
    else if 'A' ≤ c ∧ c ≤ 'F' then c.toNat - 'A'.toNat + 10
    else base
  if n < base then some n else none

/-- The number of 32 bits that digits after those of `n` make up. -/
def digits (base n : Nat) : Text → Except NumberError Nat
  | [] => .ok n
  | c :: t =>
    match digit? base c with
    | none => .error .badDigit
    | some d => if n * base + d < 2 ^ 32 then digits base (n * base + d) t else .error .tooLarge

def unsigned (base : Nat) (t : Text) : Except NumberError Nat :=
  match t with
  | [] => .error .empty
  | c :: _ => if c = '+' ∨ c = '-' then .error .signed else digits base 0 t

/-- The character with the given number: decimal, or hexadecimal after a small `x`. -/
def character (t : Text) : Except NumberError Char := do
  let code ←
    match stripStart? ['x'] t with
    | some t => unsigned 16 t
    | none => unsigned 10 t
  if code = 0 then .error .zero
  else if h : code.isValidChar then .ok (Char.ofNatAux code h)
  else .error (.noScalar code)

/-! ### Values -/

def names : List (Text × Char) :=
  [("lt".toList, '<'), ("gt".toList, '>'), ("amp".toList, '&'), ("apos".toList, '\x27'), ("quot".toList, '\x22')]

/-- The character a reference stands for, given by what is written between its ampersand, at offset
    `start - 1`, and its semicolon. -/
def resolve (start : Nat) (body : Text) : Except Error Char :=
  match stripStart? ['#'] body with
  | some n => (character n).mapError .number
  | none =>
    match names.lookup body with
    | some c => .ok c
    | none => .error (.unknown start (start + size body) body)

/-- A character that neither begins nor ends a reference. -/
def isPlain (c : Char) : Bool := c != '&' && c != ';'

/-- The text a value from offset `offset` on stands for. -/
def unescapeFrom (offset : Nat) (t : Text) : Except Error Text :=
  match t with
  | [] => .ok []
  | c :: r =>
    if c = '&' then
      let body := r.takeWhile isPlain
      match _h : r.dropWhile isPlain with
      | [] => .error (.unterminated offset (offset + size t))
      | d :: rest =>
        if d = ';' then do
          let x ← resolve (offset + 1) body
          let xs ← unescapeFrom (offset + size body + 2) rest
          return x :: xs
        else .error (.unterminated offset (offset + size t))
    else do
      let xs ← unescapeFrom (offset + c.utf8Size) r
      return c :: xs
termination_by t.length
decreasing_by
  · have := (List.dropWhile_sublist isPlain (l := r)).length_le
    rw [_h] at this
    simp only [List.length_cons] at this ⊢
    omega
  · simp

def unescape (t : Text) : Except Error Text := unescapeFrom 0 t

end Reference
end StringResources.Markup
