import StringResources.Text.Basic

/-! JSON values and their indented form: two blanks for each level, one item or field a line. -/

namespace StringResources

/-- A JSON value whose numbers are natural. -/
inductive Json where
  | text (t : Text)
  | number (n : Nat)
  | flag (b : Bool)
  | list (items : List Json)
  | object (fields : List (Text × Json))

namespace Json

def hexDigit (n : Nat) : Char := (Nat.toDigits 16 n).headD '0'

/-- A character as it stands between the quotes of a string. Quotes, backslashes and control characters
    are escaped, all others stand for themselves. -/
def escape (c : Char) : Text :=
  if c = '\x22' then ['\\', '\x22']
  else if c = '\\' then ['\\', '\\']
  else if c = '\n' then ['\\', 'n']
  else if c = '\r' then ['\\', 'r']
  else if c = '\t' then ['\\', 't']
  else if c = '\x08' then ['\\', 'b']
  else if c = '\x0c' then ['\\', 'f']
  else if c.toNat < 0x20 then ['\\', 'u', '0', '0', hexDigit (c.toNat / 16), hexDigit (c.toNat % 16)]
  else [c]

def quoted (t : Text) : Text := '\x22' :: (t.flatMap escape ++ ['\x22'])

/-- A line break and the blanks at the beginning of a line. -/
def lineStart (depth : Nat) : Text := '\n' :: List.replicate (2 * depth) ' '

mutual

/-- The indented form of a value whose line is `depth` levels deep. -/
def prettyAt (depth : Nat) : Json → Text
  | .text t => quoted t
  | .number n => Text.ofNat n
  | .flag true => "true".toList
  | .flag false => "false".toList
  | .list [] => "[]".toList
  | .list (item :: items) =>
    '[' :: (lineStart (depth + 1) ++ prettyAt (depth + 1) item ++ prettyItems (depth + 1) items ++
      lineStart depth ++ [']'])
  | .object [] => ['\x7b', '\x7d']
  | .object ((key, value) :: fields) =>
    '\x7b' :: (lineStart (depth + 1) ++ quoted key ++ ": ".toList ++ prettyAt (depth + 1) value ++
      prettyFields (depth + 1) fields ++ lineStart depth ++ ['\x7d'])

/-- The items after the first of a list, each on its line. -/
def prettyItems (depth : Nat) : List Json → Text
  | [] => []
  | item :: items => ',' :: (lineStart depth ++ prettyAt depth item ++ prettyItems depth items)

/-- The fields after the first of an object, each on its line. -/
def prettyFields (depth : Nat) : List (Text × Json) → Text
  | [] => []
  | (key, value) :: fields =>
    ',' :: (lineStart depth ++ quoted key ++ ": ".toList ++ prettyAt depth value ++ prettyFields depth fields)

end

def pretty (v : Json) : Text := prettyAt 0 v

end Json
end StringResources
