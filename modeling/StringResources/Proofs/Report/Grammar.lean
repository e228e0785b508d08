import StringResources.Markup.Reference
import StringResources.Report.Json

/-! The grammar of JSON documents whose numbers are natural. Each rule relates a text, what it begins with, and what
    follows. The strings of documents may have all escapes, also those by which two code units make one character. -/

namespace StringResources.Json

/-- White space between the parts of a document. -/
def isBlank (c : Char) : Bool := c == ' ' || c == '\t' || c == '\n' || c == '\r'

/-- A text begins with white space, or with nothing, before the rest. -/
def Blanks (t r : Text) : Prop := ∃ b : Text, (∀ c ∈ b, isBlank c = true) ∧ t = b ++ r

/-- The characters that stand for others after a backslash. -/
def escapes : List (Char × Char) :=
  [('\x22', '\x22'), ('\\', '\\'), ('/', '/'), ('b', '\x08'), ('f', '\x0c'), ('n', '\n'), ('r', '\r'), ('t', '\t')]

/-- The number that four hexadecimal digits make up. -/
def codeUnit? (a b c d : Char) : Option Nat := do
  let a ← Markup.Reference.digit? 16 a
  let b ← Markup.Reference.digit? 16 b
  let c ← Markup.Reference.digit? 16 c
  let d ← Markup.Reference.digit? 16 d
  return ((a * 16 + b) * 16 + c) * 16 + d

/-- Two code units make up a character beyond the first plane. -/
def Surrogates (high low : Nat) : Prop := 0xD800 ≤ high ∧ high < 0xDC00 ∧ 0xDC00 ≤ low ∧ low < 0xE000

instance (high low : Nat) : Decidable (Surrogates high low) := inferInstanceAs (Decidable (_ ∧ _))

def ofSurrogates (high low : Nat) : Char := Char.ofNat (0x10000 + (high - 0xD800) * 0x400 + (low - 0xDC00))

/-- A character as it may stand in a string. -/
inductive Character : Text → Char → Text → Prop
  | plain {c : Char} {r : Text} : 0x20 ≤ c.toNat → c ≠ '\x22' → c ≠ '\\' → Character (c :: r) c r
  | escaped {e c : Char} {r : Text} : escapes.lookup e = some c → Character ('\\' :: e :: r) c r
  | unit {a b c d : Char} {n : Nat} {r : Text} : codeUnit? a b c d = some n → n.isValidChar →
      Character ('\\' :: 'u' :: a :: b :: c :: d :: r) (Char.ofNat n) r
  | pair {a b c d a' b' c' d' : Char} {high low : Nat} {r : Text} : codeUnit? a b c d = some high →
      codeUnit? a' b' c' d' = some low → Surrogates high low →
      Character ('\\' :: 'u' :: a :: b :: c :: d :: '\\' :: 'u' :: a' :: b' :: c' :: d' :: r) (ofSurrogates high low) r

/-- The characters of a string after its opening quote, up to the closing one. -/
inductive Chars : Text → Text → Text → Prop
  | close {r : Text} : Chars ('\x22' :: r) [] r
  | more {c : Char} {t u s r : Text} : Character t c u → Chars u s r → Chars t (c :: s) r

/-- Digits of a number: no zero is in front of others. -/
structure Numeral (ds : Text) : Prop where
  ne_nil : ds ≠ []
  digits : ∀ c ∈ ds, c.isDigit = true
  zero : ds.head? = some '0' → ds = ['0']

/-- A value without parts. No digit follows a number. -/
inductive Scalar : Text → Json → Text → Prop
  | text {t s r : Text} : Chars t s r → Scalar ('\x22' :: t) (.text s) r
  | number {ds r : Text} : Numeral ds → (∀ c ∈ r.head?, c.isDigit = false) →
      Scalar (ds ++ r) (.number (Nat.ofDigitChars 10 ds 0)) r
  | yes {r : Text} : Scalar ("true".toList ++ r) (.flag true) r
  | no {r : Text} : Scalar ("false".toList ++ r) (.flag false) r

/-- The name of a field and the colon after it. -/
inductive Name : Text → Text → Text → Prop
  | colon {t key u r : Text} : Chars t key u → Blanks u (':' :: r) → Name ('\x22' :: t) key r

mutual

/-- A value, without white space before it. -/
inductive Value : Text → Json → Text → Prop
  | scalar {t r : Text} {v : Json} : Scalar t v r → Value t v r
  | emptyList {t r : Text} : Blanks t (']' :: r) → Value ('[' :: t) (.list []) r
  | list {t u r : Text} {items : List Json} : Blanks t u → Items u items r → Value ('[' :: t) (.list items) r
  | emptyObject {t r : Text} : Blanks t ('\x7d' :: r) → Value ('\x7b' :: t) (.object []) r
  | object {t u r : Text} {fields : List (Text × Json)} : Blanks t u → Fields u fields r →
      Value ('\x7b' :: t) (.object fields) r

/-- The items of a list, at least one, up to its bracket. -/
inductive Items : Text → List Json → Text → Prop
  | last {t u r : Text} {v : Json} : Value t v u → Blanks u (']' :: r) → Items t [v] r
  | more {t u w x r : Text} {v : Json} {items : List Json} : Value t v u → Blanks u (',' :: w) → Blanks w x →
      Items x items r → Items t (v :: items) r

/-- The fields of an object, at least one, up to its brace. -/
inductive Fields : Text → List (Text × Json) → Text → Prop
  | last {t u w x r key : Text} {v : Json} : Name t key u → Blanks u w → Value w v x → Blanks x ('\x7d' :: r) →
      Fields t [(key, v)] r
  | more {t u w x y z r key : Text} {v : Json} {fields : List (Text × Json)} : Name t key u → Blanks u w →
      Value w v x → Blanks x (',' :: y) → Blanks y z → Fields z fields r → Fields t ((key, v) :: fields) r

end

/-- A text is a document that holds a value. -/
def Document (t : Text) (v : Json) : Prop := ∃ u r, Blanks t u ∧ Value u v r ∧ Blanks r []

end StringResources.Json
