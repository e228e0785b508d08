import StringResources.Text.Basic

/-! Locale codes, as in the names of the directories of translated resources. A code is kept with the
    proof that it was admitted, so that a path built from one stays where it should. -/

namespace StringResources

inductive LocaleCode.Fault where
  | empty
  /-- The text begins or ends with a hyphen. -/
  | hyphenAtEnd
  | character
  deriving DecidableEq, Repr

namespace LocaleCode

/-- A character of locale codes: an ASCII letter or digit, a hyphen, an underscore or a plus sign. -/
def isCodeChar (c : Char) : Bool := c.isAlphanum || c == '-' || c == '_' || c == '+'

def fault? (t : Text) : Option Fault :=
  if t = [] then some .empty
  else if t.head? = some '-' ∨ t.getLast? = some '-' then some .hyphenAtEnd
  else if t.all isCodeChar then none
  else some .character

def Fault.message : Fault → Text
  | .empty => "locale cannot be empty".toList
  | .hyphenAtEnd => "locale cannot start or end with '-'".toList
  | .character => "locale may only contain ASCII letters, digits, '-', '_' and '+'".toList

end LocaleCode

structure LocaleCode where
  text : Text
  admitted : LocaleCode.fault? text = none
  deriving DecidableEq

namespace LocaleCode

def ofText (t : Text) : Except Fault LocaleCode :=
  match h : fault? t with
  | none => .ok { text := t, admitted := h }
  | some fault => .error fault

/-- The name of the directory of a locale's resources. -/
def valuesDir (code : LocaleCode) : Text := "values-".toList ++ code.text

end LocaleCode
end StringResources
