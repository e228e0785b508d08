import StringResources.Text.Hidden

/-! Texts between quotation marks, with the characters escaped that do not show by themselves. A quoted
    text is one line. -/

namespace StringResources.Text

/-- A character as it stands between quotation marks. -/
def quotedChar (c : Char) : Text :=
  if c = '\x00' then ['\\', '0']
  else if c = '\t' then ['\\', 't']
  else if c = '\r' then ['\\', 'r']
  else if c = '\n' then ['\\', 'n']
  else if c = '\\' ∨ c = '\x22' then ['\\', c]
  else if isHidden c then ['\\', 'u', '\x7b'] ++ Nat.toDigits 16 c.toNat ++ ['\x7d']
  else [c]

def quoted (t : Text) : Text := '\x22' :: (t.flatMap quotedChar ++ ['\x22'])

end StringResources.Text
