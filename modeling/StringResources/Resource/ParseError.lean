import StringResources.Markup.Attribute
import StringResources.Markup.Reference
import StringResources.Resource.Document

/-! What can be wrong with a document, and where. -/

namespace StringResources

/-- What makes a file no document of string resources. -/
inductive ParseError.Cause where
  | markup (e : Markup.Error)
  | attribute (e : Markup.Attribute.Error)
  | reference (e : Markup.Reference.Error)
  | notUtf8
  | secondRoot
  /-- The root has another name. -/
  | otherRoot (name : Text)
  /-- An entry without a name. -/
  | unnamed (kind : Kind)
  | emptyName (kind : Kind)
  | duplicate (key : Key)
  | textOutside
  /-- An end tag where the reading has no element open. -/
  | strayClose
  | openRoot
  | noRoot
  deriving DecidableEq

/-- A fault of a file: its path, the location in it, and what is wrong there. -/
structure ParseError where
  path : Text
  location : Location
  cause : ParseError.Cause
  deriving DecidableEq

namespace ParseError

def Cause.message : Cause → Text
  | .markup e => e.message
  | .attribute e => e.message
  | .reference e => e.message
  | .notUtf8 => "file is not valid UTF-8".toList
  | .secondRoot => "more than one root element".toList
  | .otherRoot name => "root element must be <resources>, found <".toList ++ name ++ ['>']
  | .unnamed kind => '<' :: (kind.tag ++ "> has no name attribute".toList)
  | .emptyName kind => '<' :: (kind.tag ++ "> has an empty name".toList)
  | .duplicate key => "duplicate resource ".toList ++ key.display
  | .textOutside => "text outside the <resources> element".toList
  | .strayClose => "unexpected end tag".toList
  | .openRoot => "unexpected end of file, <resources> is not closed".toList
  | .noRoot => "missing <resources> root element".toList

/-- The wording of an error: where, then what. -/
def message (e : ParseError) : Text :=
  e.path ++ [':'] ++ Text.ofNat e.location.line ++ [':'] ++ Text.ofNat e.location.column ++ ": ".toList ++
    e.cause.message

/-- The error of a file whose bytes are the form of `valid` up to the first byte that fits no text. -/
def invalidUtf8 (path valid : Text) : ParseError where
  path := path
  location := valid.location valid.size
  cause := .notUtf8

end ParseError
end StringResources
