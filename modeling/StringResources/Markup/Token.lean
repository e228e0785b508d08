import StringResources.Text.Basic

/-! The tokens of marked-up text. A token keeps everything that was written, so that `Token.source` gives
    back the exact text it was read from. -/

namespace StringResources.Markup
open Text

/-- The blanks of markup: space, tab, carriage return and line feed. -/
def isBlank (c : Char) : Bool := c == ' ' || c == '\t' || c == '\r' || c == '\n'

/-- A start or empty tag: its name and what is written between the name and the end of the tag. -/
structure Tag where
  name : Text
  fields : Text
  deriving DecidableEq

namespace Tag

/-- The tag with the given text between its angle brackets; the name runs to the first blank. -/
def ofContent (content : Text) : Tag where
  name := content.takeWhile (!isBlank ·)
  fields := content.dropWhile (!isBlank ·)

def content (tag : Tag) : Text := tag.name ++ tag.fields

@[simp] theorem content_ofContent (t : Text) : (ofContent t).content = t :=
  List.takeWhile_append_dropWhile

end Tag

inductive Token where
  /-- Characters up to the next angle bracket. -/
  | text (content : Text)
  | comment (content : Text)
  | cdata (content : Text)
  /-- A processing instruction or the declaration that heads a document. -/
  | instruction (content : Text)
  /-- A document type declaration, with its keyword as written. -/
  | doctype (content : Text)
  | start (tag : Tag)
  /-- A tag that opens and closes an element at once. -/
  | empty (tag : Tag)
  /-- An end tag: what is written between its slash and its bracket. -/
  | close (written : Text)
  deriving DecidableEq

/-- The name an end tag closes: what is written, less the blanks after it, or all of it where it is
    nothing but blanks. -/
def closeName (written : Text) : Text :=
  match trimEnd isBlank written with
  | [] => written
  | name => name

namespace Token

def commentEnd : Text := ['-', '-', '>']

/-- What follows the exclamation mark and bracket of a character data section. -/
def cdataKeyword : Text := ['C', 'D', 'A', 'T', 'A', '[']

def cdataEnd : Text := [']', ']', '>']

def instructionEnd : Text := ['?', '>']

/-- The text a token was read from. -/
def source : Token → Text
  | .text content => content
  | .comment content => '<' :: '!' :: '-' :: '-' :: (content ++ commentEnd)
  | .cdata content => '<' :: '!' :: '[' :: (cdataKeyword ++ (content ++ cdataEnd))
  | .instruction content => '<' :: '?' :: (content ++ instructionEnd)
  | .doctype content => '<' :: '!' :: (content ++ ['>'])
  | .start tag => '<' :: (tag.content ++ ['>'])
  | .empty tag => '<' :: (tag.content ++ ['/', '>'])
  | .close written => '<' :: '/' :: (written ++ ['>'])

/-- The number of bytes of the text a token was read from. -/
def size (k : Token) : Nat := Text.size k.source

/-- The tag of a token that has attributes. -/
def tag? : Token → Option Tag
  | .start tag => some tag
  | .empty tag => some tag
  | _ => none

end Token

/-! ### Errors -/

inductive Error where
  | openTag
  | openComment
  | openCData
  | openDoctype
  | openInstruction
  /-- An exclamation mark that begins no comment, section or document type. -/
  | unknownDeclaration
  | namelessDoctype
  /-- An end tag other than that of the innermost open element. -/
  | mismatchedClose (expected found : Text)
  /-- An end tag where no element is open. -/
  | unmatchedClose (found : Text)
  deriving DecidableEq

namespace Error

def message : Error → Text
  | .openTag => "syntax error: tag not closed: `>` not found before end of input".toList
  | .openComment => "syntax error: comment not closed: `-->` not found before end of input".toList
  | .openCData => "syntax error: CDATA not closed: `]]>` not found before end of input".toList
  | .openDoctype => "syntax error: DOCTYPE not closed: `>` not found before end of input".toList
  | .openInstruction =>
    "syntax error: processing instruction or xml declaration not closed: `?>` not found before end of input".toList
  | .unknownDeclaration => "syntax error: unknown or missed symbol in markup".toList
  | .namelessDoctype =>
    "ill-formed document: `<!DOCTYPE>` declaration does not contain a name of a document type".toList
  | .mismatchedClose expected found =>
    "ill-formed document: expected `</".toList ++ expected ++ ">`, but `</".toList ++ found ++ ">` was found".toList
  | .unmatchedClose found =>
    "ill-formed document: close tag `</".toList ++ found ++ ">` does not match any open tag".toList

end Error

/-- An error and its byte offset from where the token it stands in begins. -/
structure Fault where
  offset : Nat
  error : Error
  deriving DecidableEq

end StringResources.Markup
