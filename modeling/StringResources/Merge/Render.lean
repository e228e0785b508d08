import StringResources.Merge.Labels
import StringResources.Merge.Plan
import StringResources.Text.Blank

/-! The text of a locale document with elements added before the end of its root. All that was written
    stays as it was, but for the root's tag, which gets the namespace declarations that the new elements
    need. -/

namespace StringResources

namespace Render

/-- How elements are written into a document. -/
structure Style where
  /-- Put a comment before each element. -/
  mark : Bool := false
  /-- The indentation for a document that shows none. -/
  fallbackIndent : Option Text := none
  /-- The declarations for labels that the root lacks. -/
  namespaces : List Namespace := []
  deriving DecidableEq, Repr

/-- The comment before an element that was not yet translated. -/
def marker : Text := "<!-- untranslated -->".toList

/-- The indentation where neither document shows one. -/
def defaultIndent : Text := [' ', ' ', ' ', ' ']

/-- The line break of a text: a line feed, after a carriage return if that stands before any line feed. -/
def newline (t : Text) : Text := if (Text.splitAt? ['\r', '\n'] t).isSome then ['\r', '\n'] else ['\n']

/-- The indentation of the elements added to a document. -/
def indent (locale : Document) (style : Style) : Text :=
  (locale.indent.or style.fallbackIndent).getD defaultIndent

def lines (indent newline : Text) (mark : Bool) (element : Text) : Text :=
  (if mark then indent ++ marker ++ newline else []) ++ (indent ++ element ++ newline)

def block (indent newline : Text) (mark : Bool) (elements : List Text) : Text :=
  elements.flatMap (lines indent newline mark)

/-- A tag as written, up to its end, and its end. -/
def splitTag (tag : Text) : Text × Text :=
  match Text.stripEnd? ['/', '>'] tag with
  | some body => (body, ['/', '>'])
  | none => ((Text.stripEnd? ['>'] tag).getD tag, ['>'])

/-- A tag with declarations after its attributes. -/
def declare (tag : Text) (declarations : List Namespace) : Text :=
  if declarations = [] then tag
  else
    let (body, close) := splitTag tag
    Text.trimEndSpaces body ++ declarations.flatMap (fun n => ' ' :: n.display) ++ close

/-- The start tag with the attributes of an empty tag. -/
def startTag (tag : Text) : Text :=
  Text.trimEndSpaces ((Text.stripEnd? ['/', '>'] tag).getD tag) ++ ['>']

def rootEnd : Text := "</resources>".toList

end Render

open Render in
/-- The text of `locale` with elements added at the end of its root; without elements, its text as it
    is. None if a span of the document does not fall between characters, or the root's tag ends after
    the text before its end tag. -/
def render (locale : Document) (elements : List Text) (style : Style) : Option Text :=
  if elements = [] then some locale.text
  else do
    let t := locale.text
    let written ← locale.rootOpen.slice? t
    let tag := declare written (Labels.missing locale elements style.namespaces)
    let added := block (indent locale style) (newline t) style.mark elements
    match locale.rootClose with
    | .endTag start => do
      let before ← Text.slice? t 0 start
      let head := Text.trimEnd Text.isIndent before
      let opening ← Text.slice? t 0 locale.rootOpen.start
      let body ← Text.slice? head locale.rootOpen.stop head.size
      let lineEnd := if head.getLast? = some '\n' then [] else newline t
      return opening ++ tag ++ body ++ lineEnd ++ added ++ t.drop head.length
    | .selfClosing span => do
      let opening ← Text.slice? t 0 span.start
      let closing ← Text.slice? t span.stop t.size
      return opening ++ startTag tag ++ newline t ++ added ++ rootEnd ++ closing

/-- The text of `locale` with the entries of a plan added in the style of `base`. -/
def MergePlan.render (plan : MergePlan) (base locale : Document) (mark : Bool) : Option Text :=
  StringResources.render locale (plan.additions.map (·.element))
    { mark := mark, fallbackIndent := base.indent, namespaces := base.namespaces }

end StringResources
