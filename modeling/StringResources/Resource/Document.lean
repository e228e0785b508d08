import StringResources.Resource.Key
import StringResources.Text.Location

/-! A document of string resources: its text, and what was read from it. Entries hold the exact text of
    their elements; the places of the root's tags are kept as spans of the text. -/

namespace StringResources

structure Span where
  start : Nat
  stop : Nat
  deriving DecidableEq, Repr

def Span.slice? (span : Span) (t : Text) : Option Text := Text.slice? t span.start span.stop

/-- A namespace declared on a root: the label that names carry before their colon, and what it is bound
    to, as written between its quotes. -/
structure Namespace where
  label : Text
  uri : Text
  deriving DecidableEq, Repr

namespace Namespace

/-- How the key of a declaration begins. -/
def keyStart : Text := ['x', 'm', 'l', 'n', 's', ':']

/-- The quotation mark for a value as written: the double one unless it stands in the value. -/
def quote (uri : Text) : Char := if '\x22' ∈ uri then '\x27' else '\x22'

def display (n : Namespace) : Text := keyStart ++ n.label ++ ['=', quote n.uri] ++ n.uri ++ [quote n.uri]

end Namespace

/-- A resource: its key, the text between its tags, whether it is to be translated, and its whole
    element as written. -/
structure Entry where
  key : Key
  value : Text
  translatable : Bool
  element : Text
  deriving DecidableEq, Repr

inductive RootClose where
  /-- With an end tag at this offset. -/
  | endTag (start : Nat)
  /-- With the slash of its only tag. -/
  | selfClosing (span : Span)
  deriving DecidableEq, Repr

/-- A document that was read: where from, its text, its entries in order, the indentation of the first
    entry that has its line for itself, the root's tags, and the namespaces declared on the root. -/
structure Document where
  path : Text
  text : Text
  entries : List Entry
  indent : Option Text
  rootOpen : Span
  rootClose : RootClose
  namespaces : List Namespace
  deriving DecidableEq, Repr

namespace Document

def keys (d : Document) : List Key := d.entries.map (·.key)

def entry? (d : Document) (k : Key) : Option Entry := d.entries.find? (·.key == k)

/-- Whether the root declares a namespace under a label. -/
def declares (d : Document) (label : Text) : Bool := d.namespaces.any (·.label == label)

end Document
end StringResources
