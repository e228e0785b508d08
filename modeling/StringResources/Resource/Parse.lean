import StringResources.Markup.Scan
import StringResources.Resource.ParseError

/-! Reading a document of string resources. The tokens of the text are taken one after the other; the
    state of the reading counts the open elements, and the children of the root named for a kind become
    entries. Spans are the byte offsets of tokens. After a byte order mark, whose bytes the tokens do not
    count, a span may begin or end inside a character; then the reading is `torn`. -/

namespace StringResources
open Markup

inductive ParseFailure where
  | error (e : ParseError)
  /-- A span of tokens does not fall between characters. -/
  | torn
  deriving DecidableEq

namespace Parse

/-- What ends the reading early: a cause at an offset, or a torn span. -/
inductive Stop where
  | fault (offset : Nat) (cause : ParseError.Cause)
  | torn
  deriving DecidableEq

/-- An entry whose end tag is still to come. -/
structure Pending where
  key : Key
  translatable : Bool
  start : Nat
  contentStart : Nat
  deriving DecidableEq

/-- How far the reading has come. -/
structure State where
  offset : Nat := 0
  depth : Nat := 0
  pending : Option Pending := none
  entries : List Entry := []
  indent : Option Text := none
  rootOpen : Option Span := none
  rootClose : Option RootClose := none
  namespaces : List Namespace := []
  deriving DecidableEq

def rootName : Text := "resources".toList

/-- The part of a text in a span, for a reading that needs it. -/
def sliceOf (t : Text) (span : Span) : Except Stop Text :=
  match span.slice? t with
  | some s => .ok s
  | none => .error .torn

/-- The namespaces that attributes declare. -/
def namespacesOf (attributes : List Attribute) : List Namespace :=
  attributes.filterMap fun a =>
    (Text.stripStart? Namespace.keyStart a.key).map fun label => { label := label, uri := a.value }

/-- The state after the tag that opens the root. -/
def openRoot (s : State) (tag : Tag) (span : Span) : Except Stop State :=
  if s.rootOpen.isSome then .error (.fault span.start .secondRoot)
  else if tag.name ≠ rootName then .error (.fault span.start (.otherRoot tag.name))
  else
    match tag.allAttributes with
    | .error e => .error (.fault span.start (.attribute e))
    | .ok attributes => .ok { s with rootOpen := some span, namespaces := namespacesOf attributes }

/-- The key and the translatability that the tag of an entry gives it. -/
def entryKey (kind : Kind) (tag : Tag) (start : Nat) : Except Stop (Key × Bool) :=
  match tag.attribute? "name".toList with
  | .error e => .error (.fault start (.attribute e))
  | .ok none => .error (.fault start (.unnamed kind))
  | .ok (some name) =>
    match Reference.unescape name.value with
    | .error e => .error (.fault start (.reference e))
    | .ok [] => .error (.fault start (.emptyName kind))
    | .ok (c :: rest) =>
      match tag.attribute? "translatable".toList with
      | .error e => .error (.fault start (.attribute e))
      | .ok none => .ok ({ kind := kind, name := c :: rest }, true)
      | .ok (some a) => .ok ({ kind := kind, name := c :: rest }, a.value != "false".toList)

/-- The blanks and tabs before an offset, where nothing else is before it on its line. -/
def lineIndent? (before : Text) : Option Text :=
  match before.lastLine with
  | [] => none
  | c :: line => if (c :: line).all Text.isIndent then some (c :: line) else none

/-- The indentation of a document after an entry at offset `start`: the first there was. -/
def indentAfter (t : Text) (indent : Option Text) (start : Nat) : Except Stop (Option Text) :=
  match indent with
  | some i => .ok (some i)
  | none => do
    let before ← sliceOf t { start := 0, stop := start }
    .ok (lineIndent? before)

def pushEntry (t : Text) (s : State) (key : Key) (translatable : Bool) (value : Text) (span : Span) :
    Except Stop State :=
  if s.entries.any (·.key == key) then .error (.fault span.start (.duplicate key))
  else do
    let indent ← indentAfter t s.indent span.start
    let element ← sliceOf t span
    let entry : Entry := { key := key, value := value, translatable := translatable, element := element }
    .ok { s with indent := indent, entries := s.entries ++ [entry] }

def onStart (s : State) (tag : Tag) (span : Span) : Except Stop State :=
  match s.depth with
  | 0 => do
    let s ← openRoot s tag span
    .ok { s with depth := 1 }
  | 1 =>
    match Kind.ofTag? tag.name with
    | none => .ok { s with depth := 2 }
    | some kind => do
      let (key, translatable) ← entryKey kind tag span.start
      let pending : Pending :=
        { key := key, translatable := translatable, start := span.start, contentStart := span.stop }
      .ok { s with depth := 2, pending := some pending }
  | depth + 2 => .ok { s with depth := depth + 3 }

def onEmpty (t : Text) (s : State) (tag : Tag) (span : Span) : Except Stop State :=
  match s.depth with
  | 0 => do
    let s ← openRoot s tag span
    .ok { s with rootClose := some (.selfClosing span) }
  | 1 =>
    match Kind.ofTag? tag.name with
    | none => .ok s
    | some kind => do
      let (key, translatable) ← entryKey kind tag span.start
      pushEntry t s key translatable [] span
  | _ + 2 => .ok s

def onClose (t : Text) (s : State) (span : Span) : Except Stop State :=
  match s.depth with
  | 0 => .error (.fault span.start .strayClose)
  | 1 => .ok { s with depth := 0, rootClose := some (.endTag span.start) }
  | 2 =>
    match s.pending with
    | none => .ok { s with depth := 1 }
    | some p => do
      let value ← sliceOf t { start := p.contentStart, stop := span.start }
      pushEntry t { s with depth := 1, pending := none } p.key p.translatable value
        { start := p.start, stop := span.stop }
  | depth + 3 => .ok { s with depth := depth + 2 }

/-- The state after characters: outside the root they have to be white space. -/
def onText (t : Text) (s : State) (span : Span) : Except Stop State :=
  if s.depth = 0 then do
    let content ← sliceOf t span
    if (content.dropWhile (· == Text.byteOrderMark)).all Text.isSpace then .ok s
    else .error (.fault span.start .textOutside)
  else .ok s

def step (t : Text) (s : State) (k : Token) : Except Stop State :=
  let span : Span := { start := s.offset, stop := s.offset + k.size }
  let s := { s with offset := span.stop }
  match k with
  | .text _ => onText t s span
  | .cdata _ => onText t s span
  | .start tag => onStart s tag span
  | .empty tag => onEmpty t s tag span
  | .close _ => onClose t s span
  | .comment _ => .ok s
  | .instruction _ => .ok s
  | .doctype _ => .ok s

/-- The state after the tokens of a text, all of which have to be read without a fault. -/
def run (t : Text) : Except Stop State := do
  let tokens := Markup.read t
  let s ← tokens.tokens.foldlM (step t) {}
  match tokens.fault with
  | some fault => .error (.fault (s.offset + fault.offset) (.markup fault.error))
  | none => .ok s

/-- The document in a text, read from a path. -/
def document (path t : Text) : Except Stop Document := do
  let s ← run t
  if s.depth ≠ 0 then .error (.fault t.size .openRoot)
  else
    match s.rootOpen, s.rootClose with
    | some rootOpen, some rootClose =>
      .ok { path := path, text := t, entries := s.entries, indent := s.indent, rootOpen := rootOpen,
            rootClose := rootClose, namespaces := s.namespaces }
    | _, _ => .error (.fault 0 .noRoot)

end Parse

/-- Reads a text as a document of string resources. -/
def parse (path t : Text) : Except ParseFailure Document :=
  match Parse.document path t with
  | .ok d => .ok d
  | .error (.fault offset cause) => .error (.error { path := path, location := t.location offset, cause := cause })
  | .error .torn => .error .torn

end StringResources
