import StringResources.Markup.Attribute
import StringResources.Markup.Scan
import StringResources.Resource.Document

/-! The namespace labels that an element needs from the elements around it: those on its tags and their
    attributes, less those it declares itself. -/

namespace StringResources.Labels
open Markup

/-- The label before the colon of a name. The labels `xml` and `xmlns` are bound everywhere and do not
    count. -/
def ofName? (name : Text) : Option Text :=
  match Text.splitAt? [':'] name with
  | none => none
  | some (label, _) => if label = "xml".toList ∨ label = "xmlns".toList then none else some label

/-- The attributes of a tag that can be read. -/
def readable (tag : Tag) : List Attribute := (tag.attributes true).filterMap Except.toOption

def declared? (a : Attribute) : Option Text := Text.stripStart? Namespace.keyStart a.key

/-- The labels on a tag and its attributes. -/
def onTag (tag : Tag) : List Text :=
  (ofName? tag.name).toList ++
    (readable tag).filterMap fun a => if (declared? a).isSome then none else ofName? a.key

/-- The labels a tag declares. -/
def declaredOn (tag : Tag) : List Text := (readable tag).filterMap declared?

/-- The tags of a text, up to its end or the first fault. -/
def tagsOf (element : Text) : List Tag := (Markup.read element).tokens.filterMap Token.tag?

/-- The labels on the tags of an element that none of its tags declares. -/
def needed (element : Text) : List Text :=
  let tags := tagsOf element
  let inside := tags.flatMap declaredOn
  (tags.flatMap onTag).filter (!inside.contains ·)

/-- The declarations among `available` that some element needs and the root of `locale` lacks. -/
def missing (locale : Document) (elements : List Text) (available : List Namespace) : List Namespace :=
  let labels := elements.flatMap needed
  available.filter fun n => labels.contains n.label && !locale.declares n.label

end StringResources.Labels
