import StringResources.Text.Basic

/-! Keys of string resources. Each kind has names of its own, so a key is a kind with a name; it is shown
    the way a resource refers to it. -/

namespace StringResources

inductive Kind where
  | string
  | stringArray
  | plurals
  deriving DecidableEq, Repr

namespace Kind

/-- The name of the elements that define resources of a kind. -/
def tag : Kind → Text
  | .string => "string".toList
  | .stringArray => "string-array".toList
  | .plurals => "plurals".toList

/-- The word that stands for a kind in a reference. -/
def referenceType : Kind → Text
  | .string => "string".toList
  | .stringArray => "array".toList
  | .plurals => "plurals".toList

def all : List Kind := [.string, .stringArray, .plurals]

/-- The place of a kind in the order of kinds. -/
def rank : Kind → Nat
  | .string => 0
  | .stringArray => 1
  | .plurals => 2

/-- The kind whose resources elements of the given name define. -/
def ofTag? (name : Text) : Option Kind := all.find? (·.tag == name)

@[simp] theorem ofTag?_tag (k : Kind) : ofTag? k.tag = some k := by cases k <;> rfl

theorem ofTag?_eq_some_iff {name : Text} {k : Kind} : ofTag? name = some k ↔ name = k.tag := by
  constructor
  · intro h
    unfold ofTag? at h
    have := List.find?_some h
    exact (beq_iff_eq.mp this).symm
  · rintro rfl
    exact ofTag?_tag k

end Kind

structure Key where
  kind : Kind
  name : Text
  deriving DecidableEq, Repr

namespace Key

/-- A key as resources refer to it. -/
def display (k : Key) : Text := '@' :: (k.kind.referenceType ++ '/' :: k.name)

/-- The order of keys: by kind, then by name. -/
def le (a b : Key) : Bool :=
  if a.kind = b.kind then Text.le a.name b.name else a.kind.rank ≤ b.kind.rank

def sort (keys : List Key) : List Key := keys.mergeSort le

end Key
end StringResources
