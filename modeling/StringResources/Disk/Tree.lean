import StringResources.Text.Encoding

/-! A tree of files: what stands at each address. Addresses hold the names from the root down, without
    links. One lemma for each operation says what it does to `node?`. -/

namespace StringResources

/-- The names from the root of a tree down to a node. -/
abbrev Address := List Text

/-- What can stand at an address. Modes are permission bits. -/
inductive Node where
  | file (mode : Nat) (contents : Bytes)
  | directory (mode : Nat)
  /-- A symbolic link, with the path it was made with. -/
  | link (target : Text)
  deriving DecidableEq

def Node.directoryMode : Nat := 0o755

def Node.fileMode : Nat := 0o644

def Node.temporaryMode : Nat := 0o600

/-- The nodes of a tree below its root, each with its address, in the order they were made. -/
structure Tree where
  nodes : List (Address × Node)
  deriving DecidableEq

namespace Tree

def empty : Tree := { nodes := [] }

/-- The node at an address. The root is a directory. -/
def node? (t : Tree) : Address → Option Node
  | [] => some (.directory Node.directoryMode)
  | a => t.nodes.lookup a

/-- The nodes with one more, or with another in its place. -/
def putIn (a : Address) (n : Node) : List (Address × Node) → List (Address × Node)
  | [] => [(a, n)]
  | (b, m) :: rest => if b = a then (a, n) :: rest else (b, m) :: putIn a n rest

def put (t : Tree) (a : Address) (n : Node) : Tree := { nodes := putIn a n t.nodes }

def erase (t : Tree) (a : Address) : Tree := { nodes := t.nodes.filter (·.1 ≠ a) }

def eraseBelow (t : Tree) (a : Address) : Tree := { nodes := t.nodes.filter (!a.isPrefixOf ·.1) }

def move (t : Tree) (source destination : Address) : Tree :=
  match t.node? source with
  | some n => (t.erase source).put destination n
  | none => t

theorem lookup_putIn_self (a : Address) (n : Node) (l : List (Address × Node)) :
    (putIn a n l).lookup a = some n := by
  induction l with
  | nil => simp [putIn]
  | cons x l ih =>
    obtain ⟨b, m⟩ := x
    rw [putIn]
    split
    · simp
    · next hb => rw [List.lookup_cons, show (a == b) = false from beq_false_of_ne (Ne.symm hb), ih]

theorem lookup_putIn_of_ne {a b : Address} (n : Node) (l : List (Address × Node)) (h : b ≠ a) :
    (putIn a n l).lookup b = l.lookup b := by
  induction l with
  | nil => simp [putIn, List.lookup_cons, beq_false_of_ne h]
  | cons x l ih =>
    obtain ⟨c, m⟩ := x
    rw [putIn]
    split
    · next hc => subst hc; simp [List.lookup_cons, beq_false_of_ne h]
    · rw [List.lookup_cons, List.lookup_cons, ih]

@[simp] theorem node?_put_self (t : Tree) {a : Address} (n : Node) (h : a ≠ []) : (t.put a n).node? a = some n := by
  cases a with
  | nil => exact absurd rfl h
  | cons => exact lookup_putIn_self _ _ _

theorem node?_put_of_ne (t : Tree) {a b : Address} (n : Node) (h : b ≠ a) : (t.put a n).node? b = t.node? b := by
  cases b with
  | nil => rfl
  | cons => exact lookup_putIn_of_ne _ _ h

theorem lookup_filter_of_ne {a b : Address} (l : List (Address × Node)) (h : b ≠ a) :
    (l.filter (·.1 ≠ a)).lookup b = l.lookup b := by
  induction l with
  | nil => rfl
  | cons x l ih =>
    obtain ⟨c, m⟩ := x
    rw [List.filter_cons]
    by_cases hc : c = a
    · have hbc : (b == c) = false := beq_false_of_ne (hc ▸ h)
      rw [if_neg (by simp [hc]), ih, List.lookup_cons, hbc]
    · rw [if_pos (by simp [hc]), List.lookup_cons, List.lookup_cons, ih]

theorem node?_erase_of_ne (t : Tree) {a b : Address} (h : b ≠ a) : (t.erase a).node? b = t.node? b := by
  cases b with
  | nil => rfl
  | cons => exact lookup_filter_of_ne _ h

end Tree
end StringResources
