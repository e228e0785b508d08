import StringResources.Disk.Basic

/-! Laying out a tree of files, and listing it. -/

namespace StringResources.Disk

/-- Makes the directories that names lead to from `directory`, those that are missing. -/
def makeFrom (t : Tree) (directory : Address) : List Text → Except FileError (Tree × Address)
  | [] => .ok (t, directory)
  | name :: rest =>
    if name = Path.here then makeFrom t directory rest
    else if name = Path.up then makeFrom t directory.dropLast rest
    else if Tree.maxName < Text.size name then .error .nameTooLong
    else
      match t.walk .throughLinks Tree.maxLinks directory [name] with
      | .ok (.vacant address) => makeFrom (t.put address (.directory Node.directoryMode)) address rest
      | .ok (.node address (.directory _)) => makeFrom t address rest
      | .ok (.node _ _) => .error .notADirectory
      | .error e => .error e

/-- Makes the directory of a path and those above it, as far as they are missing. -/
def makeDirectories (d : Disk) (path : Text) : Except FileError Disk := do
  checkPath path
  let (tree, _) ← makeFrom d.tree (if Path.isAbsolute path then [] else d.home) (Path.components path)
  return { d with tree := tree }

/-- Writes a file, making the directories above it. -/
def write (d : Disk) (path : Text) (contents : Bytes) : Except FileError Disk := do
  let d ← d.makeDirectories (Path.parent path)
  match ← d.find .throughLinks path with
  | .node address (.file mode _) => .ok { d with tree := d.tree.put address (.file mode contents) }
  | .vacant address => .ok { d with tree := d.tree.put address (.file Node.fileMode contents) }
  | .node _ _ => .error .isADirectory

def remove (d : Disk) (path : Text) : Except FileError Disk := do
  match ← d.find .toLink path with
  | .node address _ => .ok { d with tree := d.tree.eraseBelow address }
  | .vacant _ => .error .notFound

/-- Makes a symbolic link in a directory that is there. A link needs a target that a path can be. -/
def symlink (d : Disk) (path target : Text) : Except FileError Disk := do
  checkPath target
  if target = [] then throw .notFound
  match ← d.find .toLink path with
  | .node _ _ => .error .alreadyExists
  | .vacant address => .ok { d with tree := d.tree.put address (.link target) }

def mode (d : Disk) (path : Text) : Except FileError Nat := do
  match ← d.find .throughLinks path with
  | .node _ (.file mode _) => .ok mode
  | .node _ (.directory mode) => .ok mode
  | .node _ (.link _) => .error .linkLoop
  | .vacant _ => .error .notFound

/-- Sets the mode of what a path leads to, of which the nine permission bits count. -/
def setMode (d : Disk) (path : Text) (mode : Nat) : Except FileError Disk := do
  match ← d.find .throughLinks path with
  | .node address (.file _ contents) =>
    .ok { d with tree := d.tree.put address (.file (mode % 0o1000) contents) }
  | .node address (.directory _) => .ok { d with tree := d.tree.put address (.directory (mode % 0o1000)) }
  | .node _ (.link _) => .error .linkLoop
  | .vacant _ => .error .notFound

/-- How a listing shows a node. -/
def listed (path : Text) : Node → Text
  | .file _ _ => path
  | .directory _ => path ++ ['/']
  | .link target => path ++ " -> ".toList ++ target

/-- All nodes below the working directory, in order. -/
def listing (d : Disk) : List Text :=
  let below := d.tree.nodes.filter fun (a, _) => d.home.isPrefixOf a && a != d.home
  (below.map fun (a, n) => listed (Path.ofNames (a.drop d.home.length)) n).mergeSort Text.le

end StringResources.Disk
