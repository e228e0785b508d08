import StringResources.Disk.Basic
import StringResources.Text.Quoted

/-! Replacing the contents of a file as a whole. The new contents are written to a temporary file in the
    directory of the file, which then takes its place under its mode. A link stays, and the file it leads
    to is replaced. Whatever fails, the temporary file is removed and the tree is as it was. -/

namespace StringResources

structure IoError where
  path : Text
  kind : FileError
  /-- The temporary file that could not be made, if that is what failed. -/
  temporary : Option Text := none
  deriving DecidableEq, Repr

def IoError.message (e : IoError) : Text :=
  e.path ++ ": ".toList ++ e.kind.message ++
    match e.temporary with
    | none => []
    | some file => " at path ".toList ++ Text.quoted file

namespace Temporary

def nameStart : Text := ".strsync-".toList
def nameEnd : Text := ".tmp".toList

/-- The name of the temporary file of a number, which is written with six digits or more. -/
def name (n : Nat) : Text := nameStart ++ (Text.ofNat n).leftpad 6 '0' ++ nameEnd

/-- The path from the root of the tree to the temporary file of a number in a directory. -/
def path (home : Address) (directory : Text) (n : Nat) : Text :=
  Path.join (Path.join (Path.ofAddress home) directory) (name n)

/-- What stands here for the path of a temporary file in a message. The message itself has the part of the
    name that is made afresh for each file where this has an asterisk. -/
def shown (directory : Text) : Text :=
  Path.withoutHere (Path.join directory (nameStart ++ ['*'] ++ nameEnd))

/-- An address in a directory that is free for a temporary file. -/
def fresh? (t : Tree) (directory : Address) : Option Address :=
  ((List.range (t.nodes.length + 1)).map fun n => directory ++ [name n]).find? fun a => t.node? a == none

end Temporary

namespace Disk

/-- The mode for the contents that go to a place: that of the file there, or that of a new file. -/
def modeFor : Except FileError Place → Except FileError Nat
  | .ok (.node _ (.file mode _)) => .ok mode
  | .ok (.node _ (.directory mode)) => .ok mode
  | .ok (.node _ (.link _)) => .ok Node.temporaryMode
  | .ok (.vacant _) => .ok Node.temporaryMode
  | .error .notFound => .ok Node.temporaryMode
  | .error e => .error e

/-- Whether a path ends in a name that stands for a directory by where it is: itself or the one above. -/
def endsInDots (path : Text) : Bool :=
  let name := Path.lastName (Text.trimEnd (· == '/') path)
  name == Path.here || name == Path.up

/-- The address to which a file may be moved under a path that leads to `place`. Nothing takes the place
    of the root, nor of a directory that the path does not name. -/
def destination (path : Text) (place : Except FileError Place) : Except FileError Address :=
  if endsInDots path ∨ path.all (· == '/') then
    match place with
    | .error e => .error e
    | .ok _ => .error .busy
  else if Path.endsInSlash path then .error .notADirectory
  else
    match place with
    | .error e => .error e
    | .ok (.node [] _) => .error .busy
    | .ok (.node _ (.directory _)) => .error .isADirectory
    | .ok (.node address _) => .ok address
    | .ok (.vacant address) => .ok address

/-- The address of the directory that a path leads to. -/
def directoryAt (d : Disk) (path : Text) : Except FileError Address := do
  match ← d.find .throughLinks path with
  | .node address (.directory _) => .ok address
  | .node _ _ => .error .notADirectory
  | .vacant _ => .error .notFound

/-- The address for a temporary file in the directory at `address`, which `directory` leads to. -/
def temporaryIn (d : Disk) (directory : Text) (address : Except FileError Address) : Except FileError Address := do
  checkPath (Temporary.path d.home directory 0)
  match Temporary.fresh? d.tree (← address) with
  | some temporary => .ok temporary
  | none => .error .alreadyExists

/-- Puts contents at a place by way of a temporary file. `path` and `directory` are what messages call
    the file and its directory, `address` is that of the directory. -/
def install (d : Disk) (path directory : Text) (address : Except FileError Address)
    (place : Except FileError Place) (contents : Bytes) : Except IoError Unit × Disk :=
  match d.temporaryIn directory address with
  | .error e => (.error { path := directory, kind := e, temporary := some (Temporary.shown directory) }, d)
  | .ok temporary =>
    let created := d.tree.put temporary (.file Node.temporaryMode [])
    let filled := created.put temporary (.file Node.temporaryMode contents)
    if d.failNext then
      (.error { path := Temporary.shown directory, kind := .injected },
        { d with tree := filled.erase temporary, failNext := false })
    else
      match modeFor place with
      | .error e => (.error { path := path, kind := e }, { d with tree := filled.erase temporary })
      | .ok mode =>
        let ready := filled.put temporary (.file mode contents)
        match destination path place with
        | .error e => (.error { path := path, kind := e }, { d with tree := ready.erase temporary })
        | .ok target => (.ok (), { d with tree := ready.move temporary target })

/-- Replaces the contents of the file that a path leads to. -/
def replace (d : Disk) (path : Text) (contents : Bytes) : Except IoError Unit × Disk :=
  match d.find .toLink path with
  | .ok (.node _ (.link _)) =>
    match d.find .resolving path with
    | .ok (.node address node) =>
      d.install (d.pathTo address) (d.pathTo address.dropLast) (.ok address.dropLast) (.ok (.node address node))
        contents
    | .ok (.vacant _) => (.error { path := path, kind := .notFound }, d)
    | .error e => (.error { path := path, kind := e }, d)
  | _ =>
    let directory := Path.parent path
    d.install path directory (d.directoryAt directory) (d.find .throughLinks path) contents

end Disk
end StringResources
