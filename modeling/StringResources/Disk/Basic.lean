import StringResources.Disk.Tree
import StringResources.Path

/-! A disk: a tree of files, the directory that relative paths start from, and whether the next writing
    of a temporary file is to fail. `find` follows a path through the tree, links included. -/

namespace StringResources

/-- Why something cannot be done with a path. -/
inductive FileError where
  | notFound
  | isADirectory
  | notADirectory
  /-- A path leads through too many links. -/
  | linkLoop
  | nameTooLong
  | busy
  | alreadyExists
  /-- A path holds a zero character, which no name can. -/
  | zeroInPath
  /-- A failure that was asked for. -/
  | injected
  deriving DecidableEq, Repr

namespace FileError

/-- The wording of an error, as the system gives it. -/
def message : FileError → Text
  | .notFound => "No such file or directory (os error 2)".toList
  | .isADirectory => "Is a directory (os error 21)".toList
  | .notADirectory => "Not a directory (os error 20)".toList
  | .linkLoop => "Too many levels of symbolic links (os error 40)".toList
  | .nameTooLong => "File name too long (os error 36)".toList
  | .busy => "Device or resource busy (os error 16)".toList
  | .alreadyExists => "File exists (os error 17)".toList
  | .zeroInPath => "file name contained an unexpected NUL byte".toList
  | .injected => "simulated failure before rename".toList

end FileError

/-- A tree of files and the state of the program that works on it. -/
structure Disk where
  tree : Tree
  /-- The address of the working directory. -/
  home : Address
  /-- The next writing of a temporary file is to fail. -/
  failNext : Bool
  deriving DecidableEq

inductive Pursuit where
  /-- Up to a link at its end, which is not followed. -/
  | toLink
  /-- Through all links. -/
  | throughLinks
  /-- Through all links, with each node on the way looked up by its own path from the root. -/
  | resolving
  deriving DecidableEq, Repr

inductive Place where
  | node (address : Address) (node : Node)
  /-- Nothing is there, but the directory it would be in exists. -/
  | vacant (address : Address)
  deriving DecidableEq

namespace Tree

def maxName : Nat := 255

def maxPath : Nat := 4095

/-- The greatest number of links that one path may lead through. -/
def maxLinks : Nat := 40

/-- Where names lead from the directory at `directory`. `links` is the number of links that may still be
    followed. -/
def walk (t : Tree) (pursuit : Pursuit) (links : Nat) (directory : Address) : List Text → Except FileError Place
  | [] => .ok (.node directory ((t.node? directory).getD (.directory Node.directoryMode)))
  | name :: rest =>
    let address := directory ++ [name]
    if name = Path.here then walk t pursuit links directory rest
    else if name = Path.up then walk t pursuit links directory.dropLast rest
    else if maxName < Text.size name then .error .nameTooLong
    else if pursuit = .resolving ∧ maxPath < Text.size (Path.ofAddress address) then .error .nameTooLong
    else
      match t.node? address with
      | none => if rest = [] then .ok (.vacant address) else .error .notFound
      | some (.directory _) => walk t pursuit links address rest
      | some (.file mode contents) =>
        if rest = [] then .ok (.node address (.file mode contents)) else .error .notADirectory
      | some (.link target) =>
        if rest = [] ∧ pursuit = .toLink then .ok (.node address (.link target))
        else
          match links with
          | 0 => .error .linkLoop
          | links + 1 =>
            walk t pursuit links (if Path.isAbsolute target then [] else directory) (Path.components target ++ rest)
termination_by names => (links, names.length)

end Tree

namespace Disk

/-- Refuses the paths that nothing can have, whatever the tree holds. -/
def checkPath (path : Text) : Except FileError Unit :=
  if path.contains '\x00' then .error .zeroInPath
  else if Tree.maxPath < Text.size path then .error .nameTooLong
  else .ok ()

def find (d : Disk) (pursuit : Pursuit) (path : Text) : Except FileError Place :=
  match checkPath path with
  | .error e => .error e
  | .ok () =>
    if path = [] then .error .notFound
    else d.tree.walk pursuit Tree.maxLinks (if Path.isAbsolute path then [] else d.home) (Path.components path)

def isDirectory (d : Disk) (path : Text) : Bool :=
  match d.find .throughLinks path with
  | .ok (.node _ (.directory _)) => true
  | _ => false

def read (d : Disk) (path : Text) : Except FileError Bytes :=
  match d.find .throughLinks path with
  | .ok (.node _ (.file _ contents)) => .ok contents
  | .ok (.node _ (.directory _)) => .error .isADirectory
  | .ok (.node _ (.link _)) => .error .linkLoop
  | .ok (.vacant _) => .error .notFound
  | .error e => .error e

/-- The path that leads to an address without links: from the working directory for what is in it. -/
def pathTo (d : Disk) (a : Address) : Text :=
  if a = d.home then Path.here
  else
    match d.home.isPrefixOf a with
    | true => Path.ofNames (a.drop d.home.length)
    | false => Path.ofAddress a

end Disk
end StringResources
