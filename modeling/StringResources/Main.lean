import StringResources.CommandLine.Command

/-! The program on a real file system. The part of the tree that a command line concerns is loaded, the
    command runs on it as on any disk, and the files it changed are written back, each to a temporary
    file that is then moved over the old one. -/

namespace StringResources.Program

/-- What the program prints when a command line does not fit, or asks for help. -/
def usage : String :=
  "usage: --root PATH --locale LOCALE [--dry-run] [--no-mark] [--skip-untranslatable]\n" ++
  "       [--json] [-q|--quiet] [--debug] FILE...\n\n" ++
  "Copies the entries that PATH/res/values-LOCALE/FILE lacks from PATH/res/values/FILE.\n"

def version : String := "string-resources 0.1.0\n"

def complaint : UsageError → String
  | .unknownArgument => "unexpected argument"
  | .invalidValue => "a value is missing or empty"
  | .argumentConflict => "an argument cannot be used twice"
  | .tooManyValues => "a flag takes no value"
  | .helpAsked => "help was asked for"
  | .versionAsked => "the version was asked for"

def pathOf (a : Address) : String := String.ofList (Path.ofAddress a)

/-- The address of an absolute path without links. -/
def addressOf (path : String) : Address := (Text.splitOn '/' path.toList).filter (· ≠ [])

/-- The target of a link that leads nowhere; no file has a name like it. -/
def nowhere : Text := ['/', '\x00']

/-- A tree with what names lead to from the directory at `directory`. -/
partial def load (tree : Tree) (directory : Address) : List Text → IO Tree
  | [] => return tree
  | name :: rest => do
    if name = Path.here then load tree directory rest
    else if name = Path.up then load tree directory.dropLast rest
    else
      let address := directory ++ [name]
      let path := (← IO.currentDir) / pathOf address
      match ← path.symlinkMetadata.toBaseIO with
      | .error _ => return tree
      | .ok found =>
        match found.type with
        | .dir => load (tree.put address (.directory Node.directoryMode)) address rest
        | .symlink =>
          match ← (IO.FS.realPath path).toBaseIO with
          | .error _ => return tree.put address (.link nowhere)
          | .ok target =>
            load (tree.put address (.link target.toString.toList)) [] (addressOf target.toString ++ rest)
        | _ => return tree.put address (.file Node.fileMode (← IO.FS.readBinFile path).toList)

/-- A tree with what a path leads to. -/
def loadPath (home : Address) (tree : Tree) (path : Text) : IO Tree :=
  load tree (if Path.isAbsolute path then [] else home) (Path.components path)

/-- The part of the real tree that a configuration concerns. -/
def diskFor (c : Config) : IO Disk := do
  let home := addressOf (← IO.FS.realPath (← IO.currentDir)).toString
  let paths := c.routes.root :: c.pairs.flatMap fun p => [p.base, p.locale]
  let tree ← paths.foldlM (loadPath home) .empty
  return { tree := tree, home := home, failNext := false }

/-- Puts contents in the place of a file. -/
def writeBack (address : Address) (contents : Bytes) : IO Unit := do
  let temporary := pathOf (address.dropLast ++ [Temporary.name 0])
  try
    IO.FS.writeBinFile temporary contents.toByteArray
    IO.FS.rename temporary (pathOf address)
  catch e =>
    (IO.FS.removeFile temporary).catchExceptions fun _ => return ()
    throw e

/-- Writes the files of a tree that are not as they were. -/
def writeChanges (old new : Tree) : IO Unit :=
  new.nodes.forM fun (address, node) => do
    match node with
    | .file _ contents => if old.node? address ≠ some node then writeBack address contents
    | _ => return ()

def runCommand (a : Arguments) : IO UInt32 := do
  let disk ←
    match a.config with
    | .ok c => diskFor c
    | .error _ => pure { tree := .empty, home := [], failNext := false }
  let outcome := Command.run a disk
  writeChanges disk.tree outcome.disk.tree
  IO.print (String.ofList outcome.stdout)
  IO.eprint (String.ofList outcome.stderr)
  return outcome.exitCode.toUInt32

/-- Runs the command that the words of a command line make up. -/
def start (words : List String) : IO UInt32 := do
  match Arguments.ofWords (words.map String.toList) with
  | .ok a =>
    try runCommand a
    catch e =>
      IO.eprintln ("error: " ++ toString e)
      return 1
  | .error .helpAsked =>
    IO.print usage
    return 0
  | .error .versionAsked =>
    IO.print version
    return 0
  | .error e =>
    IO.eprint ("error: " ++ complaint e ++ "\n\n" ++ usage)
    return 2

end StringResources.Program

def main (words : List String) : IO UInt32 := StringResources.Program.start words
