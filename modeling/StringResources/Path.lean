import StringResources.Text.Basic

/-! Paths as they are written: putting them together and taking them apart. What a path leads to is the
    matter of `Disk.find`. -/

namespace StringResources.Path

/-- The directory a path is written from. -/
def here : Text := ['.']

def up : Text := ['.', '.']

def isAbsolute (path : Text) : Bool := path.head? == some '/'

def endsInSlash (path : Text) : Bool := path.getLast? == some '/'

/-- The names to follow, in order. Empty names are left out, but a slash at the end asks for a
    directory, as a last name that stands for itself does. -/
def components (path : Text) : List Text :=
  (Text.splitOn '/' path).filter (· ≠ []) ++ if endsInSlash path then [here] else []

/-- The last name of a path, empty after a slash. -/
def lastName (path : Text) : Text := (path.reverse.takeWhile (· != '/')).reverse

/-- A reversed path without the slashes, and the names that stand for the directory they are in, at its
    end. -/
def trimReversed : Text → Text
  | [] => []
  | c :: t =>
    if c = '/' then trimReversed t
    else
      match t with
      | '/' :: r => if c = '.' then trimReversed r else c :: t
      | _ => c :: t

/-- A path without the slashes, and the names that stand for the directory they are in, at its end. -/
def trimmed (path : Text) : Text := (trimReversed path.reverse).reverse

/-- The path of the directory that holds what a path leads to. The directory a path is written from
    stands in for it if the path has no name, as that of the root has none. -/
def parent (path : Text) : Text :=
  let body := trimmed path
  match trimmed (body.take (body.length - (lastName body).length)) with
  | [] => if isAbsolute body then ['/'] else here
  | directory => directory

/-- A path without the name at its beginning that stands for the directory it is written from, and the
    slash after that name. Only one is dropped: what follows stays as it is written. -/
def withoutHere (path : Text) : Text := (Text.stripStart? (here ++ ['/']) path).getD path

def ofNames (names : List Text) : Text := ['/'].intercalate names

def ofAddress (names : List Text) : Text := '/' :: ofNames names

/-- A path with one more part. Nothing is normalised: a slash is put between unless the path is empty or
    ends in one. A part that begins with a slash replaces the path. -/
def join (path part : Text) : Text :=
  if isAbsolute part then part
  else if path = [] ∨ endsInSlash path then path ++ part
  else path ++ '/' :: part

end StringResources.Path
