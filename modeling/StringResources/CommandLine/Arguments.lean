import StringResources.Sync.Config
import StringResources.Text.Encoding

/-! Command lines. An option takes its value from the next word or after an equals sign; flags and options
    may stand in any order and among the files, and after two hyphens all words are files.

    A value from the next word is not looked at until the next word that means something, or the end:
    `settle` checks it then. So an error in a later word that means nothing comes before an error in the
    value. -/

namespace StringResources

/-- How much a run reports. -/
inductive Verbosity where
  /-- Errors only. -/
  | quiet
  | normal
  /-- Also paths, options and the numbers of entries kept. -/
  | debug
  deriving DecidableEq, Repr

/-- What a command line holds. The root is a path, of any bytes; all else is text. -/
structure Arguments where
  root : Option Bytes := none
  locale : Option Text := none
  files : List Text := []
  dryRun : Bool := false
  noMark : Bool := false
  skipUntranslatable : Bool := false
  json : Bool := false
  quiet : Bool := false
  debug : Bool := false
  deriving DecidableEq, Repr

namespace Arguments

def options (a : Arguments) : MergeOptions where
  markUntranslated := !a.noMark
  skipUntranslatable := a.skipUntranslatable
  dryRun := a.dryRun

/-- How much to report; quiet wins over debug. -/
def verbosity (a : Arguments) : Verbosity := if a.quiet then .quiet else if a.debug then .debug else .normal

/-- Whether the root, if there is one, is UTF-8. -/
def rootIsText (a : Arguments) : Bool := a.root.all fun bytes => (Text.decode bytes).isOk

/-- The configuration that the arguments make up. Paths are texts in it, and so are the names in a tree: a name
    that is no UTF-8 stands there as it is shown. -/
def config (a : Arguments) : Except ConfigError Config :=
  Config.ofValues (a.root.map Text.lossy) a.locale a.files a.options

end Arguments

/-- Why a command line is not taken, or what it asks for instead of a run. -/
inductive UsageError where
  | unknownArgument
  | invalidValue
  /-- An option or flag that stands twice. -/
  | argumentConflict
  /-- A value for a flag. -/
  | tooManyValues
  | helpAsked
  | versionAsked
  deriving DecidableEq, Repr

def UsageError.exitCode : UsageError → Nat
  | .helpAsked => 0
  | .versionAsked => 0
  | _ => 2

namespace CommandLine

/-- An option that takes a value. -/
inductive Setting where
  | root
  | locale
  deriving DecidableEq, Repr

/-- A flag that is set or not. -/
inductive Switch where
  | dryRun
  | noMark
  | skipUntranslatable
  | json
  | quiet
  | debug
  deriving DecidableEq, Repr

inductive Effect where
  | setting (s : Setting)
  | switch (s : Switch)
  | help
  | version
  deriving DecidableEq, Repr

/-- The options and flags by their long names. -/
def longNames : List (Text × Effect) :=
  [("root".toList, .setting .root), ("locale".toList, .setting .locale), ("dry-run".toList, .switch .dryRun),
    ("no-mark".toList, .switch .noMark), ("skip-untranslatable".toList, .switch .skipUntranslatable),
    ("json".toList, .switch .json), ("quiet".toList, .switch .quiet), ("debug".toList, .switch .debug),
    ("help".toList, .help), ("version".toList, .version)]

/-- The flags by their letters. -/
def shortNames : List (Char × Effect) := [('q', .switch .quiet), ('h', .help), ('V', .version)]

inductive Word where
  /-- Two hyphens: all that follows are files. -/
  | separator
  /-- A long name, and what follows its equals sign. -/
  | long (name : Text) (value : Option Text)
  /-- Letters of flags after one hyphen. -/
  | short (letters : Text)
  /-- A value or a file. -/
  | plain
  deriving DecidableEq

def Word.ofText : Text → Word
  | ['-', '-'] => .separator
  | '-' :: '-' :: t =>
    match Text.splitAt? ['='] t with
    | some (name, value) => .long name (some value)
    | none => .long t none
  | '-' :: c :: t => .short (c :: t)
  | _ => .plain

/-- The command line read so far, and the option whose value is to come or still to be checked. -/
structure State where
  arguments : Arguments := {}
  pending : Option (Setting × Option Text) := none
  deriving DecidableEq

/-- The bytes of the value that an option has got. -/
def valueOf (a : Arguments) : Setting → Option Bytes
  | .root => a.root
  | .locale => a.locale.map Text.encode

def store (a : Arguments) (s : Setting) (value : Text) : Except UsageError Arguments :=
  if (valueOf a s).isSome then .error .argumentConflict
  else
    match s with
    | .root => if value = [] then .error .invalidValue else .ok { a with root := some (Text.encode value) }
    | .locale => .ok { a with locale := some value }

def isSet (a : Arguments) : Switch → Bool
  | .dryRun => a.dryRun
  | .noMark => a.noMark
  | .skipUntranslatable => a.skipUntranslatable
  | .json => a.json
  | .quiet => a.quiet
  | .debug => a.debug

def set (a : Arguments) : Switch → Arguments
  | .dryRun => { a with dryRun := true }
  | .noMark => { a with noMark := true }
  | .skipUntranslatable => { a with skipUntranslatable := true }
  | .json => { a with json := true }
  | .quiet => { a with quiet := true }
  | .debug => { a with debug := true }

/-- The arguments with the pending option stored. -/
def settle (s : State) : Except UsageError Arguments :=
  match s.pending with
  | none => .ok s.arguments
  | some (_, none) => .error .invalidValue
  | some (setting, some value) => store s.arguments setting value

/-- The state after an option or flag without a value of its own. -/
def apply (s : State) (e : Effect) : Except UsageError State := do
  let a ← settle s
  match e with
  | .setting setting => .ok { arguments := a, pending := some (setting, none) }
  | .switch switch => if isSet a switch then .error .argumentConflict else .ok { arguments := set a switch }
  | .help => .error .helpAsked
  | .version => .error .versionAsked

/-- The state after an option or flag with a value after an equals sign. -/
def applyValue (s : State) (e : Effect) (value : Text) : Except UsageError State :=
  match e with
  | .setting setting => do
    let a ← settle s
    let a ← store a setting value
    .ok { arguments := a }
  | _ => .error .tooManyValues

def applyLetter (s : State) (c : Char) : Except UsageError State :=
  match shortNames.lookup c with
  | some e => apply s e
  | none => .error .unknownArgument

def addFile (s : State) (file : Text) : Except UsageError State := do
  let a ← settle s
  .ok { arguments := { a with files := a.files ++ [file] } }

/-- The state after a word other than the separator. -/
def step (s : State) (t : Text) : Except UsageError State :=
  match Word.ofText t with
  | .separator => .ok s
  | .long name value =>
    match longNames.lookup name with
    | none => .error .unknownArgument
    | some e =>
      match value with
      | none => apply s e
      | some value => applyValue s e value
  | .short letters => letters.foldlM applyLetter s
  | .plain =>
    match s.pending with
    | some (setting, none) => .ok { s with pending := some (setting, some t) }
    | _ => addFile s t

/-- The arguments that the words after a state make up. -/
def readFrom (s : State) : List Text → Except UsageError Arguments
  | [] => settle s
  | t :: ts =>
    if Word.ofText t = .separator then do settle (← ts.foldlM addFile s)
    else do readFrom (← step s t) ts

end CommandLine

/-- Reads the words of a command line, without the name of the program. -/
def Arguments.ofWords (words : List Text) : Except UsageError Arguments := CommandLine.readFrom {} words

end StringResources
