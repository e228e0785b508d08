import StringResources.CommandLine.Arguments
import StringResources.Report.Summary

/-! The command: a run over all files, and what it prints. Reports go to the standard output, warnings,
    errors and notes to the error output. -/

namespace StringResources

/-- Why a command fails. -/
inductive CommandError where
  /-- Its run does. -/
  | sync (e : SyncError)
  /-- A path of the report is no text, so the report has no JSON document. -/
  | pathNotText
  deriving DecidableEq

def CommandError.message : CommandError → Text
  | .sync e => e.message
  | .pathNotText => "path contains invalid UTF-8 characters".toList

/-- What a command printed, how it ended, and the disk it left. -/
structure CommandOutcome where
  stdout : Text
  stderr : Text
  result : Except CommandError SyncReport
  disk : Disk

namespace CommandOutcome

/-- The exit code: 0 of a finished run, 1 of a refused one, 101 of one that broke off. -/
def exitCode (o : CommandOutcome) : Nat :=
  match o.result with
  | .ok _ => 0
  | .error (.sync .torn) => 101
  | .error _ => 1

end CommandOutcome

namespace Command

def line (t : Text) : Text := t ++ ['\n']

/-- The line that reports an error. A torn span breaks a run off on the spot, and is reported in its own words. -/
def errorLine : CommandError → Text
  | .sync .torn => line SyncError.torn.message
  | e => line ("error: ".toList ++ e.message)

/-- A line that only a run with `debug` prints. -/
def debugLine (v : Verbosity) (t : Text) : Text := if v = .debug then line ("[debug] ".toList ++ t) else []

/-- The options as a note gives them. -/
def optionsNote (o : MergeOptions) : Text :=
  "MergeOptions \x7b mark_untranslated: ".toList ++ word o.markUntranslated ++ ", skip_untranslatable: ".toList ++
    word o.skipUntranslatable ++ ", dry_run: ".toList ++ word o.dryRun ++ " \x7d".toList
where
  /-- The word for a truth value. -/
  word (b : Bool) : Text := if b then "true".toList else "false".toList

def notes (v : Verbosity) (c : Config) : Text :=
  debugLine v ("base dir: ".toList ++ c.routes.baseDir) ++ debugLine v ("locale dir: ".toList ++ c.routes.localeDir) ++
    debugLine v ("options: ".toList ++ optionsNote c.options)

/-- What a finished file adds to the standard output. -/
def fileOutput (v : Verbosity) (r : FileReport) : Text := if v = .quiet then [] else r.lines

/-- What a finished file adds to the error output. -/
def fileNotes (v : Verbosity) (r : FileReport) : Text := debugLine v r.preservedLine

/-- What has been printed so far. -/
structure Printed where
  stdout : Text
  stderr : Text

/-- What has been printed after the report of one more file. -/
def printFile (v : Verbosity) (p : Printed) (r : FileReport) : Printed where
  stdout := p.stdout ++ fileOutput v r
  stderr := p.stderr ++ fileNotes v r

/-- The verbosity for single files: with a JSON report none is reported by itself. -/
def fileVerbosity (a : Arguments) : Verbosity := if a.json then .quiet else a.verbosity

/-- How a command ends with its run. All paths of a report begin with the root, and a JSON document takes only
    text. -/
def ending (a : Arguments) : Except SyncError SyncReport → Except CommandError SyncReport
  | .error e => .error (.sync e)
  | .ok r => if a.json && !a.rootIsText then .error .pathNotText else .ok r

/-- What a run that was not stopped adds to the standard output. -/
def closingOutput (a : Arguments) (r : SyncReport) : Text := if a.json then line r.toJson.pretty else []

/-- What a run that was not stopped adds to the error output. -/
def closingNotes (a : Arguments) (c : Config) (r : SyncReport) : Text :=
  if !a.json && c.options.dryRun && 0 < r.totalAdded && a.verbosity ≠ .quiet then
    line "warning: dry run, no files were written".toList
  else []

def run (a : Arguments) (d : Disk) : CommandOutcome :=
  match a.config with
  | .error e =>
    { stdout := [], stderr := errorLine (.sync (.config e)), result := .error (.sync (.config e)), disk := d }
  | .ok c =>
    let (printed, o) := Disk.syncEach (printFile (fileVerbosity a)) ⟨[], notes a.verbosity c⟩ d c
    match ending a o.result with
    | .ok r =>
      { stdout := printed.stdout ++ closingOutput a r, stderr := printed.stderr ++ closingNotes a c r
        result := .ok r, disk := o.disk }
    | .error e =>
      { stdout := printed.stdout, stderr := printed.stderr ++ errorLine e, result := .error e, disk := o.disk }

end Command
end StringResources
