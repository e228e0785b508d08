import StringResources.Disk.Replace
import StringResources.Merge.Render
import StringResources.Resource.Parse
import StringResources.Sync.Config
import StringResources.Text.Encoding

/-! Merging one file into another on a disk: read both, parse both, plan, and replace the locale file if
    there is something to add. The base file is only read. -/

namespace StringResources

inductive SyncError where
  | config (e : ConfigError)
  | notFound (path : Text)
  | parse (e : ParseError)
  | io (e : IoError)
  /-- A span of a document does not fall between its characters. -/
  | torn
  deriving DecidableEq

namespace SyncError

def message : SyncError → Text
  | .config e => e.message
  | .notFound path => path ++ ": file not found".toList
  | .parse e => e.message
  | .io e => e.message
  | .torn => "a span of the document does not fall between its characters".toList

def ofParseFailure : ParseFailure → SyncError
  | .error e => .parse e
  | .torn => .torn

end SyncError

/-- What became of one pair of files. -/
structure FileReport where
  base : Text
  locale : Text
  added : List Key
  skipped : List Key
  preserved : Nat
  written : Bool
  deriving DecidableEq, Repr

/-- Whether the locale file lacked nothing. -/
def FileReport.upToDate (r : FileReport) : Bool := r.added.isEmpty

namespace Disk

/-- The text of the file a path leads to. -/
def readText (d : Disk) (path : Text) : Except SyncError Text :=
  match d.read path with
  | .error .notFound => .error (.notFound path)
  | .error e => .error (.io { path := path, kind := e })
  | .ok bytes =>
    match Text.decode bytes with
    | .ok t => .ok t
    | .error valid => .error (.parse (.invalidUtf8 path valid))

/-- The documents of a base and a locale file. Both are read before either is parsed. -/
def documents (d : Disk) (base locale : Text) : Except SyncError (Document × Document) := do
  let baseText ← d.readText base
  let localeText ← d.readText locale
  let baseDocument ← (parse base baseText).mapError SyncError.ofParseFailure
  let localeDocument ← (parse locale localeText).mapError SyncError.ofParseFailure
  .ok (baseDocument, localeDocument)

/-- Adds to the locale file what it lacks of the base file. -/
def mergeFile (d : Disk) (base locale : Text) (options : MergeOptions) : Except SyncError FileReport × Disk :=
  match d.documents base locale with
  | .error e => (.error e, d)
  | .ok (baseDocument, localeDocument) =>
    let plan := MergePlan.compute baseDocument localeDocument options
    let write := !plan.isEmpty && !options.dryRun
    let report : FileReport :=
      { base := base, locale := locale, added := plan.addedKeys, skipped := plan.skipped,
        preserved := plan.preserved, written := write }
    if write then
      match plan.render baseDocument localeDocument options.markUntranslated with
      | none => (.error .torn, d)
      | some t =>
        match d.replace locale (Text.encode t) with
        | (.ok (), d) => (.ok report, d)
        | (.error e, d) => (.error (.io e), d)
    else (.ok report, d)

end Disk
end StringResources
