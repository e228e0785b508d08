import StringResources.Report.Json
import StringResources.Sync.Run

/-! Reports as text: lines for readers, and a JSON document for programs. -/

namespace StringResources

namespace Report

def count (n : Nat) : Text := if n = 1 then "1 entry".toList else Text.ofNat n ++ " entries".toList

/-- The keys, each on a line that begins with `lead`. -/
def keyList (lead : Text) (keys : List Key) : Text := ['\n'].intercalate (keys.map fun k => lead ++ k.display)

end Report

namespace FileReport

/-- What became of a pair of files, in one line. -/
def summary (r : FileReport) : Text :=
  if r.upToDate then r.locale ++ ": up to date".toList
  else if r.written then r.locale ++ ": added ".toList ++ Report.count r.added.length
  else r.locale ++ ": would add ".toList ++ Report.count r.added.length

/-- The lines of a report: the summary, then the keys added, then those left out. -/
def lines (r : FileReport) : Text :=
  r.summary ++ ['\n'] ++
    (if r.added = [] then [] else Report.keyList "  + ".toList r.added ++ ['\n']) ++
    (if r.skipped = [] then []
      else "  skipped (translatable=\x22false\x22):\n".toList ++ Report.keyList "    ".toList r.skipped ++ ['\n'])

/-- How many entries a report found in place, in one line. -/
def preservedLine (r : FileReport) : Text :=
  r.locale ++ ": ".toList ++ Report.count r.preserved ++ " preserved from ".toList ++ r.base

def keysJson (keys : List Key) : Json := .list (keys.map fun k => .text k.display)

def toJson (r : FileReport) : Json :=
  .object [("base".toList, .text r.base), ("locale".toList, .text r.locale), ("added".toList, keysJson r.added),
    ("skipped".toList, keysJson r.skipped), ("preserved".toList, .number r.preserved),
    ("written".toList, .flag r.written)]

end FileReport

def SyncReport.toJson (r : SyncReport) : Json := .object [("files".toList, .list (r.files.map FileReport.toJson))]

end StringResources
