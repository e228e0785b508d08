import StringResources.CommandLine.Command
import StringResources.Proofs.Sync.Runs

/-! What is printed of a run, and what the flags for output have to do with it. How a run goes is settled by the
    other arguments (`Runs`); a finished file, the end of the command (`Ends`) and the notes each print by the flags
    alone. Main statements: `run_eq` and what it comes to for each flag. -/

namespace StringResources.Command
open Disk

variable {a : Arguments} {d : Disk} {c : Config}

/-- How a run goes: the reports of the files it finishes, how it ends, and the disk it leaves. It is refused for its
    values or its root, or it merges the files in order, all of them or up to one that fails. -/
inductive Runs (a : Arguments) (d : Disk) : List FileReport → Except SyncError SyncReport → Disk → Prop
  | refused {e : ConfigError} : a.config = .error e → Runs a d [] (.error (.config e)) d
  | astray {c : Config} : a.config = .ok c → d.isDirectory c.routes.root = false →
      Runs a d [] (.error (.config (.rootNotDirectory c.routes.root))) d
  | complete {c : Config} {reports : List FileReport} {d' : Disk} : a.config = .ok c →
      d.isDirectory c.routes.root = true → Merges c.options d c.pairs reports d' →
      Runs a d reports (.ok { files := reports }) d'
  | stopped {c : Config} {done rest : List FilePair} {pair : FilePair} {reports : List FileReport} {e : SyncError}
      {d₁ d₂ : Disk} : a.config = .ok c → d.isDirectory c.routes.root = true → c.pairs = done ++ pair :: rest →
      Merges c.options d done reports d₁ → d₁.mergeFile pair.base pair.locale c.options = (.error e, d₂) →
      Runs a d reports (.error e) d₂

/-- How far a run comes, told without what it prints. -/
def outcome (a : Arguments) (d : Disk) : SyncOutcome :=
  match a.config with
  | .error e => { finished := [], failure := some (.config e), disk := d }
  | .ok c => d.sync c

theorem outcome_of_error {e : ConfigError} (h : a.config = .error e) (d : Disk) :
    outcome a d = { finished := [], failure := some (.config e), disk := d } := by
  rw [outcome, h]

theorem outcome_of_ok (h : a.config = .ok c) (d : Disk) : outcome a d = d.sync c := by
  rw [outcome, h]

theorem runs_outcome (a : Arguments) (d : Disk) :
    Runs a d (outcome a d).finished (outcome a d).result (outcome a d).disk := by
  cases hconfig : a.config with
  | error e =>
    rw [outcome_of_error hconfig]
    exact .refused hconfig
  | ok c =>
    rw [outcome_of_ok hconfig]
    cases hroot : d.isDirectory c.routes.root with
    | false =>
      rw [sync_of_not_isDirectory hroot]
      exact .astray hconfig hroot
    | true =>
      rw [sync_of_isDirectory hroot]
      have hending := mergePairs_ending c.options d c.pairs
      generalize mergePairs c.options d c.pairs = o at hending
      cases hending with
      | complete hmerges => exact .complete hconfig hroot hmerges
      | stopped hpairs hmerges hfails => exact .stopped hconfig hroot hpairs hmerges hfails

/-- What the end of a command adds to the standard output. -/
def lastOutput (a : Arguments) : Except CommandError SyncReport → Text
  | .ok r => closingOutput a r
  | .error _ => []

/-- What a run notes before its end. -/
def earlierNotes (a : Arguments) (d : Disk) : Text :=
  match a.config with
  | .error _ => []
  | .ok c => notes a.verbosity c ++ (outcome a d).finished.flatMap (fileNotes (fileVerbosity a))

/-- What the end of a command adds to the error output. -/
def lastNotes (a : Arguments) : Except CommandError SyncReport → Text
  | .error e => errorLine e
  | .ok r =>
    match a.config with
    | .error _ => []
    | .ok c => closingNotes a c r

theorem foldl_printFile (v : Verbosity) (p : Printed) (reports : List FileReport) :
    reports.foldl (printFile v) p =
      { stdout := p.stdout ++ reports.flatMap (fileOutput v), stderr := p.stderr ++ reports.flatMap (fileNotes v) } := by
  induction reports generalizing p with
  | nil => simp
  | cons r reports ih => simp [ih, printFile]

/-- A run and what it prints, put together. -/
theorem run_eq (a : Arguments) (d : Disk) : run a d =
    { stdout := (outcome a d).finished.flatMap (fileOutput (fileVerbosity a)) ++
        lastOutput a (ending a (outcome a d).result)
      stderr := earlierNotes a d ++ lastNotes a (ending a (outcome a d).result)
      result := ending a (outcome a d).result
      disk := (outcome a d).disk } := by
  cases hconfig : a.config with
  | error e => simp [run, outcome, earlierNotes, lastNotes, lastOutput, ending, SyncOutcome.result, hconfig]
  | ok c =>
    simp only [run, outcome, earlierNotes, hconfig, syncEach_eq, foldl_printFile, List.nil_append]
    cases ending a (d.sync c).result with
    | ok r => simp only [lastNotes, lastOutput, hconfig]
    | error e => simp only [lastNotes, lastOutput, List.append_nil]

theorem run_result (a : Arguments) (d : Disk) : (run a d).result = ending a (outcome a d).result :=
  congrArg CommandOutcome.result (run_eq a d)

theorem run_disk (a : Arguments) (d : Disk) : (run a d).disk = (outcome a d).disk :=
  congrArg CommandOutcome.disk (run_eq a d)

/-- How a command ends whose run went as given. A report is not given in JSON if the root is not UTF-8. -/
inductive Ends (a : Arguments) : Except SyncError SyncReport → Except CommandError SyncReport → Prop
  | failed (e : SyncError) : Ends a (.error e) (.error (.sync e))
  | shown (r : SyncReport) : a.json = false → Ends a (.ok r) (.ok r)
  | document (r : SyncReport) : (∀ root, a.root = some root → ∃ t, root = Text.encode t) → Ends a (.ok r) (.ok r)
  | withheld {root : Bytes} (r : SyncReport) : a.json = true → a.root = some root → (∀ t, root ≠ Text.encode t) →
      Ends a (.ok r) (.error .pathNotText)

theorem rootIsText_iff : a.rootIsText = true ↔ ∀ root, a.root = some root → ∃ t, root = Text.encode t := by
  cases hroot : a.root with
  | none => simp [Arguments.rootIsText, hroot]
  | some root => simp [Arguments.rootIsText, hroot, Text.isOk_decode_iff]

theorem ends_ending (a : Arguments) (result : Except SyncError SyncReport) : Ends a result (ending a result) := by
  cases result with
  | error e => exact .failed e
  | ok r =>
    rw [ending]
    split
    · next hwithheld =>
      obtain ⟨hjson, hroot⟩ := Bool.and_eq_true_iff.mp hwithheld
      rw [Bool.not_eq_true', ← Bool.not_eq_true, rootIsText_iff] at hroot
      push Not at hroot
      obtain ⟨root, hroot, hbytes⟩ := hroot
      exact .withheld r hjson hroot hbytes
    · next hgiven =>
      cases hjson : a.json with
      | false => exact .shown r hjson
      | true => exact .document r (rootIsText_iff.mp (by simpa [hjson] using hgiven))

/-! ### What the flags choose -/

section Flags
variable (reports : List FileReport)

theorem fileVerbosity_of_json (h : a.json = true) : fileVerbosity a = .quiet := if_pos h

theorem fileVerbosity_of_not_json (h : a.json = false) : fileVerbosity a = a.verbosity := if_neg (by simp [h])

theorem verbosity_of_quiet (h : a.quiet = true) : a.verbosity = .quiet := if_pos h

theorem verbosity_ne_quiet (h : a.quiet = false) : a.verbosity ≠ .quiet := by
  rw [Arguments.verbosity, if_neg (by simp [h])]
  split <;> decide

theorem flatMap_fileOutput_quiet : reports.flatMap (fileOutput .quiet) = [] :=
  List.flatMap_eq_nil_iff.mpr fun _ _ => rfl

theorem flatMap_fileOutput {v : Verbosity} (h : v ≠ .quiet) :
    reports.flatMap (fileOutput v) = reports.flatMap FileReport.lines :=
  List.flatMap_congr fun _ _ => if_neg h

theorem flatMap_fileNotes_quiet : reports.flatMap (fileNotes .quiet) = [] :=
  List.flatMap_eq_nil_iff.mpr fun _ _ => rfl

theorem lastOutput_of_not_json (h : a.json = false) (result : Except CommandError SyncReport) :
    lastOutput a result = [] := by
  cases result with
  | ok r => exact if_neg (by simp [h])
  | error e => rfl

theorem earlierNotes_of_quiet (hjson : a.json = false) (h : a.quiet = true) (d : Disk) : earlierNotes a d = [] := by
  unfold earlierNotes
  split
  · rfl
  · rw [fileVerbosity_of_not_json hjson, verbosity_of_quiet h, flatMap_fileNotes_quiet]
    rfl

theorem lastNotes_of_quiet (h : a.quiet = true) (result : Except CommandError SyncReport) :
    lastNotes a result = match result with
      | .ok _ => []
      | .error e => errorLine e := by
  cases result with
  | error e => rfl
  | ok r =>
    dsimp only [lastNotes]
    split
    · rfl
    · exact if_neg (by simp [verbosity_of_quiet h])

end Flags

/-- The error that ends a command is reported last. -/
theorem errorLine_suffix {e : CommandError} (h : (run a d).result = .error e) : errorLine e <:+ (run a d).stderr := by
  rw [run_result] at h
  rw [run_eq, h]
  exact List.suffix_append _ _

/-- With a JSON report nothing else is on the standard output. -/
theorem stdout_of_json (h : a.json = true) (d : Disk) :
    (run a d).stdout = match (run a d).result with
      | .ok r => line r.toJson.pretty
      | .error _ => [] := by
  rw [run_eq, fileVerbosity_of_json h]
  dsimp only
  rw [flatMap_fileOutput_quiet, List.nil_append]
  cases ending a (outcome a d).result with
  | ok r => exact if_pos h
  | error e => rfl

/-- A quiet run without a JSON report prints its error and nothing else. -/
theorem output_of_quiet (hjson : a.json = false) (h : a.quiet = true) (d : Disk) :
    (run a d).stdout = [] ∧ (run a d).stderr = match (run a d).result with
      | .ok _ => []
      | .error e => errorLine e := by
  rw [run_eq, fileVerbosity_of_not_json hjson, verbosity_of_quiet h, lastOutput_of_not_json hjson,
    earlierNotes_of_quiet hjson h, lastNotes_of_quiet h]
  dsimp only
  rw [flatMap_fileOutput_quiet]
  exact ⟨rfl, rfl⟩

/-- A run that is neither quiet nor to report in JSON prints the reports of the files it finished. -/
theorem stdout_of_not_quiet (hjson : a.json = false) (h : a.quiet = false) (d : Disk) :
    (run a d).stdout = (outcome a d).finished.flatMap FileReport.lines := by
  rw [run_eq, fileVerbosity_of_not_json hjson, lastOutput_of_not_json hjson]
  dsimp only
  rw [flatMap_fileOutput _ (verbosity_ne_quiet h), List.append_nil]

end StringResources.Command
