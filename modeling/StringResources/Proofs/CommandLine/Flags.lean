import StringResources.Proofs.CommandLine.Output
import StringResources.Proofs.Report.Decoded
import StringResources.Proofs.Report.Lines
import StringResources.Proofs.Sync.Survival

/-! The flags for output. Runs that differ in these flags go the same way and differ in what they print; a run that is to
    report in JSON fails at its end if its root is no text. Main statement: `run_flags`. -/

namespace StringResources.Command
open Disk

variable {a : Arguments} {d : Disk}

theorem errorLine_of_ne_torn {e : CommandError} (h : e ≠ .sync .torn) :
    errorLine e = line ("error: ".toList ++ e.message) := by
  unfold errorLine
  split
  · exact absurd rfl h
  · rfl

/-- The reports of files are printed as their lines, one report after the other. -/
theorem exists_shows (reports : List FileReport) :
    ∃ shown, List.Forall₂ FileReport.Shows reports shown ∧
      reports.flatMap FileReport.lines = shown.flatMap FileReport.printed := by
  induction reports with
  | nil => exact ⟨[], .nil, rfl⟩
  | cons r reports ih =>
    obtain ⟨ls, hls, hlines⟩ := FileReport.lines_eq_iff.mp (Eq.refl r.lines)
    obtain ⟨shown, hshown, hrest⟩ := ih
    exact ⟨ls :: shown, .cons hls hshown, by rw [List.flatMap_cons, List.flatMap_cons, hrest, hlines]⟩

/-- Whatever flags for output are given, a run goes the same way: it finishes the same files and leaves the same disk. It
    ends alike, but for a report that JSON cannot hold, and an error is reported last. With `json` the standard output is
    the document of the report, from which the report can be told, and empty after an error. Without it, a quiet run
    prints nothing but its error, and another the lines of the files it finished. Of a run that breaks off it is
    left open what stands on the error output. -/
theorem run_flags (a : Arguments) (d : Disk) :
    ∃ seen result disk, Runs a d seen result disk ∧ ∀ json quiet debug : Bool,
      let asked := { a with json := json, quiet := quiet, debug := debug }
      let o := run asked d
      o.disk = disk ∧ Ends asked result o.result ∧
      (∀ e, o.result = .error e → e ≠ .sync .torn → line ("error: ".toList ++ e.message) <:+ o.stderr) ∧
      (json = true →
        (∀ r, o.result = .ok r →
          o.stdout = line r.toJson.pretty ∧ (Json.read o.stdout).bind SyncReport.ofJson? = some r) ∧
        ∀ e, o.result = .error e → o.stdout = []) ∧
      (json = false → quiet = true → o.stdout = [] ∧
        (∀ r, o.result = .ok r → o.stderr = []) ∧
        ∀ e, o.result = .error e → e ≠ .sync .torn → o.stderr = line ("error: ".toList ++ e.message)) ∧
      (json = false → quiet = false → ∃ shown, List.Forall₂ FileReport.Shows seen shown ∧
        o.stdout = shown.flatMap FileReport.printed) := by
  refine ⟨_, _, _, runs_outcome a d, fun json quiet debug => ?_⟩
  intro asked o
  -- The outcome takes no notice of the flags, so each fact is one about the arguments with them.
  have hdisk : o.disk = (outcome a d).disk := run_disk asked d
  have hresult : o.result = ending asked (outcome a d).result := run_result asked d
  refine ⟨hdisk, hresult ▸ ends_ending asked _, fun e he htorn => ?_, fun hjson => ⟨fun r hr => ?_, fun e he => ?_⟩,
    fun hjson hquiet => ?_, fun hjson hquiet => ?_⟩
  · rw [← errorLine_of_ne_torn htorn]
    exact errorLine_suffix he
  · have hstdout : o.stdout = line r.toJson.pretty := by rw [stdout_of_json hjson, hr]
    exact ⟨hstdout, hstdout ▸ read_document r⟩
  · rw [stdout_of_json hjson, he]
  · obtain ⟨hstdout, hstderr⟩ := @output_of_quiet asked hjson hquiet d
    refine ⟨hstdout, fun r hr => ?_, fun e he htorn => ?_⟩
    · rw [hstderr, hr]
    · rw [hstderr, he]
      exact errorLine_of_ne_torn htorn
  · obtain ⟨shown, hshown, hprinted⟩ := exists_shows (outcome a d).finished
    exact ⟨shown, hshown, (@stdout_of_not_quiet asked hjson hquiet d).trans hprinted⟩

/-- The words of a run over the files `a` and `b` of an application. -/
def forFiles : Arguments where
  root := some (Text.encode ['.'])
  locale := some ['f', 'r']
  files := [['a'], ['b']]

theorem config_forFiles : forFiles.config = .ok (forApplication {}) := by cbv

/-- A run that ends at its second file has printed the lines of the first, or nothing if it was asked for JSON or to be
    quiet. -/
theorem run_flags_application :
    ∃ (report : FileReport) (seen : List FileReport) (shown : List (List Text)) (d' : Disk),
      Runs forFiles (application word bare) seen (.error (.notFound "./res/values/b".toList)) d' ∧
      report.written = true ∧ List.Forall₂ FileReport.Shows seen shown ∧
      shown.flatMap FileReport.printed = report.lines ∧
      (run { forFiles with json := true, debug := true } (application word bare)).stdout = [] ∧
      (run { forFiles with quiet := true } (application word bare)).stderr =
        "error: ./res/values/b: file not found\n".toList ∧
      (run { forFiles with json := true, debug := true } (application word bare)).disk = d' ∧
      (run { forFiles with quiet := true } (application word bare)).disk = d' := by
  obtain ⟨report, left, hwritten, -, -, hsync⟩ :=
    @sync_application _ _ _ _ parse_word parse_bare (by decide) {} (by decide +kernel) rfl
  have houtcome := (outcome_of_ok config_forFiles (application word bare)).trans hsync
  have hfails : ∀ json quiet debug : Bool,
      (run { forFiles with json := json, quiet := quiet, debug := debug } (application word bare)).result =
        .error (.sync (.notFound "./res/values/b".toList)) := by
    intro json quiet debug
    rw [run_result]
    exact congrArg (fun o => ending _ (SyncOutcome.result o)) houtcome
  have hprinted : (run forFiles (application word bare)).stdout = report.lines := by
    rw [stdout_of_not_quiet rfl rfl, houtcome]
    exact List.flatMap_singleton ..
  obtain ⟨seen, result, d', hruns, hflags⟩ := run_flags forFiles (application word bare)
  obtain ⟨-, hends, -, -, -, hplain⟩ := hflags false false false
  obtain ⟨hdisk, -, -, hjson, -, -⟩ := hflags true false true
  obtain ⟨hdisk', -, -, -, hquiet, -⟩ := hflags false true false
  obtain ⟨shown, hshown, hstdout⟩ := hplain rfl rfl
  have hresult : result = .error (.notFound "./res/values/b".toList) := by
    rw [hfails false false false] at hends
    cases hends
    rfl
  subst hresult
  exact ⟨report, seen, shown, d', hruns, hwritten, hshown, hstdout.symm.trans hprinted,
    (hjson rfl).2 _ (hfails true false true), (hquiet rfl rfl).2.2 _ (hfails false true false) (by simp), hdisk, hdisk'⟩

/-! ### A root that is no text, and a base file that a run breaks off at -/

/-- The words of a run over the file `a` below a root that is no UTF-8. -/
def forMisnamed (json : Bool) : Arguments where
  root := some [0xFF]
  locale := some ['f', 'r']
  files := [['a']]
  json := json

/-- An application with a second way to its directory, by a name that is no UTF-8. -/
def misnamed : Disk where
  tree := { nodes := ([['\uFFFD']], .link ['.']) :: (application word bare).tree.nodes }
  home := []
  failNext := false

theorem config_forMisnamed (json : Bool) : (forMisnamed json).config = .ok
    { routes := { root := ['\uFFFD'], locale := { text := ['f', 'r'], admitted := by decide } }
      files := [fileA], options := {}, files_ne_nil := by simp } := by cbv

theorem rootIsText_forMisnamed (json : Bool) : (forMisnamed json).rootIsText = false := by cbv

theorem documents_misnamed :
    ∃ b l, misnamed.documents "\uFFFD/res/values/a".toList "\uFFFD/res/values-fr/a".toList = .ok (b, l) ∧
      (MergePlan.compute b l {}).additions ≠ [] ∧ parse "\uFFFD/res/values-fr/a".toList bare = .ok l := by
  have hbase : misnamed.readText "\uFFFD/res/values/a".toList = .ok word :=
    readText_eq_ok_iff.mpr ⟨["res".toList, "values".toList, ['a']], Node.fileMode, _, by cbv, Text.decode_encode word⟩
  have hlocale : misnamed.readText "\uFFFD/res/values-fr/a".toList = .ok bare :=
    readText_eq_ok_iff.mpr ⟨[['t']], Node.fileMode, _, by cbv, Text.decode_encode bare⟩
  have hb : parse "\uFFFD/res/values/a".toList word = .ok _ := parse_of_path parse_word
  have hl : parse "\uFFFD/res/values-fr/a".toList bare = .ok _ := parse_of_path parse_bare
  exact ⟨_, _, documents_eq_ok_iff.mpr ⟨word, bare, hbase, hlocale, hb, hl⟩, by decide +kernel, hl⟩

theorem outcome_misnamed :
    ∃ report d', report.written = true ∧
      ∀ json, outcome (forMisnamed json) misnamed = { finished := [report], failure := none, disk := d' } := by
  obtain ⟨b, l, hdocuments, hadd, hl⟩ := documents_misnamed
  obtain ⟨out, hrender⟩ := exists_render (by decide) hl ((MergePlan.compute b l {}).additions.map (·.element))
    { mark := true, fallbackIndent := b.indent, namespaces := b.namespaces }
  have hreplace : (misnamed.replace "\uFFFD/res/values-fr/a".toList (Text.encode out)).1 = .ok () := by cbv
  have hmerge := mergeFile_of_replace hdocuments hadd rfl hrender hreplace
  have hroot : misnamed.isDirectory ['\uFFFD'] = true := by cbv
  have hmerges := @mergePairs_of_ok _ _ _ ⟨"\uFFFD/res/values/a".toList, "\uFFFD/res/values-fr/a".toList⟩ _ hmerge []
  refine ⟨_, _, ?_, fun json =>
    (outcome_of_ok (config_forMisnamed json) misnamed).trans ((sync_of_isDirectory hroot).trans hmerges)⟩
  rfl

/-- The run writes its file and ends well, but if it is to report in JSON, it writes its file and fails. -/
theorem run_misnamed :
    ∃ r d', r.files.map (·.written) = [true] ∧
      (run (forMisnamed false) misnamed).result = .ok r ∧ (run (forMisnamed false) misnamed).disk = d' ∧
      (run (forMisnamed true) misnamed).result = .error .pathNotText ∧ (run (forMisnamed true) misnamed).disk = d' ∧
      (run (forMisnamed true) misnamed).stderr = "error: path contains invalid UTF-8 characters\n".toList := by
  obtain ⟨report, d', hwritten, houtcome⟩ := outcome_misnamed
  have hends : ending (forMisnamed true) (outcome (forMisnamed true) misnamed).result = .error .pathNotText := by
    rw [houtcome]
    exact if_pos (by rw [rootIsText_forMisnamed]; rfl)
  have hnotes : earlierNotes (forMisnamed true) misnamed = [] := by
    rw [earlierNotes, config_forMisnamed, houtcome]
    rfl
  refine ⟨{ files := [report] }, d', congrArg ([·]) hwritten, ?_, ?_, (run_result ..).trans hends, ?_, ?_⟩
  · rw [run_result, houtcome]
    rfl
  · rw [run_disk, houtcome]
  · rw [run_disk, houtcome]
  · rw [run_eq, hends, hnotes]
    rfl

/-- A base file whose mark makes the line break before its root a torn span. -/
def marked : Text := "\uFEFF\n<resources/>".toList

theorem parse_marked : parse "./res/values/a".toList marked = .error .torn := by decide +kernel

theorem outcome_marked :
    outcome { forFiles with quiet := true } (application marked bare) =
      { finished := [], failure := some .torn, disk := application marked bare } := by
  have hdocuments : (application marked bare).documents "./res/values/a".toList "./res/values-fr/a".toList =
      .error .torn := by
    rw [documents, readText_application_base, readText_application_locale]
    simp only [bind, Except.bind, parse_marked]
    rfl
  have hmerge := mergeFile_of_error hdocuments {}
  refine (outcome_of_ok config_forFiles _).trans ((sync_of_isDirectory (isDirectory_application _ _)).trans ?_)
  exact @mergePairs_of_error _ _ _ ⟨"./res/values/a".toList, "./res/values-fr/a".toList⟩ _ hmerge _

theorem stderr_marked :
    (run { forFiles with quiet := true } (application marked bare)).stderr = errorLine (.sync .torn) := by
  rw [(output_of_quiet rfl rfl _).2, run_result, outcome_marked]
  rfl

/-- Two runs that differ in `json` alone do not end alike, and a quiet run prints what is no line for an error. -/
theorem run_misnamed_marked :
    (∃ r, (run (forMisnamed false) misnamed).result = .ok r ∧
      (run { forMisnamed false with json := true } misnamed).result = .error .pathNotText) ∧
    (run { forFiles with quiet := true } (application marked bare)).stderr ≠ [] ∧
    ¬ "error: ".toList <+: (run { forFiles with quiet := true } (application marked bare)).stderr := by
  obtain ⟨r, d', -, hplain, -, hjson, -, -⟩ := run_misnamed
  refine ⟨⟨r, hplain, hjson⟩, ?_, ?_⟩
  · rw [stderr_marked]
    decide
  · rw [stderr_marked]
    decide

end StringResources.Command
