import StringResources.Proofs.Sync.Touched

/-! Runs over the files of a configuration, taken apart. A run merges pair after pair, each on the disk that
    the ones before left, up to the first that fails, and a merge that fails leaves the tree as it was. So a
    run over two lists is a run over the first and then, if that did not fail, one over the second: no merge
    can take away the root. Main statements: `mergePairs_ending` and `sync_append`. -/

namespace StringResources

/-- A configuration for other files. -/
def Config.withFiles (c : Config) (files : List FileName) (h : files ≠ []) : Config :=
  { c with files := files, files_ne_nil := h }

namespace Disk
open Parse

/-! ### Merges that end well -/

/-- Merges of pairs of files, one after the other, that all end well: their reports and the disk they leave. -/
inductive Merges (options : MergeOptions) : Disk → List FilePair → List FileReport → Disk → Prop
  | nil (d : Disk) : Merges options d [] [] d
  | cons {d d₁ d₂ : Disk} {pair : FilePair} {pairs : List FilePair} {report : FileReport} {reports : List FileReport} :
      d.mergeFile pair.base pair.locale options = (.ok report, d₁) → Merges options d₁ pairs reports d₂ →
      Merges options d (pair :: pairs) (report :: reports) d₂

/-- How a run over pairs of files ends: all are merged, or one fails after those before it were merged. -/
inductive Ending (options : MergeOptions) (d : Disk) (pairs : List FilePair) : SyncOutcome → Prop
  | complete {reports : List FileReport} {d' : Disk} : Merges options d pairs reports d' →
      Ending options d pairs { finished := reports, failure := none, disk := d' }
  | stopped {done rest : List FilePair} {pair : FilePair} {reports : List FileReport} {e : SyncError} {d₁ d₂ : Disk} :
      pairs = done ++ pair :: rest → Merges options d done reports d₁ →
      d₁.mergeFile pair.base pair.locale options = (.error e, d₂) →
      Ending options d pairs { finished := reports, failure := some e, disk := d₂ }

theorem mergePairs_ending (options : MergeOptions) (d : Disk) (pairs : List FilePair) :
    Ending options d pairs (mergePairs options d pairs) := by
  induction pairs generalizing d with
  | nil => exact .complete (.nil d)
  | cons pair pairs ih =>
    rw [mergePairs_cons]
    rcases hmerge : d.mergeFile pair.base pair.locale options with ⟨e | report, d₁⟩
    · exact .stopped (List.nil_append _).symm (.nil d) hmerge
    · have hrest := ih d₁
      dsimp only
      generalize mergePairs options d₁ pairs = o at hrest
      cases hrest with
      | complete hmerges => exact .complete (.cons hmerge hmerges)
      | stopped hpairs hmerges hfails =>
        exact .stopped (by rw [hpairs]; exact (List.cons_append ..).symm) (.cons hmerge hmerges) hfails

theorem mergePairs_of_error {options : MergeOptions} {d d' : Disk} {pair : FilePair} {e : SyncError}
    (h : d.mergeFile pair.base pair.locale options = (.error e, d')) (rest : List FilePair) :
    mergePairs options d (pair :: rest) = { finished := [], failure := some e, disk := d' } := by
  rw [mergePairs_cons, h]

theorem mergePairs_of_ok {options : MergeOptions} {d d' : Disk} {pair : FilePair} {report : FileReport}
    (h : d.mergeFile pair.base pair.locale options = (.ok report, d')) (rest : List FilePair) :
    mergePairs options d (pair :: rest) =
      { mergePairs options d' rest with finished := report :: (mergePairs options d' rest).finished } := by
  rw [mergePairs_cons, h]

section Observed
variable {State : Type} (onFile : State → FileReport → State) (state : State)

theorem mergeEach_of_ok {options : MergeOptions} {d d' : Disk} {pair : FilePair} {report : FileReport}
    (h : d.mergeFile pair.base pair.locale options = (.ok report, d')) (rest : List FilePair) :
    mergeEach onFile options state d (pair :: rest) =
      let told := mergeEach onFile options (onFile state report) d' rest
      (told.1, { told.2 with finished := report :: told.2.finished }) := by
  rw [mergeEach, h]

/-- An observer has been told the reports of the pairs that are merged when a run goes on to the others. -/
theorem Merges.mergeEach_append {options : MergeOptions} {d d' : Disk} {pairs : List FilePair}
    {reports : List FileReport} (h : Merges options d pairs reports d') (rest : List FilePair) :
    mergeEach onFile options state d (pairs ++ rest) =
      let told := mergeEach onFile options (reports.foldl onFile state) d' rest
      (told.1, { told.2 with finished := reports ++ told.2.finished }) := by
  induction h generalizing state with
  | nil d => rfl
  | cons hmerge hmerges ih =>
    rw [List.cons_append, mergeEach_of_ok onFile state hmerge, ih]
    rfl

/-- An observer takes no part in a run, and is told the reports of the files that are finished, in order. -/
theorem mergeEach_eq (options : MergeOptions) (d : Disk) (pairs : List FilePair) :
    mergeEach onFile options state d pairs =
      ((mergePairs options d pairs).finished.foldl onFile state, mergePairs options d pairs) := by
  induction pairs generalizing state d with
  | nil => rfl
  | cons pair pairs ih =>
    rw [mergeEach, mergePairs_cons]
    rcases d.mergeFile pair.base pair.locale options with ⟨_ | report, d'⟩
    · rfl
    · dsimp only
      rw [ih]
      rfl

end Observed

theorem Merges.mergePairs_append {options : MergeOptions} {d d' : Disk} {pairs : List FilePair}
    {reports : List FileReport} (h : Merges options d pairs reports d') (rest : List FilePair) :
    mergePairs options d (pairs ++ rest) =
      { mergePairs options d' rest with finished := reports ++ (mergePairs options d' rest).finished } :=
  congrArg Prod.snd (h.mergeEach_append (fun _ _ => ()) () rest)

theorem Merges.mergePairs_eq {options : MergeOptions} {d d' : Disk} {pairs : List FilePair}
    {reports : List FileReport} (h : Merges options d pairs reports d') :
    mergePairs options d pairs = { finished := reports, failure := none, disk := d' } := by
  have happend := h.mergePairs_append []
  rwa [List.append_nil, mergePairs_nil, List.append_nil] at happend

section Append
variable {options : MergeOptions} {d : Disk} {xs : List FilePair}

end Append

/-! ### What a merge keeps -/

theorem mergeFile_isDirectory {d d' : Disk} {base locale : Text} {options : MergeOptions}
    {result : Except SyncError FileReport} (h : d.mergeFile base locale options = (result, d')) (path : Text) :
    d'.isDirectory path = d.isDirectory path := by
  have hmerging := mergeFile_merging d base locale options
  rw [h] at hmerging
  cases hmerging with
  | stopped e huntouched => rcases huntouched with rfl | rfl <;> rfl
  | unwritten => rfl
  | written _ _ hfind hhome hchanged => exact (rewritten_of_written hfind hhome hchanged).isDirectory path

theorem Merges.isDirectory {options : MergeOptions} {d d' : Disk} {pairs : List FilePair} {reports : List FileReport}
    (h : Merges options d pairs reports d') (path : Text) : d'.isDirectory path = d.isDirectory path := by
  induction h with
  | nil d => rfl
  | cons hmerge _ ih => rw [ih, mergeFile_isDirectory hmerge]

theorem mergePairs_isDirectory (options : MergeOptions) (d : Disk) (pairs : List FilePair) (path : Text) :
    (mergePairs options d pairs).disk.isDirectory path = d.isDirectory path := by
  have hending := mergePairs_ending options d pairs
  generalize mergePairs options d pairs = o at hending
  cases hending with
  | complete hmerges => exact hmerges.isDirectory path
  | stopped _ hmerges hfails => exact (mergeFile_isDirectory hfails path).trans (hmerges.isDirectory path)

theorem mergeFile_of_dryRun {options : MergeOptions} (hdry : options.dryRun = true) (d : Disk) (base locale : Text) :
    (d.mergeFile base locale options).2 = d := by
  rcases hdocuments : d.documents base locale with e | ⟨b, l⟩
  · rw [mergeFile_of_error hdocuments]
  · rw [mergeFile_of_unwritten hdocuments (Or.inr hdry)]

theorem mergePairs_of_dryRun {options : MergeOptions} (hdry : options.dryRun = true) (d : Disk)
    (pairs : List FilePair) :
    (mergePairs options d pairs).disk = d ∧ ∀ r ∈ (mergePairs options d pairs).finished, r.written = false := by
  induction pairs with
  | nil => exact ⟨rfl, by simp [mergePairs_nil]⟩
  | cons pair pairs ih =>
    have hdisk := mergeFile_of_dryRun hdry d pair.base pair.locale
    have hmerging := mergeFile_merging d pair.base pair.locale options
    rw [mergePairs_cons]
    rcases hmerge : d.mergeFile pair.base pair.locale options with ⟨e | report, d'⟩
    · rw [hmerge] at hdisk
      exact ⟨hdisk, by simp⟩
    · rw [hmerge] at hdisk hmerging
      obtain rfl : d' = d := hdisk
      refine ⟨ih.1, List.forall_mem_cons.mpr ⟨?_, ih.2⟩⟩
      cases hmerging with
      | unwritten => rfl
      | written _ _ _ _ _ _ hwet => simp [hdry] at hwet

/-! ### Files that stay apart -/

/-- What runs over pairs of files ask for: no failure is to come, and no locale path leads to the file of a base
    path. -/
structure Orderly (d : Disk) (pairs : List FilePair) : Prop where
  calm : d.failNext = false
  apart : ∀ p ∈ pairs, ∀ q ∈ pairs, ∀ a, d.LeadsToFile p.locale a → ¬ d.LeadsToFile q.base a

section Orderly
variable {d d' : Disk} {pairs : List FilePair} {target : Address} {mode : Nat} {new : Bytes}

theorem Orderly.of_subset {pairs' : List FilePair} (h : d.Orderly pairs) (hsubset : pairs' ⊆ pairs) :
    d.Orderly pairs' where
  calm := h.calm
  apart p hp q hq := h.apart p (hsubset hp) q (hsubset hq)

theorem Orderly.rewritten (h : d.Orderly pairs) (hrewritten : d.Rewritten d' target mode new)
    (hfail : d'.failNext = d.failNext) : d'.Orderly pairs where
  calm := hfail.trans h.calm
  apart p hp q hq a := by
    rw [hrewritten.leadsToFile_iff, hrewritten.leadsToFile_iff]
    exact h.apart p hp q hq a

/-- The bases read as before where a locale file got other contents. -/
theorem Orderly.readText_base (h : d.Orderly pairs) (hrewritten : d.Rewritten d' target mode new) {p q : FilePair}
    (hp : p ∈ pairs) (hq : q ∈ pairs) (htarget : d.LeadsToFile p.locale target) :
    d'.readText q.base = d.readText q.base :=
  readText_of_read (hrewritten.read_of_not_leadsTo fun ha => h.apart p hp q hq target htarget (ha.leadsToFile htarget))

end Orderly

/-! ### Runs in two parts -/

theorem sync_of_isDirectory {d : Disk} {c : Config} (h : d.isDirectory c.routes.root = true) :
    d.sync c = mergePairs c.options d c.pairs := (sync_eq d c).trans (if_pos h)

theorem sync_of_not_isDirectory {d : Disk} {c : Config} (h : d.isDirectory c.routes.root = false) :
    d.sync c = { finished := [], failure := some (.config (.rootNotDirectory c.routes.root)), disk := d } :=
  (sync_eq d c).trans (if_neg (by simp [h]))

theorem syncEach_eq {State : Type} (onFile : State → FileReport → State) (state : State) (d : Disk) (c : Config) :
    syncEach onFile state d c = ((d.sync c).finished.foldl onFile state, d.sync c) := by
  rw [syncEach, sync_eq]
  split
  · exact mergeEach_eq onFile state c.options d c.pairs
  · rfl

/-- An observer that keeps what it is told ends with the reports that the run returns. -/
theorem syncEach_trace (d : Disk) (c : Config) :
    syncEach (fun seen r => seen ++ [r]) [] d c = ((d.sync c).finished, d.sync c) := by
  rw [syncEach_eq, List.foldl_append_eq_append, List.nil_append, ← List.flatMap_def, List.flatMap_singleton']

/-- An application whose file `a` is translated to `fr` behind a link, and whose file `b` is missing. -/
def application (base locale : Text) : Disk where
  tree :=
    { nodes :=
        [(["res".toList], .directory Node.directoryMode),
          (["res".toList, "values".toList], .directory Node.directoryMode),
          (["res".toList, "values-fr".toList], .directory Node.directoryMode),
          (["res".toList, "values".toList, ['a']], .file Node.fileMode (Text.encode base)),
          (["res".toList, "values-fr".toList, ['a']], .link "../../t".toList),
          ([['t']], .file Node.fileMode (Text.encode locale))] }
  home := []
  failNext := false

def fileA : FileName := { text := ['a'], admitted := by decide }

def fileB : FileName := { text := ['b'], admitted := by decide }

/-- The configuration of a run over the files `a` and `b` of an application. -/
def forApplication (options : MergeOptions) : Config where
  routes := { root := ['.'], locale := { text := ['f', 'r'], admitted := by decide } }
  files := [fileA, fileB]
  options := options
  files_ne_nil := by simp

theorem find_application_base (base locale : Text) :
    (application base locale).find .throughLinks "./res/values/a".toList =
    .ok (.node ["res".toList, "values".toList, ['a']] (.file Node.fileMode (Text.encode base))) := by cbv

theorem find_application_locale (base locale : Text) :
    (application base locale).find .throughLinks "./res/values-fr/a".toList =
    .ok (.node [['t']] (.file Node.fileMode (Text.encode locale))) := by cbv

theorem find_application_missing_base (base locale : Text) :
    (application base locale).find .throughLinks "./res/values/b".toList =
    .ok (.vacant ["res".toList, "values".toList, ['b']]) := by cbv

theorem find_application_missing_locale (base locale : Text) :
    (application base locale).find .throughLinks "./res/values-fr/b".toList =
    .ok (.vacant ["res".toList, "values-fr".toList, ['b']]) := by cbv

theorem isDirectory_application (base locale : Text) : (application base locale).isDirectory ['.'] = true := by cbv

theorem readText_application_base (base locale : Text) :
    (application base locale).readText "./res/values/a".toList = .ok base :=
  readText_eq_ok_iff.mpr ⟨_, _, _, find_application_base base locale, Text.decode_encode base⟩

theorem readText_application_locale (base locale : Text) :
    (application base locale).readText "./res/values-fr/a".toList = .ok locale :=
  readText_eq_ok_iff.mpr ⟨_, _, _, find_application_locale base locale, Text.decode_encode locale⟩

section Application
variable {base locale : Text} {b l : Document}

theorem leadsToFile_application_base {options : MergeOptions} {p : FilePair}
    (hp : p ∈ (forApplication options).pairs) {a : Address} (h : (application base locale).LeadsToFile p.base a) :
    a = ["res".toList, "values".toList, ['a']] := by
  obtain ⟨mode, contents, hfind⟩ := h
  rcases List.mem_pair.mp hp with rfl | rfl
  · exact (Place.node.inj (Except.ok.inj (hfind.symm.trans (find_application_base base locale)))).1
  · cases hfind.symm.trans (find_application_missing_base base locale)

theorem leadsToFile_application_locale {options : MergeOptions} {p : FilePair}
    (hp : p ∈ (forApplication options).pairs) {a : Address} (h : (application base locale).LeadsToFile p.locale a) :
    a = [['t']] := by
  obtain ⟨mode, contents, hfind⟩ := h
  rcases List.mem_pair.mp hp with rfl | rfl
  · exact (Place.node.inj (Except.ok.inj (hfind.symm.trans (find_application_locale base locale)))).1
  · cases hfind.symm.trans (find_application_missing_locale base locale)

theorem orderly_application {options : MergeOptions} :
    (application base locale).Orderly (forApplication options).pairs where
  calm := rfl
  apart p hp q hq a hlocale hbase := by
    cases (leadsToFile_application_locale hp hlocale).symm.trans (leadsToFile_application_base hq hbase)

theorem documents_application (hb : parse "./res/values/a".toList base = .ok b)
    (hl : parse "./res/values-fr/a".toList locale = .ok l) :
    (application base locale).documents "./res/values/a".toList "./res/values-fr/a".toList = .ok (b, l) :=
  documents_eq_ok_iff.mpr
    ⟨base, locale, readText_application_base base locale, readText_application_locale base locale, hb, hl⟩

/-- The file `a` is merged, and the run ends at the file `b`. -/
theorem merge_application (hb : parse "./res/values/a".toList base = .ok b)
    (hl : parse "./res/values-fr/a".toList locale = .ok l) (hmark : Unmarked locale) {options : MergeOptions}
    (hadd : (MergePlan.compute b l options).additions ≠ []) (hdry : options.dryRun = false) :
    ∃ d', (application base locale).mergeFile "./res/values/a".toList "./res/values-fr/a".toList options =
        (.ok (reportOf "./res/values/a".toList "./res/values-fr/a".toList (.compute b l options) true), d') ∧
      d'.mergeFile "./res/values/b".toList "./res/values-fr/b".toList options =
        (.error (.notFound "./res/values/b".toList), d') := by
  obtain ⟨out, hrender⟩ := exists_render hmark hl ((MergePlan.compute b l options).additions.map (·.element))
    { mark := options.markUntranslated, fallbackIndent := b.indent, namespaces := b.namespaces }
  have hreplace : ((application base locale).replace "./res/values-fr/a".toList (Text.encode out)).1 = .ok () := by cbv
  have hmerge := mergeFile_of_replace (documents_application hb hl) hadd hdry hrender hreplace
  refine ⟨_, hmerge, ?_⟩
  generalize ((application base locale).replace "./res/values-fr/a".toList (Text.encode out)).2 = d' at hmerge ⊢
  have hmerging := mergeFile_merging (application base locale) "./res/values/a".toList "./res/values-fr/a".toList options
  rw [hmerge] at hmerging
  -- The path of the file `b` leads nowhere, before and after.
  have hmissing : d'.read "./res/values/b".toList = .error .notFound := by
    generalize hreport : reportOf "./res/values/a".toList "./res/values-fr/a".toList (.compute b l options) true = r
      at hmerging
    cases hmerging with
    | unwritten => cases congrArg FileReport.written hreport
    | written _ _ hfind hhome hchanged =>
      rw [read, (rewritten_of_written hfind hhome hchanged).find, find_application_missing_base]
      rfl
  rw [mergeFile, documents, readText, hmissing]
  rfl

/-- A run over the file `a` alone ends well, and one over the file `b` after it ends at once, as a run over both
    does. -/
theorem sync_application (hb : parse "./res/values/a".toList base = .ok b)
    (hl : parse "./res/values-fr/a".toList locale = .ok l) (hmark : Unmarked locale) {options : MergeOptions}
    (hadd : (MergePlan.compute b l options).additions ≠ []) (hdry : options.dryRun = false) :
    ∃ report d', report.written = true ∧
      (application base locale).sync ((forApplication options).withFiles [fileA] (by simp)) =
        { finished := [report], failure := none, disk := d' } ∧
      d'.sync ((forApplication options).withFiles [fileB] (by simp)) =
        { finished := [], failure := some (.notFound "./res/values/b".toList), disk := d' } ∧
      (application base locale).sync (forApplication options) =
        { finished := [report], failure := some (.notFound "./res/values/b".toList), disk := d' } := by
  obtain ⟨d', hmerge, hmissing⟩ := merge_application hb hl hmark hadd hdry
  have hroot := isDirectory_application base locale
  have hroot' : d'.isDirectory ['.'] = true := (mergeFile_isDirectory hmerge ['.']).trans hroot
  have hfirst := @mergePairs_of_ok _ _ _ ((forApplication options).routes.pair fileA) _ hmerge
  have hsecond := @mergePairs_of_error _ _ _ ((forApplication options).routes.pair fileB) _ hmissing []
  have hboth := hfirst [(forApplication options).routes.pair fileB]
  rw [hsecond] at hboth
  exact ⟨_, d', rfl, (sync_of_isDirectory hroot).trans (hfirst []), (sync_of_isDirectory hroot').trans hsecond,
    (sync_of_isDirectory hroot).trans hboth⟩

end Application

def word : Text := "<resources><string name=\x22k\x22/></resources>".toList

def bare : Text := "<resources/>".toList

theorem parse_word : parse "./res/values/a".toList word = .ok
    { path := "./res/values/a".toList, text := word
      entries := [{ key := ⟨.string, ['k']⟩, value := [], translatable := true,
                    element := "<string name=\x22k\x22/>".toList }]
      indent := none, rootOpen := ⟨0, 11⟩, rootClose := .endTag 29, namespaces := [] } := by decide +kernel

theorem parse_bare : parse "./res/values-fr/a".toList bare = .ok
    { path := "./res/values-fr/a".toList, text := bare, entries := [], indent := none
      rootOpen := ⟨0, 12⟩, rootClose := .selfClosing ⟨0, 12⟩, namespaces := [] } := by decide +kernel

end Disk
end StringResources
