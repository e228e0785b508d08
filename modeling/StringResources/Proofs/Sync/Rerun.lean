import StringResources.Proofs.Merge.Again
import StringResources.Proofs.Sync.Runs

/-! Running a sync again. A pair of files is settled when both are documents and nothing is left to add. A merge
    settles its pair, and no merge of the run unsettles another one: it leaves the bases alone, and in locale
    files keys are only added. So a second run finds all pairs settled up to where the first ended, and ends
    there too. Main statements: `Fit.step`, `Merges.settled` and `sync_again`. -/

namespace StringResources

theorem MergePlan.additions_eq_nil_of_subset {base locale merged : Document} {options : MergeOptions}
    (h : (compute base locale options).additions = []) (hkeys : locale.keys ⊆ merged.keys) :
    (compute base merged options).additions = [] := by
  rw [List.eq_nil_iff_forall_not_mem] at h ⊢
  intro e he
  obtain ⟨hbase, hkept, hmissing⟩ := mem_additions_iff.mp he
  exact h e (mem_additions_iff.mpr ⟨hbase, hkept, fun hkey => hmissing (hkeys hkey)⟩)

namespace Disk
open Markup Parse

/-- If the path leads to a document, it has no byte order mark, and its root declares plain labels only. -/
def CleanAt (d : Disk) (path : Text) : Prop :=
  ∀ t x, d.readText path = .ok t → parse path t = .ok x → Unmarked t ∧ ∀ n ∈ x.namespaces, n.Plain

/-- What runs over pairs of files need to be repeatable: no failure is to come, no locale path leads to the file
    of a base path, and the documents are clean. -/
structure Fit (d : Disk) (pairs : List FilePair) : Prop extends Orderly d pairs where
  base : ∀ p ∈ pairs, d.CleanAt p.base
  locale : ∀ p ∈ pairs, d.CleanAt p.locale

/-- Both files of a pair are documents, and nothing is to be added. -/
def Settled (options : MergeOptions) (d : Disk) (pair : FilePair) : Prop :=
  ∃ b l, d.documents pair.base pair.locale = .ok (b, l) ∧ (MergePlan.compute b l options).additions = []

theorem mergeFile_of_settled {options : MergeOptions} {d : Disk} {pair : FilePair} (h : d.Settled options pair) :
    ∃ report, d.mergeFile pair.base pair.locale options = (.ok report, d) ∧ report.written = false ∧
      report.added = [] := by
  obtain ⟨b, l, hdocuments, hnil⟩ := h
  refine ⟨_, mergeFile_of_unwritten hdocuments (Or.inl hnil), rfl, ?_⟩
  simp [reportOf, MergePlan.addedKeys, hnil]

/-! ### One merge -/

/-- Two paths to one file read the same text. -/
theorem readText_eq_of_leadsTo {d : Disk} {path path' : Text} {a : Address} (h : d.LeadsTo path a)
    (h' : d.LeadsTo path' a) {t : Text} (ht : d.readText path = .ok t) : d.readText path' = .ok t := by
  obtain ⟨target, mode, bytes, hfind, hdecode⟩ := readText_eq_ok_iff.mp ht
  obtain rfl := h.unique ⟨_, hfind⟩
  obtain ⟨n, hn⟩ := h'
  obtain rfl := (getD_node?_of_find hfind).symm.trans (getD_node?_of_find hn)
  exact readText_eq_ok_iff.mpr ⟨a, mode, bytes, hn, hdecode⟩

theorem Rewritten.readText_of_leadsTo {d d' : Disk} {target : Address} {mode : Nat} {t path : Text}
    (h : d.Rewritten d' target mode (Text.encode t)) (hpath : d.LeadsTo path target) : d'.readText path = .ok t := by
  rw [readText, h.read_of_leadsTo hpath]
  simp only [Text.decode_encode]

/-- What a merge that writes does to the texts of a run: the base files read as before, and so does each locale file, or
    it had the old text and has the new one. -/
structure Retold (d d' : Disk) (pairs : List FilePair) (old new : Text) : Prop where
  base : ∀ q ∈ pairs, d'.readText q.base = d.readText q.base
  locale : ∀ q ∈ pairs, d'.readText q.locale = d.readText q.locale ∨
    d.readText q.locale = .ok old ∧ d'.readText q.locale = .ok new

section Retold
variable {d d' : Disk} {options : MergeOptions} {pairs : List FilePair} {pair : FilePair} {old new path : Text}
  {l merged : Document}

theorem Fit.retold (h : d.Fit pairs) (hpair : pair ∈ pairs) {target : Address} {mode : Nat}
    (hrewritten : d.Rewritten d' target mode (Text.encode new)) (htarget : d.LeadsToFile pair.locale target)
    (hold : d.readText pair.locale = .ok old) : d.Retold d' pairs old new where
  base q hq := h.readText_base hrewritten hpair hq htarget
  locale q _ := by
    by_cases ha : d.LeadsTo q.locale target
    · exact Or.inr ⟨readText_eq_of_leadsTo htarget.leadsTo ha hold, hrewritten.readText_of_leadsTo ha⟩
    · exact Or.inl (readText_of_read (hrewritten.read_of_not_leadsTo ha))

theorem Retold.cleanAt (h : d.Retold d' pairs old new) (hmerged : parse path new = .ok merged) (hmark : Unmarked new)
    (hplain : ∀ n ∈ merged.namespaces, n.Plain) (hfit : d.Fit pairs) {q : FilePair} (hq : q ∈ pairs) :
    d'.CleanAt q.base ∧ d'.CleanAt q.locale := by
  refine ⟨fun t x ht hx => ?_, fun t x ht hx => ?_⟩
  · rw [h.base q hq] at ht
    exact hfit.base q hq t x ht hx
  · rcases h.locale q hq with hsame | ⟨-, hnew⟩
    · rw [hsame] at ht
      exact hfit.locale q hq t x ht hx
    · obtain rfl := Except.ok.inj (hnew.symm.trans ht)
      obtain rfl := Except.ok.inj (hx.symm.trans (parse_of_path hmerged))
      exact ⟨hmark, hplain⟩

/-- A settled pair stays settled where its locale file has more keys. -/
theorem Retold.settled (h : d.Retold d' pairs old new) (hl : parse path old = .ok l)
    (hmerged : parse path new = .ok merged) (hkeys : l.keys ⊆ merged.keys) {q : FilePair} (hq : q ∈ pairs)
    (hsettled : d.Settled options q) : d'.Settled options q := by
  obtain ⟨b', l', hdocuments, hnil⟩ := hsettled
  obtain ⟨baseText, localeText, hbaseText, hlocaleText, hb', hl'⟩ := documents_eq_ok_iff.mp hdocuments
  rw [← h.base q hq] at hbaseText
  rcases h.locale q hq with hsame | ⟨hold, hnew⟩
  · exact ⟨b', l', documents_eq_ok_iff.mpr ⟨_, _, hbaseText, hsame.trans hlocaleText, hb', hl'⟩, hnil⟩
  · obtain rfl := Except.ok.inj (hold.symm.trans hlocaleText)
    obtain rfl := Except.ok.inj (hl'.symm.trans (parse_of_path hl))
    exact ⟨b', _, documents_eq_ok_iff.mpr ⟨_, _, hbaseText, hnew, hb', parse_of_path hmerged⟩,
      MergePlan.additions_eq_nil_of_subset hnil hkeys⟩

end Retold

/-- A merge of one of the pairs that ends well and may write keeps the conditions, settles its pair, and leaves
    settled ones settled. -/
theorem Fit.step {d d' : Disk} {options : MergeOptions} {pairs : List FilePair} {pair : FilePair} (h : d.Fit pairs)
    (hpair : pair ∈ pairs) (hdry : options.dryRun = false) {report : FileReport}
    (hmerge : d.mergeFile pair.base pair.locale options = (.ok report, d')) :
    d'.Fit pairs ∧ d'.Settled options pair ∧ ∀ q ∈ pairs, d.Settled options q → d'.Settled options q := by
  have hmerging := mergeFile_merging d pair.base pair.locale options
  rw [hmerge] at hmerging
  cases hmerging with
  | @unwritten b l hdocuments hnone =>
    exact ⟨h, ⟨b, l, hdocuments, hnone.resolve_right (by simp [hdry])⟩, fun _ _ hq => hq⟩
  | @written b l new target mode old d' hdocuments hrender hfind hhome hchanged hadd hdry hfail =>
    have hrewritten := rewritten_of_written hfind hhome hchanged
    have htarget : d.LeadsToFile pair.locale target := ⟨_, _, hfind⟩
    obtain ⟨baseText, localeText, hbaseText, hlocaleText, hb, hl⟩ := documents_eq_ok_iff.mp hdocuments
    obtain ⟨hbaseMark, hbasePlain⟩ := h.base pair hpair _ _ hbaseText hb
    obtain ⟨hlocaleMark, hlocalePlain⟩ := h.locale pair hpair _ _ hlocaleText hl
    obtain ⟨merged, hmerged, hmark, hplain, hentries⟩ :=
      parse_render_clean hbaseMark hb hbasePlain hlocaleMark hl hlocalePlain hrender pair.locale
    have hretold := h.retold hpair hrewritten htarget hlocaleText
    have hkeys : l.keys ⊆ merged.keys := by
      simp only [Document.keys, hentries, List.map_append]
      exact List.subset_append_left _ _
    refine ⟨⟨h.toOrderly.rewritten hrewritten hfail, fun p hp => (hretold.cleanAt hmerged hmark hplain h hp).1,
      fun p hp => (hretold.cleanAt hmerged hmark hplain h hp).2⟩, ?_, fun q hq => hretold.settled hl hmerged hkeys hq⟩
    -- What is still missing was skipped, and is skipped again.
    exact ⟨b, merged, documents_eq_ok_iff.mpr ⟨baseText, new, (hretold.base pair hpair).trans hbaseText,
      hrewritten.readText_of_leadsTo htarget.leadsTo, hb, hmerged⟩, MergePlan.additions_again_eq_nil
      (distinct_of_parse hbaseMark hb) hentries (Bool.eq_false_or_eq_true _).symm⟩

/-! ### Runs -/

section Run
variable {options : MergeOptions} {d d' : Disk} {pairs done : List FilePair} {reports : List FileReport}

theorem Merges.length_eq (h : Merges options d done reports d') : reports.length = done.length := by
  induction h with
  | nil => rfl
  | cons _ _ ih => rw [List.length_cons, List.length_cons, ih]

theorem Merges.settled (h : Merges options d done reports d') (hdry : options.dryRun = false) (hfit : d.Fit pairs)
    (hsubset : done ⊆ pairs) :
    d'.Fit pairs ∧ (∀ p ∈ done, d'.Settled options p) ∧ ∀ q ∈ pairs, d.Settled options q → d'.Settled options q := by
  induction h with
  | nil d => exact ⟨hfit, by simp, fun _ _ hq => hq⟩
  | cons hmerge hmerges ih =>
    obtain ⟨hpair, hdone⟩ := List.cons_subset.mp hsubset
    obtain ⟨hfit₁, hsettled, hkept⟩ := hfit.step hpair hdry hmerge
    obtain ⟨hfit', hsettled', hkept'⟩ := ih hfit₁ hdone
    exact ⟨hfit', List.forall_mem_cons.mpr ⟨hkept' _ hpair hsettled, hsettled'⟩,
      fun q hq h => hkept' q hq (hkept q hq h)⟩

/-- A run over settled pairs changes nothing. -/
theorem merges_of_settled (h : ∀ p ∈ done, d.Settled options p) :
    ∃ reports, Merges options d done reports d ∧ ∀ r ∈ reports, r.written = false ∧ r.added = [] := by
  induction done with
  | nil => exact ⟨[], .nil d, by simp⟩
  | cons pair done ih =>
    obtain ⟨hpair, hdone⟩ := List.forall_mem_cons.mp h
    obtain ⟨report, hmerge, hreport⟩ := mergeFile_of_settled hpair
    obtain ⟨reports, hmerges, hreports⟩ := ih hdone
    exact ⟨report :: reports, .cons hmerge hmerges, List.forall_mem_cons.mpr ⟨hreport, hreports⟩⟩

/-- A second run ends where the first did, and finds nothing to add on the way. -/
theorem mergePairs_again (hdry : options.dryRun = false) (hfit : d.Fit pairs) :
    let first := mergePairs options d pairs
    let second := mergePairs options first.disk pairs
    second.disk = first.disk ∧ second.failure = first.failure ∧
    second.finished.length = first.finished.length ∧ ∀ r ∈ second.finished, r.written = false ∧ r.added = [] := by
  intro first second
  have hending : Ending options d pairs first := mergePairs_ending options d pairs
  have hsecond : second = mergePairs options first.disk pairs := rfl
  clear_value second
  subst hsecond
  clear_value first
  cases hending with
  | @complete reports d' hmerges =>
    obtain ⟨-, hsettled, -⟩ := hmerges.settled hdry hfit (List.Subset.refl pairs)
    obtain ⟨reports', hmerges', hreports⟩ := merges_of_settled hsettled
    dsimp only
    rw [hmerges'.mergePairs_eq]
    exact ⟨rfl, rfl, hmerges'.length_eq.trans hmerges.length_eq.symm, hreports⟩
  | @stopped done rest pair reports e left d' hpairs hmerges hfails =>
    subst hpairs
    obtain ⟨hfit', hsettled, -⟩ := hmerges.settled hdry hfit (List.subset_append_left _ _)
    obtain ⟨reports', hmerges', hreports⟩ := merges_of_settled hsettled
    -- A merge that fails on its own leaves the disk, so it fails again.
    obtain rfl : d' = left := by
      have hmerging := mergeFile_merging left pair.base pair.locale options
      rw [hfails] at hmerging
      cases hmerging with
      | stopped _ huntouched => exact huntouched.eq hfit'.calm
    have hagain : mergePairs options d' (done ++ pair :: rest) =
        { finished := reports', failure := some e, disk := d' } := by
      rw [hmerges'.mergePairs_append, mergePairs_of_error hfails, List.append_nil]
    dsimp only
    rw [hagain]
    exact ⟨rfl, rfl, hmerges'.length_eq.trans hmerges.length_eq.symm, hreports⟩

end Run

/-- A second run of a configuration leaves the disk as the first did, writes nothing and fails at the same file with the
    same error, or not at all. It finds nothing to add, unless the runs are dry: then it repeats the first. -/
theorem sync_again {d : Disk} {c : Config} (h : d.Fit c.pairs) :
    let first := d.sync c
    let second := first.disk.sync c
    second.disk = first.disk ∧ second.failure = first.failure ∧
    second.finished.length = first.finished.length ∧
    (∀ r ∈ second.finished, r.written = false) ∧
    (c.options.dryRun = false → ∀ r ∈ second.finished, r.added = []) ∧
    (c.options.dryRun = true → second = first) := by
  cases hroot : d.isDirectory c.routes.root with
  | false =>
    simp [sync_of_not_isDirectory hroot]
  | true =>
    have hkept := (mergePairs_isDirectory c.options d c.pairs c.routes.root).trans hroot
    rw [sync_of_isDirectory hroot]
    dsimp only
    rw [sync_of_isDirectory hkept]
    cases hdry : c.options.dryRun with
    | false =>
      obtain ⟨hdisk, hfailure, hlength, hreports⟩ := mergePairs_again hdry h
      exact ⟨hdisk, hfailure, hlength, fun r hr => (hreports r hr).1, fun _ r hr => (hreports r hr).2, by simp⟩
    | true =>
      obtain ⟨hdisk, hwritten⟩ := mergePairs_of_dryRun hdry d c.pairs
      have hagain : mergePairs c.options (mergePairs c.options d c.pairs).disk c.pairs =
          mergePairs c.options d c.pairs := by rw [hdisk]
      rw [hagain]
      exact ⟨rfl, rfl, rfl, hwritten, by simp, fun _ => rfl⟩

section Application
variable {base locale : Text} {b l : Document} {options : MergeOptions}

theorem fit_application (hb : parse "./res/values/a".toList base = .ok b)
    (hl : parse "./res/values-fr/a".toList locale = .ok l) (hbaseMark : Unmarked base)
    (hbasePlain : ∀ n ∈ b.namespaces, n.Plain) (hlocaleMark : Unmarked locale)
    (hlocalePlain : ∀ n ∈ l.namespaces, n.Plain) :
    (application base locale).Fit (forApplication options).pairs := by
  have hmissing : (application base locale).readText "./res/values/b".toList =
      .error (.notFound "./res/values/b".toList) := by
    rw [readText, read, find_application_missing_base]
  have hmissing' : (application base locale).readText "./res/values-fr/b".toList =
      .error (.notFound "./res/values-fr/b".toList) := by
    rw [readText, read, find_application_missing_locale]
  refine ⟨orderly_application, ?_, ?_⟩
  · refine List.forall_mem_cons.mpr ⟨fun t x ht hx => ?_, List.forall_mem_singleton.mpr fun t x ht => ?_⟩
    · obtain rfl := Except.ok.inj (ht.symm.trans (readText_application_base base locale))
      obtain rfl := Except.ok.inj (hx.symm.trans hb)
      exact ⟨hbaseMark, hbasePlain⟩
    · cases ht.symm.trans hmissing
  · refine List.forall_mem_cons.mpr ⟨fun t x ht hx => ?_, List.forall_mem_singleton.mpr fun t x ht => ?_⟩
    · obtain rfl := Except.ok.inj (ht.symm.trans (readText_application_locale base locale))
      obtain rfl := Except.ok.inj (hx.symm.trans hl)
      exact ⟨hlocaleMark, hlocalePlain⟩
    · cases ht.symm.trans hmissing'

end Application

/-- The first run over the application merges one file and fails at the other, the second finds nothing to add and
    fails there too. -/
theorem sync_again_application :
    ∃ first second : SyncOutcome, (application word bare).Fit (forApplication {}).pairs ∧
      first = (application word bare).sync (forApplication {}) ∧ second = first.disk.sync (forApplication {}) ∧
      first.finished.map (·.written) = [true] ∧ first.failure = some (.notFound "./res/values/b".toList) ∧
      second.finished.map (fun r => (r.added, r.written)) = [([], false)] ∧ second.failure = first.failure ∧
      second.disk = first.disk := by
  have hfit := @fit_application _ _ _ _ {} parse_word parse_bare (by decide) (by simp) (by decide) (by simp)
  obtain ⟨report, d', hfirst, -, -, hsync⟩ :=
    @sync_application _ _ _ _ parse_word parse_bare (by decide) {} (by decide +kernel) rfl
  obtain ⟨hdisk, hfailure, hlength, hwritten, hadded, -⟩ := sync_again hfit
  refine ⟨_, _, hfit, rfl, rfl, ?_, ?_, ?_, hfailure, hdisk⟩
  · rw [hsync]
    exact congrArg ([·]) hfirst
  · rw [hsync]
  · rw [hsync] at hlength hwritten hadded ⊢
    obtain ⟨r, hr⟩ := List.length_eq_one_iff.mp hlength
    rw [hr] at hwritten hadded ⊢
    rw [List.map_singleton, hwritten r (List.mem_singleton_self r), hadded rfl r (List.mem_singleton_self r)]

/-- A dry run adds nothing to the file, so what it reports is missing is still missing when it is run again. -/
theorem sync_again_dry :
    ∃ second : SyncOutcome, (application word bare).Fit (forApplication { dryRun := true }).pairs ∧
      second = ((application word bare).sync (forApplication { dryRun := true })).disk.sync
        (forApplication { dryRun := true }) ∧
      second.finished.map (·.added) = [[{ kind := .string, name := ['k'] }]] := by
  have hfit :=
    @fit_application _ _ _ _ { dryRun := true } parse_word parse_bare (by decide) (by simp) (by decide) (by simp)
  have hmerge := @mergeFile_of_unwritten _ _ _ { dryRun := true } _ _ (documents_application parse_word parse_bare)
    (Or.inr rfl)
  have hmissing : (application word bare).documents "./res/values/b".toList "./res/values-fr/b".toList =
      .error (.notFound "./res/values/b".toList) := by
    rw [documents, readText, read, find_application_missing_base]
    rfl
  have hrun := @mergePairs_of_ok _ _ _ ((forApplication {}).routes.pair fileA) _ hmerge
    [(forApplication {}).routes.pair fileB]
  rw [@mergePairs_of_error _ _ _ ((forApplication {}).routes.pair fileB) _ (mergeFile_of_error hmissing _) []] at hrun
  have hsync :=
    (@sync_of_isDirectory _ (forApplication { dryRun := true }) (isDirectory_application word bare)).trans hrun
  refine ⟨_, hfit, rfl, ?_⟩
  rw [hsync]
  dsimp only
  rw [hsync]
  exact congrArg ([·]) (by decide +kernel)

end Disk
end StringResources
