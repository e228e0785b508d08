import StringResources.Proofs.Disk.Replaceable
import StringResources.Proofs.Sync.Runs

/-! A dry run tells what the run would do. Both find the same documents: a locale file that was written is
    neither a base file nor another locale file of the run. And both fail alike, for a locale file that was
    read can be replaced. Main statements: `Foreseeable.step`, one merge, and `sync_dry`, the runs. -/

namespace StringResources

theorem Routes.routed_locale (r : Routes) (file : FileName) : Path.Routed (r.pair file).locale :=
  ⟨r.localeDir, r.locale.valuesDir, file.text, rfl, Path.endsIn_join r.locale.isName_valuesDir.slash,
    r.locale.isName_valuesDir, file.isName⟩

theorem Config.routed_locale (c : Config) : ∀ p ∈ c.pairs, Path.Routed p.locale := by
  intro p hp
  obtain ⟨file, -, rfl⟩ := List.mem_map.mp hp
  exact c.routes.routed_locale file

/-- A configuration for dry runs or for others. -/
def Config.withDryRun (c : Config) (dryRun : Bool) : Config := { c with options := { c.options with dryRun := dryRun } }

/-- A report of a dry run and that of the run, which says that the file was written if something was added. -/
def FileReport.Predicts (predicted report : FileReport) : Prop :=
  predicted.written = false ∧ report = { predicted with written := !predicted.added.isEmpty }

namespace Disk
open Markup Parse

/-- What the outcome of runs over pairs of files can be told from: no failure is to come, the locale paths lead to
    files of their own, which have no byte order mark, and temporary files can be made where they are. -/
structure Foreseeable (d : Disk) (pairs : List FilePair) : Prop extends Orderly d pairs where
  sound : d.Sound
  distinct : pairs.Pairwise fun p q => ∀ a, d.LeadsToFile p.locale a → ¬ d.LeadsToFile q.locale a
  unmarked : ∀ p ∈ pairs, ∀ t, d.readText p.locale = .ok t → Unmarked t
  room : ∀ p ∈ pairs, d.HasRoom p.locale

section Step
variable {d : Disk} {options : MergeOptions} {p : FilePair} {pairs : List FilePair}

theorem Foreseeable.tail (h : d.Foreseeable (p :: pairs)) : d.Foreseeable pairs where
  toOrderly := h.toOrderly.of_subset (List.subset_cons_self p pairs)
  sound := h.sound
  distinct := (List.pairwise_cons.mp h.distinct).2
  unmarked q hq := h.unmarked q (List.mem_cons_of_mem p hq)
  room q hq := h.room q (List.mem_cons_of_mem p hq)

/-- Where a file of its own got other contents, all that matters for the other pairs is as it was. -/
theorem Foreseeable.rewritten (h : d.Foreseeable (p :: pairs)) {d' : Disk} {target : Address} {mode : Nat} {new : Bytes}
    (hrewritten : d.Rewritten d' target mode new) (hfail : d'.failNext = d.failNext)
    (htarget : d.LeadsToFile p.locale target) :
    d'.Foreseeable pairs ∧ ∀ q ∈ pairs, d'.documents q.base q.locale = d.documents q.base q.locale := by
  have hlocale : ∀ q ∈ pairs, ¬ d.LeadsTo q.locale target := fun q hq ha =>
    (List.pairwise_cons.mp h.distinct).1 q hq target htarget (ha.leadsToFile htarget)
  have hbase : ∀ q ∈ pairs, ¬ d.LeadsTo q.base target := fun q hq ha =>
    h.apart p List.mem_cons_self q (List.mem_cons_of_mem p hq) target htarget (ha.leadsToFile htarget)
  refine ⟨⟨h.tail.toOrderly.rewritten hrewritten hfail, hrewritten.sound h.sound, ?_, ?_, ?_⟩, fun q hq =>
    hrewritten.documents (hbase q hq) (hlocale q hq)⟩
  · simpa only [hrewritten.leadsToFile_iff] using h.tail.distinct
  · intro q hq t ht
    rw [readText_of_read (hrewritten.read_of_not_leadsTo (hlocale q hq))] at ht
    exact h.tail.unmarked q hq t ht
  · exact fun q hq => hrewritten.hasRoom (h.tail.room q hq)

/-- A merge of two documents ends well, and writes if there is something to add. What matters for the other pairs is as
    it was. -/
theorem Foreseeable.step (h : d.Foreseeable (p :: pairs)) (hrouted : Path.Routed p.locale)
    (hresolvable : d.Resolvable p.locale) {b l : Document} (hdocuments : d.documents p.base p.locale = .ok (b, l))
    (hdry : options.dryRun = false) :
    ∃ d', d.mergeFile p.base p.locale options =
        (.ok (reportOf p.base p.locale (.compute b l options) !(MergePlan.compute b l options).additions.isEmpty), d') ∧
      d'.Foreseeable pairs ∧ (∀ q ∈ pairs, d'.documents q.base q.locale = d.documents q.base q.locale) ∧
      ∀ q ∈ pairs, d.Resolvable q.locale → d'.Resolvable q.locale := by
  by_cases hadd : (MergePlan.compute b l options).additions = []
  · refine ⟨d, ?_, h.tail, fun _ _ => rfl, fun _ _ hq => hq⟩
    rw [mergeFile_of_unwritten hdocuments (Or.inl hadd), hadd]
    rfl
  · obtain ⟨baseText, localeText, hbaseText, hlocaleText, hb, hl⟩ := documents_eq_ok_iff.mp hdocuments
    obtain ⟨target, mode, old, hfind, -⟩ := readText_eq_ok_iff.mp hlocaleText
    obtain ⟨out, hrender⟩ := exists_render (h.unmarked p List.mem_cons_self localeText hlocaleText) hl
      ((MergePlan.compute b l options).additions.map (·.element))
      { mark := options.markUntranslated, fallbackIndent := b.indent, namespaces := b.namespaces }
    have hreplace := replace_ok h.sound h.calm hrouted hresolvable (h.room p List.mem_cons_self) hfind (Text.encode out)
    have hmerge := mergeFile_of_replace hdocuments hadd hdry hrender hreplace
    generalize (d.replace p.locale (Text.encode out)).2 = d' at hmerge
    have hmerging := mergeFile_merging d p.base p.locale options
    rw [hmerge] at hmerging
    have hwritten : (!(MergePlan.compute b l options).additions.isEmpty) = true := by simp [hadd]
    rw [hwritten]
    generalize hreport : reportOf p.base p.locale (.compute b l options) true = r at hmerge hmerging ⊢
    cases hmerging with
    | unwritten => cases congrArg FileReport.written hreport
    | written _ _ hfind hhome hchanged _ _ hfail =>
      have hrewritten := rewritten_of_written hfind hhome hchanged
      obtain ⟨hrest, hsame⟩ := h.rewritten hrewritten hfail ⟨_, _, hfind⟩
      exact ⟨d', hmerge, hrest, hsame, fun _ _ hq => hrewritten.resolvable hq⟩

end Step

theorem predicts_reportOf {base locale : Text} (plan : MergePlan) :
    (reportOf base locale plan false).Predicts (reportOf base locale plan !plan.additions.isEmpty) := by
  refine ⟨rfl, ?_⟩
  simp [reportOf, MergePlan.addedKeys]

/-- Where a disk shows the same documents as another, a dry run there tells the outcome of the run here. -/
theorem mergePairs_predicted {options : MergeOptions} {d d₀ : Disk} {pairs : List FilePair} (h : d.Foreseeable pairs)
    (hrouted : ∀ p ∈ pairs, Path.Routed p.locale) (hresolvable : ∀ p ∈ pairs, d.Resolvable p.locale)
    (hsame : ∀ p ∈ pairs, d.documents p.base p.locale = d₀.documents p.base p.locale) :
    let dry := mergePairs { options with dryRun := true } d₀ pairs
    let real := mergePairs { options with dryRun := false } d pairs
    real.failure = dry.failure ∧ List.Forall₂ FileReport.Predicts dry.finished real.finished := by
  induction pairs generalizing d with
  | nil => exact ⟨rfl, .nil⟩
  | cons p pairs ih =>
    obtain ⟨hrouted, hrouteds⟩ := List.forall_mem_cons.mp hrouted
    obtain ⟨hresolvable, hresolvables⟩ := List.forall_mem_cons.mp hresolvable
    obtain ⟨hsame, hsames⟩ := List.forall_mem_cons.mp hsame
    rcases hdocuments : d.documents p.base p.locale with e | ⟨b, l⟩
    · rw [mergePairs_of_error (mergeFile_of_error hdocuments _),
        mergePairs_of_error (mergeFile_of_error (hsame ▸ hdocuments) _)]
      exact ⟨rfl, .nil⟩
    · have hdry := @mergeFile_of_unwritten _ _ _ { options with dryRun := true } _ _ (hsame ▸ hdocuments) (Or.inr rfl)
      obtain ⟨d', hreal, hrest, hkept, hstill⟩ :=
        @Foreseeable.step d { options with dryRun := false } _ _ h hrouted hresolvable _ _ hdocuments rfl
      obtain ⟨hfailure, hreports⟩ := ih hrest hrouteds (fun q hq => hstill q hq (hresolvables q hq))
        fun q hq => (hkept q hq).trans (hsames q hq)
      rw [mergePairs_of_ok hdry, mergePairs_of_ok hreal]
      exact ⟨hfailure, .cons (predicts_reportOf _) hreports⟩

/-- A dry run changes nothing and fails if and only if the run does, with the same error after the same number of files.
    Its reports are those of the run, but that no file is said to be written. -/
theorem sync_dry {d : Disk} {c : Config} (h : d.Foreseeable c.pairs)
    (hresolvable : ∀ p ∈ c.pairs, d.Resolvable p.locale) :
    let dry := d.sync (c.withDryRun true)
    let real := d.sync (c.withDryRun false)
    dry.disk = d ∧ real.failure = dry.failure ∧ List.Forall₂ FileReport.Predicts dry.finished real.finished := by
  cases hroot : d.isDirectory c.routes.root with
  | false =>
    have hrefused : ∀ dryRun, d.sync (c.withDryRun dryRun) =
        { finished := [], failure := some (.config (.rootNotDirectory c.routes.root)), disk := d } :=
      fun _ => sync_of_not_isDirectory hroot
    rw [hrefused, hrefused]
    exact ⟨rfl, rfl, .nil⟩
  | true =>
    have hrun : ∀ dryRun, d.sync (c.withDryRun dryRun) = mergePairs { c.options with dryRun := dryRun } d c.pairs :=
      fun _ => sync_of_isDirectory hroot
    rw [hrun, hrun]
    exact ⟨(mergePairs_of_dryRun rfl d c.pairs).1,
      mergePairs_predicted h c.routed_locale hresolvable fun _ _ => rfl⟩

section Application
variable {base locale : Text} {options : MergeOptions}

theorem sound_application : (application base locale).Sound where
  rooted := by
    have hres : (application base locale).tree.IsDirectory ["res".toList] := ⟨_, rfl⟩
    have hvalues : (application base locale).tree.IsDirectory ["res".toList, "values".toList] := ⟨_, by cbv⟩
    have hvaluesFr : (application base locale).tree.IsDirectory ["res".toList, "values-fr".toList] := ⟨_, by cbv⟩
    have hroot := (application base locale).tree.isDirectory_root
    exact Tree.rooted_of_nodes (List.forall_mem_cons.mpr ⟨hroot, List.forall_mem_cons.mpr ⟨hres,
      List.forall_mem_cons.mpr ⟨hres, List.forall_mem_cons.mpr ⟨hvalues, List.forall_mem_cons.mpr ⟨hvaluesFr,
      List.forall_mem_singleton.mpr hroot⟩⟩⟩⟩⟩)
  home := Tree.isDirectory_root _

theorem foreseeable_application (hmark : Unmarked locale) :
    (application base locale).Foreseeable (forApplication options).pairs where
  toOrderly := orderly_application
  sound := sound_application
  distinct := by
    refine List.pairwise_pair.mpr fun a _ hb => ?_
    obtain ⟨mode, contents, hfind⟩ := hb
    cases hfind.symm.trans (find_application_missing_locale base locale)
  unmarked p hp t ht := by
    rcases List.mem_pair.mp hp with rfl | rfl
    · obtain rfl := Except.ok.inj (ht.symm.trans (readText_application_locale base locale))
      exact hmark
    · obtain ⟨_, _, _, hfind, -⟩ := readText_eq_ok_iff.mp ht
      cases hfind.symm.trans (find_application_missing_locale base locale)
  room p hp s parent hsite hparent := by
    rw [temporaryIn_ok_iff]
    rcases List.mem_pair.mp hp with rfl | rfl
    · have hlink : (application base locale).site "./res/values-fr/a".toList = .ok
          { path := ['t'], directory := ['.'], address := .ok [],
            place := .ok (.node [['t']] (.file Node.fileMode (Text.encode locale))) } := by cbv
      obtain rfl := Except.ok.inj (hsite.symm.trans hlink)
      exact (by decide +kernel : checkPath (Temporary.path [] ['.'] 0) = .ok ())
    · have hvacant : (application base locale).site "./res/values-fr/b".toList = .ok
          { path := "./res/values-fr/b".toList, directory := "./res/values-fr".toList
            address := .ok ["res".toList, "values-fr".toList]
            place := .ok (.vacant ["res".toList, "values-fr".toList, ['b']]) } := by cbv
      obtain rfl := Except.ok.inj (hsite.symm.trans hvacant)
      exact (by decide +kernel : checkPath (Temporary.path [] "./res/values-fr".toList 0) = .ok ())

theorem resolvable_application (path : Text) : (application base locale).Resolvable path := by
  refine resolvable_of_size_le (fun x hx => ?_) path
  have hsizes : ∀ a ∈ (application base locale).tree.nodes.map (·.1), (Path.ofAddress a).size ≤ Tree.maxPath := by
    rw [application]
    simp only [List.map_cons, List.map_nil]
    decide
  exact hsizes x.1 (List.mem_map_of_mem hx)

end Application

/-- Both the dry run over the application and the run merge one file and fail at the other. -/
theorem sync_dry_application :
    ∃ dry real : SyncOutcome, (application word bare).Foreseeable (forApplication {}).pairs ∧
      (∀ p ∈ (forApplication {}).pairs, (application word bare).Resolvable p.locale) ∧
      dry = (application word bare).sync ((forApplication {}).withDryRun true) ∧
      real = (application word bare).sync ((forApplication {}).withDryRun false) ∧
      dry.disk = application word bare ∧ dry.failure = some (.notFound "./res/values/b".toList) ∧
      real.failure = dry.failure ∧ dry.finished.map (·.written) = [false] ∧ real.finished.map (·.written) = [true] := by
  have hforeseeable := @foreseeable_application word bare {} (by decide)
  obtain ⟨hdisk, hfailure, hreports⟩ := sync_dry hforeseeable fun p _ => resolvable_application p.locale
  obtain ⟨report, d', hwritten, -, -, hsync⟩ :=
    @sync_application _ _ _ _ parse_word parse_bare (by decide) {} (by decide +kernel) rfl
  have hreal : (application word bare).sync ((forApplication {}).withDryRun false) = _ := hsync
  rw [hreal] at hfailure hreports
  refine ⟨_, _, hforeseeable, fun p _ => resolvable_application p.locale, rfl, rfl, hdisk, hfailure.symm,
    by rw [hreal, hfailure], ?_, ?_⟩
  · obtain ⟨predicted, rest, ⟨hunwritten, -⟩, hrest, hdry⟩ := List.forall₂_cons_right_iff.mp hreports
    rw [hdry, List.forall₂_nil_right_iff.mp hrest]
    exact congrArg ([·]) hunwritten
  · rw [hreal]
    exact congrArg ([·]) hwritten

/-! ### A link that can be followed but not resolved -/

/-- A name that is so long that a path of seventeen of them is too long. -/
def longName : Text := List.replicate 250 'd'

theorem isName_longName : Path.IsName longName := by
  have hmem : 'd' ∈ longName := List.mem_replicate.mpr ⟨by decide, rfl⟩
  refine ⟨List.ne_nil_of_mem hmem, fun h => ?_, fun h => ?_, fun h => ?_⟩
  · exact absurd (List.eq_of_mem_replicate h) (by decide)
  · exact absurd (h ▸ hmem) (by decide)
  · exact absurd (h ▸ hmem) (by decide)

theorem size_longName : longName.size = 250 := by
  rw [longName, Text.size_replicate]
  rfl

/-- What the link of a file leads through: down to the seventeenth directory and up again. -/
def detour : List Text :=
  [Path.up, Path.up, ['y']] ++ List.replicate 5 longName ++ List.replicate 17 Path.up

/-- The directories of the detour. -/
def shaft : List (Address × Node) :=
  (List.range 17).map fun n => (List.replicate (n + 1) longName, .directory Node.directoryMode)

/-- The files of an application, with a link that makes the detour. The links `x` and `y` lead to its sixth and twelfth
    directories. -/
def surface : List (Address × Node) :=
  [(["res".toList], .directory Node.directoryMode), (["res".toList, "values".toList], .directory Node.directoryMode),
    (["res".toList, "values-fr".toList], .directory Node.directoryMode),
    (["res".toList, "values".toList, ['a']], .file Node.fileMode (Text.encode word)),
    (["res".toList, "values-fr".toList, ['a']], .link (Path.ofNames (detour ++ [['t']]))),
    ([['x']], .link (Path.ofNames (List.replicate 6 longName))),
    ([['y']], .link (Path.ofNames (['x'] :: List.replicate 6 longName))),
    ([['t']], .file Node.fileMode (Text.encode bare))]

def deep : Disk where
  tree := { nodes := shaft ++ surface }
  home := []
  failNext := false

theorem lookup_shaft {n : Nat} (h : n < 17) :
    shaft.lookup (List.replicate (n + 1) longName) = some (.directory Node.directoryMode) := by
  have hsome : (shaft.lookup (List.replicate (n + 1) longName)).isSome :=
    List.lookup_isSome_iff.mpr ⟨_, List.mem_map.mpr ⟨n, List.mem_range.mpr h, rfl⟩, beq_self_eq_true _⟩
  obtain ⟨m, hm⟩ := Option.isSome_iff_exists.mp hsome
  obtain ⟨k, -, hk⟩ := List.mem_map.mp (Tree.mem_of_lookup hm)
  rw [hm, ← (Prod.mk.inj hk).2]

theorem node?_deep (first : Text) (rest : Address) : deep.tree.node? (first :: rest) =
    (shaft.lookup (first :: rest)).or (surface.lookup (first :: rest)) := List.lookup_append

theorem node?_deep_longName {n : Nat} (h : n ≤ 17) :
    deep.tree.node? (List.replicate n longName) = some (.directory Node.directoryMode) := by
  cases n with
  | zero => rfl
  | succ n =>
    have hlookup := lookup_shaft (Nat.lt_of_succ_le h)
    rw [List.replicate_succ] at hlookup ⊢
    rw [node?_deep, hlookup, Option.some_or]

theorem node?_deep_of_ne {first : Text} (h : first ≠ longName) (rest : Address) :
    deep.tree.node? (first :: rest) = surface.lookup (first :: rest) := by
  have hnone : shaft.lookup (first :: rest) = none := by
    refine List.lookup_eq_none_iff.mpr fun x hx => ?_
    obtain ⟨n, -, rfl⟩ := List.mem_map.mp hx
    rw [List.replicate_succ, bne_iff_ne]
    exact fun heq => h (List.cons.inj heq).1
  rw [node?_deep, hnone, Option.none_or]

theorem sound_deep : deep.Sound where
  rooted := by
    have hsurface : ∀ rest m, surface.lookup ("res".toList :: rest) = some (.directory m) →
        deep.tree.IsDirectory ("res".toList :: rest) := fun rest m h =>
      ⟨m, (node?_deep_of_ne (by decide) rest).trans h⟩
    have hres := hsurface [] _ rfl
    have hvalues := hsurface ["values".toList] _ rfl
    have hvaluesFr := hsurface ["values-fr".toList] _ rfl
    have hroot := deep.tree.isDirectory_root
    have hnodes : deep.tree.nodes = shaft ++ surface := rfl
    refine Tree.rooted_of_nodes ?_
    rw [hnodes, List.forall_mem_append]
    refine ⟨fun x hx => ?_, ?_⟩
    · obtain ⟨n, hn, rfl⟩ := List.mem_map.mp hx
      rw [List.dropLast_replicate]
      exact ⟨_, node?_deep_longName (Nat.le_of_lt (List.mem_range.mp hn))⟩
    · exact List.forall_mem_cons.mpr ⟨hroot, List.forall_mem_cons.mpr ⟨hres,
        List.forall_mem_cons.mpr ⟨hres, List.forall_mem_cons.mpr ⟨hvalues, List.forall_mem_cons.mpr
        ⟨hvaluesFr, List.forall_mem_cons.mpr ⟨hroot, List.forall_mem_cons.mpr
        ⟨hroot, List.forall_mem_singleton.mpr hroot⟩⟩⟩⟩⟩⟩⟩
  home := Tree.isDirectory_root _

theorem components_detour :
    Path.components (Path.ofNames (detour ++ [['t']])) = detour ++ [['t']] := by
  refine Path.components_ofNames (fun n hn => ?_) (by decide)
  simp only [detour, List.mem_append, List.mem_replicate] at hn
  rcases hn with (hn | ⟨-, rfl⟩) | ⟨-, rfl⟩
  · fin_cases hn <;> decide
  · exact ⟨isName_longName.ne_nil, isName_longName.slash⟩
  · decide

theorem components_longNames {names : List Text} (hnames : ∀ n ∈ names, n ≠ [] ∧ '/' ∉ n) (n : Nat) :
    Path.components (Path.ofNames (names ++ List.replicate (n + 1) longName)) =
      names ++ List.replicate (n + 1) longName := by
  rw [List.replicate_succ', ← List.append_assoc]
  refine Path.components_ofNames (List.forall_mem_append.mpr ⟨hnames, fun m hm => ?_⟩) isName_longName
  obtain rfl := List.eq_of_mem_replicate hm
  exact ⟨isName_longName.ne_nil, isName_longName.slash⟩

theorem walk_deep (pursuit : Pursuit) (links : Nat) {directory : Text} {mode : Nat} (hname : Path.IsName directory)
    (hsize : directory.size ≤ Tree.maxName) (hpath : (Path.ofAddress ["res".toList, directory]).size ≤ Tree.maxPath)
    (hdirectory : surface.lookup ["res".toList, directory] = some (.directory mode)) (rest : List Text) :
    deep.tree.walk pursuit links [] (Path.here :: "res".toList :: directory :: rest) =
      deep.tree.walk pursuit links ["res".toList, directory] rest := by
  have hres : deep.tree.node? ([] ++ ["res".toList]) = some (.directory Node.directoryMode) :=
    (node?_deep_of_ne (by decide) []).trans rfl
  have hnode : deep.tree.node? (["res".toList] ++ [directory]) = some (.directory mode) :=
    (node?_deep_of_ne (by decide) _).trans hdirectory
  rw [Tree.walk, if_pos rfl, Tree.walk_directory (by decide) (by decide)
    (fun _ => by decide) hres]
  exact Tree.walk_directory hname hsize (fun _ => hpath) hnode

theorem find_deep_base : deep.find .throughLinks "./res/values/a".toList =
    .ok (.node ["res".toList, "values".toList, ['a']] (.file Node.fileMode (Text.encode word))) := by
  have hpath : Path.components "./res/values/a".toList = [Path.here, "res".toList, "values".toList, ['a']] := by decide
  have hfile : deep.tree.node? (["res".toList, "values".toList] ++ [['a']]) =
      some (.file Node.fileMode (Text.encode word)) :=
    (node?_deep_of_ne (by decide) _).trans rfl
  rw [find_eq_walk (by decide) (by decide), hpath]
  refine (walk_deep .throughLinks _ (by decide) (by decide) (by decide) rfl _).trans ?_
  rw [Tree.walk_cons (by decide) (by decide) (by decide) (by simp), hfile]
  rfl

/-- The locale path leads to the link. -/
theorem find_deep_locale (pursuit : Pursuit) : deep.find pursuit "./res/values-fr/a".toList =
    deep.tree.walk pursuit 40 ["res".toList, "values-fr".toList] [['a']] := by
  have hpath : Path.components "./res/values-fr/a".toList = [Path.here, "res".toList, "values-fr".toList, ['a']] := by
    decide
  rw [find_eq_walk (by decide) (by decide), hpath]
  exact walk_deep pursuit _ (by decide) (by decide) (by decide) rfl _

theorem node?_deep_link : deep.tree.node? (["res".toList, "values-fr".toList] ++ [['a']]) =
    some (.link (Path.ofNames (detour ++ [['t']]))) :=
  (node?_deep_of_ne (by decide) _).trans rfl

theorem find_deep_toLink : deep.find .toLink "./res/values-fr/a".toList =
    .ok (.node ["res".toList, "values-fr".toList, ['a']] (.link (Path.ofNames (detour ++ [['t']])))) := by
  rw [find_deep_locale, Tree.walk_cons (by decide) (by decide) (by decide) (by simp), node?_deep_link]
  rfl

/-- Names that begin with the link `x` lead through six directories. -/
theorem walk_deep_x {pursuit : Pursuit} (h : pursuit ≠ .toLink) (links : Nat) (rest : List Text) :
    deep.tree.walk pursuit (links + 1) [] (['x'] :: rest) =
      deep.tree.walk pursuit links [] (List.replicate 6 longName ++ rest) := by
  have hx : deep.tree.node? ([] ++ [['x']]) = some (.link (Path.ofNames (List.replicate 6 longName))) :=
    (node?_deep_of_ne (by decide) []).trans rfl
  have hnames := components_longNames (List.forall_mem_nil _) 5
  rw [List.nil_append] at hnames
  rw [Tree.walk_link (by decide) (by decide) (fun _ => by decide) hx h, hnames]
  rw [ite_self]

/-- Names that begin with the link `y` lead through twelve. -/
theorem walk_deep_y {pursuit : Pursuit} (h : pursuit ≠ .toLink) (links : Nat) (rest : List Text) :
    deep.tree.walk pursuit (links + 2) [] (['y'] :: rest) =
      deep.tree.walk pursuit links [] (List.replicate 12 longName ++ rest) := by
  have hy : deep.tree.node? ([] ++ [['y']]) = some (.link (Path.ofNames (['x'] :: List.replicate 6 longName))) :=
    (node?_deep_of_ne (by decide) []).trans rfl
  have hnames : Path.components (Path.ofNames (['x'] :: List.replicate 6 longName)) = ['x'] :: List.replicate 6 longName :=
    @components_longNames [['x']] (by decide) 5
  rw [Tree.walk_link (by decide) (by decide) (fun _ => by decide) hy h, hnames, ite_self, List.cons_append,
    walk_deep_x h, ← List.append_assoc, List.replicate_append_replicate]

/-- The link leads to the detour. -/
theorem find_deep {pursuit : Pursuit} (h : pursuit ≠ .toLink) :
    deep.find pursuit "./res/values-fr/a".toList =
      deep.tree.walk pursuit 37 [] (List.replicate 17 longName ++ (List.replicate 17 Path.up ++ [['t']])) := by
  have hrelative : Path.isAbsolute (Path.ofNames (detour ++ [['t']])) = false :=
    Path.isAbsolute_ofNames (by decide) (by decide) _
  have hdetour : detour ++ [['t']] =
      Path.up :: Path.up :: ['y'] :: (List.replicate 5 longName ++ (List.replicate 17 Path.up ++ [['t']])) := by
    rw [detour, List.append_assoc, List.append_assoc]
    rfl
  rw [find_deep_locale, Tree.walk_link (by decide) (by decide) (fun _ => by decide) node?_deep_link h,
    components_detour, hrelative, if_neg (by simp), List.append_nil, hdetour, Tree.walk_up, Tree.walk_up]
  refine (walk_deep_y h 37 _).trans ?_
  rw [← List.append_assoc, List.replicate_append_replicate]

theorem find_deep_throughLinks : deep.find .throughLinks "./res/values-fr/a".toList =
    .ok (.node [['t']] (.file Node.fileMode (Text.encode bare))) := by
  have hdown := @Tree.walk_downs deep.tree 37 longName (List.replicate 17 Path.up ++ [['t']]) 17 isName_longName
    (by rw [size_longName]; decide) (fun _ => node?_deep_longName) 0 17 (by decide)
  have ht : deep.tree.node? ([] ++ [['t']]) = some (.file Node.fileMode (Text.encode bare)) :=
    (node?_deep_of_ne (by decide) []).trans rfl
  rw [List.replicate_zero, Nat.zero_add] at hdown
  rw [find_deep (by decide), hdown, Tree.walk_ups, Tree.walk_cons (by decide) (by decide) (by decide) (by simp), ht]
  rfl

theorem find_deep_resolving : deep.find .resolving "./res/values-fr/a".toList = .error .nameTooLong := by
  have hlong : Tree.maxPath < (Path.ofAddress (List.replicate 17 longName)).size := by
    rw [Path.size_ofAddress_replicate, size_longName]
    decide
  have hdown := @Tree.walk_downs_resolving deep.tree 37 longName (List.replicate 17 Path.up ++ [['t']]) 17
    isName_longName (by rw [size_longName]; decide) (fun _ => node?_deep_longName) hlong 0 17 (by decide) (by decide)
  exact (find_deep (by decide)).trans hdown

/-- A resolved link would have a path that is too long. -/
theorem site_deep : deep.site "./res/values-fr/a".toList =
    .error { path := "./res/values-fr/a".toList, kind := .nameTooLong } := by
  rw [site, find_deep_toLink]
  dsimp only
  rw [find_deep_resolving]

theorem readText_deep_base : deep.readText "./res/values/a".toList = .ok word :=
  readText_eq_ok_iff.mpr ⟨_, _, _, find_deep_base, Text.decode_encode word⟩

theorem readText_deep_locale : deep.readText "./res/values-fr/a".toList = .ok bare :=
  readText_eq_ok_iff.mpr ⟨_, _, _, find_deep_throughLinks, Text.decode_encode bare⟩

theorem documents_deep {b l : Document} (hb : parse "./res/values/a".toList word = .ok b)
    (hl : parse "./res/values-fr/a".toList bare = .ok l) :
    deep.documents "./res/values/a".toList "./res/values-fr/a".toList = .ok (b, l) :=
  documents_eq_ok_iff.mpr ⟨word, bare, readText_deep_base, readText_deep_locale, hb, hl⟩

theorem foreseeable_deep : deep.Foreseeable [(forApplication {}).routes.pair fileA] where
  calm := rfl
  apart p hp q hq a hlocale hbase := by
    obtain rfl := List.mem_singleton.mp hp
    obtain rfl := List.mem_singleton.mp hq
    cases (LeadsTo.unique hlocale.leadsTo ⟨_, find_deep_throughLinks⟩).symm.trans
      (LeadsTo.unique hbase.leadsTo ⟨_, find_deep_base⟩)
  sound := sound_deep
  distinct := List.pairwise_singleton ..
  unmarked p hp t ht := by
    obtain rfl := List.mem_singleton.mp hp
    obtain rfl := Except.ok.inj (ht.symm.trans readText_deep_locale)
    decide
  room p hp s parent hsite hparent := by
    obtain rfl := List.mem_singleton.mp hp
    cases hsite.symm.trans site_deep

/-- A link that can be followed but not resolved: the dry run succeeds, and the run fails. -/
theorem sync_dry_deep :
    ∃ dry real : SyncOutcome,
      deep.Foreseeable ((forApplication {}).withFiles [fileA] (by simp)).pairs ∧
      (deep.readText "./res/values/a".toList = .ok word ∧ Unmarked word) ∧
      dry = deep.sync (((forApplication {}).withFiles [fileA] (by simp)).withDryRun true) ∧
      real = deep.sync (((forApplication {}).withFiles [fileA] (by simp)).withDryRun false) ∧
      dry.failure = none ∧ dry.finished.map (·.added) = [[{ kind := .string, name := ['k'] }]] ∧
      real.failure = some (.io { path := "./res/values-fr/a".toList, kind := .nameTooLong }) ∧ real.finished = [] := by
  have hroot : deep.isDirectory ['.'] = true := by
    rw [isDirectory, find_eq_walk (by decide) (by decide), show Path.components ['.'] = [Path.here] by decide, Tree.walk,
      if_pos rfl, Tree.walk]
    rfl
  have hdocuments := documents_deep parse_word parse_bare
  have hdry := @mergeFile_of_unwritten _ _ _ { dryRun := true } _ _ hdocuments (Or.inr rfl)
  obtain ⟨out, hrender⟩ := exists_render (by decide) parse_bare _ _
  have hreal := @mergeFile_of_render _ _ _ {} _ _ _ hdocuments (by decide +kernel) rfl hrender
  rw [replace_eq, site_deep] at hreal
  have hdrySync :=
    (@sync_of_isDirectory _ (((forApplication {}).withFiles [fileA] (by simp)).withDryRun true) hroot).trans
      (@mergePairs_of_ok _ _ _ ((forApplication {}).routes.pair fileA) _ hdry [])
  have hrealSync :=
    (@sync_of_isDirectory _ (((forApplication {}).withFiles [fileA] (by simp)).withDryRun false) hroot).trans
      (@mergePairs_of_error _ _ _ ((forApplication {}).routes.pair fileA) _ hreal [])
  refine ⟨_, _, foreseeable_deep, ⟨readText_deep_base, by decide⟩, hdrySync.symm, hrealSync.symm, rfl, ?_, rfl, rfl⟩
  exact congrArg ([·]) (by decide +kernel)

end Disk
end StringResources
