import StringResources.Proofs.Disk.Put
import StringResources.Proofs.Sync.Runs

/-! The order of the files of a run. A merge changes one file, and a pair that does not share that file is merged as
    it was before. So neighbouring merges can change places, and a run over the files in another order leaves the same
    disk and gives each file the same report. Main statements: `mergeFile_put`, `Merges.perm` and `sync_perm`. -/

namespace StringResources
namespace Disk
open Parse

/-! ### One merge -/

/-- A merge that writes has replaced the locale file. -/
theorem mergeFile_eq_ok_iff {d d' : Disk} {base locale : Text} {options : MergeOptions} {report : FileReport} :
    d.mergeFile base locale options = (.ok report, d') ↔
      ∃ b l, d.documents base locale = .ok (b, l) ∧
        (((MergePlan.compute b l options).additions = [] ∨ options.dryRun = true) ∧
            report = reportOf base locale (.compute b l options) false ∧ d' = d ∨
          (MergePlan.compute b l options).additions ≠ [] ∧ options.dryRun = false ∧
            report = reportOf base locale (.compute b l options) true ∧
            ∃ t, (MergePlan.compute b l options).render b l options.markUntranslated = some t ∧
              d.replace locale (Text.encode t) = (.ok (), d')) := by
  constructor
  · intro h
    have hmerging := mergeFile_merging d base locale options
    rw [h] at hmerging
    cases hmerging with
    | unwritten hdocuments hnone => exact ⟨_, _, hdocuments, Or.inl ⟨hnone, rfl, rfl⟩⟩
    | @written b l t target mode old _ hdocuments hrender hfind _ _ hadd hdry =>
      rw [mergeFile_of_render hdocuments hadd hdry hrender] at h
      rcases hreplace : d.replace locale (Text.encode t) with ⟨e | _, d''⟩
      · simp [hreplace] at h
      · simp only [hreplace, Prod.mk.injEq] at h
        obtain rfl := h.2
        exact ⟨b, l, hdocuments, Or.inr ⟨hadd, hdry, rfl, t, hrender, hreplace⟩⟩
  · rintro ⟨b, l, hdocuments, ⟨hnone, rfl, rfl⟩ | ⟨hadd, hdry, rfl, t, hrender, hreplace⟩⟩
    · exact mergeFile_of_unwritten hdocuments hnone
    · rw [mergeFile_of_render hdocuments hadd hdry hrender, hreplace]

/-- A merge that ends well puts contents at the file that the locale path leads to; they are the old ones where nothing
    is written. -/
theorem mergeFile_eq_put {d d' : Disk} {base locale : Text} {options : MergeOptions} {report : FileReport}
    (h : d.mergeFile base locale options = (.ok report, d')) :
    ∃ target mode old new, d.find .throughLinks locale = .ok (.node target (.file mode old)) ∧
      d' = d.put target (.file mode new) := by
  obtain ⟨b, l, hdocuments, hcases⟩ := mergeFile_eq_ok_iff.mp h
  obtain ⟨-, localeText, -, hlocale, -, -⟩ := documents_eq_ok_iff.mp hdocuments
  obtain ⟨target, mode, old, hfind, -⟩ := readText_eq_ok_iff.mp hlocale
  rcases hcases with ⟨-, -, rfl⟩ | ⟨-, -, -, t, -, hreplace⟩
  · exact ⟨target, mode, old, old, hfind, (put_of_node?_file (node?_of_find hfind)).symm⟩
  · exact ⟨target, mode, old, Text.encode t, hfind, eq_put_of_replace hfind hreplace⟩

/-- A merge that ends well does the same where the file of another pair has other contents. -/
theorem mergeFile_put {d d' : Disk} {base locale : Text} {options : MergeOptions} {report : FileReport}
    {target : Address} {mode : Nat} {old : Bytes} (htarget : d.tree.node? target = some (.file mode old))
    (hbase : ¬ d.LeadsTo base target) (hlocale : ¬ d.LeadsTo locale target) (mode' : Nat) (new : Bytes)
    (h : d.mergeFile base locale options = (.ok report, d')) :
    (d.put target (.file mode' new)).mergeFile base locale options = (.ok report, d'.put target (.file mode' new)) := by
  obtain ⟨b, l, hdocuments, hcases⟩ := mergeFile_eq_ok_iff.mp h
  obtain ⟨-, localeText, -, hlocaleText, -, -⟩ := documents_eq_ok_iff.mp hdocuments
  obtain ⟨a, mode'', old', hfind, -⟩ := readText_eq_ok_iff.mp hlocaleText
  have hne : target ≠ a := by
    rintro rfl
    exact hlocale ⟨_, hfind⟩
  refine mergeFile_eq_ok_iff.mpr
    ⟨b, l, ((rewritten_put htarget mode' new).documents hbase hlocale).trans hdocuments, ?_⟩
  rcases hcases with ⟨hnone, hreport, rfl⟩ | ⟨hadd, hdry, hreport, t, hrender, hreplace⟩
  · exact Or.inl ⟨hnone, hreport, rfl⟩
  · exact Or.inr ⟨hadd, hdry, hreport, t, hrender, replace_put htarget hfind hne mode' new hreplace⟩

/-! ### Two merges -/

/-- Pairs of files none of which has its locale file in another: no two locale paths lead to one file, and none leads to
    the file of a base path. -/
structure Separate (d : Disk) (pairs : List FilePair) : Prop where
  distinct : pairs.Pairwise fun p q => ∀ a, d.LeadsToFile p.locale a → ¬ d.LeadsToFile q.locale a
  apart : ∀ p ∈ pairs, ∀ q ∈ pairs, ∀ a, d.LeadsToFile p.locale a → ¬ d.LeadsToFile q.base a

section Separate
variable {d d' d₁ d₂ : Disk} {options : MergeOptions} {p q : FilePair} {pairs pairs' : List FilePair}
  {report report' : FileReport}

theorem Separate.perm (h : d.Separate pairs) (hperm : pairs.Perm pairs') : d.Separate pairs' where
  distinct := (hperm.pairwise_iff fun hab a ha hb => hab a hb ha).mp h.distinct
  apart p hp q hq := h.apart p (hperm.mem_iff.mpr hp) q (hperm.mem_iff.mpr hq)

theorem Separate.tail (h : d.Separate (p :: pairs)) : d.Separate pairs where
  distinct := (List.pairwise_cons.mp h.distinct).2
  apart q hq r hr := h.apart q (List.mem_cons_of_mem p hq) r (List.mem_cons_of_mem p hr)

/-- Pairs stay separate after a merge. -/
theorem Separate.mergeFile (h : d.Separate pairs) (hmerge : d.mergeFile p.base p.locale options = (.ok report, d')) :
    d'.Separate pairs := by
  obtain ⟨target, mode, old, new, hfind, rfl⟩ := mergeFile_eq_put hmerge
  have hrewritten := rewritten_put (node?_of_find hfind) mode new
  constructor
  · simpa only [hrewritten.leadsToFile_iff] using h.distinct
  · simpa only [hrewritten.leadsToFile_iff] using h.apart

/-- The other pairs do not lead to the file of the first. -/
theorem Separate.not_leadsTo (h : d.Separate (p :: pairs)) (hq : q ∈ pairs) {a : Address}
    (ha : d.LeadsToFile p.locale a) : ¬ d.LeadsTo q.base a ∧ ¬ d.LeadsTo q.locale a :=
  ⟨fun hb => h.apart p List.mem_cons_self q (List.mem_cons_of_mem p hq) a ha (hb.leadsToFile ha),
    fun hb => (List.pairwise_cons.mp h.distinct).1 q hq a ha (hb.leadsToFile ha)⟩

/-- What a merge does after that of another pair it does alone. -/
theorem Separate.mergeFile_iff (h : d.Separate (p :: pairs)) (hq : q ∈ pairs)
    (hp : d.mergeFile p.base p.locale options = (.ok report, d₁)) :
    (∃ d₂, d₁.mergeFile q.base q.locale options = (.ok report', d₂)) ↔
      ∃ d₂, d.mergeFile q.base q.locale options = (.ok report', d₂) := by
  obtain ⟨target, mode, old, new, hfind, rfl⟩ := mergeFile_eq_put hp
  have hnode := node?_of_find hfind
  have hrewritten := rewritten_put hnode mode new
  obtain ⟨hbase, hlocale⟩ := h.not_leadsTo hq ⟨_, _, hfind⟩
  constructor
  · rintro ⟨d₂, hmerge⟩
    -- With the old contents the file is as it was.
    have hback := mergeFile_put (node?_put_file hnode _) (by rwa [hrewritten.leadsTo_iff])
      (by rwa [hrewritten.leadsTo_iff]) mode old hmerge
    rw [put_put, put_of_node?_file hnode] at hback
    exact ⟨_, hback⟩
  · rintro ⟨d₂, hmerge⟩
    exact ⟨_, mergeFile_put hnode hbase hlocale mode new hmerge⟩

/-- Neighbouring merges can change places. -/
theorem Separate.swap (h : d.Separate (p :: q :: pairs)) (hp : d.mergeFile p.base p.locale options = (.ok report, d₁))
    (hq : d₁.mergeFile q.base q.locale options = (.ok report', d₂)) :
    ∃ d₁', d.mergeFile q.base q.locale options = (.ok report', d₁') ∧
      d₁'.mergeFile p.base p.locale options = (.ok report, d₂) := by
  obtain ⟨d₁', hfirst⟩ := (h.mergeFile_iff List.mem_cons_self hp).mp ⟨d₂, hq⟩
  refine ⟨d₁', hfirst, ?_⟩
  obtain ⟨a, mode, old, new, hfind, rfl⟩ := mergeFile_eq_put hp
  obtain ⟨b, mode', old', new', hfind', rfl⟩ := mergeFile_eq_put hfirst
  have hswapped := h.perm (.swap q p pairs)
  obtain ⟨hbase, hlocale⟩ := h.not_leadsTo List.mem_cons_self ⟨_, _, hfind⟩
  obtain ⟨hbase', hlocale'⟩ := hswapped.not_leadsTo List.mem_cons_self ⟨_, _, hfind'⟩
  have hne : b ≠ a := by
    rintro rfl
    exact hlocale ⟨_, hfind'⟩
  have hsecond := mergeFile_put (node?_of_find hfind) hbase hlocale mode new hfirst
  obtain rfl : d₂ = (d.put b (.file mode' new')).put a (.file mode new) :=
    (Prod.mk.inj (hq.symm.trans hsecond)).2
  rw [put_comm (node?_of_find hfind') hne]
  exact mergeFile_put (node?_of_find hfind') hbase' hlocale' mode' new' hp

end Separate

/-! ### Runs -/

section Runs
variable {d d' : Disk} {options : MergeOptions} {pairs pairs' : List FilePair} {reports : List FileReport}

/-- The merges can be done in any order. -/
theorem Merges.perm (hperm : pairs.Perm pairs') (h : d.Separate pairs) (hmerges : Merges options d pairs reports d') :
    ∃ reports', Merges options d pairs' reports' d' := by
  induction hperm generalizing d reports with
  | nil => exact ⟨_, hmerges⟩
  | cons p _ ih =>
    cases hmerges with
    | cons hmerge hmerges =>
      obtain ⟨reports', hreports'⟩ := ih (h.tail.mergeFile hmerge) hmerges
      exact ⟨_, .cons hmerge hreports'⟩
  | swap p q pairs =>
    cases hmerges with
    | cons hfirst hmerges =>
      cases hmerges with
      | cons hsecond hmerges =>
        obtain ⟨d₁', hfirst', hsecond'⟩ := h.swap hfirst hsecond
        exact ⟨_, .cons hfirst' (.cons hsecond' hmerges)⟩
  | trans hperm _ ih ih' =>
    obtain ⟨reports', hreports'⟩ := ih h hmerges
    exact ih' (h.perm hperm) hreports'

/-- What a merge of a pair reports, if it ends well. -/
def reportAlone (d : Disk) (options : MergeOptions) (p : FilePair) : Option FileReport :=
  (d.mergeFile p.base p.locale options).1.toOption

theorem reportAlone_eq_some_iff {p : FilePair} {report : FileReport} :
    d.reportAlone options p = some report ↔ ∃ d', d.mergeFile p.base p.locale options = (.ok report, d') := by
  unfold reportAlone
  rcases d.mergeFile p.base p.locale options with ⟨e | r, d'⟩ <;> simp [Except.toOption]

/-- In a run each pair gets the report of a merge of it alone. -/
theorem Merges.reports_eq (h : d.Separate pairs) (hmerges : Merges options d pairs reports d') :
    reports.map some = pairs.map (d.reportAlone options) := by
  induction hmerges with
  | nil d => rfl
  | @cons d d₁ d₂ p pairs report reports hmerge _ ih =>
    have halone : d.reportAlone options p = some report := reportAlone_eq_some_iff.mpr ⟨d₁, hmerge⟩
    have hsame : ∀ q ∈ pairs, d₁.reportAlone options q = d.reportAlone options q := fun q hq =>
      Option.ext fun r => by rw [reportAlone_eq_some_iff, reportAlone_eq_some_iff, h.mergeFile_iff hq hmerge]
    rw [List.map_cons, List.map_cons, halone, ih (h.tail.mergeFile hmerge), List.map_congr_left hsame]

theorem merges_of_failure_eq_none (h : (mergePairs options d pairs).failure = none) :
    Merges options d pairs (mergePairs options d pairs).finished (mergePairs options d pairs).disk := by
  have hending := mergePairs_ending options d pairs
  generalize mergePairs options d pairs = o at hending h
  cases hending with
  | complete hmerges => exact hmerges
  | stopped => cases h

end Runs

/-! ### Runs over files -/

theorem totalAdded_perm {r r' : SyncReport} (h : r.files.Perm r'.files) : r.totalAdded = r'.totalAdded :=
  h.foldr_eq' (fun a _ b _ n => Nat.add_left_comm b.added.length a.added.length n) 0

theorem sync_of_merges {d d' : Disk} (c : Config) {reports : List FileReport}
    (hroot : d.isDirectory c.routes.root = true) (hmerges : Merges c.options d c.pairs reports d') :
    d.sync c = { finished := reports, failure := none, disk := d' } :=
  (sync_of_isDirectory hroot).trans hmerges.mergePairs_eq

/-- A run that ends well has found a directory at the root and has done all its merges. -/
theorem merges_of_sync {d : Disk} {c : Config} {r : SyncReport} (h : (d.sync c).result = .ok r) :
    d.isDirectory c.routes.root = true ∧ Merges c.options d c.pairs r.files (d.sync c).disk := by
  cases hroot : d.isDirectory c.routes.root with
  | false => simp [sync_of_not_isDirectory hroot, SyncOutcome.result] at h
  | true =>
    rw [sync_of_isDirectory hroot] at h ⊢
    have hmerges := @merges_of_failure_eq_none d c.options c.pairs
    generalize mergePairs c.options d c.pairs = o at h hmerges ⊢
    obtain ⟨finished, failure | e, d'⟩ := o
    · obtain rfl := Except.ok.inj h
      exact ⟨rfl, hmerges rfl⟩
    · cases h

/-- Where no file is reached from two pairs, the order of the files does not matter: a run over the files in another
    order ends well if the run does, leaves the same disk and gives each file the report of a merge of it alone. -/
theorem sync_perm {d : Disk} {c : Config} {files : List FileName} (hperm : c.files.Perm files) (hfiles : files ≠ [])
    (h : d.Separate c.pairs) :
    let one := d.sync c
    let other := d.sync (c.withFiles files hfiles)
    ((∃ r, one.result = .ok r) ↔ ∃ r, other.result = .ok r) ∧
    ∀ r r', one.result = .ok r → other.result = .ok r' →
      one.disk = other.disk ∧ r.files.Perm r'.files ∧ r.totalAdded = r'.totalAdded ∧
      r.files.map some = c.files.map (fun file => d.reportAlone c.options (c.routes.pair file)) ∧
      r'.files.map some = files.map (fun file => d.reportAlone c.options (c.routes.pair file)) := by
  intro one other
  have hpairs : c.pairs.Perm (c.withFiles files hfiles).pairs := hperm.map c.routes.pair
  have h' := h.perm hpairs
  refine ⟨⟨fun ⟨r, hr⟩ => ?_, fun ⟨r, hr⟩ => ?_⟩, fun r r' hr hr' => ?_⟩
  · obtain ⟨hroot, hmerges⟩ := merges_of_sync hr
    obtain ⟨reports, hmerges'⟩ := hmerges.perm hpairs h
    exact ⟨⟨reports⟩, congrArg SyncOutcome.result (sync_of_merges (c.withFiles files hfiles) hroot hmerges')⟩
  · obtain ⟨hroot, hmerges⟩ := merges_of_sync hr
    obtain ⟨reports, hmerges'⟩ := hmerges.perm hpairs.symm h'
    exact ⟨⟨reports⟩, congrArg SyncOutcome.result (sync_of_merges c hroot hmerges')⟩
  · obtain ⟨hroot, hmerges⟩ := merges_of_sync hr
    obtain ⟨-, hmerges'⟩ := merges_of_sync hr'
    have hreports := hmerges.reports_eq h
    have hreports' := hmerges'.reports_eq h'
    -- The run in the other order does the merges of the run in its order.
    obtain ⟨reports, hmoved⟩ := hmerges.perm hpairs h
    have hother : other = { finished := reports, failure := none, disk := one.disk } :=
      sync_of_merges (c.withFiles files hfiles) hroot hmoved
    have hsame : r.files.Perm r'.files := by
      rw [← List.map_perm_map_iff (Option.some_injective _), hreports, hreports']
      exact hpairs.map _
    refine ⟨(congrArg SyncOutcome.disk hother).symm, hsame, totalAdded_perm hsame, hreports.trans ?_, hreports'.trans ?_⟩
    · rw [Config.pairs, List.map_map]
      rfl
    · rw [Config.pairs, List.map_map]
      rfl

/-- An application whose files `a` and `b` are translated to `fr`, the file `a` behind a link. -/
def translated : Disk where
  tree :=
    { nodes :=
        [(["res".toList], .directory Node.directoryMode),
          (["res".toList, "values".toList], .directory Node.directoryMode),
          (["res".toList, "values-fr".toList], .directory Node.directoryMode),
          (["res".toList, "values".toList, ['a']], .file Node.fileMode (Text.encode word)),
          (["res".toList, "values".toList, ['b']], .file Node.fileMode (Text.encode word)),
          (["res".toList, "values-fr".toList, ['a']], .link "../../t".toList),
          (["res".toList, "values-fr".toList, ['b']], .file Node.fileMode (Text.encode bare)),
          ([['t']], .file Node.fileMode (Text.encode bare))] }
  home := []
  failNext := false

theorem find_translated :
    translated.find .throughLinks "./res/values/a".toList =
      .ok (.node ["res".toList, "values".toList, ['a']] (.file Node.fileMode (Text.encode word))) ∧
    translated.find .throughLinks "./res/values/b".toList =
      .ok (.node ["res".toList, "values".toList, ['b']] (.file Node.fileMode (Text.encode word))) ∧
    translated.find .throughLinks "./res/values-fr/a".toList =
      .ok (.node [['t']] (.file Node.fileMode (Text.encode bare))) ∧
    translated.find .throughLinks "./res/values-fr/b".toList =
      .ok (.node ["res".toList, "values-fr".toList, ['b']] (.file Node.fileMode (Text.encode bare))) := by
  refine ⟨?_, ?_, ?_, ?_⟩ <;> cbv

theorem separate_translated {options : MergeOptions} : translated.Separate (forApplication options).pairs := by
  obtain ⟨hbaseA, hbaseB, hlocaleA, hlocaleB⟩ := find_translated
  have hne : ∀ {path path' : Text} {a b : Address} {n m : Node}, a ≠ b →
      translated.find .throughLinks path = .ok (.node a n) → translated.find .throughLinks path' = .ok (.node b m) →
      ∀ c, translated.LeadsToFile path c → ¬ translated.LeadsToFile path' c :=
    fun hab h h' _ hc hc' => hab ((LeadsTo.unique ⟨_, h⟩ hc.leadsTo).trans (hc'.leadsTo.unique ⟨_, h'⟩))
  constructor
  · exact List.pairwise_pair.mpr (hne (by decide) hlocaleA hlocaleB)
  · intro p hp q hq
    rcases List.mem_pair.mp hp with rfl | rfl <;> rcases List.mem_pair.mp hq with rfl | rfl
    · exact hne (by decide) hlocaleA hbaseA
    · exact hne (by decide) hlocaleA hbaseB
    · exact hne (by decide) hlocaleB hbaseA
    · exact hne (by decide) hlocaleB hbaseB

/-- A word is added to a translation without entries. -/
theorem mergeFile_bare {d : Disk} {base locale : Text} {a b : Address} {m m' : Nat}
    (hbase : d.find .throughLinks base = .ok (.node a (.file m (Text.encode word))))
    (hlocale : d.find .throughLinks locale = .ok (.node b (.file m' (Text.encode bare))))
    (hreplace : ∀ out, (d.replace locale (Text.encode out)).1 = .ok ()) :
    ∃ report d', d.mergeFile base locale {} = (.ok report, d') ∧ report.added = [⟨.string, ['k']⟩] := by
  have hb : parse base word = .ok _ := parse_of_path parse_word
  have hl : parse locale bare = .ok _ := parse_of_path parse_bare
  have hdocuments := documents_eq_ok_iff.mpr
    ⟨_, _, readText_eq_ok_iff.mpr ⟨_, _, _, hbase, Text.decode_encode word⟩,
      readText_eq_ok_iff.mpr ⟨_, _, _, hlocale, Text.decode_encode bare⟩, hb, hl⟩
  have hmark : Unmarked bare := by decide
  obtain ⟨out, hrender⟩ := exists_render hmark hl _ _
  refine ⟨_, _, mergeFile_of_replace hdocuments ?_ rfl hrender (hreplace out), ?_⟩
  · cbv
    exact List.cons_ne_nil _ _
  · cbv

/-- Over the files of the application, and over them in the other order, a run adds two words. -/
theorem sync_perm_translated :
    [fileA, fileB].Perm [fileB, fileA] ∧ translated.Separate (forApplication {}).pairs ∧
    ∃ r r', (translated.sync (forApplication {})).result = .ok r ∧
      (translated.sync ((forApplication {}).withFiles [fileB, fileA] (by simp))).result = .ok r' ∧
      r.files.map (·.added.length) = [1, 1] ∧ r.totalAdded = r'.totalAdded ∧
      (translated.sync (forApplication {})).disk =
        (translated.sync ((forApplication {}).withFiles [fileB, fileA] (by simp))).disk := by
  obtain ⟨hbaseA, hbaseB, hlocaleA, hlocaleB⟩ := find_translated
  obtain ⟨reportA, d₁, hmergeA, haddedA⟩ := mergeFile_bare hbaseA hlocaleA fun out => by cbv
  obtain ⟨reportB, d', hmergeB, haddedB⟩ := mergeFile_bare hbaseB hlocaleB fun out => by cbv
  have hseparate := @separate_translated {}
  have hswap : (forApplication {}).files.Perm [fileB, fileA] := .swap fileB fileA []
  obtain ⟨d₂, hmergeB'⟩ := (hseparate.mergeFile_iff List.mem_cons_self hmergeA).mpr ⟨d', hmergeB⟩
  have hroot : translated.isDirectory ['.'] = true := by cbv
  have hone := sync_of_merges (forApplication {}) hroot (.cons hmergeA (.cons hmergeB' (.nil d₂)))
  obtain ⟨hends, hsame⟩ := sync_perm hswap (by simp) hseparate
  have hresult := congrArg SyncOutcome.result hone
  obtain ⟨r', hr'⟩ := hends.mp ⟨_, hresult⟩
  obtain ⟨hdisk, -, htotal, -⟩ := hsame _ _ hresult hr'
  exact ⟨hswap, hseparate, _, r', hresult, hr', by simp [haddedA, haddedB], htotal, hdisk⟩

end Disk
end StringResources
