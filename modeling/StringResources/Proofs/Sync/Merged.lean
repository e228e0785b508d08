import Mathlib
import StringResources.Proofs.Disk.Replacement
import StringResources.Proofs.Merge.RoundTrip
import StringResources.Proofs.Text.Decode
import StringResources.Sync.Merge

/-! Merging one file into another on a disk. A merge either stops and leaves all files as they were, or
    writes nothing, or changes the contents of the file that the locale path leads to. Main statements:
    `mergeFile_merging`, all the ways a merge can end, and `mergeFile_ok`, what a merge that ends well has
    done. -/

namespace StringResources.Disk
open Markup Parse

theorem readText_eq_ok_iff {d : Disk} {path t : Text} :
    d.readText path = .ok t ↔ ∃ target mode bytes,
      d.find .throughLinks path = .ok (.node target (.file mode bytes)) ∧ Text.decode bytes = .ok t := by
  constructor
  · intro h
    unfold readText at h
    split at h
    · cases h
    · cases h
    · next bytes hread =>
      split at h
      · next t' ht =>
        obtain rfl := Except.ok.inj h
        unfold read at hread
        split at hread
        · next target mode contents hfind =>
          obtain rfl := Except.ok.inj hread
          exact ⟨target, mode, contents, hfind, ht⟩
        all_goals cases hread
      · cases h
  · rintro ⟨target, mode, bytes, hfind, ht⟩
    simp only [readText, read, hfind, ht]

theorem documents_eq_ok_iff {d : Disk} {base locale : Text} {b l : Document} :
    d.documents base locale = .ok (b, l) ↔ ∃ baseText localeText, d.readText base = .ok baseText ∧
      d.readText locale = .ok localeText ∧ parse base baseText = .ok b ∧ parse locale localeText = .ok l := by
  have hmap : ∀ {path t : Text} {x : Document},
      (parse path t).mapError SyncError.ofParseFailure = .ok x ↔ parse path t = .ok x := by
    intro path t x
    cases parse path t <;> simp [Except.mapError]
  simp only [documents, bind_eq_ok_iff, hmap, Except.ok.injEq, Prod.mk.injEq]
  constructor
  · rintro ⟨baseText, hbase, localeText, hlocale, b', hb, l', hl, rfl, rfl⟩
    exact ⟨baseText, localeText, hbase, hlocale, hb, hl⟩
  · rintro ⟨baseText, localeText, hbase, hlocale, hb, hl⟩
    exact ⟨baseText, hbase, localeText, hlocale, b, hb, l, hl, rfl, rfl⟩

/-- What a merge by a plan reports. -/
def reportOf (base locale : Text) (plan : MergePlan) (written : Bool) : FileReport :=
  { base := base, locale := locale, added := plan.addedKeys, skipped := plan.skipped, preserved := plan.preserved,
    written := written }

inductive Merging (d : Disk) (base locale : Text) (options : MergeOptions) : Except SyncError FileReport × Disk → Prop
  | stopped {d' : Disk} (e : SyncError) : d.Untouched d' → Merging d base locale options (.error e, d')
  | unwritten {b l : Document} : d.documents base locale = .ok (b, l) →
      (MergePlan.compute b l options).additions = [] ∨ options.dryRun = true →
      Merging d base locale options (.ok (reportOf base locale (.compute b l options) false), d)
  | written {b l : Document} {t : Text} {target : Address} {mode : Nat} {old : Bytes} {d' : Disk} :
      d.documents base locale = .ok (b, l) →
      (MergePlan.compute b l options).render b l options.markUntranslated = some t →
      d.find .throughLinks locale = .ok (.node target (.file mode old)) → d'.home = d.home →
      d.tree.Changed d'.tree target (.file mode (Text.encode t)) →
      (MergePlan.compute b l options).additions ≠ [] → options.dryRun = false → d'.failNext = d.failNext →
      Merging d base locale options (.ok (reportOf base locale (.compute b l options) true), d')

theorem mergeFile_merging (d : Disk) (base locale : Text) (options : MergeOptions) :
    Merging d base locale options (d.mergeFile base locale options) := by
  unfold mergeFile
  split
  · exact .stopped _ (Untouched.refl d)
  · next b l hdocuments =>
    dsimp only
    split
    · next hwrite =>
      split
      · exact .stopped _ (Untouched.refl d)
      · next t ht =>
        have hplan : (MergePlan.compute b l options).additions ≠ [] ∧ options.dryRun = false := by
          simpa [MergePlan.isEmpty] using hwrite
        obtain ⟨-, localeText, -, hlocale, -, -⟩ := documents_eq_ok_iff.mp hdocuments
        obtain ⟨target, mode, old, hfind, -⟩ := readText_eq_ok_iff.mp hlocale
        have hreplace := replace_cases hfind (Text.encode t)
        split
        · next d' hd' =>
          rw [hd'] at hreplace
          rw [hwrite]
          cases hreplace with
          | done hhome hchanged hfail => exact .written hdocuments ht hfind hhome hchanged hplan.1 hplan.2 hfail
        · next e d' hd' =>
          rw [hd'] at hreplace
          cases hreplace with
          | failed _ huntouched => exact .stopped _ huntouched
    · next hwrite =>
      have hnone : (MergePlan.compute b l options).additions = [] ∨ options.dryRun = true := by
        rw [Bool.and_eq_true, not_and_or] at hwrite
        simpa [MergePlan.isEmpty] using hwrite
      rw [Bool.not_eq_true] at hwrite
      rw [hwrite]
      exact .unwritten hdocuments hnone

theorem mergeFile_of_error {d : Disk} {base locale : Text} {e : SyncError} (h : d.documents base locale = .error e)
    (options : MergeOptions) : d.mergeFile base locale options = (.error e, d) := by
  rw [mergeFile, h]

theorem mergeFile_of_unwritten {d : Disk} {base locale : Text} {options : MergeOptions} {b l : Document}
    (hdocuments : d.documents base locale = .ok (b, l))
    (hnone : (MergePlan.compute b l options).additions = [] ∨ options.dryRun = true) :
    d.mergeFile base locale options = (.ok (reportOf base locale (.compute b l options) false), d) := by
  have hwrite : (!(MergePlan.compute b l options).isEmpty && !options.dryRun) = false := by
    rcases hnone with hnil | hdry
    · simp [MergePlan.isEmpty, hnil]
    · simp [hdry]
  rw [mergeFile, hdocuments]
  dsimp only
  rw [hwrite]
  rfl

theorem mergeFile_of_render {d : Disk} {base locale : Text} {options : MergeOptions} {b l : Document} {t : Text}
    (hdocuments : d.documents base locale = .ok (b, l)) (hadd : (MergePlan.compute b l options).additions ≠ [])
    (hdry : options.dryRun = false)
    (hrender : (MergePlan.compute b l options).render b l options.markUntranslated = some t) :
    d.mergeFile base locale options =
      match d.replace locale (Text.encode t) with
      | (.ok (), d') => (.ok (reportOf base locale (.compute b l options) true), d')
      | (.error e, d') => (.error (.io e), d') := by
  have hwrite : (!(MergePlan.compute b l options).isEmpty && !options.dryRun) = true := by
    simp [MergePlan.isEmpty, hadd, hdry]
  rw [mergeFile, hdocuments]
  dsimp only
  rw [if_pos hwrite, hrender, hwrite]
  rfl

theorem mergeFile_of_replace {d : Disk} {base locale : Text} {options : MergeOptions} {b l : Document} {t : Text}
    (hdocuments : d.documents base locale = .ok (b, l)) (hadd : (MergePlan.compute b l options).additions ≠ [])
    (hdry : options.dryRun = false)
    (hrender : (MergePlan.compute b l options).render b l options.markUntranslated = some t)
    (hreplace : (d.replace locale (Text.encode t)).1 = .ok ()) :
    d.mergeFile base locale options =
      (.ok (reportOf base locale (.compute b l options) true), (d.replace locale (Text.encode t)).2) := by
  rw [mergeFile_of_render hdocuments hadd hdry hrender]
  rcases hd : d.replace locale (Text.encode t) with ⟨r, d'⟩
  rw [hd] at hreplace
  obtain rfl : r = .ok () := hreplace
  rfl

section Ok
variable {d d' : Disk} {base locale : Text} {options : MergeOptions} {report : FileReport}

/-- After a merge that ends well, each file reads as before, but for the locale file, which has the text that
    was rendered. -/
theorem readText_of_written {target : Address} {mode : Nat} {old : Bytes} {t : Text}
    (hfind : d.find .throughLinks locale = .ok (.node target (.file mode old))) (hhome : d'.home = d.home)
    (hchanged : d.tree.Changed d'.tree target (.file mode (Text.encode t))) : d'.readText locale = .ok t := by
  have hfind' := find_changed hhome ⟨mode, old, node?_of_find hfind⟩ rfl hchanged .throughLinks locale
  rw [hfind, Except.map, Place.changed, if_pos rfl] at hfind'
  exact readText_eq_ok_iff.mpr ⟨target, mode, Text.encode t, hfind', Text.decode_encode t⟩

/-- A merge that ends well leaves a locale file with its old entries and then the added ones. All keys of the
    base are now there, but for those that were left out because they are not to be translated. -/
theorem mergeFile_ok {baseText localeText : Text} (hbaseText : d.readText base = .ok baseText)
    (hlocaleText : d.readText locale = .ok localeText) (hbaseMark : Unmarked baseText) (hlocaleMark : Unmarked localeText)
    {b l : Document} (hb : parse base baseText = .ok b) (hl : parse locale localeText = .ok l)
    (hplain : ∀ n ∈ b.namespaces, n.Plain) (hdry : options.dryRun = false)
    (h : d.mergeFile base locale options = (.ok report, d')) :
    ∃ t merged, d'.readText locale = .ok t ∧ parse locale t = .ok merged ∧
      merged.entries = l.entries ++ b.entries.filter (fun e => decide (e.key ∈ report.added)) ∧
      (b.entries.filter (fun e => decide (e.key ∈ report.added))).map (·.key) = report.added ∧
      report.preserved = l.entries.length ∧
      (∀ e ∈ b.entries, e.key ∈ merged.keys ↔ e.key ∉ report.skipped) ∧
      (options.skipUntranslatable = false → report.skipped = []) ∧
      (options.skipUntranslatable = true → report.skipped =
        (b.entries.filter fun e => decide (e.key ∉ l.keys ∧ e.translatable = false)).map (·.key)) := by
  have hdocuments : d.documents base locale = .ok (b, l) :=
    documents_eq_ok_iff.mpr ⟨baseText, localeText, hbaseText, hlocaleText, hb, hl⟩
  have hdistinct := distinct_of_parse hbaseMark hb
  -- What is to be shown of the text that the locale path has afterwards.
  suffices hmerged : ∃ t merged, d'.readText locale = .ok t ∧ parse locale t = .ok merged ∧
      merged.entries = l.entries ++ (MergePlan.compute b l options).additions ∧
      ∃ written, report = reportOf base locale (.compute b l options) written by
    obtain ⟨t, merged, ht, hparse, hentries, written, rfl⟩ := hmerged
    have hfilter :
        b.entries.filter (fun e => decide (e.key ∈ (reportOf base locale (.compute b l options) written).added)) =
        (MergePlan.compute b l options).additions := MergePlan.filter_mem_addedKeys hdistinct
    rw [hfilter]
    refine ⟨t, merged, ht, hparse, hentries, rfl, rfl, fun e he => ?_, fun hskip => ?_, fun hskip => ?_⟩
    · rw [Document.keys, hentries]
      exact MergePlan.mem_merged_iff hdistinct he
    · exact MergePlan.skipped_of_not_skipUntranslatable hskip
    · exact MergePlan.skipped_of_skipUntranslatable hskip
  have hmerging := mergeFile_merging d base locale options
  rw [h] at hmerging
  cases hmerging with
  | unwritten hdocuments' hnone =>
    rw [hdocuments] at hdocuments'
    obtain ⟨rfl, rfl⟩ := Prod.mk.inj (Except.ok.inj hdocuments')
    have hnil : (MergePlan.compute b l options).additions = [] := hnone.resolve_right (by simp [hdry])
    exact ⟨localeText, l, hlocaleText, hl, by rw [hnil, List.append_nil], false, rfl⟩
  | written hdocuments' hrender hfind hhome hchanged =>
    rw [hdocuments] at hdocuments'
    obtain ⟨rfl, rfl⟩ := Prod.mk.inj (Except.ok.inj hdocuments')
    obtain ⟨out, merged, hout, -, hparse, hentries, -⟩ := parse_plan_of_closed hbaseMark hb hlocaleMark hl options
      options.markUntranslated (closed_missing (wellWritten_of_parse hb).1 hplain) locale
    rw [hrender] at hout
    obtain rfl := Option.some.inj hout
    exact ⟨_, merged, readText_of_written hfind hhome hchanged, hparse, hentries, true, rfl⟩

end Ok

/-- A disk with a base file `b` and a link `l` to a locale file `r`. -/
def linked (base locale : Text) : Disk where
  tree :=
    { nodes := [([['b']], .file Node.fileMode (Text.encode base)), ([['l']], .link ['r']),
        ([['r']], .file Node.fileMode (Text.encode locale))] }
  home := []
  failNext := false

theorem readText_linked_base (base locale : Text) : (linked base locale).readText ['b'] = .ok base :=
  readText_eq_ok_iff.mpr ⟨[['b']], Node.fileMode, Text.encode base, by cbv, Text.decode_encode base⟩

theorem readText_linked_locale (base locale : Text) : (linked base locale).readText ['l'] = .ok locale :=
  readText_eq_ok_iff.mpr ⟨[['r']], Node.fileMode, Text.encode locale, by cbv, Text.decode_encode locale⟩

theorem replace_linked (base locale : Text) (contents : Bytes) :
    ((linked base locale).replace ['l'] contents).1 = .ok () := by cbv

/-- What is missing is added to the file behind the link. -/
theorem mergeFile_ok_linked :
    ∃ report d' t merged,
      (linked "<resources><string name=\x22k\x22>v</string></resources>".toList "<resources/>".toList).mergeFile
        ['b'] ['l'] {} = (.ok report, d') ∧
      report.added = [{ kind := .string, name := ['k'] }] ∧ d'.readText ['l'] = .ok t ∧ parse ['l'] t = .ok merged ∧
      merged.keys = report.added := by
  have hbaseText :=
    readText_linked_base "<resources><string name=\x22k\x22>v</string></resources>".toList "<resources/>".toList
  have hlocaleText :=
    readText_linked_locale "<resources><string name=\x22k\x22>v</string></resources>".toList "<resources/>".toList
  have hb : parse ['b'] "<resources><string name=\x22k\x22>v</string></resources>".toList = .ok
      { path := ['b'], text := "<resources><string name=\x22k\x22>v</string></resources>".toList
        entries := [{ key := ⟨.string, ['k']⟩, value := ['v'], translatable := true,
                      element := "<string name=\x22k\x22>v</string>".toList }]
        indent := none, rootOpen := ⟨0, 11⟩, rootClose := .endTag 38, namespaces := [] } := by decide +kernel
  have hl : parse ['l'] "<resources/>".toList = .ok
      { path := ['l'], text := "<resources/>".toList, entries := [], indent := none, rootOpen := ⟨0, 12⟩
        rootClose := .selfClosing ⟨0, 12⟩, namespaces := [] } := by decide +kernel
  have hdocuments := documents_eq_ok_iff.mpr ⟨_, _, hbaseText, hlocaleText, hb, hl⟩
  obtain ⟨out, -, hrender, -⟩ := parse_plan_of_closed (by decide) hb (by decide) hl {} true (by decide +kernel) []
  have hmerge := mergeFile_of_replace hdocuments (by decide +kernel) rfl hrender (replace_linked _ _ _)
  obtain ⟨t, merged, ht, hparse, hentries, -⟩ :=
    mergeFile_ok hbaseText hlocaleText (by decide) (by decide) hb hl (by decide) rfl hmerge
  refine ⟨_, _, t, merged, hmerge, by decide +kernel, ht, hparse, ?_⟩
  rw [Document.keys, hentries]
  decide +kernel

end StringResources.Disk
