import StringResources.Proofs.Disk.Rewritten
import StringResources.Proofs.Merge.Growth
import StringResources.Proofs.Sync.Survival

/-! What a merge may touch. It changes nothing, or the contents of the one file that the locale path leads to,
    and then they are other contents. The base reads as before, also where both paths lead to one file: a text
    lacks nothing of itself. Main statement: `mergeFile_touches`. -/

namespace StringResources

/-- A document lacks no entry of one with the same entries. -/
theorem MergePlan.additions_of_entries_eq {base locale : Document} (h : locale.entries = base.entries)
    (options : MergeOptions) : (compute base locale options).additions = [] := by
  rw [List.eq_nil_iff_forall_not_mem]
  intro e he
  obtain ⟨hbase, -, hmissing⟩ := mem_additions_iff.mp he
  rw [← h] at hbase
  exact hmissing (List.mem_map_of_mem hbase)

namespace Disk
open Markup Parse

theorem Untouched.read {d d' : Disk} (h : d.Untouched d') (path : Text) : d'.read path = d.read path := by
  rcases h with rfl | rfl <;> rfl

theorem readText_of_read {d d' : Disk} {path : Text} (h : d'.read path = d.read path) :
    d'.readText path = d.readText path := by
  rw [readText, h, readText]

theorem Rewritten.documents {d d' : Disk} {target : Address} {mode : Nat} {new : Bytes}
    (h : d.Rewritten d' target mode new) {base locale : Text} (hbase : ¬ d.LeadsTo base target)
    (hlocale : ¬ d.LeadsTo locale target) : d'.documents base locale = d.documents base locale := by
  rw [Disk.documents, Disk.documents, readText_of_read (h.read_of_not_leadsTo hbase),
    readText_of_read (h.read_of_not_leadsTo hlocale)]

section Written
variable {d d' : Disk} {base locale t : Text} {options : MergeOptions} {b l : Document} {target : Address} {mode : Nat}
  {old : Bytes}

theorem rewritten_of_written (hfind : d.find .throughLinks locale = .ok (.node target (.file mode old)))
    (hhome : d'.home = d.home) (hchanged : d.tree.Changed d'.tree target (.file mode (Text.encode t))) :
    d.Rewritten d' target mode (Text.encode t) :=
  ⟨hhome, ⟨mode, old, node?_of_find hfind⟩, hchanged⟩

/-- Where something is added, base and locale are two files. -/
theorem not_leadsTo_base (hdocuments : d.documents base locale = .ok (b, l))
    (hadd : (MergePlan.compute b l options).additions ≠ []) {a : Address} (hlocale : d.LeadsTo locale a) :
    ¬ d.LeadsTo base a := by
  rintro ⟨n, hbase⟩
  obtain ⟨m, hlocale⟩ := hlocale
  obtain ⟨baseText, localeText, hbaseText, hlocaleText, hb, hl⟩ := documents_eq_ok_iff.mp hdocuments
  obtain ⟨_, _, hfindBase, hhasBase⟩ := Tree.hasText_of_readText hbaseText
  obtain ⟨_, _, hfindLocale, hhasLocale⟩ := Tree.hasText_of_readText hlocaleText
  rw [hbase] at hfindBase
  rw [hlocale] at hfindLocale
  obtain ⟨rfl, -⟩ := Place.node.inj (Except.ok.inj hfindBase)
  obtain ⟨rfl, -⟩ := Place.node.inj (Except.ok.inj hfindLocale)
  obtain rfl := hhasBase.unique hhasLocale
  obtain rfl := Except.ok.inj (hl.symm.trans (parse_of_path hb))
  exact hadd (MergePlan.additions_of_entries_eq rfl options)

/-- Where something is added, the contents are other contents. -/
theorem encode_ne_of_render (hdocuments : d.documents base locale = .ok (b, l))
    (hadd : (MergePlan.compute b l options).additions ≠ [])
    (hbaseMark : ∀ u, d.readText base = .ok u → Unmarked u) (hlocaleMark : ∀ u, d.readText locale = .ok u → Unmarked u)
    {mark : Bool} (hrender : (MergePlan.compute b l options).render b l mark = some t)
    (hfind : d.find .throughLinks locale = .ok (.node target (.file mode old))) : Text.encode t ≠ old := by
  obtain ⟨baseText, localeText, hbaseText, hlocaleText, hb, hl⟩ := documents_eq_ok_iff.mp hdocuments
  obtain ⟨_, _, bytes, hfind', hdecode⟩ := readText_eq_ok_iff.mp hlocaleText
  rw [hfind] at hfind'
  obtain ⟨-, hnode⟩ := Place.node.inj (Except.ok.inj hfind')
  obtain ⟨-, rfl⟩ := Node.file.inj hnode
  obtain ⟨e, he⟩ := List.exists_mem_of_ne_nil _ hadd
  obtain ⟨⟨kind, s, helement⟩, -⟩ := Entry.Read.exists_forest
    ⟨base, baseText, b, hbaseMark baseText hbaseText, hb, (MergePlan.mem_additions_iff.mp he).1⟩
  have hne : t ≠ localeText := Render.render_ne_text (hlocaleMark localeText hlocaleText) hl
    ⟨e.element, List.mem_map_of_mem he, by rw [helement]; exact List.mem_cons_self⟩ hrender
  rintro rfl
  rw [Text.decode_encode] at hdecode
  exact hne (Except.ok.inj hdecode)

end Written

/-- A merge that fails or writes nothing leaves the tree as it was. One that writes changes the contents of the file
    that the locale path leads to and nothing else; it does so exactly if there is something to add and files are to be
    written. The base path reads as before. -/
theorem mergeFile_touches {d d' : Disk} {base locale : Text} {options : MergeOptions}
    {result : Except SyncError FileReport} (hbaseMark : ∀ t, d.readText base = .ok t → Unmarked t)
    (hlocaleMark : ∀ t, d.readText locale = .ok t → Unmarked t)
    (h : d.mergeFile base locale options = (result, d')) :
    (∀ e, result = .error e → d'.tree = d.tree) ∧
    (∀ report, result = .ok report →
      (report.written = true ↔ report.added ≠ [] ∧ options.dryRun = false) ∧
      (report.written = false → d'.tree = d.tree) ∧
      (report.written = true → ∃ target mode old new,
        d.find .throughLinks locale = .ok (.node target (.file mode old)) ∧
        d'.find .throughLinks locale = .ok (.node target (.file mode new)) ∧ new ≠ old ∧
        d.tree.node? target = some (.file mode old) ∧ d'.tree.node? target = some (.file mode new) ∧
        ∀ a, a ≠ target → d'.tree.node? a = d.tree.node? a)) ∧
    d'.read base = d.read base := by
  have hmerging := mergeFile_merging d base locale options
  rw [h] at hmerging
  cases hmerging with
  | stopped e huntouched => exact ⟨fun _ _ => huntouched.tree, by simp, huntouched.read base⟩
  | @unwritten b l hdocuments hnone =>
    refine ⟨by simp, fun report hreport => ?_, rfl⟩
    obtain rfl := Except.ok.inj hreport
    refine ⟨?_, fun _ => rfl, by simp [reportOf]⟩
    rcases hnone with hnil | hdry
    · simp [reportOf, MergePlan.addedKeys, hnil]
    · simp [reportOf, hdry]
  | @written b l t target mode old d' hdocuments hrender hfind hhome hchanged hadd hdry hfail =>
    have hrewritten := rewritten_of_written hfind hhome hchanged
    refine ⟨by simp, fun report hreport => ?_, ?_⟩
    · obtain rfl := Except.ok.inj hreport
      refine ⟨by simp [reportOf, MergePlan.addedKeys, hadd, hdry], by simp [reportOf], fun _ => ?_⟩
      refine ⟨target, mode, old, Text.encode t, hfind, ?_,
        encode_ne_of_render hdocuments hadd hbaseMark hlocaleMark hrender hfind, node?_of_find hfind,
        hchanged.node?_self, fun a ha => hchanged.of_ne ha⟩
      rw [hrewritten.find, hfind, Except.map, Place.changed, if_pos rfl]
    · exact hrewritten.read_of_not_leadsTo (not_leadsTo_base hdocuments hadd ⟨_, hfind⟩)

theorem mergeFile_linked {base locale : Text} {b l : Document} (hb : parse ['b'] base = .ok b)
    (hl : parse ['l'] locale = .ok l) (hmark : Unmarked locale) (hadd : (MergePlan.compute b l {}).additions ≠ []) :
    ∃ d', (linked base locale).mergeFile ['b'] ['l'] {} = (.ok (reportOf ['b'] ['l'] (.compute b l {}) true), d') := by
  have hdocuments := documents_eq_ok_iff.mpr
    ⟨_, _, readText_linked_base base locale, readText_linked_locale base locale, hb, hl⟩
  obtain ⟨out, hrender⟩ := exists_render hmark hl ((MergePlan.compute b l {}).additions.map (·.element))
    { mark := true, fallbackIndent := b.indent, namespaces := b.namespaces }
  exact ⟨_, mergeFile_of_replace hdocuments hadd rfl hrender (replace_linked _ _ _)⟩

/-- The file behind the link gets other contents, and the base is as it was. -/
theorem mergeFile_touches_linked :
    ∃ report d' new,
      (linked "<resources><string name=\x22k\x22/></resources>".toList "<resources        />".toList).mergeFile
        ['b'] ['l'] {} = (.ok report, d') ∧ report.added ≠ [] ∧ report.written = true ∧
      d'.find .throughLinks ['l'] = .ok (.node [['r']] (.file Node.fileMode new)) ∧
      new ≠ Text.encode "<resources        />".toList ∧
      d'.read ['b'] = .ok (Text.encode "<resources><string name=\x22k\x22/></resources>".toList) := by
  have hb : parse ['b'] "<resources><string name=\x22k\x22/></resources>".toList = .ok
      { path := ['b'], text := "<resources><string name=\x22k\x22/></resources>".toList
        entries := [{ key := ⟨.string, ['k']⟩, value := [], translatable := true,
                      element := "<string name=\x22k\x22/>".toList }]
        indent := none, rootOpen := ⟨0, 11⟩, rootClose := .endTag 29, namespaces := [] } := by decide +kernel
  have hl : parse ['l'] "<resources        />".toList = .ok
      { path := ['l'], text := "<resources        />".toList, entries := [], indent := none, rootOpen := ⟨0, 20⟩
        rootClose := .selfClosing ⟨0, 20⟩, namespaces := [] } := by decide +kernel
  obtain ⟨d', hmerge⟩ := mergeFile_linked hb hl (by decide) (by decide +kernel)
  have hbaseText := readText_linked_base "<resources><string name=\x22k\x22/></resources>".toList
    "<resources        />".toList
  have hlocaleText := readText_linked_locale "<resources><string name=\x22k\x22/></resources>".toList
    "<resources        />".toList
  obtain ⟨-, hok, hread⟩ := mergeFile_touches
    (fun t ht => by obtain rfl := Except.ok.inj (hbaseText.symm.trans ht); decide)
    (fun t ht => by obtain rfl := Except.ok.inj (hlocaleText.symm.trans ht); decide) hmerge
  obtain ⟨hiff, -, hwritten⟩ := hok _ rfl
  obtain ⟨target, mode, old, new, hfind, hfind', hne, -⟩ := hwritten rfl
  have hlink : (linked "<resources><string name=\x22k\x22/></resources>".toList "<resources        />".toList).find
      .throughLinks ['l'] =
      .ok (.node [['r']] (.file Node.fileMode (Text.encode "<resources        />".toList))) := by cbv
  rw [hlink] at hfind
  obtain ⟨rfl, hnode⟩ := Place.node.inj (Except.ok.inj hfind)
  obtain ⟨rfl, rfl⟩ := Node.file.inj hnode
  exact ⟨_, d', new, hmerge, (hiff.mp rfl).1, rfl, hfind', hne, hread.trans (by cbv)⟩

end Disk
end StringResources
