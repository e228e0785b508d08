import StringResources.Proofs.Sync.Calls
import StringResources.Proofs.Sync.Merged

/-! Runs of many calls. Any number of merges and syncs, with failures asked for at any points, leave a clean
    tree clean, and every document keeps its entries at the front of those it has afterwards. Main
    statements: `mergeFile_safe`, a step, and `foldl_perform_safe`, a run. -/

namespace StringResources

/-- The document at the end of a path that holds a text does not depend on the path. -/
theorem parse_of_path {path path' t : Text} {d : Document} (h : parse path t = .ok d) :
    parse path' t = .ok { d with path := path' } := by
  rw [parse_eq_ok_iff_document, Parse.document_eq_ok_iff] at h ⊢
  obtain ⟨s, rootOpen, rootClose, hrun, hdepth, hopen, hclose, rfl⟩ := h
  exact ⟨s, rootOpen, rootClose, hrun, hdepth, hopen, hclose, rfl⟩

/-- The text that is rendered for clean documents is read as a clean document, with the entries that were planned. -/
theorem parse_render_clean {basePath baseText path localeText t : Text} {b l : Document} {options : MergeOptions}
    (hbaseMark : Unmarked baseText) (hb : parse basePath baseText = .ok b) (hbasePlain : ∀ n ∈ b.namespaces, n.Plain)
    (hlocaleMark : Unmarked localeText) (hl : parse path localeText = .ok l) (hlocalePlain : ∀ n ∈ l.namespaces, n.Plain)
    (hrender : (MergePlan.compute b l options).render b l options.markUntranslated = some t) (path' : Text) :
    ∃ merged, parse path' t = .ok merged ∧ Unmarked t ∧ (∀ n ∈ merged.namespaces, n.Plain) ∧
      merged.entries = l.entries ++ (MergePlan.compute b l options).additions := by
  obtain ⟨out, merged, hout, hmark, hmerged, hentries, hnamespaces⟩ :=
    parse_plan_of_closed hbaseMark hb hlocaleMark hl options options.markUntranslated
      (closed_missing (Parse.wellWritten_of_parse hb).1 hbasePlain) path'
  rw [hrender] at hout
  obtain rfl := Option.some.inj hout
  refine ⟨merged, hmerged, hmark, fun n hn => ?_, hentries⟩
  rw [hnamespaces] at hn
  rcases List.mem_append.mp hn with hn | hn
  · exact hlocalePlain n hn
  · exact hbasePlain n (missing_labels.1.subset hn)

/-! ### Trees -/

namespace Tree

/-- The file at an address holds a text. -/
def HasText (t : Tree) (a : Address) (content : Text) : Prop :=
  ∃ mode bytes, t.node? a = some (.file mode bytes) ∧ Text.decode bytes = .ok content

theorem HasText.unique {t : Tree} {a : Address} {content content' : Text} (h : t.HasText a content)
    (h' : t.HasText a content') : content = content' := by
  obtain ⟨mode, bytes, hnode, hdecode⟩ := h
  obtain ⟨mode', bytes', hnode', hdecode'⟩ := h'
  rw [hnode] at hnode'
  obtain ⟨-, rfl⟩ := Node.file.inj (Option.some.inj hnode')
  exact Except.ok.inj (hdecode.symm.trans hdecode')

/-- Each file that is read as a document has no byte order mark, and its root declares plain labels only. -/
def Clean (t : Tree) : Prop :=
  ∀ a content path d, t.HasText a content → parse path content = .ok d →
    Unmarked content ∧ ∀ n ∈ d.namespaces, n.Plain

/-- Each file that was read as a document still is, and its entries are the first of those it has now. -/
def Survives (t t' : Tree) : Prop :=
  ∀ a content path d, t.HasText a content → parse path content = .ok d →
    ∃ content' d', t'.HasText a content' ∧ parse path content' = .ok d' ∧ d.entries <+: d'.entries

theorem Survives.refl (t : Tree) : t.Survives t := fun _ content _ d hcontent hd =>
  ⟨content, d, hcontent, hd, List.prefix_rfl⟩

theorem Survives.trans {t t' t'' : Tree} (h : t.Survives t') (h' : t'.Survives t'') : t.Survives t'' := by
  intro a content path d hcontent hd
  obtain ⟨content', d', hcontent', hd', hprefix⟩ := h a content path d hcontent hd
  obtain ⟨content'', d'', hcontent'', hd'', hprefix'⟩ := h' a content' path d' hcontent' hd'
  exact ⟨content'', d'', hcontent'', hd'', hprefix.trans hprefix'⟩

theorem hasText_of_readText {d : Disk} {path content : Text} (h : d.readText path = .ok content) :
    ∃ a n, d.find .throughLinks path = .ok (.node a n) ∧ d.tree.HasText a content := by
  obtain ⟨a, mode, bytes, hfind, hdecode⟩ := Disk.readText_eq_ok_iff.mp h
  exact ⟨a, _, hfind, mode, bytes, Disk.node?_of_find hfind, hdecode⟩

theorem Changed.hasText_iff {t t' : Tree} {target a : Address} {mode : Nat} {new content : Text}
    (h : t.Changed t' target (.file mode (Text.encode new))) :
    t'.HasText a content ↔ if a = target then content = new else t.HasText a content := by
  unfold HasText
  rw [h a]
  split
  · constructor
    · rintro ⟨mode', bytes, hnode, hdecode⟩
      obtain ⟨-, rfl⟩ := Node.file.inj (Option.some.inj hnode)
      rw [Text.decode_encode] at hdecode
      exact (Except.ok.inj hdecode).symm
    · rintro rfl
      exact ⟨mode, _, rfl, Text.decode_encode content⟩
  · exact Iff.rfl

theorem Same.hasText {t t' : Tree} (h : t.Same t') {a : Address} {content : Text} :
    t'.HasText a content ↔ t.HasText a content := by rw [HasText, h a, HasText]

end Tree

/-- What a call does to a clean tree: it stays clean, and its documents survive. -/
def Disk.Safe (d d' : Disk) : Prop := d.tree.Clean → d'.tree.Clean ∧ d.tree.Survives d'.tree

namespace Disk

theorem Safe.refl (d : Disk) : d.Safe d := fun h => ⟨h, Tree.Survives.refl d.tree⟩

theorem Safe.trans {d d' d'' : Disk} (h : d.Safe d') (h' : d'.Safe d'') : d.Safe d'' := by
  intro hclean
  obtain ⟨hclean', hsurvives⟩ := h hclean
  obtain ⟨hclean'', hsurvives'⟩ := h' hclean'
  exact ⟨hclean'', hsurvives.trans hsurvives'⟩

theorem safe_of_same {d d' : Disk} (h : d.tree.Same d'.tree) : d.Safe d' := by
  intro hclean
  constructor
  · intro a content path x hcontent hx
    exact hclean a content path x (h.hasText.mp hcontent) hx
  · intro a content path x hcontent hx
    exact ⟨content, x, h.hasText.mpr hcontent, hx, List.prefix_rfl⟩

/-- One merge is safe, however it ends and whatever paths lead to the files. -/
theorem mergeFile_safe (d : Disk) (base locale : Text) (options : MergeOptions) :
    d.Safe (d.mergeFile base locale options).2 := by
  have hmerging := mergeFile_merging d base locale options
  generalize d.mergeFile base locale options = x at hmerging
  cases hmerging with
  | stopped _ huntouched => exact safe_of_same fun a => by rw [huntouched.tree]
  | unwritten _ _ => exact Safe.refl d
  | @written b l t target mode old d' hdocuments hrender hfind hhome hchanged =>
    intro hclean
    obtain ⟨baseText, localeText, hbaseText, hlocaleText, hb, hl⟩ := documents_eq_ok_iff.mp hdocuments
    obtain ⟨a, _, -, ha⟩ := Tree.hasText_of_readText hbaseText
    obtain ⟨hbaseMark, hbasePlain⟩ := hclean a _ _ _ ha hb
    obtain ⟨_, _, hfind', hlocale⟩ := Tree.hasText_of_readText hlocaleText
    rw [hfind] at hfind'
    obtain ⟨rfl, -⟩ := Place.node.inj (Except.ok.inj hfind')
    obtain ⟨hlocaleMark, hlocalePlain⟩ := hclean _ _ _ _ hlocale hl
    obtain ⟨merged, hmerged, hmark, hplain, hentries⟩ :=
      parse_render_clean hbaseMark hb hbasePlain hlocaleMark hl hlocalePlain hrender locale
    constructor
    · intro a content path x hcontent hx
      rw [hchanged.hasText_iff] at hcontent
      split at hcontent
      · subst hcontent
        obtain rfl := Except.ok.inj (hx.symm.trans (parse_of_path hmerged))
        exact ⟨hmark, hplain⟩
      · exact hclean a content path x hcontent hx
    · intro a content path x hcontent hx
      by_cases htarget : a = target
      · subst htarget
        -- The file holds one text only, the one that was merged into.
        obtain rfl := hcontent.unique hlocale
        obtain rfl := Except.ok.inj (hx.symm.trans (parse_of_path hl))
        refine ⟨_, _, hchanged.hasText_iff.mpr (by rw [if_pos rfl]), parse_of_path hmerged, ?_⟩
        exact ⟨_, hentries.symm⟩
      · exact ⟨content, x, hchanged.hasText_iff.mpr (by rwa [if_neg htarget]), hx, List.prefix_rfl⟩

theorem mergePairsFailing_safe (options : MergeOptions) (d : Disk) (pairs : List (FilePair × Bool)) :
    d.Safe (mergePairsFailing options d pairs).disk := by
  induction pairs generalizing d with
  | nil => exact Safe.refl d
  | cons x pairs ih =>
    obtain ⟨pair, fail⟩ := x
    have harmed : d.Safe { d with failNext := d.failNext || fail } := safe_of_same fun _ => rfl
    have hmerge := mergeFile_safe { d with failNext := d.failNext || fail } pair.base pair.locale options
    rw [mergePairsFailing]
    rcases hx : { d with failNext := d.failNext || fail }.mergeFile pair.base pair.locale options with ⟨_ | report, d'⟩
    · rw [hx] at hmerge ⊢
      exact harmed.trans hmerge
    · rw [hx] at hmerge ⊢
      exact harmed.trans (hmerge.trans (ih d'))

theorem perform_safe (d : Disk) (call : Call) : d.Safe (d.perform call) := by
  cases call with
  | merge base locale options => exact mergeFile_safe d base locale options
  | sync config failing =>
    rw [perform, syncFailing]
    split
    · exact mergePairsFailing_safe config.options d _
    · exact Safe.refl d
  | failNext fail => exact safe_of_same fun _ => rfl

/-- Whatever calls are made on a clean tree, it stays clean, and each document keeps its entries, in their order
    and as they are, at the front of those it has afterwards. -/
theorem foldl_perform_safe {d : Disk} (h : d.tree.Clean) (calls : List Call) :
    (calls.foldl perform d).tree.Clean ∧ d.tree.Survives (calls.foldl perform d).tree := by
  suffices hsafe : d.Safe (calls.foldl perform d) from hsafe h
  clear h
  induction calls generalizing d with
  | nil => exact Safe.refl d
  | cons call calls ih => exact (perform_safe d call).trans ih

theorem hasText_linked {base locale content : Text} {a : Address} (h : (linked base locale).tree.HasText a content) :
    content = base ∨ content = locale := by
  obtain ⟨mode, bytes, hnode, hdecode⟩ := h
  have hbytes : bytes = Text.encode base ∨ bytes = Text.encode locale := by
    cases a with
    | nil => cases hnode
    | cons name a =>
      simp only [Tree.node?, linked, List.lookup_cons, List.lookup_nil] at hnode
      split at hnode
      · exact Or.inl (Node.file.inj (Option.some.inj hnode)).2.symm
      · split at hnode
        · cases hnode
        · split at hnode
          · exact Or.inr (Node.file.inj (Option.some.inj hnode)).2.symm
          · cases hnode
  rcases hbytes with rfl | rfl
  · rw [Text.decode_encode] at hdecode
    exact Or.inl (Except.ok.inj hdecode).symm
  · rw [Text.decode_encode] at hdecode
    exact Or.inr (Except.ok.inj hdecode).symm

/-- A file whose root declares a prefix. -/
def declaring : Text := "<resources xmlns:n=\x22u\x22/>".toList

/-- A file with an entry. -/
def filled : Text := "<resources><string name=\x22k\x22/></resources>".toList

theorem parse_declaring : parse ['b'] declaring = .ok
    { path := ['b'], text := declaring, entries := [], indent := none, rootOpen := ⟨0, 24⟩
      rootClose := .selfClosing ⟨0, 24⟩, namespaces := [⟨['n'], ['u']⟩] } := by decide +kernel

theorem parse_filled : parse ['l'] filled = .ok
    { path := ['l'], text := filled
      entries := [{ key := ⟨.string, ['k']⟩, value := [], translatable := true,
                    element := "<string name=\x22k\x22/>".toList }]
      indent := none, rootOpen := ⟨0, 11⟩, rootClose := .endTag 29, namespaces := [] } := by decide +kernel

theorem clean_linked : (linked declaring filled).tree.Clean := by
  intro a content path x hcontent hx
  rcases hasText_linked hcontent with rfl | rfl
  · obtain rfl := Except.ok.inj (hx.symm.trans (parse_of_path parse_declaring))
    exact ⟨by decide, by simp [Namespace.Plain]⟩
  · obtain rfl := Except.ok.inj (hx.symm.trans (parse_of_path parse_filled))
    exact ⟨by decide, by simp [Namespace.Plain]⟩

/-- The calls of a run on the linked files: a merge that has nothing to add, one that is made to fail, and one that
    writes. -/
theorem foldl_perform_safe_linked :
    ∃ (d failed : Disk) (report : FileReport) (calls : List Call),
      d = linked declaring filled ∧ d.tree.Clean ∧
      calls = [.failNext true, .merge ['b'] ['l'] {}, .merge ['l'] ['b'] {}, .merge ['l'] ['b'] {}] ∧
      ((calls.take 2).foldl perform d).mergeFile ['l'] ['b'] {} =
        (.error (.io { path := Temporary.shown [], kind := .injected }), failed) ∧
      failed = (calls.take 3).foldl perform d ∧ (failed.mergeFile ['l'] ['b'] {}).1 = .ok report ∧
      report.written = true ∧ report.added = [{ kind := .string, name := ['k'] }] ∧
      (calls.foldl perform d).tree.Clean ∧ d.tree.Survives (calls.foldl perform d).tree := by
  have hforth : { linked declaring filled with failNext := true }.documents ['b'] ['l'] = .ok _ :=
    documents_eq_ok_iff.mpr ⟨declaring, filled, readText_linked_base _ _, readText_linked_locale _ _,
      parse_declaring, parse_filled⟩
  have hback : (linked declaring filled).documents ['l'] ['b'] = .ok _ :=
    documents_eq_ok_iff.mpr ⟨filled, declaring, readText_linked_locale _ _, readText_linked_base _ _, parse_filled,
      parse_declaring⟩
  have hback' : { linked declaring filled with failNext := true }.documents ['l'] ['b'] = .ok _ := hback
  obtain ⟨out, -, hrender, -⟩ :=
    parse_plan_of_closed (by decide) parse_filled (by decide) parse_declaring {} true (by decide +kernel) []
  have hnothing := @mergeFile_of_unwritten _ _ _ {} _ _ hforth (Or.inl (by decide +kernel))
  have hreplace : { linked declaring filled with failNext := true }.replace ['b'] (Text.encode out) =
      (.error { path := Temporary.shown [], kind := .injected }, linked declaring filled) := by cbv
  have hfails := mergeFile_of_render hback' (by decide +kernel) rfl hrender
  rw [hreplace] at hfails
  have hwrites := mergeFile_of_replace hback (by decide +kernel) rfl hrender (by cbv)
  have hasked : ([.failNext true, .merge ['b'] ['l'] {}] : List Call).foldl perform (linked declaring filled) =
      { linked declaring filled with failNext := true } := congrArg Prod.snd hnothing
  have hfailed : ([.failNext true, .merge ['b'] ['l'] {}, .merge ['l'] ['b'] {}] : List Call).foldl perform
      (linked declaring filled) = linked declaring filled :=
    (congrArg (perform · (.merge ['l'] ['b'] {})) hasked).trans (congrArg Prod.snd hfails)
  refine ⟨_, linked declaring filled, _, _, rfl, clean_linked, rfl, ?_, hfailed.symm, congrArg Prod.fst hwrites, rfl, ?_,
    foldl_perform_safe clean_linked _⟩
  · exact (congrArg (mergeFile · ['l'] ['b'] {}) hasked).trans hfails
  · decide +kernel

end Disk
end StringResources
