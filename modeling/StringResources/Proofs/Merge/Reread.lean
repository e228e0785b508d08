import StringResources.Proofs.Merge.Rendered

/-! Reading a document again after elements were added. The root is a new element with the old children and
    the new ones; what stands around it is as it was. Main statements: `exists_outline_merged` and
    `parse_merged`. -/

namespace StringResources.Parse
open Markup

/-! ### An outline with another root -/

theorem Outline.head?_source (o : Outline) : o.source.head? = (sources o.before).head?.or (some '<') := by
  have hroot : ∃ s, o.root.source = '<' :: s := by
    cases o.root with
    | empty tag => exact ⟨_, rfl⟩
    | element tag body written closes => exact ⟨_, rfl⟩
  obtain ⟨s, hs⟩ := hroot
  rw [source, hs, List.head?_append, List.cons_append, List.head?_cons]

/-- The outline with the root replaced by an element. -/
def Outline.withRoot (o : Outline) (tag : Tag) (body : Forest) (written : Text)
    (closes : closeName written = tag.name) : Outline :=
  { o with root := .element tag body written closes }

theorem Outline.source_withRoot (o : Outline) {tag : Tag} (body : Forest) {written : Text}
    (closes : closeName written = tag.name) :
    (o.withRoot tag body written closes).source =
      sources o.before ++ ((Token.start tag).source ++
        (body.source ++ ((Token.close written).source ++ sources o.after))) := by
  simp [source, withRoot, Root.source, elementSource]

section WithRoot
variable {o : Outline} {tag : Tag} {body : Forest} {written : Text} {closes : closeName written = tag.name}

theorem Outline.Tight.withRoot (h : o.Tight) (hstart : (Token.start tag).Alone) (hbody : body.Loose)
    (hclose : (Token.close written).Alone) : (o.withRoot tag body.glue written closes).Tight := by
  obtain ⟨⟨hbefore, hgbefore⟩, -, hafter, hgafter⟩ := h.around
  have hscan := scan_sources hbody
  rw [← Forest.tokens_glue] at hscan
  obtain ⟨-, hbody, hgbody⟩ := scan_eq_iff.mp hscan
  constructor
  · simp only [tokens, Outline.withRoot, Root.tokens, List.forall_mem_append, List.forall_mem_cons]
    exact ⟨hbefore, ⟨hstart, hbody, hclose, by simp⟩, hafter⟩
  · rw [tokens, Outline.withRoot, Root.tokens, List.cons_append, List.append_assoc, List.singleton_append,
      glue_append_markup rfl, glue_append_markup rfl, hgbefore, hgbody, hgafter]

theorem Outline.Reads.withRoot {attributes attributes' : List Attribute} {entries entries' : List Entry}
    (h : o.Reads attributes entries) (hname : tag.name = rootName) (hfields : tag.allAttributes = .ok attributes')
    (hentries : body.entries? = some entries') (hdistinct : Distinct entries') :
    (o.withRoot tag body.glue written closes).Reads attributes' entries' :=
  ⟨h.before, h.after, hname, hfields, (Forest.entries?_glue body).trans hentries, hdistinct⟩

theorem Outline.source_withRoot_glue :
    (o.withRoot tag body.glue written closes).source = (o.withRoot tag body written closes).source := by
  rw [Outline.source_withRoot, Outline.source_withRoot, Forest.source_glue]

theorem Outline.unmarked_withRoot (h : Unmarked o.source) : Unmarked (o.withRoot tag body written closes).source := by
  rw [Unmarked, Outline.head?_source] at h ⊢
  exact h

end WithRoot

end StringResources.Parse

namespace StringResources.Render
open Markup Parse Text

/-! ### The new root -/

theorem not_mem_indent {w : Text} (h : ∀ c ∈ w, isIndent c = true) : '<' ∉ w ∧ '>' ∉ w :=
  ⟨fun hmem => absurd (h _ hmem) (by decide), fun hmem => absurd (h _ hmem) (by decide)⟩

theorem not_mem_newline (t : Text) : '<' ∉ newline t := by
  unfold newline
  split <;> decide

/-- What stands between the tag of a root and the lines that are added. -/
def filledHead (newline : Text) : Root → Text
  | .empty _ => newline
  | .element _ body _ _ => trimEnd isIndent body.source ++ lineEnd (trimEnd isIndent body.source) newline

/-- What stands between the lines that are added and the end tag. -/
def filledTail : Root → Text
  | .empty _ => []
  | .element _ body _ _ => indentEnd body.source

theorem filled_eq (newline added : Text) (root : Root) :
    filled newline added root = filledHead newline root ++ (added ++ filledTail root) := by
  cases root with
  | empty tag => simp [filled, filledHead, filledTail]
  | element tag body written closes => simp [filled, filledHead, filledTail, lineEnd]

/-- The children of a root and new ones between its tags, each in its place. -/
theorem exists_filled {root : Root} (hloose : root.children.Loose) {B : Forest} (hB : B.Loose) {newline : Text}
    (hn : '<' ∉ newline) :
    ∃ G : Forest, G.Loose ∧ G.source = filled newline B.source root ∧
      ∀ lead, G.placed lead = root.children.placed lead ++ B.placed (lead ++ filledHead newline root) := by
  cases root with
  | empty tag =>
    exact ⟨(Forest.text newline).append B, (Forest.loose_text hn).append hB, by simp [filled],
      fun lead => by simp [Forest.placed_append, Root.children, Forest.placed, filledHead]⟩
  | element tag body written closes =>
    have hindent : ∀ c ∈ indentEnd body.source, isIndent c = true := by
      intro c hc
      rw [indentEnd, List.mem_reverse] at hc
      exact List.mem_takeWhile_imp hc
    obtain ⟨hopen, hclose⟩ := not_mem_indent hindent
    obtain ⟨K, hK, hKsource, hKplaced⟩ :=
      Forest.exists_trimmed hloose (trimEnd_append_takeWhile isIndent body.source).symm hopen hclose
    have hline : '<' ∉ lineEnd (trimEnd isIndent body.source) newline := by
      unfold lineEnd
      split
      · simp
      · exact hn
    refine ⟨K.append ((Forest.text _).append (B.append (.text (indentEnd body.source)))),
      hK.append ((Forest.loose_text hline).append (hB.append (Forest.loose_text hopen))), ?_, fun lead => ?_⟩
    · simp [hKsource, filled, lineEnd]
    · simp [Forest.placed_append, hKplaced, hKsource, Root.children, filledHead]

theorem closed_of_alone {root : Root} (hname : root.tag.name = rootName) (hopening : root.opening.Alone) :
    quoteAfter? none root.tag.content = some none ∧ Apart root.tag.fields := by
  cases root with
  | empty tag =>
    obtain ⟨hq, htag⟩ := (Token.alone_empty_iff (plainHead_of_root hname _)).mp hopening
    have hslash : ∀ c ∈ ['/'], isUnquoted c = true := by simp [isUnquoted]
    exact ⟨quoteAfter?_of_append_unquoted hslash hq, (ofContent_eq_iff hname).mp htag⟩
  | element tag body written closes =>
    have hplain : PlainHead tag.content := by
      have := plainHead_of_root hname []
      rwa [List.append_nil] at this
    obtain ⟨hq, -, htag⟩ := (Token.alone_start_iff hplain).mp hopening
    exact ⟨hq, (ofContent_eq_iff hname).mp htag⟩

theorem retagged_eq {root : Root} (hname : root.tag.name = rootName) (hopening : root.opening.Alone)
    {ns : List Namespace} (h : ns ≠ []) : retagged ns root = (Token.start (declaring root.tag ns)).source := by
  cases root with
  | empty tag => exact startTag_declare hname ns
  | element tag body written closes =>
    have hplain : PlainHead tag.content := by
      have := plainHead_of_root hname []
      rwa [List.append_nil] at this
    obtain ⟨-, hslash, -⟩ := (Token.alone_start_iff hplain).mp hopening
    exact declare_start hname hslash h

theorem exists_retagged {root : Root} (hname : root.tag.name = rootName) (hopening : root.opening.Alone)
    {attributes : List Attribute} (hfields : root.tag.allAttributes = .ok attributes) {ns : List Namespace}
    (hns : ∀ n ∈ ns, n.WellWritten) (hlabels : (ns.map (·.label)).Nodup)
    (hnew : ∀ n ∈ ns, n.label ∉ (namespacesOf attributes).map (·.label)) (hclosed : Closed ns) :
    ∃ tag : Tag, tag.name = rootName ∧ (Token.start tag).source = retagged ns root ∧ (Token.start tag).Alone ∧
      tag.allAttributes = .ok (attributes ++ ns.map Namespace.toAttribute) := by
  have hall := (Tag.allAttributes_eq_ok_iff.mp hfields).1
  obtain ⟨hq, hapart⟩ := closed_of_alone hname hopening
  have hstart := alone_declaring hname hq hapart hall hclosed
  have hattributes := allAttributes_declaring hfields hns hlabels hnew
  by_cases h : ns = []
  · subst h
    cases root with
    | empty tag => exact ⟨declaring tag [], hname, (startTag_declare hname []).symm, hstart, hattributes⟩
    | element tag body written closes => exact ⟨tag, hname, rfl, hopening, by rwa [List.map_nil, List.append_nil]⟩
  · exact ⟨declaring root.tag ns, hname, (retagged_eq hname hopening h).symm, hstart, hattributes⟩

theorem exists_ending {root : Root} (hloose : ∀ k ∈ root.tokens, k.Loose) (hname : root.tag.name = rootName) :
    ∃ written, closeName written = rootName ∧ (Token.close written).Alone ∧
      (Token.close written).source = ending root := by
  cases root with
  | empty tag => exact ⟨rootName, by decide, loose_rootEnd, rfl⟩
  | element tag body written closes =>
    exact ⟨written, closes.trans hname, hloose (.close written) (by simp [Root.tokens]), rfl⟩

/-- The text with elements added is that of an outline that holds together: the children of its root are the old ones,
    in their places after the new tag, and then the new ones. -/
theorem exists_outline_merged {o : Outline} {attributes : List Attribute} {entries : List Entry} (htight : o.Tight)
    (hreads : o.Reads attributes entries) (hmark : Unmarked o.source) {ns : List Namespace}
    (hns : ∀ n ∈ ns, n.WellWritten) (hlabels : (ns.map (·.label)).Nodup)
    (hnew : ∀ n ∈ ns, n.label ∉ (namespacesOf attributes).map (·.label)) (hclosed : Closed ns) {B : Forest}
    (hB : B.Loose) {additions : List Entry} (hadditions : B.entries? = some additions)
    (hdistinct : Distinct (entries ++ additions)) {newline : Text} (hn : '<' ∉ newline) :
    ∃ o' : Outline, o'.source = merged o ns newline B.source ∧ Unmarked o'.source ∧ o'.Tight ∧
      o'.Reads (attributes ++ ns.map Namespace.toAttribute) (entries ++ additions) ∧
      sources o'.before ++ o'.root.opening.source = sources o.before ++ retagged ns o.root ∧
      ∀ lead, o'.root.children.placed lead =
        (o.root.children.placed lead ++ B.placed (lead ++ filledHead newline o.root)).map (Prod.map id Root.glue) := by
  obtain ⟨hopening, hchildren⟩ := htight.root
  obtain ⟨tag, hname, hsource, hstart, hfields⟩ :=
    exists_retagged hreads.name hopening hreads.fields hns hlabels hnew hclosed
  obtain ⟨G, hG, hGsource, hplaced⟩ := exists_filled hchildren hB hn
  obtain ⟨written, hcloses, hclose, hending⟩ := exists_ending htight.around.2.1 hreads.name
  have closes : closeName written = tag.name := hcloses.trans hname.symm
  have hmerged : (o.withRoot tag G written closes).source = merged o ns newline B.source := by
    rw [Outline.source_withRoot, hsource, hGsource, hending, merged]
  have hentries : G.entries? = some (entries ++ additions) := by
    have helements : G.elements = (o.root.children.append B).elements := by
      rw [← G.map_snd_placed [], hplaced, List.map_append, Forest.map_snd_placed, Forest.map_snd_placed,
        Forest.elements_append]
    rw [Forest.entries?_congr helements, Forest.entries?_append, hreads.children, hadditions]
    rfl
  refine ⟨o.withRoot tag G.glue written closes, Outline.source_withRoot_glue.trans hmerged,
    Outline.unmarked_withRoot hmark, htight.withRoot hstart hG hclose, hreads.withRoot hname hfields hentries hdistinct,
    congrArg (sources o.before ++ ·) hsource, fun lead => ?_⟩
  rw [← hplaced]
  exact G.placed_glue lead

/-- The text with elements added is read as the old document with the new entries and declarations. -/
theorem parse_merged {o : Outline} {attributes : List Attribute} {entries : List Entry} (htight : o.Tight)
    (hreads : o.Reads attributes entries) (hmark : Unmarked o.source) {ns : List Namespace}
    (hns : ∀ n ∈ ns, n.WellWritten) (hlabels : (ns.map (·.label)).Nodup)
    (hnew : ∀ n ∈ ns, n.label ∉ (namespacesOf attributes).map (·.label)) (hclosed : Closed ns) {B : Forest}
    (hB : B.Loose) {additions : List Entry} (hadditions : B.entries? = some additions)
    (hdistinct : Distinct (entries ++ additions)) {newline : Text} (hn : '<' ∉ newline) (path : Text) :
    ∃ d, parse path (merged o ns newline B.source) = .ok d ∧
      Unmarked (merged o ns newline B.source) ∧ d.entries = entries ++ additions ∧
        d.namespaces = namespacesOf attributes ++ ns := by
  obtain ⟨o', hsource, hunmarked, htight', hreads', -⟩ :=
    exists_outline_merged htight hreads hmark hns hlabels hnew hclosed hB hadditions hdistinct hn
  rw [← hsource]
  refine ⟨_, (parse_eq_ok_iff hunmarked).mpr ⟨o', _, _, rfl, htight', hreads', rfl⟩, hunmarked, rfl, ?_⟩
  simp [Outline.document]

end StringResources.Render
