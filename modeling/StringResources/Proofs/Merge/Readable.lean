import StringResources.Proofs.Merge.RoundTrip

/-! When a locale document can still be read after a merge. The declarations that are copied into the tag
    of its root have to leave all quotes closed (`Closed`). Where they do not, the tag ends too early or
    too late, and its attributes are in error, unless what follows the tag goes on as an attribute would
    (`isFieldTail`). Main statement: `parse_plan_iff_closed`. -/

namespace StringResources.Markup
open Text Attribute

/-! ### The rest of an attribute -/

/-- Whether a text after the first character of a key goes on with the key, the equals sign and the
    quotation mark before the value. -/
def isFieldTail (t : Text) : Bool :=
  let rest := (t.dropWhile isKeyChar).dropWhile isBlank
  rest.head? == some '=' && (rest.tail.dropWhile isBlank).head?.any fun q => q == '\x22' || q == '\x27'

theorem isFieldTail_field {word before after : Text} {q : Char} (hword : ∀ c ∈ word, isKeyChar c = true)
    (hbefore : AllBlank before) (hafter : AllBlank after) (hq : q = '\x22' ∨ q = '\x27') (r : Text) :
    isFieldTail (word ++ (before ++ '=' :: (after ++ q :: r))) = true := by
  have hquote : isBlank q = false := by rcases hq with rfl | rfl <;> decide
  have hstop : ∀ c ∈ (before ++ '=' :: (after ++ q :: r)).head?, isKeyChar c = false := by
    cases before with
    | nil => simp [isKeyChar]
    | cons d before =>
      rintro _ ⟨⟩
      exact isKeyChar_of_isBlank (hbefore _ List.mem_cons_self)
  have hequals : (before ++ '=' :: (after ++ q :: r)).dropWhile isBlank = '=' :: (after ++ q :: r) :=
    dropWhile_append_of_stop hbefore (by simp [isBlank])
  have hvalue : (after ++ q :: r).dropWhile isBlank = q :: r := dropWhile_append_of_stop hafter (by simp [hquote])
  rw [isFieldTail, dropWhile_append_of_stop hword hstop, hequals]
  simp [hvalue, hq]

theorem Fields.isFieldTail_append {c : Char} {t : Text} {as : List Attribute} (hc : isBlank c = false)
    (h : Fields (c :: t) as) (r : Text) : (∃ a ∈ as, a.key.head? = some c) ∧ isFieldTail (t ++ r) = true := by
  generalize hs : c :: t = s at h
  cases h with
  | nil hg =>
    have := hg c (hs ▸ List.mem_cons_self)
    rw [hc] at this
    cases this
  | @cons gap field rest a as hg hf hr =>
    obtain rfl : gap = [] := by
      cases gap with
      | nil => rfl
      | cons d gap =>
        obtain ⟨rfl, -⟩ := List.cons.inj hs
        have := hg c List.mem_cons_self
        rw [hc] at this
        cases this
    obtain ⟨d, word, before, after, q, hkey, rfl, -, hword, hbefore, hafter, hq, -⟩ := hf
    obtain ⟨rfl, ht⟩ := List.cons.inj hs
    refine ⟨⟨a, List.mem_cons_self, by rw [hkey]; rfl⟩, ?_⟩
    have htext : t ++ r = word ++ (before ++ '=' :: (after ++ q :: (a.value ++ q :: (rest ++ r)))) := by
      rw [ht, List.append_eq]
      simp
    rw [htext]
    exact isFieldTail_field hword hbefore hafter hq _

/-- A bracket after a blank is too late for an attribute to go on. -/
theorem isFieldTail_append_bracket {t : Text} (ht : ∃ c ∈ t, isBlank c = true) (r : Text) :
    isFieldTail (t ++ '<' :: r) = isFieldTail t := by
  obtain ⟨c, hc, hblank⟩ := ht
  have hword : t.dropWhile isKeyChar ≠ [] := by
    rw [ne_eq, List.dropWhile_eq_nil_iff]
    intro h
    have := h c hc
    rw [isKeyChar_of_isBlank hblank] at this
    cases this
  have hdrop : ∀ s : Text, (s ++ '<' :: r).dropWhile isBlank = s.dropWhile isBlank ++ '<' :: r := by
    intro s
    rw [List.dropWhile_append]
    split
    · next h => rw [List.isEmpty_iff.mp h]; rfl
    · rfl
  have hkey : (t ++ '<' :: r).dropWhile isKeyChar = t.dropWhile isKeyChar ++ '<' :: r := by
    rw [List.dropWhile_append, if_neg (mt List.isEmpty_iff.mp hword)]
  rw [isFieldTail, isFieldTail, hkey, hdrop]
  cases (t.dropWhile isKeyChar).dropWhile isBlank with
  | nil => simp
  | cons d s =>
    simp only [List.cons_append, List.head?_cons, List.tail_cons, hdrop]
    cases s.dropWhile isBlank <;> simp

theorem isFieldTail_append_blanks {g : Text} (hg : AllBlank g) (t : Text) : isFieldTail (t ++ g) = isFieldTail t := by
  have hnil : g.dropWhile isBlank = [] := List.dropWhile_eq_nil_iff.mpr hg
  have hkey : (t ++ g).dropWhile isKeyChar = t.dropWhile isKeyChar ++ g := by
    rw [List.dropWhile_append]
    split
    · next h =>
      rw [List.isEmpty_iff.mp h]
      exact @dropWhile_append_of_stop isKeyChar [] g (by simp) fun c hc =>
        isKeyChar_of_isBlank (hg c (List.mem_of_mem_head? hc))
    · rfl
  have hdrop : ∀ s : Text, (s ++ g).dropWhile isBlank =
      if s.dropWhile isBlank = [] then [] else s.dropWhile isBlank ++ g := by
    intro s
    rw [List.dropWhile_append, hnil]
    simp
  rw [isFieldTail, isFieldTail, hkey, hdrop]
  cases (t.dropWhile isKeyChar).dropWhile isBlank with
  | nil => simp
  | cons d s =>
    simp only [List.cons_append, List.head?_cons, List.tail_cons, hdrop, reduceCtorEq, ↓reduceIte]
    cases s.dropWhile isBlank <;> simp

end StringResources.Markup

namespace StringResources.Parse
open Markup

/-! ### The tag that opens a root -/

theorem Outline.Reads.find?_tokens {o : Outline} {attributes : List Attribute} {entries : List Entry}
    (h : o.Reads attributes entries) : o.tokens.find? (·.tag?.isSome) = some o.root.opening := by
  have hbefore : o.before.find? (·.tag?.isSome) = none := List.find?_eq_none.mpr fun k hk => by
    simp [(h.before k hk).tag?]
  rw [Outline.tokens, List.find?_append, hbefore, Option.none_or]
  cases o.root <;> rfl

/-- A tag after what stood before the root of a document opens the root of the document that is read. -/
theorem Outline.exists_next {o o' : Outline} {attributes attributes' : List Attribute} {entries entries' : List Entry}
    (htight : o.Tight) (hreads : o.Reads attributes entries) (htight' : o'.Tight)
    (hreads' : o'.Reads attributes' entries') {t : Text} (h : o'.source = sources o.before ++ '<' :: t)
    (htag : ∀ k r, next ('<' :: t) = .ok (k, r) → k.tag?.isSome = true) :
    ∃ r, next ('<' :: t) = .ok (o'.root.opening, r) := by
  obtain ⟨⟨hloose, hglue⟩, -⟩ := htight.around
  have hscan := scan_source_iff.mpr htight'
  rw [h, scan_sources_append hloose (by simp), hglue] at hscan
  obtain ⟨htokens, hfault⟩ := Scan.mk.inj hscan
  cases hnext : next ('<' :: t) with
  | error fault =>
    rw [scan_of_error hnext] at hfault
    cases hfault
  | ok x =>
    obtain ⟨k, r⟩ := x
    have hbefore : o.before.find? (·.tag?.isSome) = none := List.find?_eq_none.mpr fun k hk => by
      simp [(hreads.before k hk).tag?]
    have hfind := hreads'.find?_tokens
    rw [← htokens, scan_of_ok (List.cons_ne_nil _ _) hnext, List.find?_append, hbefore, Option.none_or] at hfind
    have hk : ((scan r).cons k).tokens.find? (·.tag?.isSome) = some k :=
      List.find?_cons_of_pos (htag k r hnext)
    rw [hk] at hfind
    exact ⟨r, by rw [Option.some.inj hfind]⟩

end StringResources.Parse

namespace StringResources.Render
open Markup Namespace Parse Text

/-! ### Where the new tag ends -/

/-- Fields up to a bracket hold all declarations that stand before a bracket, and may go on after those. -/
theorem exists_append_of_fields {ns : List Namespace} (hns : ∀ n ∈ ns, n.WellWritten)
    (hlabels : (ns.map (·.label)).Nodup) {w slash r R : Text} (ht : written ns ++ '>' :: R = w ++ (slash ++ '>' :: r))
    (hslash : slash = [] ∨ slash = ['/']) {as : List Attribute} (hfields : Fields w as)
    (hkeys : (as.map (·.key)).Nodup) :
    ∃ u bs, w = written ns ++ u ∧ '>' :: R = u ++ (slash ++ '>' :: r) ∧ as = ns.map toAttribute ++ bs ∧ Fields u bs := by
  have hwritten := fields_written hns
  have hnskeys := nodup_keys_toAttribute hlabels
  have hgoes : ∀ u, w = written ns ++ u → ∃ bs, as = ns.map toAttribute ++ bs ∧ Fields u bs := fun u hu =>
    hwritten.of_append hnskeys (hu ▸ hfields) hkeys
  rcases List.append_eq_append_iff.mp ht with ⟨u, hw, hu⟩ | ⟨u, hu, hr⟩
  · obtain ⟨bs, has, hbs⟩ := hgoes u hw
    exact ⟨u, bs, hw, hu, has, hbs⟩
  · cases u with
    | nil =>
      rw [List.append_nil] at hu
      obtain ⟨bs, has, hbs⟩ := hgoes [] (by rw [hu, List.append_nil])
      exact ⟨[], bs, by rw [hu, List.append_nil], hr.symm, has, hbs⟩
    | cons c u =>
      -- A declaration would have to begin with the bracket or the slash.
      rw [hu] at hwritten
      obtain ⟨bs, hbs, hrest⟩ := hfields.of_append hkeys hwritten hnskeys
      have hc : c = '>' ∨ c = '/' := by
        rcases hslash with rfl | rfl
        · exact Or.inl (List.cons.inj hr).1.symm
        · exact Or.inr (List.cons.inj hr).1.symm
      have hblank : isBlank c = false := by rcases hc with rfl | rfl <;> decide
      obtain ⟨a, ha, hkey⟩ := (hrest.isFieldTail_append hblank []).1
      obtain ⟨n, -, rfl⟩ := List.mem_map.mp (hbs ▸ List.mem_append_right as ha)
      obtain rfl : 'x' = c := Option.some.inj hkey
      rcases hc with hc | hc <;> cases hc

/-- If a document is read whose root has more fields than before, the fields of its root end in what was added
    or after it. -/
theorem exists_fields_of_parse {o : Outline} {attributes : List Attribute} {entries : List Entry} (htight : o.Tight)
    (hreads : o.Reads attributes entries) (hmark : Unmarked o.source) {fields : Text}
    (hq : quoteAfter? none (rootName ++ fields) = some none) (hapart : Apart fields) {s path : Text} {d : Document}
    (h : parse path (sources o.before ++ '<' :: (rootName ++ fields ++ ' ' :: s)) = .ok d) :
    ∃ w slash r as, ' ' :: s = w ++ (slash ++ '>' :: r) ∧ quoteAfter? none (w ++ slash) = some none ∧
      (slash = [] ∨ slash = ['/']) ∧ Fields (fields ++ w) as ∧ (as.map (·.key)).Nodup ∧
        d.namespaces = namespacesOf as := by
  have hunmarked : Unmarked (sources o.before ++ '<' :: (rootName ++ fields ++ ' ' :: s)) := by
    rw [Unmarked, Outline.head?_source] at hmark
    rwa [Unmarked, List.head?_append, List.head?_cons]
  have hne : rootName ++ fields ≠ [] := List.append_ne_nil_of_left_ne_nil (by decide) fields
  have hplain : PlainHead (rootName ++ fields) := by
    have := @plainHead_of_root ⟨rootName, fields⟩ rfl []
    rwa [List.append_nil] at this
  have htag := fun k r => @exists_tag_of_next (rootName ++ fields) (' ' :: s) r k hne hplain hq (by simp)
  obtain ⟨o', attributes', entries', hsource, htight', hreads', rfl⟩ := (parse_eq_ok_iff hunmarked).mp h
  obtain ⟨r, hnext⟩ := Outline.exists_next htight hreads htight' hreads' hsource fun k r hk => by
    obtain ⟨w, slash, -, -, -, hk⟩ := htag k r hk
    rw [hk]
    rfl
  obtain ⟨w, slash, ht, hw, hslash, hk⟩ := htag _ r hnext
  have hroot : o'.root.tag = ⟨rootName, fields ++ w⟩ := by
    have hopening : o'.root.opening.tag? = some o'.root.tag := by cases o'.root <;> rfl
    have hapart' : Apart (fields ++ w) := apart_append hapart fun c hc => by
      cases w with
      | nil => cases hc
      | cons d w =>
        obtain rfl := Option.some.inj hc
        obtain ⟨rfl, -⟩ := List.cons.inj ht
        rfl
    rw [hopening, Option.some.injEq, List.append_assoc] at hk
    exact hk.trans ((@ofContent_eq_iff ⟨rootName, fields ++ w⟩ rfl).mpr hapart')
  obtain ⟨hfields, hkeys⟩ := Tag.allAttributes_eq_ok_iff.mp hreads'.fields
  rw [hroot] at hfields
  exact ⟨w, slash, r, attributes', ht, hw, hslash, hfields, hkeys, rfl⟩

/-- If the document with elements added is read, the tag of its root has the old fields and the declarations, and may
    have more fields where what follows goes on with them. -/
theorem exists_rest_of_parse_merged {o : Outline} {attributes : List Attribute} {entries : List Entry} (htight : o.Tight)
    (hreads : o.Reads attributes entries) (hmark : Unmarked o.source) {ns : List Namespace} (hne : ns ≠ [])
    (hns : ∀ n ∈ ns, n.WellWritten) (hlabels : (ns.map (·.label)).Nodup) {newline added path : Text} {d : Document}
    (h : parse path (merged o ns newline added) = .ok d) :
    ∃ u slash r bs, '>' :: (filled newline added o.root ++ (ending o.root ++ sources o.after)) = u ++ (slash ++ '>' :: r) ∧
      quoteAfter? none (written ns ++ u) = some none ∧ Fields u bs ∧
        d.namespaces = namespacesOf attributes ++ ns ++ namespacesOf bs := by
  obtain ⟨hopening, -⟩ := htight.root
  obtain ⟨hq, hapart⟩ := closed_of_alone hreads.name hopening
  obtain ⟨hold, holdkeys⟩ := Tag.allAttributes_eq_ok_iff.mp hreads.fields
  obtain ⟨s, hs⟩ := exists_written hne
  have hquote := quoteAfter?_trimmed hq hold
  have hmerged : merged o ns newline added = sources o.before ++
      '<' :: (rootName ++ trimEndSpaces o.root.tag.fields ++ ' ' :: 'x' :: (s ++
        '>' :: (filled newline added o.root ++ (ending o.root ++ sources o.after)))) := by
    rw [merged, retagged_eq hreads.name hopening hne, Token.source, declaring, Tag.content, hreads.name, hs]
    simp
  rw [hreads.name] at hquote
  rw [hmerged] at h
  obtain ⟨w, slash, r, as, ht, hw, hslash, hfields, hkeys, hnamespaces⟩ :=
    exists_fields_of_parse htight hreads hmark hquote (apart_trimEndSpaces hapart) h
  rw [← List.cons_append, ← List.cons_append, ← hs] at ht
  obtain ⟨cs, rfl, hcs⟩ := hold.trim.1.of_append holdkeys hfields hkeys
  rw [List.map_append] at hkeys
  obtain ⟨u, bs, rfl, hu, rfl, hbs⟩ :=
    exists_append_of_fields hns hlabels ht hslash hcs (List.Nodup.of_append_right hkeys)
  have hunquoted : ∀ c ∈ slash, isUnquoted c = true := by rcases hslash with rfl | rfl <;> simp [isUnquoted]
  exact ⟨u, slash, r, bs, hu, quoteAfter?_of_append_unquoted hunquoted hw, hbs, by simp [hnamespaces]⟩

theorem closed_of_parse_merged {o : Outline} {attributes : List Attribute} {entries : List Entry} (htight : o.Tight)
    (hreads : o.Reads attributes entries) (hmark : Unmarked o.source) {ns : List Namespace}
    (hns : ∀ n ∈ ns, n.WellWritten) (hlabels : (ns.map (·.label)).Nodup) {newline added path : Text} {d : Document}
    (h : parse path (merged o ns newline added) = .ok d)
    (htail : isFieldTail (filled newline added o.root ++ (ending o.root ++ sources o.after)) = false) : Closed ns := by
  by_cases hne : ns = []
  · rw [hne]
    rfl
  · obtain ⟨u, slash, r, bs, hu, hclosed, hbs, -⟩ := exists_rest_of_parse_merged htight hreads hmark hne hns hlabels h
    cases u with
    | nil => rwa [List.append_nil] at hclosed
    | cons c u =>
      -- The bracket of the tag stands in a key, so an attribute goes on after it.
      obtain ⟨rfl, hrest⟩ := List.cons.inj hu
      have hgoes := (hbs.isFieldTail_append (by decide) (slash ++ '>' :: r)).2
      rw [List.append_eq] at hrest
      rw [← hrest, htail] at hgoes
      cases hgoes

/-! ### What follows the new tag -/

/-- Lines that are added begin with an indentation and a tag or comment of some length. -/
theorem exists_block_bracket {elements : List Text} (hne : elements ≠ [])
    (h : ∀ e ∈ elements, ∃ (kind : Kind) (s : Text), e = '<' :: (kind.tag ++ s)) (indent newline : Text) (mark : Bool) :
    ∃ c d r, block indent newline mark elements = indent ++ '<' :: c :: d :: r ∧ c ≠ '\n' ∧ d ≠ '\n' := by
  obtain ⟨e, es, rfl⟩ := List.exists_cons_of_ne_nil hne
  obtain ⟨kind, s, rfl⟩ := h e List.mem_cons_self
  have hcons : block indent newline mark (('<' :: (kind.tag ++ s)) :: es) =
      lines indent newline mark ('<' :: (kind.tag ++ s)) ++ block indent newline mark es := rfl
  rw [hcons, lines]
  cases mark with
  | false =>
    obtain ⟨c, d, u, htag, hc, hd⟩ : ∃ c d u, kind.tag = c :: d :: u ∧ c ≠ '\n' ∧ d ≠ '\n' := by
      cases kind <;> exact ⟨_, _, _, rfl, by decide, by decide⟩
    exact ⟨c, d, u ++ (s ++ (newline ++ block indent newline false es)), by simp [htag], hc, hd⟩
  | true =>
    obtain ⟨u, hmarker⟩ : ∃ u, marker = '<' :: '!' :: '-' :: u := ⟨_, rfl⟩
    exact ⟨'!', '-', u ++ (newline ++ (indent ++ ('<' :: (kind.tag ++ s) ++ (newline ++ block indent newline true es)))),
      by simp [hmarker], by decide, by decide⟩

theorem isBlank_of_isIndent {c : Char} (h : isIndent c = true) : isBlank c = true := by
  simp only [isIndent, Bool.or_eq_true, beq_iff_eq] at h
  rcases h with rfl | rfl <;> decide

theorem newline_blank (t : Text) : AllBlank (newline t) ∧ newline t ≠ [] := by
  unfold newline
  split <;> simp [AllBlank, isBlank]

theorem isFieldTail_filled {indent newline added r : Text} (hi : AllBlank indent) (hn : AllBlank newline)
    (hne : newline ≠ []) (hadded : added = indent ++ '<' :: r) (root : Root) (rest : Text) :
    isFieldTail (filled newline added root ++ rest) = isFieldTail root.children.source := by
  have hline : ∃ c ∈ newline, isBlank c = true := by
    obtain ⟨c, s, rfl⟩ := List.exists_cons_of_ne_nil hne
    exact ⟨c, List.mem_cons_self, hn c List.mem_cons_self⟩
  have hgap : ∀ s g u : Text, AllBlank g → (∃ c ∈ s ++ g, isBlank c = true) →
      isFieldTail (s ++ (g ++ '<' :: u)) = isFieldTail s := by
    intro s g u hg hblank
    rw [← List.append_assoc, isFieldTail_append_bracket hblank, isFieldTail_append_blanks hg]
  cases root with
  | empty tag =>
    have hfilled : filled newline added (.empty tag) ++ rest = [] ++ ((newline ++ indent) ++ '<' :: (r ++ rest)) := by
      simp [filled, hadded]
    obtain ⟨c, hc, hblank⟩ := hline
    rw [hfilled, hgap _ _ _ (hn.append hi) ⟨c, by simp [hc], hblank⟩]
    rfl
  | element tag body written closes =>
    obtain ⟨w, hbody, hw⟩ := exists_trimEnd isIndent body.source
    have hbody' : isFieldTail body.source = isFieldTail (trimEnd isIndent body.source) := by
      conv_lhs => rw [hbody]
      exact isFieldTail_append_blanks (fun c hc => isBlank_of_isIndent (hw c hc)) _
    rw [Root.children, hbody', filled]
    split
    · next hlast =>
      have hmem := List.mem_of_getLast? hlast
      rw [hadded, List.nil_append, List.append_assoc, List.append_assoc, List.append_assoc]
      exact hgap _ _ _ hi ⟨'\n', List.mem_append_left _ hmem, rfl⟩
    · obtain ⟨c, hc, hblank⟩ := hline
      rw [hadded, List.append_assoc, List.append_assoc, List.append_assoc, List.append_assoc,
        ← List.append_assoc newline]
      exact hgap _ _ _ (hn.append hi) ⟨c, by simp [hc], hblank⟩

end StringResources.Render

namespace StringResources
open Markup Parse Render Text

/-- What stands between the tags of the root of a document. -/
def Document.body? (d : Document) : Option Text :=
  match d.rootClose with
  | .endTag start => Text.slice? d.text d.rootOpen.stop start
  | .selfClosing _ => some []

theorem body?_document {o : Outline} {path : Text} {attributes : List Attribute} {entries : List Entry} :
    (o.document path attributes entries).body? = some o.root.children.source := by
  cases hroot : o.root with
  | empty tag => simp [Document.body?, Outline.document, hroot, Root.close, Root.children]
  | element tag body written closes =>
    rw [Document.body?, Outline.document, hroot, Root.close, Root.children]
    refine slice?_of_eq (sources o.before ++ (Token.start tag).source)
      ((Token.close written).source ++ sources o.after) ?_ rfl ?_
    · rw [Outline.source, hroot, Root.source, elementSource]
      simp
    · rw [List.append_assoc]

/-- The declarations of a base document that a plan copies into a locale document. -/
def MergePlan.copied (plan : MergePlan) (base locale : Document) : List Namespace :=
  Labels.missing locale (plan.additions.map (·.element)) base.namespaces

theorem exists_render {path t : Text} (ht : Unmarked t) {locale : Document} (hlocale : parse path t = .ok locale)
    (elements : List Text) (style : Style) : ∃ out, render locale elements style = some out := by
  by_cases hnil : elements = []
  · exact ⟨locale.text, by rw [render, if_pos hnil]⟩
  · obtain ⟨o, attributes, -, -, -, hd⟩ := exists_outline_of_parse ht hlocale
    have hrender := @render_document o attributes locale.entries path elements hnil style
    rw [← hd] at hrender
    exact ⟨_, hrender⟩

theorem closed_of_parse_render {path t : Text} (ht : Unmarked t) {locale : Document}
    (hlocale : parse path t = .ok locale) {additions : List Entry} (hread : ∀ e ∈ additions, e.Read) {style : Style}
    (hfallback : ∀ i ∈ style.fallbackIndent, ∀ c ∈ i, isIndent c = true) (hns : ∀ n ∈ style.namespaces, n.WellWritten)
    (hlabels : (style.namespaces.map (·.label)).Nodup) (hbody : ∀ body ∈ locale.body?, isFieldTail body = false)
    {out : Text} (hrender : render locale (additions.map (·.element)) style = some out) {path' : Text}
    {merged : Document} (hmerged : parse path' out = .ok merged) :
    Closed (Labels.missing locale (additions.map (·.element)) style.namespaces) := by
  by_cases hnil : additions = []
  · rw [hnil, List.map_nil, missing_nil]
    rfl
  · have hne : additions.map (·.element) ≠ [] := by simpa using hnil
    have hbegin : ∀ e ∈ additions.map (·.element), ∃ (kind : Kind) (s : Text), e = '<' :: (kind.tag ++ s) := by
      intro e he
      obtain ⟨a, ha, rfl⟩ := List.mem_map.mp he
      exact (hread a ha).exists_forest.1
    obtain ⟨o, attributes, rfl, htight, hreads, hd⟩ := exists_outline_of_parse ht hlocale
    have hsub := (@missing_labels locale (additions.map (·.element)) style.namespaces).1
    have hindent := isIndent_indent hlocale hfallback
    obtain ⟨hblank, hnonempty⟩ := newline_blank o.source
    obtain ⟨c, d, r, hr, -⟩ := exists_block_bracket hne hbegin (indent locale style) (newline o.source) style.mark
    have hsome := @render_document o attributes locale.entries path (additions.map (·.element)) hne style
    rw [← hd, hrender] at hsome
    rw [Option.some.inj hsome] at hmerged
    refine closed_of_parse_merged htight hreads ht (fun n hn => hns n (hsub.subset hn))
      (hlabels.sublist (hsub.map _)) hmerged ?_
    rw [isFieldTail_filled (fun c hc => isBlank_of_isIndent (hindent c hc)) hblank hnonempty hr]
    refine hbody _ ?_
    rw [hd]
    exact body?_document

/-- A locale document can be read after a merge if the declarations that are copied leave all quotes closed,
    and only then, unless what stands in its root goes on as an attribute of the root's tag would. -/
theorem parse_plan_iff_closed {basePath baseText path t : Text} {base locale : Document} (hbaseText : Unmarked baseText)
    (hbase : parse basePath baseText = .ok base) (ht : Unmarked t) (hlocale : parse path t = .ok locale)
    (options : MergeOptions) (path' : Text) :
    ∃ out, (MergePlan.compute base locale options).render base locale options.markUntranslated = some out ∧
      (Closed ((MergePlan.compute base locale options).copied base locale) → ∃ merged, parse path' out = .ok merged) ∧
      ((∀ body ∈ locale.body?, isFieldTail body = false) → ((∃ merged, parse path' out = .ok merged) ↔
        Closed ((MergePlan.compute base locale options).copied base locale))) := by
  obtain ⟨out, hrender⟩ := exists_render ht hlocale ((MergePlan.compute base locale options).additions.map (·.element))
    { mark := options.markUntranslated, fallbackIndent := base.indent, namespaces := base.namespaces }
  have hread : Closed ((MergePlan.compute base locale options).copied base locale) →
      ∃ merged, parse path' out = .ok merged := by
    intro hclosed
    obtain ⟨out', merged, hrender', -, hmerged, -⟩ :=
      parse_plan_of_closed hbaseText hbase ht hlocale options options.markUntranslated hclosed path'
    obtain rfl : out' = out := Option.some.inj (hrender'.symm.trans hrender)
    exact ⟨merged, hmerged⟩
  refine ⟨out, hrender, hread, fun hbody => ⟨?_, hread⟩⟩
  rintro ⟨merged, hmerged⟩
  obtain ⟨hns, hlabels⟩ := wellWritten_of_parse hbase
  have hadditions : ∀ e ∈ (MergePlan.compute base locale options).additions, e.Read := fun e he =>
    ⟨basePath, baseText, base, hbaseText, hbase, MergePlan.additions_sublist.subset he⟩
  exact closed_of_parse_render ht hlocale hadditions (fun i hi => isIndent_of_parse hbase hi) hns hlabels
    hbody hrender hmerged

theorem parse_root_alone : parse [] "<resources/>".toList = .ok
    { path := [], text := "<resources/>".toList, entries := [], indent := none, rootOpen := ⟨0, 12⟩
      rootClose := .selfClosing ⟨0, 12⟩, namespaces := [] } := by decide +kernel

/-- Quotation marks in a label do no harm where they come in pairs. -/
theorem parse_plan_paired_quotes :
    ∃ base locale out merged,
      parse [] "<resources xmlns:a'b'=\x22c\x22><string name=\x22k\x22 a'b':x=\x221\x22>v</string></resources>".toList =
        .ok base ∧ parse [] "<resources/>".toList = .ok locale ∧
      (MergePlan.compute base locale {}).render base locale true = some out ∧ parse [] out = .ok merged := by
  have hbase :
      parse [] "<resources xmlns:a'b'=\x22c\x22><string name=\x22k\x22 a'b':x=\x221\x22>v</string></resources>".toList = .ok
      { path := []
        text := "<resources xmlns:a'b'=\x22c\x22><string name=\x22k\x22 a'b':x=\x221\x22>v</string></resources>".toList
        entries := [{ key := ⟨.string, ['k']⟩, value := ['v'], translatable := true,
                      element := "<string name=\x22k\x22 a'b':x=\x221\x22>v</string>".toList }]
        indent := none, rootOpen := ⟨0, 26⟩, rootClose := .endTag 64,
        namespaces := [{ label := "a'b'".toList, uri := ['c'] }] } := by decide +kernel
  obtain ⟨out, hrender, hread, -⟩ := parse_plan_iff_closed (by decide) hbase (by decide) parse_root_alone {} []
  obtain ⟨merged, hmerged⟩ := hread (by decide +kernel)
  exact ⟨_, _, out, merged, hbase, parse_root_alone, hrender, hmerged⟩

/-- Text in the root that goes on as an attribute can close the quotes that the declarations leave open. -/
example : isFieldTail "<!--='y' k'=\x22v\x22>-->".toList = true ∧ ¬ Closed [{ label := "a'b".toList, uri := ['c'] }] ∧
    (parse [] "<resources xmlns:a'b=\x22c\x22><!--='y' k'=\x22v\x22>-->\n</resources>".toList).isOk = true := by
  decide +kernel

/-- One quotation mark in a label is read where another in the tag closes the quotes. Copied into a tag
    without the other, it leaves a tag that does not end. -/
theorem parse_plan_open_quote :
    ∃ base locale out,
      parse [] "<resources xmlns:a'b=\x22c\x22 '=\x22\x22><string name=\x22k\x22 a'b:x=\x22\x22 '=\x22\x22/></resources>".toList =
        .ok base ∧ parse [] "<resources/>".toList = .ok locale ∧
      (MergePlan.compute base locale { markUntranslated := false }).render base locale false = some out ∧
      ∀ merged, parse [] out ≠ .ok merged := by
  have hbase :
      parse [] "<resources xmlns:a'b=\x22c\x22 '=\x22\x22><string name=\x22k\x22 a'b:x=\x22\x22 '=\x22\x22/></resources>".toList =
        .ok
      { path := []
        text := "<resources xmlns:a'b=\x22c\x22 '=\x22\x22><string name=\x22k\x22 a'b:x=\x22\x22 '=\x22\x22/></resources>".toList
        entries := [{ key := ⟨.string, ['k']⟩, value := [], translatable := true,
                      element := "<string name=\x22k\x22 a'b:x=\x22\x22 '=\x22\x22/>".toList }]
        indent := none, rootOpen := ⟨0, 30⟩, rootClose := .endTag 62,
        namespaces := [{ label := "a'b".toList, uri := ['c'] }] } := by decide +kernel
  have hfault : (parse []
      "<resources xmlns:a'b=\x22c\x22>\n    <string name=\x22k\x22 a'b:x=\x22\x22 '=\x22\x22/>\n</resources>".toList).isOk =
        false := by decide +kernel
  refine ⟨_, _, "<resources xmlns:a'b=\x22c\x22>\n    <string name=\x22k\x22 a'b:x=\x22\x22 '=\x22\x22/>\n</resources>".toList,
    hbase, parse_root_alone, by decide +kernel, fun merged hmerged => ?_⟩
  rw [hmerged] at hfault
  cases hfault

end StringResources
