import StringResources.Proofs.Resource.Steps

/-! A document as an outline: what stands before the root, the root with its children, and what stands
    after it. Main statement: `parse_eq_ok_iff`, a text is read exactly if it is the text of an outline
    that holds together, and the outline gives all there is in the document. -/

namespace StringResources

/-- A text without a byte order mark at its start. -/
def Unmarked (t : Text) : Prop := t.head? ≠ some Text.byteOrderMark

instance (t : Text) : Decidable (Unmarked t) := inferInstanceAs (Decidable (t.head? ≠ some Text.byteOrderMark))

end StringResources

namespace StringResources.Markup

/-- A token that may stand outside the root: characters have to be white space after byte order marks. -/
def Token.Outside : Token → Prop
  | .text content => (content.dropWhile (· == Text.byteOrderMark)).all Text.isSpace = true
  | .comment _ => True
  | .instruction _ => True
  | .doctype _ => True
  | _ => False

theorem Token.Outside.isLeaf {k : Token} (h : k.Outside) : k.isLeaf = true := by
  cases k <;> first | rfl | exact h.elim

theorem Token.Outside.tag? {k : Token} (h : k.Outside) : k.tag? = none := by
  cases k <;> first | rfl | exact h.elim

theorem exists_forest_of_isLeaf {ks : List Token} (h : ∀ k ∈ ks, k.isLeaf = true) : ∃ F : Forest, F.tokens = ks := by
  induction ks with
  | nil => exact ⟨.nil, rfl⟩
  | cons k ks ih =>
    rw [List.forall_mem_cons] at h
    obtain ⟨F, hF⟩ := ih h.2
    exact ⟨.leaf k h.1 F, congrArg (k :: ·) hF⟩

end StringResources.Markup

namespace StringResources.Parse
open Markup

/-! ### Outlines -/

inductive Root where
  | empty (tag : Tag)
  | element (tag : Tag) (body : Forest) (written : Text) (closes : closeName written = tag.name)

namespace Root

def tag : Root → Tag
  | empty tag => tag
  | element tag _ _ _ => tag

def opening : Root → Token
  | empty tag => .empty tag
  | element tag _ _ _ => .start tag

def tokens : Root → List Token
  | empty tag => [.empty tag]
  | element tag body written _ => .start tag :: (body.tokens ++ [.close written])

def source : Root → Text
  | empty tag => (Token.empty tag).source
  | element tag body written _ => elementSource tag body written

theorem sources_tokens (root : Root) : sources root.tokens = root.source := by
  cases root with
  | empty tag => exact List.append_nil _
  | element tag body written closes => simp [tokens, source, elementSource, Forest.source]

def children : Root → Forest
  | empty _ => .nil
  | element _ body _ _ => body

theorem exists_source_eq (root : Root) :
    ∃ closing, root.source = root.opening.source ++ (root.children.source ++ closing) := by
  cases root with
  | empty tag => exact ⟨[], (List.append_nil _).symm⟩
  | element tag body written closes => exact ⟨(Token.close written).source, rfl⟩

/-- How a root after `before` ends. -/
def close (before : Text) : Root → RootClose
  | empty tag => .selfClosing (spanAfter before (Token.empty tag).source)
  | element tag body _ _ => .endTag (before ++ ((Token.start tag).source ++ body.source)).size

end Root

/-- A document in its parts. -/
structure Outline where
  before : List Token
  root : Root
  after : List Token

namespace Outline

def tokens (o : Outline) : List Token := o.before ++ (o.root.tokens ++ o.after)

def source (o : Outline) : Text := sources o.before ++ (o.root.source ++ sources o.after)

theorem sources_tokens (o : Outline) : sources o.tokens = o.source := by
  rw [tokens, sources_append, sources_append, Root.sources_tokens, source]

/-- What stands outside the root may stand there, and the root is a root with the given attributes whose
    children make the given entries. -/
structure Reads (o : Outline) (attributes : List Attribute) (entries : List Entry) : Prop where
  before : ∀ k ∈ o.before, k.Outside
  after : ∀ k ∈ o.after, k.Outside
  name : o.root.tag.name = rootName
  fields : o.root.tag.allAttributes = .ok attributes
  children : o.root.children.entries? = some entries
  distinct : Distinct entries

/-- The tokens of an outline can be put side by side, and no neighbours among them are characters. -/
def Tight (o : Outline) : Prop := (∀ k ∈ o.tokens, k.Loose) ∧ glue o.tokens = o.tokens

theorem scan_source_iff {o : Outline} : scan o.source = { tokens := o.tokens, fault := none } ↔ o.Tight := by
  rw [scan_eq_iff, sources_tokens]
  exact and_iff_right rfl

def document (o : Outline) (path : Text) (attributes : List Attribute) (entries : List Entry) : Document where
  path := path
  text := o.source
  entries := entries
  indent := o.root.children.indent? (sources o.before ++ o.root.opening.source)
  rootOpen := spanAfter (sources o.before) o.root.opening.source
  rootClose := o.root.close (sources o.before)
  namespaces := namespacesOf attributes

end Outline

/-- No neighbours among the tokens before a root, in it, between its tags or after it are characters if there are none
    in the whole. -/
theorem Root.glue_eq_of_append {root : Root} {before after : List Token}
    (h : glue (before ++ (root.tokens ++ after)) = before ++ (root.tokens ++ after)) :
    glue before = before ∧ glue root.tokens = root.tokens ∧ glue root.children.tokens = root.children.tokens ∧
      glue after = after := by
  cases root with
  | empty tag =>
    obtain ⟨hbefore, hafter⟩ := Markup.glue_eq_of_append rfl h
    exact ⟨hbefore, rfl, rfl, hafter⟩
  | element tag body written closes =>
    rw [tokens, List.cons_append, List.append_assoc, List.singleton_append] at h
    obtain ⟨hbefore, hrest⟩ := Markup.glue_eq_of_append rfl h
    obtain ⟨hbody, hafter⟩ := Markup.glue_eq_of_append rfl hrest
    refine ⟨hbefore, ?_, hbody, hafter⟩
    rw [tokens, glue_cons_of_markup rfl, glue_append_markup rfl, hbody]
    rfl

theorem Outline.Tight.around {o : Outline} (h : o.Tight) :
    ((∀ k ∈ o.before, k.Loose) ∧ glue o.before = o.before) ∧ (∀ k ∈ o.root.tokens, k.Loose) ∧
      ((∀ k ∈ o.after, k.Loose) ∧ glue o.after = o.after) := by
  obtain ⟨hloose, hglue⟩ := h
  have hloose : (∀ k ∈ o.before, k.Loose) ∧ (∀ k ∈ o.root.tokens, k.Loose) ∧ ∀ k ∈ o.after, k.Loose := by
    simpa only [tokens, List.forall_mem_append] using hloose
  obtain ⟨hbefore, -, -, hafter⟩ := Root.glue_eq_of_append hglue
  exact ⟨⟨hloose.1, hbefore⟩, hloose.2.1, hloose.2.2, hafter⟩

theorem Outline.Tight.root {o : Outline} (h : o.Tight) : o.root.opening.Alone ∧ o.root.children.Loose := by
  obtain ⟨-, hroot, -⟩ := h.around
  cases hr : o.root with
  | empty tag =>
    rw [hr] at hroot
    exact ⟨hroot (.empty tag) List.mem_cons_self, Forest.loose_nil⟩
  | element tag body written closes =>
    rw [hr] at hroot
    refine ⟨hroot (.start tag) List.mem_cons_self, fun k hk => hroot k ?_⟩
    exact List.mem_cons_of_mem _ (List.mem_append_left _ hk)

/-! ### Outside the root -/

theorem step_outside_iff {t before after : Text} {s s' : State} {k : Token} (ht : t = before ++ (k.source ++ after))
    (ho : s.offset = before.size) (hd : s.depth = 0) (hk : k.tag? = none) :
    step t s k = .ok s' ↔ k.Outside ∧ s' = { s with offset := (before ++ k.source).size } := by
  obtain ⟨offset, depth, pending, entries, indent, rootOpen, rootClose, namespaces⟩ := s
  dsimp only at ho hd
  subst ho hd
  have hspan : sliceOf t { start := before.size, stop := before.size + k.size } = .ok k.source := by
    have := sliceOf_spanAfter ht
    rwa [spanAfter, Text.size_append] at this
  have htext : onText t ⟨before.size + k.size, 0, pending, entries, indent, rootOpen, rootClose, namespaces⟩
      ⟨before.size, before.size + k.size⟩ = .ok s' ↔
      (k.source.dropWhile (· == Text.byteOrderMark)).all Text.isSpace = true ∧
        s' = ⟨(before ++ k.source).size, 0, pending, entries, indent, rootOpen, rootClose, namespaces⟩ := by
    simp only [onText, if_pos, hspan, bind, Except.bind, Text.size_append]
    split
    · next h => simp [h, Token.size, eq_comm]
    · next h => simp [h]
  cases k with
  | text content => exact htext
  | cdata content =>
    refine htext.trans ?_
    simp [Token.Outside, Token.source, Text.byteOrderMark, Text.isSpace, Text.spaceRanges]
  | comment content => simp [step, Token.Outside, Token.size, eq_comm]
  | instruction content => simp [step, Token.Outside, Token.size, eq_comm]
  | doctype content => simp [step, Token.Outside, Token.size, eq_comm]
  | start tag => cases hk
  | empty tag => cases hk
  | close written => simp [step, onClose, Token.Outside]

theorem step_tag_error {t : Text} {s s' : State} {k : Token} {tag : Tag} (hk : k.tag? = some tag) (hd : s.depth = 0)
    (hr : s.rootOpen.isSome = true) : step t s k ≠ .ok s' := by
  intro h
  cases k <;> simp only [Token.tag?, Option.some.injEq, reduceCtorEq] at hk
  all_goals
    subst hk
    simp [step, onStart, onEmpty, hd, openRoot, hr, bind, Except.bind] at h

/-- Tokens outside the root are those that may stand there, and reading them moves the offset. -/
theorem foldlM_outside_iff {t before after : Text} {ks : List Token} (ht : t = before ++ (sources ks ++ after))
    {s s' : State} (ho : s.offset = before.size) (hd : s.depth = 0)
    (hk : (∀ k ∈ ks, k.tag? = none) ∨ s.rootOpen.isSome = true) :
    ks.foldlM (step t) s = .ok s' ↔
      (∀ k ∈ ks, k.Outside) ∧ s' = { s with offset := (before ++ sources ks).size } := by
  induction ks generalizing before s with
  | nil => simp [pure, Except.pure, ← ho, eq_comm]
  | cons k ks ih =>
    rw [sources_cons, List.append_assoc] at ht
    rw [foldlM_cons_eq_ok_iff, List.forall_mem_cons]
    cases htag : k.tag? with
    | none =>
      have hrest : (∀ k ∈ ks, k.tag? = none) ∨ s.rootOpen.isSome = true :=
        hk.imp_left fun h => fun l hl => h l (List.mem_cons_of_mem k hl)
      have ih := @ih (before ++ k.source) (by rw [ht, List.append_assoc])
        { s with offset := (before ++ k.source).size } rfl hd hrest
      rw [sources_cons, ← List.append_assoc]
      constructor
      · rintro ⟨s₁, h₁, h₂⟩
        obtain ⟨hout, rfl⟩ := (step_outside_iff ht ho hd htag).mp h₁
        obtain ⟨houts, rfl⟩ := ih.mp h₂
        exact ⟨⟨hout, houts⟩, rfl⟩
      · rintro ⟨⟨hout, houts⟩, rfl⟩
        exact ⟨_, (step_outside_iff ht ho hd htag).mpr ⟨hout, rfl⟩, ih.mpr ⟨houts, rfl⟩⟩
    | some tag =>
      have hopen : s.rootOpen.isSome = true := hk.resolve_left fun h => by
        rw [h k List.mem_cons_self] at htag
        cases htag
      constructor
      · rintro ⟨s₁, h₁, -⟩
        exact absurd h₁ (step_tag_error htag hd hopen)
      · rintro ⟨⟨hout, -⟩, -⟩
        cases k <;> first | exact hout.elim | cases htag

/-! ### The root -/

/-- The state after the root of a document, which stands after `before`. -/
def Root.state (root : Root) (before : Text) (attributes : List Attribute) (entries : List Entry) : State where
  offset := (before ++ root.source).size
  entries := entries
  indent := root.children.indent? (before ++ root.opening.source)
  rootOpen := some (spanAfter before root.opening.source)
  rootClose := some (root.close before)
  namespaces := namespacesOf attributes

/-- The state inside the root of a document, after the start tag that stands after `before`. -/
def insideRoot (before : Text) (tag : Tag) (attributes : List Attribute) : State where
  offset := (before ++ (Token.start tag).source).size
  depth := 1
  rootOpen := some (spanAfter before (Token.start tag).source)
  namespaces := namespacesOf attributes

theorem step_startRoot_iff {t before : Text} {tag : Tag} {s' : State} :
    step t { offset := before.size } (.start tag) = .ok s' ↔
      tag.name = rootName ∧ ∃ as, tag.allAttributes = .ok as ∧ s' = insideRoot before tag as := by
  simp only [step, onStart, bind_eq_ok_iff, openRoot_eq_ok_iff, Except.ok.injEq]
  constructor
  · rintro ⟨s, ⟨-, hname, as, has, rfl⟩, rfl⟩
    refine ⟨hname, as, has, ?_⟩
    rw [insideRoot, spanAfter, Text.size_append, Token.size]
  · rintro ⟨hname, as, has, rfl⟩
    refine ⟨_, ⟨trivial, hname, as, has, rfl⟩, ?_⟩
    rw [insideRoot, spanAfter, Text.size_append, Token.size]

theorem foldlM_root_iff (root : Root) {t before after : Text} (ht : t = before ++ (root.source ++ after))
    {s' : State} :
    root.tokens.foldlM (step t) { offset := before.size } = .ok s' ↔
      root.tag.name = rootName ∧ ∃ attributes entries, root.tag.allAttributes = .ok attributes ∧
        root.children.entries? = some entries ∧ Distinct entries ∧ s' = root.state before attributes entries := by
  cases root with
  | empty tag =>
    have hstate : ∀ as, ({ offset := before.size + (Token.empty tag).size
                           rootOpen := some ⟨before.size, before.size + (Token.empty tag).size⟩
                           rootClose := some (.selfClosing ⟨before.size, before.size + (Token.empty tag).size⟩)
                           namespaces := namespacesOf as } : State) = (Root.empty tag).state before as [] := by
      intro as
      rw [Root.state, Root.source, Root.opening, Root.close, spanAfter, Text.size_append, Token.size]
      rfl
    simp only [Root.tokens, foldlM_cons_eq_ok_iff, List.foldlM_nil, pure, Except.pure, Except.ok.injEq,
      exists_eq_right, step, onEmpty, bind_eq_ok_iff, openRoot_eq_ok_iff, Root.tag, Root.children, Forest.entries?,
      Option.some.injEq]
    constructor
    · rintro ⟨s, ⟨-, hname, as, has, rfl⟩, rfl⟩
      exact ⟨hname, as, [], has, rfl, List.nodup_nil, hstate as⟩
    · rintro ⟨hname, as, es, has, rfl, -, rfl⟩
      exact ⟨_, ⟨trivial, hname, as, has, rfl⟩, hstate as⟩
  | element tag body written closes =>
    rw [Root.source, elementSource, List.append_assoc, List.append_assoc] at ht
    have hbody := @children body t (before ++ (Token.start tag).source) ((Token.close written).source ++ after)
      (by rw [ht, List.append_assoc])
    have hclose : ∀ as es, step t ((insideRoot before tag as).past (before ++ (Token.start tag).source ++ body.source)
        (body.indent? (before ++ (Token.start tag).source)) es) (.close written) =
          .ok ((Root.element tag body written closes).state before as es) := by
      intro as es
      simp [step, onClose, insideRoot, State.past, Root.state, Root.source, Root.opening, Root.close, Root.children,
        elementSource, Token.size, Nat.add_assoc]
    simp only [Root.tokens, foldlM_cons_eq_ok_iff, foldlM_append_eq_ok_iff, List.foldlM_nil, pure, Except.pure,
      Except.ok.injEq, exists_eq_right, step_startRoot_iff]
    constructor
    · rintro ⟨s₁, ⟨hname, as, has, rfl⟩, s₂, h₂, h₃⟩
      obtain ⟨es, hes, hdistinct, rfl⟩ := (@hbody (insideRoot before tag as) _ rfl rfl rfl List.nodup_nil).mp h₂
      refine ⟨hname, as, es, has, hes, hdistinct, ?_⟩
      exact Except.ok.inj (h₃.symm.trans (hclose as es))
    · rintro ⟨hname, as, es, has, hes, hdistinct, rfl⟩
      exact ⟨insideRoot before tag as, ⟨hname, as, has, rfl⟩, _,
        (@hbody (insideRoot before tag as) _ rfl rfl rfl List.nodup_nil).mpr ⟨es, hes, hdistinct, rfl⟩, hclose as es⟩

/-! ### The whole document -/

def Outline.state (o : Outline) (attributes : List Attribute) (entries : List Entry) : State :=
  { o.root.state (sources o.before) attributes entries with offset := o.source.size }

theorem foldlM_outline_iff (o : Outline) (hbefore : ∀ k ∈ o.before, k.tag? = none) {s' : State} :
    o.tokens.foldlM (step o.source) {} = .ok s' ↔
      ∃ attributes entries, o.Reads attributes entries ∧ s' = o.state attributes entries := by
  have hfirst := fun s' => @foldlM_outside_iff o.source [] (o.root.source ++ sources o.after) o.before rfl {} s' rfl rfl
    (Or.inl hbefore)
  have hroot := fun s' => @foldlM_root_iff o.root o.source (sources o.before) (sources o.after) rfl s'
  have hlast := fun as es s' => @foldlM_outside_iff o.source (sources o.before ++ o.root.source) [] o.after
    (by simp [Outline.source]) (o.root.state (sources o.before) as es) s' rfl rfl (Or.inr rfl)
  have hstate : ∀ as es, { o.root.state (sources o.before) as es with
      offset := (sources o.before ++ o.root.source ++ sources o.after).size } = o.state as es := by
    intro as es
    rw [Outline.state, Outline.source, List.append_assoc]
  rw [Outline.tokens, foldlM_append_eq_ok_iff]
  simp only [foldlM_append_eq_ok_iff]
  constructor
  · rintro ⟨s₁, h₁, s₂, h₂, h₃⟩
    obtain ⟨hb, rfl⟩ := (hfirst s₁).mp h₁
    obtain ⟨hname, as, es, has, hes, hdistinct, rfl⟩ := (hroot s₂).mp h₂
    obtain ⟨ha, rfl⟩ := (hlast as es s').mp h₃
    exact ⟨as, es, ⟨hb, ha, hname, has, hes, hdistinct⟩, hstate as es⟩
  · rintro ⟨as, es, hreads, rfl⟩
    refine ⟨_, (hfirst _).mpr ⟨hreads.before, rfl⟩, _, (hroot _).mpr ⟨hreads.name, as, es, hreads.fields,
      hreads.children, hreads.distinct, rfl⟩, (hlast as es _).mpr ⟨hreads.after, (hstate as es).symm⟩⟩

/-- A forest with an element or an empty tag is an outline: the first of them is the root. -/
theorem exists_outline (F : Forest) :
    (∀ k ∈ F.tokens, k.tag? = none) ∨ ∃ o : Outline, o.tokens = F.tokens ∧ ∀ k ∈ o.before, k.tag? = none := by
  induction F with
  | nil => exact Or.inl (by simp [Forest.tokens])
  | leaf k h rest ih =>
    cases hk : k.tag? with
    | some tag =>
      cases k <;> first | cases hk; done | cases h; done | skip
      next tag => exact Or.inr ⟨⟨[], .empty tag, rest.tokens⟩, rfl, by simp⟩
    | none =>
      rcases ih with ih | ⟨o, ho, hbefore⟩
      · exact Or.inl (List.forall_mem_cons.mpr ⟨hk, ih⟩)
      · refine Or.inr ⟨{ o with before := k :: o.before }, ?_, List.forall_mem_cons.mpr ⟨hk, hbefore⟩⟩
        exact congrArg (k :: ·) ho
  | element tag body written h rest _ _ =>
    refine Or.inr ⟨⟨[], .element tag body written h, rest.tokens⟩, ?_, by simp⟩
    simp [Outline.tokens, Root.tokens, Forest.tokens]

theorem exists_forest_of_reads {o : Outline} {attributes : List Attribute} {entries : List Entry}
    (h : o.Reads attributes entries) : ∃ F : Forest, F.tokens = o.tokens := by
  obtain ⟨B, hB⟩ := exists_forest_of_isLeaf fun k hk => (h.before k hk).isLeaf
  obtain ⟨A, hA⟩ := exists_forest_of_isLeaf fun k hk => (h.after k hk).isLeaf
  obtain ⟨R, hR⟩ : ∃ R : Forest, R.tokens = o.root.tokens := by
    cases o.root with
    | empty tag => exact ⟨.leaf (.empty tag) rfl .nil, rfl⟩
    | element tag body written closes => exact ⟨.element tag body written closes .nil, rfl⟩
  exact ⟨B.append (R.append A), by simp [Outline.tokens, hB, hR, hA]⟩

theorem withoutMark_eq {t : Text} (h : Unmarked t) : withoutMark t = t := by
  cases t with
  | nil => rfl
  | cons c r =>
    rw [withoutMark, if_neg]
    rintro rfl
    exact h rfl

/-- The tokens that are read without a fault are those of the whole text. -/
theorem scan_of_read {t : Text} (ht : Unmarked t) (h : (Markup.read t).fault = none) :
    scan t = { tokens := (Markup.read t).tokens, fault := none } := by
  obtain ⟨hfault, htokens⟩ := tokens_of_matched h
  rw [withoutMark_eq ht] at hfault htokens
  rw [Markup.read, withoutMark_eq ht, htokens, ← hfault]

theorem run_eq_ok_iff {t : Text} {s : State} :
    run t = .ok s ↔ (read t).tokens.foldlM (step t) {} = .ok s ∧ (read t).fault = none := by
  unfold run
  rw [bind_eq_ok_iff]
  constructor
  · rintro ⟨s₁, h₁, h⟩
    split at h <;> cases h
    next hf => exact ⟨h₁, hf⟩
  · rintro ⟨h₁, hf⟩
    exact ⟨s, h₁, by rw [hf]⟩

theorem document_eq_ok_iff {path t : Text} {d : Document} :
    document path t = .ok d ↔ ∃ s rootOpen rootClose, run t = .ok s ∧ s.depth = 0 ∧ s.rootOpen = some rootOpen ∧
      s.rootClose = some rootClose ∧
        d = { path := path, text := t, entries := s.entries, indent := s.indent, rootOpen := rootOpen,
              rootClose := rootClose, namespaces := s.namespaces } := by
  unfold document
  rw [bind_eq_ok_iff]
  constructor
  · rintro ⟨s, hrun, h⟩
    split at h
    · cases h
    · next hd =>
      split at h
      · next rootOpen rootClose hopen hclose =>
        exact ⟨s, rootOpen, rootClose, hrun, not_not.mp hd, hopen, hclose, (Except.ok.inj h).symm⟩
      · cases h
  · rintro ⟨s, rootOpen, rootClose, hrun, hd, hopen, hclose, rfl⟩
    exact ⟨s, hrun, by simp [hd, hopen, hclose]⟩

end StringResources.Parse

namespace StringResources
open Markup Parse

theorem parse_eq_ok_iff_document {path t : Text} {d : Document} :
    parse path t = .ok d ↔ Parse.document path t = .ok d := by
  unfold parse
  split <;> simp_all

theorem text_of_parse {path t : Text} {d : Document} (h : parse path t = .ok d) : d.text = t := by
  rw [parse_eq_ok_iff_document, document_eq_ok_iff] at h
  obtain ⟨s, rootOpen, rootClose, -, -, -, -, rfl⟩ := h
  rfl

theorem exists_allAttributes {path t : Text} {d : Document} (h : parse path t = .ok d) :
    ∃ tag as, Tag.allAttributes tag = .ok as ∧ d.namespaces = namespacesOf as := by
  rw [parse_eq_ok_iff_document, document_eq_ok_iff] at h
  obtain ⟨s, rootOpen, rootClose, hrun, -, -, -, rfl⟩ := h
  exact (foldlM_kept (run_eq_ok_iff.mp hrun).1).declared State.declared_nil

theorem isIndent_of_parse {path t : Text} {d : Document} (h : parse path t = .ok d) {i : Text}
    (hi : d.indent = some i) : ∀ c ∈ i, Text.isIndent c = true := by
  rw [parse_eq_ok_iff_document, document_eq_ok_iff] at h
  obtain ⟨s, rootOpen, rootClose, hrun, -, -, -, rfl⟩ := h
  exact (foldlM_kept (run_eq_ok_iff.mp hrun).1).indented (fun _ hnone => absurd hnone (by simp)) i hi

/-- No two entries of a document have one key, also where its text begins with a byte order mark. -/
theorem distinct_entries_of_parse {path t : Text} {d : Document} (h : parse path t = .ok d) : Distinct d.entries := by
  rw [parse_eq_ok_iff_document, document_eq_ok_iff] at h
  obtain ⟨s, rootOpen, rootClose, hrun, -, -, -, rfl⟩ := h
  exact (foldlM_kept (run_eq_ok_iff.mp hrun).1).distinct List.nodup_nil

/-- The text of an outline that holds together is read as its tokens. -/
theorem Parse.Outline.read_source {o : Outline} {attributes : List Attribute} {entries : List Entry} (htight : o.Tight)
    (hreads : o.Reads attributes entries) (hmark : Unmarked o.source) :
    Markup.read o.source = { tokens := o.tokens, fault := none } := by
  obtain ⟨F, hF⟩ := exists_forest_of_reads hreads
  have hscan : scan (withoutMark o.source) = { tokens := F.tokens, fault := none } := by
    rw [withoutMark_eq hmark, hF]
    exact Outline.scan_source_iff.mpr htight
  rw [read_of_forest hscan, hF]

/-- A text is read as a document exactly if it is the text of an outline that holds together. -/
theorem parse_eq_ok_iff {path t : Text} {d : Document} (ht : Unmarked t) :
    parse path t = .ok d ↔ ∃ (o : Outline) (attributes : List Attribute) (entries : List Entry),
      o.source = t ∧ o.Tight ∧ o.Reads attributes entries ∧ d = o.document path attributes entries := by
  rw [parse_eq_ok_iff_document, document_eq_ok_iff]
  simp only [run_eq_ok_iff]
  constructor
  · rintro ⟨s, rootOpen, rootClose, ⟨hfold, hfault⟩, hd, hopen, hclose, rfl⟩
    obtain ⟨F, hscan, htokens⟩ := exists_forest hfault ((foldlM_kept hfold).depth.symm.trans hd)
    rw [withoutMark_eq ht] at hscan
    rw [htokens] at hfold
    have hsource := (scan_eq_iff.mp hscan).1
    rcases exists_outline F with hnone | ⟨o, ho, hbefore⟩
    · -- Without a tag there is no root.
      obtain ⟨-, rfl⟩ := (@foldlM_outside_iff t [] [] F.tokens (by simpa using hsource) {} s rfl rfl
        (Or.inl hnone)).mp hfold
      cases hopen
    · rw [← ho] at hscan hfold hsource
      rw [Outline.sources_tokens] at hsource
      subst hsource
      obtain ⟨as, es, hreads, rfl⟩ := (foldlM_outline_iff o hbefore).mp hfold
      obtain rfl := Option.some.inj hopen
      obtain rfl := Option.some.inj hclose
      exact ⟨o, as, es, rfl, Outline.scan_source_iff.mp hscan, hreads, rfl⟩
  · rintro ⟨o, as, es, rfl, htight, hreads, rfl⟩
    have hread := Outline.read_source htight hreads ht
    have hfold := (foldlM_outline_iff o fun k hk => (hreads.before k hk).tag?).mpr ⟨as, es, hreads, rfl⟩
    refine ⟨o.state as es, _, _, ⟨?_, ?_⟩, rfl, rfl, rfl, rfl⟩
    · rw [hread]
      exact hfold
    · rw [hread]

end StringResources
