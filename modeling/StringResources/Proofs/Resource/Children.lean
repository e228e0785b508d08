import StringResources.Proofs.Markup.Forest
import StringResources.Resource.Parse

/-! Reading inside the root. Below the children of the root nothing but the offset moves; a child adds the
    entry it makes, if it makes one and its key is new. Main statement: `children`, the
    children of the root are read as the list of entries they make. -/

namespace StringResources.Parse
open Markup

/-! ### Computations that can fail -/

theorem bind_eq_ok_iff {ε α β : Type} {x : Except ε α} {f : α → Except ε β} {b : β} :
    (x >>= f) = .ok b ↔ ∃ a, x = .ok a ∧ f a = .ok b := by
  cases x with
  | error e => simp [bind, Except.bind]
  | ok a => simp [bind, Except.bind]

theorem foldlM_cons_eq_ok_iff {ε σ α : Type} {f : σ → α → Except ε σ} {s s' : σ} {x : α} {xs : List α} :
    (x :: xs).foldlM f s = .ok s' ↔ ∃ s₁, f s x = .ok s₁ ∧ xs.foldlM f s₁ = .ok s' := by
  rw [List.foldlM_cons, bind_eq_ok_iff]

theorem foldlM_append_eq_ok_iff {ε σ α : Type} {f : σ → α → Except ε σ} {s s' : σ} {xs ys : List α} :
    (xs ++ ys).foldlM f s = .ok s' ↔ ∃ s₁, xs.foldlM f s = .ok s₁ ∧ ys.foldlM f s₁ = .ok s' := by
  rw [List.foldlM_append, bind_eq_ok_iff]

/-! ### Slices -/

/-- The span of the second of three parts of a text. -/
def spanAfter (before part : Text) : Span := { start := before.size, stop := (before ++ part).size }

theorem slice?_spanAfter (before part after : Text) :
    (spanAfter before part).slice? (before ++ (part ++ after)) = some part :=
  Text.slice?_eq_some_iff.mpr ⟨before, after, rfl, rfl, (Text.size_append _ _).symm⟩

theorem sliceOf_spanAfter {t before part after : Text} (ht : t = before ++ (part ++ after)) :
    sliceOf t (spanAfter before part) = .ok part := by
  rw [sliceOf, ht, slice?_spanAfter]

/-! ### Below the children -/

theorem step_isLeaf_deep {t : Text} {s : State} {k : Token} (hk : k.isLeaf = true) (hd : 2 ≤ s.depth) :
    step t s k = .ok { s with offset := s.offset + k.size } := by
  obtain ⟨n, hn⟩ : ∃ n, s.depth = n + 2 := ⟨s.depth - 2, by omega⟩
  cases k <;> first | (simp [step, onText, onEmpty, hn]; done) | cases hk

theorem foldlM_deep {t : Text} (F : Forest) {s : State} (hd : 2 ≤ s.depth) :
    F.tokens.foldlM (step t) s = .ok { s with offset := s.offset + F.source.size } := by
  induction F generalizing s with
  | nil => rfl
  | leaf k h rest ih =>
    rw [Forest.tokens, foldlM_cons_eq_ok_iff]
    refine ⟨_, step_isLeaf_deep h hd, (ih (s := { s with offset := s.offset + k.size }) hd).trans ?_⟩
    simp [Token.size, Nat.add_assoc]
  | element tag body written h rest ihb ihr =>
    obtain ⟨n, hn⟩ : ∃ n, s.depth = n + 2 := ⟨s.depth - 2, by omega⟩
    have hstart : step t s (.start tag) =
        .ok { s with offset := s.offset + (Token.start tag).size, depth := n + 3 } := by
      simp [step, onStart, hn]
    rw [Forest.tokens, foldlM_cons_eq_ok_iff]
    refine ⟨_, hstart, ?_⟩
    rw [foldlM_append_eq_ok_iff]
    refine ⟨_, ihb (Nat.le_add_left _ _), ?_⟩
    rw [foldlM_cons_eq_ok_iff]
    refine ⟨_, rfl, (ihr (Nat.le_add_left _ _)).trans ?_⟩
    simp [Token.size, Nat.add_assoc, hn]

/-! ### A child -/

def Distinct (es : List Entry) : Prop := (es.map (·.key)).Nodup

theorem Distinct.of_append {es fs : List Entry} (h : Distinct (es ++ fs)) : Distinct es := by
  rw [Distinct, List.map_append] at h
  exact (List.nodup_append.mp h).1

theorem distinct_concat_iff {es : List Entry} {e : Entry} :
    Distinct (es ++ [e]) ↔ Distinct es ∧ es.any (·.key == e.key) = false := by
  simp only [Distinct, List.map_append, List.map_cons, List.map_nil, List.any_eq_false, beq_iff_eq]
  rw [List.nodup_append]
  simp

theorem entryKey_eq_ok_iff {kind : Kind} {tag : Tag} (start start' : Nat) {x : Key × Bool} :
    entryKey kind tag start = .ok x ↔ entryKey kind tag start' = .ok x := by
  unfold entryKey
  split
  · simp
  · simp
  · split
    · simp
    · simp
    · split <;> simp

/-- The entries a child of the root makes: one if its name is that of a kind. None if it should make one
    and its tag gives no key. -/
def entriesOf? (tag : Tag) (value element : Text) : Option (List Entry) :=
  match Kind.ofTag? tag.name with
  | none => some []
  | some kind =>
    match entryKey kind tag 0 with
    | .ok (key, translatable) =>
      some [{ key := key, value := value, translatable := translatable, element := element }]
    | .error _ => none

/-- The indentation that a child after `before` shows: one that makes an entry shows its own. -/
def indentOf? (before : Text) (tag : Tag) : Option Text :=
  (Kind.ofTag? tag.name).bind fun _ => lineIndent? before

/-- A state when the reading is past the text `read` and has found more entries, and an indentation. -/
def State.past (s : State) (read : Text) (indent : Option Text) (es : List Entry) : State :=
  { s with offset := read.size, indent := s.indent.or indent, entries := s.entries ++ es }

theorem State.past_past (s : State) (read read' : Text) (indent indent' : Option Text) (es es' : List Entry) :
    (s.past read indent es).past read' indent' es' = s.past read' (indent.or indent') (es ++ es') := by
  simp only [State.past, List.append_assoc, Option.or_assoc]

theorem pushEntry_eq_ok_iff {t before element after value : Text} (ht : t = before ++ (element ++ after))
    {s s' : State} {key : Key} {translatable : Bool} :
    pushEntry t s key translatable value (spanAfter before element) = .ok s' ↔
      s.entries.any (·.key == key) = false ∧
        s' = { s with
          indent := s.indent.or (lineIndent? before)
          entries := s.entries ++
            [{ key := key, value := value, translatable := translatable, element := element }] } := by
  have hindent : indentAfter t s.indent before.size = .ok (s.indent.or (lineIndent? before)) := by
    have hbefore : sliceOf t { start := 0, stop := before.size } = .ok before :=
      @sliceOf_spanAfter t [] before (element ++ after) ht
    unfold indentAfter
    split
    · next i hi => rw [hi, Option.some_or]
    · next hi =>
      rw [hi, hbefore, Option.none_or]
      rfl
  unfold pushEntry
  split
  · next hany => simp [hany]
  · next hany =>
    rw [sliceOf_spanAfter ht]
    simp only [spanAfter, hindent, bind, Except.bind, Except.ok.injEq]
    rw [Bool.not_eq_true] at hany
    simp only [hany, true_and, eq_comm]

theorem entry_eq_ok_iff {t before element after value : Text} (ht : t = before ++ (element ++ after)) {tag : Tag}
    {kind : Kind} (hkind : Kind.ofTag? tag.name = some kind) {s s' : State} (ho : s.offset = (before ++ element).size)
    (hs : Distinct s.entries) (start : Nat) :
    (∃ x, entryKey kind tag start = .ok x ∧
      pushEntry t s x.1 x.2 value (spanAfter before element) = .ok s') ↔
      ∃ es, entriesOf? tag value element = some es ∧ Distinct (s.entries ++ es) ∧
        s' = s.past (before ++ element) (indentOf? before tag) es := by
  simp only [entryKey_eq_ok_iff start 0, pushEntry_eq_ok_iff ht, entriesOf?, indentOf?, State.past, hkind,
    Option.bind_some, ← ho]
  cases entryKey kind tag 0 with
  | error e => simp
  | ok x =>
    obtain ⟨key, translatable⟩ := x
    simp [distinct_concat_iff, hs]

section Child
variable {t before after : Text} {s s' : State}

theorem step_emptyChild_eq_ok_iff {tag : Tag} (ht : t = before ++ ((Token.empty tag).source ++ after))
    (ho : s.offset = before.size) (hd : s.depth = 1) (hs : Distinct s.entries) :
    step t s (.empty tag) = .ok s' ↔
      ∃ es, entriesOf? tag [] (Token.empty tag).source = some es ∧ Distinct (s.entries ++ es) ∧
        s' = s.past (before ++ (Token.empty tag).source) (indentOf? before tag) es := by
  obtain ⟨offset, depth, pending, entries, indent, rootOpen, rootClose, namespaces⟩ := s
  dsimp only at ho hd hs
  subst ho hd
  have hstop : before.size + (Token.empty tag).size = (before ++ (Token.empty tag).source).size := by
    rw [Text.size_append, Token.size]
  cases hkind : Kind.ofTag? tag.name with
  | none => simp [step, onEmpty, hkind, entriesOf?, hs, State.past, indentOf?, eq_comm, Token.size]
  | some kind =>
    simp only [step, onEmpty, hkind, bind_eq_ok_iff, hstop]
    exact entry_eq_ok_iff ht hkind rfl hs before.size

def elementSource (tag : Tag) (body : Forest) (written : Text) : Text :=
  (Token.start tag).source ++ (body.source ++ (Token.close written).source)

theorem step_startChild_eq_ok_iff {tag : Tag} {kind : Kind} (hkind : Kind.ofTag? tag.name = some kind)
    (hd : s.depth = 1) :
    step t s (.start tag) = .ok s' ↔ ∃ x, entryKey kind tag s.offset = .ok x ∧
      { s with
        offset := s.offset + (Token.start tag).size
        depth := 2
        pending := some ⟨x.1, x.2, s.offset, s.offset + (Token.start tag).size⟩ } = s' := by
  obtain ⟨offset, depth, pending, entries, indent, rootOpen, rootClose, namespaces⟩ := s
  dsimp only at hd
  subst hd
  simp only [step, onStart, hkind, bind_eq_ok_iff, Except.ok.injEq]

theorem step_closeChild {written value : Text} {p : Pending} (hd : s.depth = 2) (hp : s.pending = some p)
    (hvalue : sliceOf t ⟨p.contentStart, s.offset⟩ = .ok value) :
    step t s (.close written) =
      pushEntry t { s with offset := s.offset + (Token.close written).size, depth := 1, pending := none } p.key
        p.translatable value ⟨p.start, s.offset + (Token.close written).size⟩ := by
  obtain ⟨offset, depth, pending, entries, indent, rootOpen, rootClose, namespaces⟩ := s
  dsimp only at hd hp hvalue
  subst hd hp
  simp only [step, onClose, hvalue]
  rfl

/-- An element that makes no entry is read as a whole. -/
theorem foldlM_otherChild {tag : Tag} (hkind : Kind.ofTag? tag.name = none) (body : Forest) (written : Text)
    (hd : s.depth = 1) (hp : s.pending = none) :
    (.start tag :: (body.tokens ++ [.close written])).foldlM (step t) s =
      .ok { s with offset := s.offset + (elementSource tag body written).size } := by
  obtain ⟨offset, depth, pending, entries, indent, rootOpen, rootClose, namespaces⟩ := s
  dsimp only at hd hp
  subst hd hp
  have hstart : step t ⟨offset, 1, none, entries, indent, rootOpen, rootClose, namespaces⟩ (.start tag) =
      .ok ⟨offset + (Token.start tag).size, 2, none, entries, indent, rootOpen, rootClose, namespaces⟩ := by
    simp [step, onStart, hkind]
  have hbody := @foldlM_deep t body
    ⟨offset + (Token.start tag).size, 2, none, entries, indent, rootOpen, rootClose, namespaces⟩ (Nat.le_refl 2)
  have hclose : step t ⟨offset + (Token.start tag).size + body.source.size, 2, none, entries, indent, rootOpen,
      rootClose, namespaces⟩ (.close written) =
        .ok ⟨offset + (elementSource tag body written).size, 1, none, entries, indent, rootOpen, rootClose,
          namespaces⟩ := by
    simp [step, onClose, elementSource, Token.size, Nat.add_assoc]
  rw [foldlM_cons_eq_ok_iff]
  refine ⟨_, hstart, foldlM_append_eq_ok_iff.mpr ⟨_, hbody, foldlM_cons_eq_ok_iff.mpr ⟨_, hclose, rfl⟩⟩⟩

theorem foldlM_elementChild_eq_ok_iff {tag : Tag} {body : Forest} {written : Text}
    (ht : t = before ++ (elementSource tag body written ++ after))
    (ho : s.offset = before.size) (hd : s.depth = 1) (hp : s.pending = none) (hs : Distinct s.entries) :
    (.start tag :: (body.tokens ++ [.close written])).foldlM (step t) s = .ok s' ↔
      ∃ es, entriesOf? tag body.source (elementSource tag body written) = some es ∧ Distinct (s.entries ++ es) ∧
        s' = s.past (before ++ elementSource tag body written) (indentOf? before tag) es := by
  cases hkind : Kind.ofTag? tag.name with
  | none =>
    rw [foldlM_otherChild hkind body written hd hp]
    simp [entriesOf?, hkind, hs, State.past, indentOf?, ho, eq_comm]
  | some kind =>
    obtain ⟨offset, depth, pending, entries, indent, rootOpen, rootClose, namespaces⟩ := s
    dsimp only at ho hd hp hs
    subst ho hd hp
    have hstop : before.size + (Token.start tag).size + body.source.size + (Token.close written).size =
        (before ++ elementSource tag body written).size := by
      simp [elementSource, Token.size, Nat.add_assoc]
    have hvalue : sliceOf t ⟨before.size + (Token.start tag).size,
        before.size + (Token.start tag).size + body.source.size⟩ = .ok body.source := by
      have := @sliceOf_spanAfter t (before ++ (Token.start tag).source) body.source
        ((Token.close written).source ++ after) (by simp [ht, elementSource])
      simpa [spanAfter, Token.size, Nat.add_assoc] using this
    refine Iff.trans ?_ (@entry_eq_ok_iff t before (elementSource tag body written) after body.source ht tag kind hkind
      ⟨(before ++ elementSource tag body written).size, 1, none, entries, indent, rootOpen, rootClose, namespaces⟩ s' rfl
      hs before.size)
    -- Between its tags the element is read as it is, and its end tag pushes the entry that its start tag promised.
    have hinside := fun p => @foldlM_deep t body
      ⟨before.size + (Token.start tag).size, 2, some p, entries, indent, rootOpen, rootClose, namespaces⟩ (Nat.le_refl 2)
    have hend := fun x : Key × Bool => @step_closeChild t
      ⟨before.size + (Token.start tag).size + body.source.size, 2,
        some ⟨x.1, x.2, before.size, before.size + (Token.start tag).size⟩, entries, indent, rootOpen, rootClose,
          namespaces⟩ written body.source _ rfl rfl hvalue
    simp only [hstop] at hend
    simp only [foldlM_cons_eq_ok_iff, foldlM_append_eq_ok_iff, List.foldlM_nil, pure, Except.pure, Except.ok.injEq,
      exists_eq_right, step_startChild_eq_ok_iff hkind]
    constructor
    · rintro ⟨s₁, ⟨x, hx, rfl⟩, s₂, h₂, h⟩
      obtain rfl := Except.ok.inj ((hinside _).symm.trans h₂)
      exact ⟨x, hx, (hend x).symm.trans h⟩
    · rintro ⟨x, hx, h⟩
      exact ⟨_, ⟨x, hx, rfl⟩, _, hinside _, (hend x).trans h⟩

end Child

/-! ### All children -/

/-- The entries a leaf makes: only an empty tag can make one. -/
def leafEntries? : Token → Option (List Entry)
  | .empty tag => entriesOf? tag [] (Token.empty tag).source
  | _ => some []

/-- The indentation that a leaf after `before` shows. -/
def leafIndent? (before : Text) : Token → Option Text
  | .empty tag => indentOf? before tag
  | _ => none

/-- The entries of two parts, both of which have to give theirs. -/
def joined (x y : Option (List Entry)) : Option (List Entry) := x.bind fun es => y.map (es ++ ·)

theorem joined_eq_some_iff {x y : Option (List Entry)} {l : List Entry} :
    joined x y = some l ↔ ∃ es fs, x = some es ∧ y = some fs ∧ es ++ fs = l := by
  simp only [joined, Option.bind_eq_some_iff, Option.map_eq_some_iff]
  constructor
  · rintro ⟨es, hx, fs, hy, rfl⟩
    exact ⟨es, fs, hx, hy, rfl⟩
  · rintro ⟨es, fs, hx, hy, rfl⟩
    exact ⟨es, hx, fs, hy, rfl⟩

theorem joined_assoc (x y z : Option (List Entry)) : joined (joined x y) z = joined x (joined y z) := by
  cases x <;> cases y <;> cases z <;> simp [joined]

@[simp] theorem joined_nil (x : Option (List Entry)) : joined (some []) x = x := by cases x <;> simp [joined]

end StringResources.Parse

namespace StringResources.Markup.Forest
open Parse

/-- The entries that a forest makes as the children of a root. None if one of them should make an entry
    and gives no key. -/
def entries? : Forest → Option (List Entry)
  | nil => some []
  | leaf k _ rest => joined (leafEntries? k) rest.entries?
  | element tag body written _ rest =>
    joined (entriesOf? tag body.source (elementSource tag body written)) rest.entries?

/-- The indentation of the first entry of a forest after `before` that has its line for itself. -/
def indent? (before : Text) : Forest → Option Text
  | nil => none
  | leaf k _ rest => (leafIndent? before k).or (rest.indent? (before ++ k.source))
  | element tag body written _ rest =>
    (indentOf? before tag).or (rest.indent? (before ++ elementSource tag body written))

theorem entries?_append (F G : Forest) : (F.append G).entries? = joined F.entries? G.entries? := by
  induction F with
  | nil => simp [append, entries?]
  | leaf k h rest ih => simp only [append, entries?, ih, joined_assoc]
  | element tag body written h rest _ ih => simp only [append, entries?, ih, joined_assoc]

theorem entries?_addText (content : Text) (F : Forest) : (addText content F).entries? = F.entries? := by
  cases F with
  | nil => simp only [addText]; split <;> simp [entries?, leafEntries?]
  | leaf k h rest =>
    cases k <;> simp only [addText, entries?]
    · simp only [leafEntries?]
    all_goals split <;> simp [entries?, leafEntries?]
  | element tag body written h rest =>
    simp only [addText]
    split <;> simp [entries?, leafEntries?]

theorem entries?_glue (F : Forest) : F.glue.entries? = F.entries? := by
  induction F with
  | nil => rfl
  | leaf k h rest ih => cases k <;> simp [glue, entries?, ih, entries?_addText, leafEntries?]
  | element tag body written h rest ihb ihr =>
    simp only [glue, entries?, ihr, source_glue, elementSource]

end StringResources.Markup.Forest

namespace StringResources.Parse
open Markup

theorem step_leafChild_eq_ok_iff {t before after : Text} {s s' : State} {k : Token} (hk : k.isLeaf = true)
    (ht : t = before ++ (k.source ++ after)) (ho : s.offset = before.size) (hd : s.depth = 1)
    (hs : Distinct s.entries) :
    step t s k = .ok s' ↔ ∃ es, leafEntries? k = some es ∧ Distinct (s.entries ++ es) ∧
      s' = s.past (before ++ k.source) (leafIndent? before k) es := by
  cases k
  case empty tag => exact step_emptyChild_eq_ok_iff ht ho hd hs
  all_goals
    first
    | cases hk; done
    | simp [step, onText, hd, leafEntries?, leafIndent?, hs, State.past, ho, Token.size, eq_comm]

/-- Tokens `ks` are the children of the root that stand after `before` and make up the text `part`. They
    are read if they give entries, with keys that are new. -/
def Children (t before : Text) (ks : List Token) (part : Text) (entries : Option (List Entry))
    (indent : Option Text) : Prop :=
  ∀ ⦃s s' : State⦄, s.offset = before.size → s.depth = 1 → s.pending = none → Distinct s.entries →
    (ks.foldlM (step t) s = .ok s' ↔
      ∃ es, entries = some es ∧ Distinct (s.entries ++ es) ∧ s' = s.past (before ++ part) indent es)

theorem Children.append {t before part part' : Text} {ks ls : List Token} {x y : Option (List Entry)}
    {i j : Option Text} (hk : Children t before ks part x i) (hl : Children t (before ++ part) ls part' y j) :
    Children t before (ks ++ ls) (part ++ part') (joined x y) (i.or j) := by
  intro s s' ho hd hp hs
  rw [foldlM_append_eq_ok_iff]
  constructor
  · rintro ⟨s₁, h₁, h₂⟩
    obtain ⟨es, hx, hes, rfl⟩ := (hk ho hd hp hs).mp h₁
    obtain ⟨fs, hy, hfs, rfl⟩ := (@hl (s.past (before ++ part) i es) _ rfl hd hp hes).mp h₂
    refine ⟨es ++ fs, joined_eq_some_iff.mpr ⟨es, fs, hx, hy, rfl⟩, ?_, ?_⟩
    · rw [← List.append_assoc]
      exact hfs
    · rw [State.past_past, List.append_assoc]
  · rintro ⟨l, hl', hes, rfl⟩
    obtain ⟨es, fs, hx, hy, rfl⟩ := joined_eq_some_iff.mp hl'
    rw [← List.append_assoc] at hes
    refine ⟨s.past (before ++ part) i es, (hk ho hd hp hs).mpr ⟨es, hx, hes.of_append, rfl⟩, ?_⟩
    refine (@hl (s.past (before ++ part) i es) _ rfl hd hp hes.of_append).mpr ⟨fs, hy, hes, ?_⟩
    rw [State.past_past, List.append_assoc]

/-- The children of the root are read as the list of entries they make, if each gives its key and no key
    stands twice. -/
theorem children (F : Forest) {t before after : Text} (ht : t = before ++ (F.source ++ after)) :
    Children t before F.tokens F.source F.entries? (F.indent? before) := by
  induction F generalizing before with
  | nil =>
    intro s s' ho hd hp hs
    have hpast : s.past before none [] = s := by
      rw [State.past, ← ho, Option.or_none, List.append_nil]
    simp [Forest.tokens, Forest.entries?, Forest.indent?, pure, Except.pure, hs, hpast, eq_comm]
  | leaf k h rest ih =>
    rw [Forest.source_leaf, List.append_assoc] at ht
    have hleaf : Children t before [k] k.source (leafEntries? k) (leafIndent? before k) := by
      intro s s' ho hd hp hs
      simp only [List.foldlM_cons, List.foldlM_nil, bind_pure]
      exact step_leafChild_eq_ok_iff h ht ho hd hs
    exact hleaf.append (ih (by rw [ht, List.append_assoc]))
  | element tag body written h rest _ ih =>
    have hsource : (Forest.element tag body written h rest).source = elementSource tag body written ++ rest.source := by
      simp [elementSource]
    have htokens : (Forest.element tag body written h rest).tokens =
        (.start tag :: (body.tokens ++ [.close written])) ++ rest.tokens := by
      simp [Forest.tokens]
    rw [hsource, List.append_assoc] at ht
    rw [hsource, htokens]
    have helement : Children t before (.start tag :: (body.tokens ++ [.close written])) (elementSource tag body written)
        (entriesOf? tag body.source (elementSource tag body written)) (indentOf? before tag) :=
      fun s s' ho hd hp hs => foldlM_elementChild_eq_ok_iff ht ho hd hp hs
    exact helement.append (ih (by rw [ht, List.append_assoc]))

end StringResources.Parse
