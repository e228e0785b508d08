import StringResources.Proofs.Markup.Fields
import StringResources.Proofs.Resource.Children

/-! The reading token by token. For each kind of token, an equivalence says all that reading it can do. Main
    statements: `step_kept`, what every token keeps, and `step_fits`, where the reading is after it. -/

namespace StringResources.Parse
open Markup

/-- White space after byte order marks. -/
def AllSpace (content : Text) : Prop := (content.dropWhile (· == Text.byteOrderMark)).all Text.isSpace = true

instance (content : Text) : Decidable (AllSpace content) :=
  inferInstanceAs (Decidable ((content.dropWhile (· == Text.byteOrderMark)).all Text.isSpace = true))

/-! ### What a token does -/

theorem sliceOf_eq_ok_iff {t content : Text} {span : Span} :
    sliceOf t span = .ok content ↔ span.slice? t = some content := by
  unfold sliceOf
  split <;> simp_all

theorem isIndent_of_lineIndent? {before i : Text} (h : lineIndent? before = some i) :
    ∀ c ∈ i, Text.isIndent c = true := by
  unfold lineIndent? at h
  split at h
  · cases h
  · split at h
    · next hall =>
      obtain rfl := Option.some.inj h
      exact List.all_eq_true.mp hall
    · cases h

/-- An indentation that is found is blanks and tabs. -/
theorem isIndent_of_indentAfter {t : Text} {indent indent' : Option Text} {start : Nat}
    (h : indentAfter t indent start = .ok indent') (hindent : ∀ i ∈ indent, ∀ c ∈ i, Text.isIndent c = true) :
    ∀ i ∈ indent', ∀ c ∈ i, Text.isIndent c = true := by
  cases indent with
  | some i =>
    obtain rfl := Except.ok.inj h
    exact hindent
  | none =>
    obtain ⟨before, -, h⟩ := bind_eq_ok_iff.mp h
    obtain rfl := Except.ok.inj h
    exact fun i hi => isIndent_of_lineIndent? hi

theorem exists_of_pushEntry {t value : Text} {s s' : State} {key : Key} {translatable : Bool} {span : Span}
    (h : pushEntry t s key translatable value span = .ok s') :
    s.entries.any (·.key == key) = false ∧ ∃ indent element, indentAfter t s.indent span.start = .ok indent ∧
      span.slice? t = some element ∧
      s' = { s with indent := indent, entries := s.entries ++ [⟨key, value, translatable, element⟩] } := by
  unfold pushEntry at h
  split at h
  · cases h
  · next hany =>
    simp only [bind_eq_ok_iff, Except.ok.injEq] at h
    obtain ⟨indent, hindent, element, helement, rfl⟩ := h
    exact ⟨Bool.not_eq_true _ ▸ hany, indent, element, hindent, sliceOf_eq_ok_iff.mp helement, rfl⟩

theorem openRoot_eq_ok_iff {s s' : State} {tag : Tag} {span : Span} :
    openRoot s tag span = .ok s' ↔ s.rootOpen = none ∧ tag.name = rootName ∧
      ∃ as, tag.allAttributes = .ok as ∧ s' = { s with rootOpen := some span, namespaces := namespacesOf as } := by
  unfold openRoot
  split
  · next h =>
    have : s.rootOpen ≠ none := Option.isSome_iff_ne_none.mp h
    simp [this]
  · next h =>
    rw [Bool.not_eq_true, Option.isSome_eq_false_iff, Option.isNone_iff_eq_none] at h
    split
    · next hname => simp [hname]
    · next hname =>
      rw [not_not] at hname
      split
      · next e he => simp [he]
      · next as has => simp [h, hname, has, eq_comm]

/-- What reading a start tag can do. -/
inductive Started (s : State) (tag : Tag) (span : Span) : State → Prop
  | root {as : List Attribute} : s.depth = 0 → s.rootOpen = none → tag.name = rootName → tag.allAttributes = .ok as →
      Started s tag span { s with depth := 1, rootOpen := some span, namespaces := namespacesOf as }
  | other : s.depth = 1 → Kind.ofTag? tag.name = none → Started s tag span { s with depth := 2 }
  | entry {kind : Kind} {key : Key} {translatable : Bool} : s.depth = 1 → Kind.ofTag? tag.name = some kind →
      entryKey kind tag span.start = .ok (key, translatable) →
      Started s tag span { s with depth := 2, pending := some ⟨key, translatable, span.start, span.stop⟩ }
  | inside : 2 ≤ s.depth → Started s tag span { s with depth := s.depth + 1 }

/-- What reading an empty tag can do. -/
inductive Emptied (t : Text) (s : State) (tag : Tag) (span : Span) : State → Prop
  | root {as : List Attribute} : s.depth = 0 → s.rootOpen = none → tag.name = rootName → tag.allAttributes = .ok as →
      Emptied t s tag span { s with rootOpen := some span, rootClose := some (.selfClosing span),
                                    namespaces := namespacesOf as }
  | other : s.depth = 1 → Kind.ofTag? tag.name = none → Emptied t s tag span s
  | entry {kind : Kind} {key : Key} {translatable : Bool} {s' : State} : s.depth = 1 →
      Kind.ofTag? tag.name = some kind → entryKey kind tag span.start = .ok (key, translatable) →
      pushEntry t s key translatable [] span = .ok s' → Emptied t s tag span s'
  | inside : 2 ≤ s.depth → Emptied t s tag span s

/-- What reading an end tag can do. -/
inductive Ended (t : Text) (s : State) (span : Span) : State → Prop
  | root : s.depth = 1 → Ended t s span { s with depth := 0, rootClose := some (.endTag span.start) }
  | other : s.depth = 2 → s.pending = none → Ended t s span { s with depth := 1 }
  | entry {p : Pending} {value : Text} {s' : State} : s.depth = 2 → s.pending = some p →
      Text.slice? t p.contentStart span.start = some value →
      pushEntry t { s with depth := 1, pending := none } p.key p.translatable value ⟨p.start, span.stop⟩ = .ok s' →
      Ended t s span s'
  | inside : 3 ≤ s.depth → Ended t s span { s with depth := s.depth - 1 }

section Steps
variable {t : Text} {s s' : State} {tag : Tag} {span : Span}

theorem onText_eq_ok_iff :
    onText t s span = .ok s' ↔ (s.depth = 0 → ∃ content, span.slice? t = some content ∧ AllSpace content) ∧ s' = s := by
  unfold onText
  split
  · next hd =>
    simp only [bind_eq_ok_iff, sliceOf_eq_ok_iff, AllSpace]
    constructor
    · rintro ⟨content, hcontent, h⟩
      split at h
      · next hspace => exact ⟨fun _ => ⟨content, hcontent, hspace⟩, (Except.ok.inj h).symm⟩
      · cases h
    · rintro ⟨h, rfl⟩
      obtain ⟨content, hcontent, hspace⟩ := h hd
      exact ⟨content, hcontent, if_pos hspace⟩
  · next hd => simp [hd, eq_comm]

theorem onText_of_slice? {content : Text} (h : span.slice? t = some content) :
    onText t s span = .ok s ∨ onText t s span = .error (.fault span.start .textOutside) := by
  unfold onText
  rw [sliceOf_eq_ok_iff.mpr h]
  split
  · simp only [bind, Except.bind]
    split
    · exact Or.inl rfl
    · exact Or.inr rfl
  · exact Or.inl rfl

theorem onStart_eq_ok_iff : onStart s tag span = .ok s' ↔ Started s tag span s' := by
  constructor
  · intro h
    rw [onStart] at h
    split at h
    · next hd =>
      obtain ⟨s₁, h₁, h⟩ := bind_eq_ok_iff.mp h
      obtain ⟨hopen, hname, as, has, rfl⟩ := openRoot_eq_ok_iff.mp h₁
      cases h
      exact .root hd hopen hname has
    · next hd =>
      split at h
      · next hkind =>
        cases h
        exact .other hd hkind
      · next kind hkind =>
        obtain ⟨⟨key, translatable⟩, hkey, h⟩ := bind_eq_ok_iff.mp h
        cases h
        exact .entry hd hkind hkey
    · next n hd =>
      cases h
      have hinside := @Started.inside s tag span (by omega)
      rwa [hd] at hinside
  · intro h
    cases h with
    | root hd hopen hname has =>
      rw [onStart, hd]
      exact bind_eq_ok_iff.mpr ⟨_, openRoot_eq_ok_iff.mpr ⟨hopen, hname, _, has, rfl⟩, rfl⟩
    | other hd hkind => simp only [onStart, hd, hkind]
    | entry hd hkind hkey =>
      simp only [onStart, hd, hkind]
      exact bind_eq_ok_iff.mpr ⟨_, hkey, rfl⟩
    | inside hd =>
      obtain ⟨n, hn⟩ := Nat.exists_eq_add_of_le' hd
      simp only [onStart, hn]

theorem onEmpty_eq_ok_iff : onEmpty t s tag span = .ok s' ↔ Emptied t s tag span s' := by
  constructor
  · intro h
    rw [onEmpty] at h
    split at h
    · next hd =>
      obtain ⟨s₁, h₁, h⟩ := bind_eq_ok_iff.mp h
      obtain ⟨hopen, hname, as, has, rfl⟩ := openRoot_eq_ok_iff.mp h₁
      cases h
      exact .root hd hopen hname has
    · next hd =>
      split at h
      · next hkind =>
        cases h
        exact .other hd hkind
      · next kind hkind =>
        obtain ⟨⟨key, translatable⟩, hkey, h⟩ := bind_eq_ok_iff.mp h
        exact .entry hd hkind hkey h
    · next n hd =>
      cases h
      exact .inside (by omega)
  · intro h
    cases h with
    | root hd hopen hname has =>
      rw [onEmpty, hd]
      exact bind_eq_ok_iff.mpr ⟨_, openRoot_eq_ok_iff.mpr ⟨hopen, hname, _, has, rfl⟩, by rw [hd]⟩
    | other hd hkind => simp only [onEmpty, hd, hkind]
    | entry hd hkind hkey hpush =>
      simp only [onEmpty, hd, hkind]
      exact bind_eq_ok_iff.mpr ⟨_, hkey, hpush⟩
    | inside hd =>
      obtain ⟨n, hn⟩ := Nat.exists_eq_add_of_le' hd
      simp only [onEmpty, hn]

theorem onClose_eq_ok_iff : onClose t s span = .ok s' ↔ Ended t s span s' := by
  constructor
  · intro h
    rw [onClose] at h
    split at h
    · cases h
    · next hd =>
      cases h
      exact .root hd
    · next hd =>
      split at h
      · next hpending =>
        cases h
        exact .other hd hpending
      · next p hpending =>
        obtain ⟨value, hvalue, h⟩ := bind_eq_ok_iff.mp h
        exact .entry hd hpending (sliceOf_eq_ok_iff.mp hvalue) h
    · next n hd =>
      cases h
      have hinside := @Ended.inside t s span (by omega)
      rwa [hd] at hinside
  · intro h
    cases h with
    | root hd => simp only [onClose, hd]
    | other hd hpending => simp only [onClose, hd, hpending]
    | entry hd hpending hvalue hpush =>
      simp only [onClose, hd, hpending]
      exact bind_eq_ok_iff.mpr ⟨_, sliceOf_eq_ok_iff.mpr hvalue, hpush⟩
    | inside hd =>
      obtain ⟨n, hn⟩ := Nat.exists_eq_add_of_le' hd
      simp only [onClose, hn]
      rfl

end Steps

/-! ### What every token keeps -/

/-- The namespaces are those that the attributes of a tag declare. -/
def State.Declared (s : State) : Prop := ∃ tag as, Tag.allAttributes tag = .ok as ∧ s.namespaces = namespacesOf as

theorem State.declared_nil : State.Declared {} := by
  have hfields : Fields [] [] := @Fields.nil [] (by simp [AllBlank])
  exact ⟨⟨[], []⟩, [], Tag.allAttributes_eq_ok_iff.mpr ⟨hfields, List.nodup_nil⟩, rfl⟩

/-- The indentation that was found is blanks and tabs. -/
def State.Indented (s : State) : Prop := ∀ i ∈ s.indent, ∀ c ∈ i, Text.isIndent c = true

/-- What is kept from state `s` to state `s'` when tokens of `size` bytes are read, after which `level` elements are
    open: only the root declares namespaces, and entries are added at the end, each under a key of its own. -/
structure Kept (s s' : State) (size level : Nat) : Prop where
  offset : s'.offset = s.offset + size
  depth : s'.depth = level
  declared : s.Declared → s'.Declared
  indented : s.Indented → s'.Indented
  entries : s.entries.IsPrefix s'.entries
  distinct : Distinct s.entries → Distinct s'.entries

section Kept
variable {t : Text} {s s' : State} {size level : Nat}

theorem Kept.of_same (hoffset : s'.offset = s.offset + size) (hdepth : s'.depth = level)
    (hnamespaces : s'.namespaces = s.namespaces) (hindent : s'.indent = s.indent) (hentries : s'.entries = s.entries) :
    Kept s s' size level where
  offset := hoffset
  depth := hdepth
  declared h := by rwa [State.Declared, hnamespaces]
  indented h := by rwa [State.Indented, hindent]
  entries := hentries ▸ List.prefix_rfl
  distinct h := by rwa [hentries]

theorem Kept.of_pushEntry {key : Key} {translatable : Bool} {value : Text} {span : Span}
    (h : pushEntry t s key translatable value span = .ok s') : Kept s s' 0 s.depth := by
  obtain ⟨hany, indent, element, hindent, -, rfl⟩ := exists_of_pushEntry h
  exact ⟨rfl, rfl, id, isIndent_of_indentAfter hindent, List.prefix_append _ _,
    fun hdistinct => distinct_concat_iff.mpr ⟨hdistinct, hany⟩⟩

/-- The offset moves past the token, and the depth is the number of open elements. -/
theorem step_kept {k : Token} (h : step t s k = .ok s') : Kept s s' k.size (nextLevel s.depth k) := by
  cases k with
  | text content =>
    obtain ⟨-, rfl⟩ := onText_eq_ok_iff.mp h
    exact .of_same rfl rfl rfl rfl rfl
  | cdata content =>
    obtain ⟨-, rfl⟩ := onText_eq_ok_iff.mp h
    exact .of_same rfl rfl rfl rfl rfl
  | comment content =>
    cases h
    exact .of_same rfl rfl rfl rfl rfl
  | instruction content =>
    cases h
    exact .of_same rfl rfl rfl rfl rfl
  | doctype content =>
    cases h
    exact .of_same rfl rfl rfl rfl rfl
  | start tag =>
    cases onStart_eq_ok_iff.mp h with
    | root hd hopen hname has =>
      exact ⟨rfl, (congrArg (· + 1) hd).symm, fun _ => ⟨tag, _, has, rfl⟩, id, List.prefix_rfl, id⟩
    | other hd hkind => exact .of_same rfl (congrArg (· + 1) hd).symm rfl rfl rfl
    | entry hd hkind hkey => exact .of_same rfl (congrArg (· + 1) hd).symm rfl rfl rfl
    | inside hd => exact .of_same rfl rfl rfl rfl rfl
  | empty tag =>
    cases onEmpty_eq_ok_iff.mp h with
    | root hd hopen hname has => exact ⟨rfl, rfl, fun _ => ⟨tag, _, has, rfl⟩, id, List.prefix_rfl, id⟩
    | other hd hkind => exact .of_same rfl rfl rfl rfl rfl
    | entry hd hkind hkey hpush =>
      have hkept := Kept.of_pushEntry hpush
      exact ⟨hkept.offset, hkept.depth, hkept.declared, hkept.indented, hkept.entries, hkept.distinct⟩
    | inside hd => exact .of_same rfl rfl rfl rfl rfl
  | close written =>
    cases onClose_eq_ok_iff.mp h with
    | root hd => exact .of_same rfl (congrArg (· - 1) hd).symm rfl rfl rfl
    | other hd hpending => exact .of_same rfl (congrArg (· - 1) hd).symm rfl rfl rfl
    | entry hd hpending hvalue hpush =>
      have hkept := Kept.of_pushEntry hpush
      exact ⟨hkept.offset, hkept.depth.trans (congrArg (· - 1) hd).symm, hkept.declared, hkept.indented, hkept.entries,
        hkept.distinct⟩
    | inside hd => exact .of_same rfl rfl rfl rfl rfl

theorem foldlM_kept {ks : List Token} (h : ks.foldlM (step t) s = .ok s') :
    Kept s s' (sources ks).size (Markup.level s.depth ks) := by
  induction ks generalizing s with
  | nil =>
    cases h
    exact .of_same rfl rfl rfl rfl rfl
  | cons k ks ih =>
    obtain ⟨s₁, h₁, h⟩ := foldlM_cons_eq_ok_iff.mp h
    have hfirst := step_kept h₁
    have hrest := ih h
    refine ⟨?_, ?_, hrest.declared ∘ hfirst.declared, hrest.indented ∘ hfirst.indented,
      hfirst.entries.trans hrest.entries, hrest.distinct ∘ hfirst.distinct⟩
    · rw [hrest.offset, hfirst.offset, sources_cons, Text.size_append, Token.size, Nat.add_assoc]
    · rw [hrest.depth, hfirst.depth]
      rfl

end Kept

/-! ### Where the reading is -/

/-- The reading is past `before`, where the start tag of a pending entry stands. -/
structure State.Fits (s : State) (before : Text) : Prop where
  offset : s.offset = before.size
  pending : ∀ p ∈ s.pending, ∃ lead tag body, before = lead ++ (tag ++ body) ∧ p.start = lead.size ∧
    p.contentStart = (lead ++ tag).size

section Fits
variable {t before : Text} {s s' : State} {k : Token}

theorem State.Fits.span_eq (h : s.Fits before) (k : Token) :
    (⟨s.offset, s.offset + k.size⟩ : Span) = spanAfter before k.source := by
  rw [spanAfter, h.offset, Text.size_append, Token.size]

/-- Where nothing but the offset moves, what was pending stands before the next token too. -/
theorem State.Fits.past (h : s.Fits before) (k : Token) :
    State.Fits { s with offset := s.offset + k.size } (before ++ k.source) := by
  refine ⟨congrArg Span.stop (h.span_eq k), fun p hp => ?_⟩
  obtain ⟨lead, tag, body, rfl, hstart, hcontent⟩ := h.pending p hp
  exact ⟨lead, tag, body ++ k.source, by simp only [List.append_assoc], hstart, hcontent⟩

/-- The value of a pending entry goes on to the token that ends its element, and the element to the end of the token. -/
theorem State.Fits.pendingElement (h : s.Fits before) {after : Text} (ht : t = before ++ (k.source ++ after))
    {p : Pending} (hp : s.pending = some p) : ∃ lead element body, t = lead ++ (element ++ after) ∧
      Span.slice? ⟨p.contentStart, s.offset⟩ t = some body ∧
      (⟨p.start, s.offset + k.size⟩ : Span) = spanAfter lead element := by
  obtain ⟨lead, tag, body, rfl, hstart, hcontent⟩ := h.pending p hp
  refine ⟨lead, tag ++ (body ++ k.source), body, by simp [ht], ?_, ?_⟩
  · rw [hcontent, h.offset, ht]
    exact Text.slice?_eq_some_iff.mpr ⟨lead ++ tag, k.source ++ after, by simp, rfl, by simp; omega⟩
  · rw [hstart, spanAfter, Span.mk.injEq]
    exact ⟨rfl, (h.past k).offset.trans (by simp)⟩

/-- An entry that is pending after a token was pending before, or began with it. -/
theorem pending_of_step {p : Pending} (h : step t s k = .ok s') (hp : s'.pending = some p) :
    s.pending = some p ∨ p.start = s.offset ∧ p.contentStart = s.offset + k.size := by
  cases k with
  | text content =>
    obtain ⟨-, rfl⟩ := onText_eq_ok_iff.mp h
    exact Or.inl hp
  | cdata content =>
    obtain ⟨-, rfl⟩ := onText_eq_ok_iff.mp h
    exact Or.inl hp
  | comment content =>
    cases h
    exact Or.inl hp
  | instruction content =>
    cases h
    exact Or.inl hp
  | doctype content =>
    cases h
    exact Or.inl hp
  | start tag =>
    cases onStart_eq_ok_iff.mp h with
    | root => exact Or.inl hp
    | other => exact Or.inl hp
    | entry =>
      cases hp
      exact Or.inr ⟨rfl, rfl⟩
    | inside => exact Or.inl hp
  | empty tag =>
    cases onEmpty_eq_ok_iff.mp h with
    | root => exact Or.inl hp
    | other => exact Or.inl hp
    | entry _ _ _ hpush =>
      obtain ⟨-, indent, element, -, -, rfl⟩ := exists_of_pushEntry hpush
      exact Or.inl hp
    | inside => exact Or.inl hp
  | close written =>
    cases onClose_eq_ok_iff.mp h with
    | root => exact Or.inl hp
    | other => exact Or.inl hp
    | entry _ _ _ hpush =>
      obtain ⟨-, indent, element, -, -, rfl⟩ := exists_of_pushEntry hpush
      cases hp
    | inside => exact Or.inl hp

/-- After a token the reading is past it. -/
theorem step_fits (hfits : s.Fits before) (h : step t s k = .ok s') : s'.Fits (before ++ k.source) := by
  have hpast := hfits.past k
  refine ⟨(step_kept h).offset.trans hpast.offset, fun p hp => ?_⟩
  rcases pending_of_step h hp with hp | ⟨hstart, hcontent⟩
  · exact hpast.pending p hp
  · exact ⟨before, k.source, [], by rw [List.append_nil], hstart.trans hfits.offset, hcontent.trans hpast.offset⟩

end Fits

end StringResources.Parse
