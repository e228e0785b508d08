import StringResources.Proofs.Markup.Faults
import StringResources.Proofs.Resource.Outline

/-! What stops the reading of tokens. A token that cannot be taken is in fault where it starts, or, at the end tag of
    an entry, where the entry starts. No span is torn where the tokens are those of the text. Main statements:
    `step_error`, a token, and `foldlM_error`, all tokens. Whatever stops a reading, it is not the bytes of the text:
    `parse_cause_ne_notUtf8`. -/

namespace StringResources

/-- What can be wrong with a token while an element is open for each end tag. -/
def ParseError.Cause.OfToken : ParseError.Cause → Prop
  | .markup _ => False
  | .notUtf8 => False
  | .strayClose => False
  | .openRoot => False
  | .noRoot => False
  | _ => True

namespace Parse
open Markup

theorem bind_eq_error_iff {ε α β : Type} {x : Except ε α} {f : α → Except ε β} {e : ε} :
    (x >>= f) = .error e ↔ x = .error e ∨ ∃ a, x = .ok a ∧ f a = .error e := by
  cases x <;> simp [bind, Except.bind]

theorem mapError_eq_ok_iff {ε ε' α : Type} {x : Except ε α} {report : ε → ε'} {a : α} :
    x.mapError report = .ok a ↔ x = .ok a := by
  cases x <;> simp [Except.mapError]

theorem mapError_eq_error_iff {ε ε' α : Type} {x : Except ε α} {report : ε → ε'} {e : ε'} :
    x.mapError report = .error e ↔ ∃ e', x = .error e' ∧ report e' = e := by
  cases x <;> simp [Except.mapError]

section Run
variable {t : Text} {s : State} {k : Token} {ks ls : List Token} {stop : Stop}

theorem foldlM_cons_eq_error_iff :
    (k :: ks).foldlM (step t) s = .error stop ↔
      step t s k = .error stop ∨ ∃ s', step t s k = .ok s' ∧ ks.foldlM (step t) s' = .error stop := by
  rw [List.foldlM_cons, bind_eq_error_iff]

theorem foldlM_append_eq_error_iff :
    (ks ++ ls).foldlM (step t) s = .error stop ↔
      ks.foldlM (step t) s = .error stop ∨
        ∃ s', ks.foldlM (step t) s = .ok s' ∧ ls.foldlM (step t) s' = .error stop := by
  rw [List.foldlM_append, bind_eq_error_iff]

theorem run_eq_error_iff :
    run t = .error stop ↔ (Markup.read t).tokens.foldlM (step t) {} = .error stop ∨
      ∃ s fault, (Markup.read t).tokens.foldlM (step t) {} = .ok s ∧ (Markup.read t).fault = some fault ∧
        stop = .fault (s.offset + fault.offset) (.markup fault.error) := by
  unfold run
  rw [bind_eq_error_iff]
  refine or_congr Iff.rfl (exists_congr fun s => ?_)
  cases (Markup.read t).fault with
  | none => simp
  | some fault => simp [eq_comm]

theorem document_eq_error_iff {path : Text} :
    document path t = .error stop ↔ run t = .error stop ∨ ∃ s, run t = .ok s ∧
      ((s.depth ≠ 0 ∧ stop = .fault t.size .openRoot) ∨
        (s.depth = 0 ∧ (s.rootOpen = none ∨ s.rootClose = none) ∧ stop = .fault 0 .noRoot)) := by
  unfold document
  rw [bind_eq_error_iff]
  refine or_congr Iff.rfl (exists_congr fun s => and_congr_right fun _ => ?_)
  by_cases hd : s.depth = 0
  · cases s.rootOpen <;> cases s.rootClose <;> simp [hd, eq_comm]
  · simp [hd, eq_comm]

end Run

/-- The reading stops at an offset because of a token. -/
def StopsAt (stop : Stop) (n : Nat) : Prop := ∃ cause, stop = .fault n cause ∧ cause.OfToken

section Steps
variable {t before after : Text} {s s' : State} {k : Token} {tag : Tag} {span : Span} {stop : Stop}

theorem openRoot_error (h : openRoot s tag span = .error stop) : StopsAt stop span.start := by
  unfold openRoot at h
  split at h
  · cases h
    exact ⟨_, rfl, trivial⟩
  · split at h
    · cases h
      exact ⟨_, rfl, trivial⟩
    · split at h <;> cases h
      exact ⟨_, rfl, trivial⟩

theorem entryKey_error {kind : Kind} {start : Nat} (h : entryKey kind tag start = .error stop) :
    StopsAt stop start := by
  unfold entryKey at h
  repeat' split at h
  all_goals
    cases h
    try exact ⟨_, rfl, trivial⟩

theorem pushEntry_error {element value : Text} (ht : t = before ++ (element ++ after)) {key : Key}
    {translatable : Bool} (h : pushEntry t s key translatable value (spanAfter before element) = .error stop) :
    StopsAt stop before.size := by
  cases hany : s.entries.any (·.key == key) with
  | true =>
    rw [pushEntry, if_pos hany] at h
    cases h
    exact ⟨_, rfl, trivial⟩
  | false =>
    rw [(pushEntry_eq_ok_iff ht).mpr ⟨hany, rfl⟩] at h
    cases h

theorem onText_eq_error_iff {content : Text} (hslice : span.slice? t = some content) :
    onText t s span = .error stop ↔ (s.depth = 0 ∧ ¬ AllSpace content) ∧ stop = .fault span.start .textOutside := by
  unfold onText
  rw [sliceOf_eq_ok_iff.mpr hslice]
  split
  · next hd =>
    simp only [bind, Except.bind]
    split
    · next hspace => simp [AllSpace, hspace]
    · next hspace => simp [AllSpace, hspace, hd, eq_comm]
  · next hd => simp [hd]

theorem onText_error {content : Text} (hslice : span.slice? t = some content) (h : onText t s span = .error stop) :
    StopsAt stop span.start := by
  obtain ⟨-, rfl⟩ := (onText_eq_error_iff hslice).mp h
  exact ⟨_, rfl, trivial⟩

theorem onStart_error (h : onStart s tag span = .error stop) : StopsAt stop span.start := by
  rw [onStart] at h
  split at h
  · rcases bind_eq_error_iff.mp h with h | ⟨_, -, h⟩
    · exact openRoot_error h
    · cases h
  · split at h
    · cases h
    · rcases bind_eq_error_iff.mp h with h | ⟨_, -, h⟩
      · exact entryKey_error h
      · cases h
  · cases h

theorem onEmpty_error {element : Text} (ht : t = before ++ (element ++ after)) (hspan : span = spanAfter before element)
    (h : onEmpty t s tag span = .error stop) : StopsAt stop span.start := by
  subst hspan
  rw [onEmpty] at h
  split at h
  · rcases bind_eq_error_iff.mp h with h | ⟨_, -, h⟩
    · exact openRoot_error h
    · cases h
  · split at h
    · cases h
    · rcases bind_eq_error_iff.mp h with h | ⟨_, -, h⟩
      · exact entryKey_error h
      · exact pushEntry_error ht h
  · cases h

/-- An end tag is in fault only where the entry that it ends starts. -/
theorem onClose_error (ht : t = before ++ (k.source ++ after)) (hfits : s.Fits before) (hopen : s.depth ≠ 0)
    (h : onClose t { s with offset := s.offset + k.size } ⟨s.offset, s.offset + k.size⟩ = .error stop) :
    ∃ p ∈ s.pending, StopsAt stop p.start := by
  rw [onClose] at h
  split at h
  · next hd => exact absurd hd hopen
  · cases h
  · split at h
    · cases h
    · next p hp =>
      obtain ⟨lead, element, body, ht', hbody, hspan⟩ := hfits.pendingElement ht hp
      have hstart : p.start = lead.size := congrArg Span.start hspan
      dsimp only at h
      rw [sliceOf_eq_ok_iff.mpr hbody, hspan] at h
      exact ⟨p, hp, hstart ▸ pushEntry_error ht' h⟩
  · cases h

/-- A token of a text is read, or it is in fault, or the entry that it ends. -/
theorem step_error (ht : t = before ++ (k.source ++ after)) (hfits : s.Fits before)
    (hopen : ∀ written, k = .close written → s.depth ≠ 0) (h : step t s k = .error stop) :
    StopsAt stop before.size ∨ ∃ p ∈ s.pending, StopsAt stop p.start := by
  have hslice : (spanAfter before k.source).slice? t = some k.source := by
    rw [ht]
    exact slice?_spanAfter before k.source after
  rw [← hfits.span_eq k] at hslice
  rw [← hfits.offset]
  cases k with
  | text content => exact Or.inl (onText_error hslice h)
  | cdata content => exact Or.inl (onText_error hslice h)
  | comment content => cases h
  | instruction content => cases h
  | doctype content => cases h
  | start tag => exact Or.inl (onStart_error h)
  | empty tag => exact Or.inl (onEmpty_error ht (hfits.span_eq _) h)
  | close written => exact Or.inr (onClose_error ht hfits (hopen written rfl) h)

/-- Tokens are read, or one of them is in fault where it starts, if each end tag among them closes an open element. The
    starts are offsets for which `P` holds, also that of an entry that is pending. -/
theorem foldlM_error {P : Nat → Prop} {ks : List Token} (ht : t = before ++ (sources ks ++ after))
    (hfits : s.Fits before) (hopen : ∀ pre written post, ks = pre ++ .close written :: post → level s.depth pre ≠ 0)
    (hstarts : ∀ pre k post, ks = pre ++ k :: post → P (before ++ sources pre).size)
    (hpending : ∀ p ∈ s.pending, P p.start)
    (h : ks.foldlM (step t) s = .error stop) : ∃ n, P n ∧ StopsAt stop n := by
  induction ks generalizing before s with
  | nil => cases h
  | cons k ks ih =>
    rw [sources_cons, List.append_assoc] at ht
    have hstart : P before.size := by
      have := hstarts [] k ks rfl
      rwa [sources_nil, List.append_nil] at this
    rcases foldlM_cons_eq_error_iff.mp h with h | ⟨s₁, h₁, h⟩
    · have hclose : ∀ written, k = .close written → s.depth ≠ 0 := by
        rintro written rfl
        exact hopen [] written ks rfl
      rcases step_error ht hfits hclose h with hstop | ⟨p, hp, hstop⟩
      · exact ⟨_, hstart, hstop⟩
      · exact ⟨_, hpending p hp, hstop⟩
    · refine ih (by rw [ht, List.append_assoc]) (step_fits hfits h₁) (fun pre written post hks => ?_)
        (fun pre l post hks => ?_) (fun p hp => ?_) h
      · rw [(step_kept h₁).depth]
        exact hopen (k :: pre) written post (congrArg (k :: ·) hks)
      · have := hstarts (k :: pre) l post (congrArg (k :: ·) hks)
        rwa [sources_cons, ← List.append_assoc] at this
      · rcases pending_of_step h₁ hp with hp | ⟨hp, -⟩
        · exact hpending p hp
        · rw [hp, hfits.offset]
          exact hstart

end Steps

/-! ### Any text -/

/-- The reading stops for a reason other than the bytes of the text. -/
def Stop.OfReading : Stop → Prop
  | .fault _ cause => cause ≠ .notUtf8
  | .torn => True

theorem StopsAt.ofReading {stop : Stop} {n : Nat} (h : StopsAt stop n) : stop.OfReading := by
  obtain ⟨cause, rfl, hcause⟩ := h
  rintro rfl
  exact hcause

section OfReading
variable {t : Text} {s : State} {tag : Tag} {span : Span} {stop : Stop}

theorem sliceOf_ofReading (h : sliceOf t span = .error stop) : stop.OfReading := by
  unfold sliceOf at h
  split at h <;> cases h
  trivial

theorem pushEntry_ofReading {key : Key} {translatable : Bool} {value : Text}
    (h : pushEntry t s key translatable value span = .error stop) : stop.OfReading := by
  unfold pushEntry at h
  split at h
  · cases h
    exact nofun
  · rcases bind_eq_error_iff.mp h with h | ⟨indent, -, h⟩
    · unfold indentAfter at h
      split at h
      · cases h
      · rcases bind_eq_error_iff.mp h with h | ⟨_, -, h⟩
        · exact sliceOf_ofReading h
        · cases h
    · rcases bind_eq_error_iff.mp h with h | ⟨_, -, h⟩
      · exact sliceOf_ofReading h
      · cases h

theorem onText_ofReading (h : onText t s span = .error stop) : stop.OfReading := by
  unfold onText at h
  split at h
  · rcases bind_eq_error_iff.mp h with h | ⟨content, -, h⟩
    · exact sliceOf_ofReading h
    · split at h <;> cases h
      exact nofun
  · cases h

theorem onEmpty_ofReading (h : onEmpty t s tag span = .error stop) : stop.OfReading := by
  rw [onEmpty] at h
  split at h
  · rcases bind_eq_error_iff.mp h with h | ⟨_, -, h⟩
    · exact (openRoot_error h).ofReading
    · cases h
  · split at h
    · cases h
    · rcases bind_eq_error_iff.mp h with h | ⟨_, -, h⟩
      · exact (entryKey_error h).ofReading
      · exact pushEntry_ofReading h
  · cases h

theorem onClose_ofReading (h : onClose t s span = .error stop) : stop.OfReading := by
  rw [onClose] at h
  split at h
  · cases h
    intro hcause
    cases hcause
  · cases h
  · split at h
    · cases h
    · rcases bind_eq_error_iff.mp h with h | ⟨_, -, h⟩
      · exact sliceOf_ofReading h
      · exact pushEntry_ofReading h
  · cases h

theorem step_ofReading {k : Token} (h : step t s k = .error stop) : stop.OfReading := by
  cases k with
  | text content => exact onText_ofReading h
  | cdata content => exact onText_ofReading h
  | comment content => cases h
  | instruction content => cases h
  | doctype content => cases h
  | start tag => exact (onStart_error h).ofReading
  | empty tag => exact onEmpty_ofReading h
  | close written => exact onClose_ofReading h

theorem foldlM_ofReading {ks : List Token} (h : ks.foldlM (step t) s = .error stop) : stop.OfReading := by
  induction ks generalizing s with
  | nil => cases h
  | cons k ks ih =>
    rcases foldlM_cons_eq_error_iff.mp h with h | ⟨s', -, h⟩
    · exact step_ofReading h
    · exact ih h

theorem document_ofReading {path : Text} (h : document path t = .error stop) : stop.OfReading := by
  rcases document_eq_error_iff.mp h with hrun | ⟨s, -, ⟨-, rfl⟩ | ⟨-, -, rfl⟩⟩
  · rcases run_eq_error_iff.mp hrun with hfold | ⟨s, fault, -, -, rfl⟩
    · exact foldlM_ofReading hfold
    · exact nofun
  · exact nofun
  · exact nofun

end OfReading

end Parse

/-- A text is not refused for the bytes of its file, which are read before it. -/
theorem parse_cause_ne_notUtf8 {path t : Text} {e : ParseError} (h : parse path t = .error (.error e)) :
    e.cause ≠ .notUtf8 := by
  unfold parse at h
  split at h
  · cases h
  · next offset cause hstop =>
    cases h
    exact Parse.document_ofReading hstop
  · cases h

end StringResources
