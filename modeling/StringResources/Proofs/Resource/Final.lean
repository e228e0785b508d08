import StringResources.Proofs.Resource.Located

/-! Errors that stay. What is read of a text is read in the same way when more text follows, up to where the reading
    of the text alone stopped. Only a token that was not ended, a root that was not closed and a root that was not
    found can be made good by what follows. Main statements: `extends_scan`, the tokens, `Lasts.step`, the reading of
    one, and `parse_append_of_error`. -/

namespace StringResources.Markup
open Text

/-! ### The tokens of a longer text -/

/-- What a text reads as, and what it reads as with more text after it. -/
inductive Scan.Extends (s s' : Scan) : Prop
  /-- The reading stops where it stopped before. -/
  | same : s' = s → s.Extends s'
  /-- It goes on after all tokens, or where a token was not ended. -/
  | more (ls : List Token) : s'.tokens = s.tokens ++ ls → (∀ fault, s.fault = some fault → fault.Syntax) → s.Extends s'
  /-- Its last token is characters, and there are more of them. -/
  | text (ks : List Token) (content rest : Text) (ls : List Token) :
      s = { tokens := ks ++ [.text content], fault := none } → s'.tokens = ks ++ .text (content ++ rest) :: ls →
      s.Extends s'

theorem Scan.Extends.cons {s s' : Scan} (h : s.Extends s') (k : Token) : (s.cons k).Extends (s'.cons k) := by
  cases h with
  | same h => exact .same (congrArg (Scan.cons k) h)
  | more ls htokens hfault => exact .more ls (congrArg (k :: ·) htokens) hfault
  | text ks content rest ls hs htokens =>
    exact .text (k :: ks) content rest ls (congrArg (Scan.cons k) hs) (congrArg (k :: ·) htokens)

/-- The first token of a text is the first token with more text after it, or characters that go on. -/
theorem next_append {t r : Text} {k : Token} (ht : t ≠ []) (h : next t = .ok (k, r)) (u : Text) :
    next (t ++ u) = .ok (k, r ++ u) ∨
      k = .text t ∧ r = [] ∧ ∃ rest r', next (t ++ u) = .ok (.text (t ++ rest), r') := by
  obtain ⟨c, t, rfl⟩ := List.exists_cons_of_ne_nil ht
  by_cases hc : c = '<'
  · subst hc
    rw [next_source h, List.append_assoc]
    exact Or.inl ((next_alone h).2 (r ++ u))
  · rw [next, if_neg hc] at h
    obtain ⟨rfl, rfl⟩ := Prod.mk.inj (Except.ok.inj h)
    rw [List.cons_append, next, if_neg hc, ← List.cons_append]
    by_cases hend : ∀ d ∈ c :: t, (d != '<') = true
    · refine Or.inr ⟨?_, ?_, u.takeWhile (· != '<'), u.dropWhile (· != '<'), ?_⟩
      · rw [List.takeWhile_eq_self_iff.mpr hend]
      · exact List.dropWhile_eq_nil_iff.mpr hend
      · rw [List.takeWhile_append_of_pos hend, List.dropWhile_append_of_pos hend]
    · obtain ⟨d, r, hr⟩ := List.exists_cons_of_ne_nil (mt List.dropWhile_eq_nil_iff.mp hend)
      have hall : ∀ d ∈ (c :: t).takeWhile (· != '<'), (d != '<') = true := fun d hd =>
        List.mem_takeWhile_imp (p := (· != '<')) hd
      have hstop : ∀ d ∈ ((c :: t).dropWhile (· != '<') ++ u).head?, (d != '<') = false := by
        intro e he
        have hhead := List.head?_dropWhile_not (· != '<') (c :: t)
        rw [hr, List.cons_append, List.head?_cons] at he
        obtain rfl := Option.some.inj he
        rw [hr] at hhead
        exact hhead
      have hsplit : c :: t ++ u = (c :: t).takeWhile (· != '<') ++ ((c :: t).dropWhile (· != '<') ++ u) := by
        rw [← List.append_assoc, List.takeWhile_append_dropWhile]
      refine Or.inl ?_
      rw [hsplit, takeWhile_append_of_stop hall hstop, dropWhile_append_of_stop hall hstop]

theorem extends_scan (t u : Text) : (scan t).Extends (scan (t ++ u)) := by
  fun_induction scan t with
  | case1 => exact .more (scan u).tokens rfl (by simp)
  | case2 t ht fault h =>
    rcases next_error h with hworded | ⟨content, r, rfl, -, -, hfinal⟩
    · refine .more (scan (t ++ u)).tokens rfl fun f hf => ?_
      obtain rfl := Option.some.inj hf
      exact hworded
    · refine .same (scan_of_error ?_)
      have := hfinal (r ++ u)
      simpa using this
  | case3 t ht k r h ih =>
    rcases next_append ht h u with hnext | ⟨rfl, rfl, rest, r', hnext⟩
    · rw [scan_of_ok (by simp [ht]) hnext]
      exact ih.cons k
    · rw [scan_of_ok (by simp [ht]) hnext, scan_nil]
      exact .text [] t rest (scan r').tokens rfl rfl

/-! ### End tags -/

/-- Tokens stop at an end tag among them, whatever follows, or all are read before what follows. -/
theorem matched_append (names : List Text) (ks : List Token) :
    (∀ fault ls, matched fault names (ks ++ ls) = matched none names ks) ∨
      ∀ fault ls, matched fault names (ks ++ ls) =
        { tokens := ks ++ (matched fault (openNames names ks) ls).tokens
          fault := (matched fault (openNames names ks) ls).fault } := by
  induction ks generalizing names with
  | nil => exact Or.inr fun _ _ => rfl
  | cons k ks ih =>
    have more : (∀ fault ls, matched fault names (k :: ls) = (matched fault (nextNames names k) ls).cons k) →
        (∀ fault ls, matched fault names (k :: ks ++ ls) = matched none names (k :: ks)) ∨
          ∀ fault ls, matched fault names (k :: ks ++ ls) =
            { tokens := k :: ks ++ (matched fault (openNames names (k :: ks)) ls).tokens
              fault := (matched fault (openNames names (k :: ks)) ls).fault } := by
      intro hcons
      refine (ih (nextNames names k)).imp (fun h fault ls => ?_) fun h fault ls => ?_
      · rw [List.cons_append, hcons, hcons, h]
      · rw [List.cons_append, hcons, h]
        rfl
    by_cases hk : k.isLeaf = true
    · refine more fun fault ls => ?_
      rw [matched_cons_of_isLeaf hk]
      cases k <;> first | rfl | cases hk
    · cases k <;> first | exact absurd rfl hk | skip
      · exact more fun _ _ => rfl
      · next written =>
        cases names with
        | nil => exact Or.inl fun _ _ => rfl
        | cons expected outer =>
          by_cases hname : expected = closeName written
          · exact more fun fault ls => by rw [matched_close, if_pos hname]; rfl
          · refine Or.inl fun fault ls => ?_
            rw [List.cons_append, matched_close, matched_close, if_neg hname, if_neg hname]

theorem Scan.Extends.matched {s s' : Scan} (h : s.Extends s') (names : List Text) :
    (Markup.matched s.fault names s.tokens).Extends (Markup.matched s'.fault names s'.tokens) := by
  cases h with
  | same h => exact .same (by rw [h])
  | more ls htokens hfault =>
    rw [htokens]
    rcases matched_append names s.tokens with hstop | hread
    · have hs := hstop s.fault []
      rw [List.append_nil] at hs
      exact .same ((hstop s'.fault ls).trans hs.symm)
    · have hs := hread s.fault []
      rw [List.append_nil] at hs
      rw [hs, hread s'.fault ls]
      exact .more (Markup.matched s'.fault (openNames names s.tokens) ls).tokens (by simp [Markup.matched]) hfault
  | text ks content rest ls hs htokens =>
    rw [hs, htokens]
    rcases matched_append names ks with hstop | hread
    · exact .same ((hstop s'.fault _).trans (hstop none _).symm)
    · rw [hread none, hread s'.fault]
      exact .text ks content rest _ rfl rfl

end StringResources.Markup

namespace StringResources.Parse
open Markup Text

/-! ### Tokens read over a longer text -/

/-- A result that stays, unless it is a torn span. -/
def Lasts {α : Type} (x y : Except Stop α) : Prop := x ≠ .error .torn → y = x

section Lasts
variable {t : Text} {s : State}

theorem Lasts.refl {α : Type} (x : Except Stop α) : Lasts x x := fun _ => rfl

theorem Lasts.bind {α β : Type} {x y : Except Stop α} {f g : α → Except Stop β} (h : Lasts x y)
    (hf : ∀ a, Lasts (f a) (g a)) : Lasts (x >>= f) (y >>= g) := by
  intro htorn
  cases x with
  | error stop =>
    have hy : y = .error stop := h fun hstop => htorn (by rw [Except.error.inj hstop]; rfl)
    rw [hy]
    rfl
  | ok a =>
    have hy : y = .ok a := h (by simp)
    rw [hy]
    exact hf a htorn

theorem Lasts.sliceOf (t u : Text) (span : Span) : Lasts (Parse.sliceOf t span) (Parse.sliceOf (t ++ u) span) := by
  intro htorn
  cases hslice : span.slice? t with
  | none => exact absurd (by rw [Parse.sliceOf, hslice]) htorn
  | some content =>
    obtain ⟨a, b, rfl, hstart, hstop⟩ := slice?_eq_some_iff.mp hslice
    rw [sliceOf_eq_ok_iff.mpr hslice, sliceOf_eq_ok_iff]
    exact slice?_eq_some_iff.mpr ⟨a, b ++ u, by simp, hstart, hstop⟩

theorem Lasts.indentAfter (t u : Text) (indent : Option Text) (start : Nat) :
    Lasts (Parse.indentAfter t indent start) (Parse.indentAfter (t ++ u) indent start) := by
  cases indent with
  | some i => exact .refl _
  | none => exact (Lasts.sliceOf t u _).bind fun before => .refl _

theorem Lasts.pushEntry (t u : Text) (s : State) (key : Key) (translatable : Bool) (value : Text) (span : Span) :
    Lasts (Parse.pushEntry t s key translatable value span)
      (Parse.pushEntry (t ++ u) s key translatable value span) := by
  unfold Parse.pushEntry
  split
  · exact .refl _
  · exact (Lasts.indentAfter t u _ _).bind fun indent => (Lasts.sliceOf t u _).bind fun element => .refl _

theorem Lasts.onText (t u : Text) (s : State) (span : Span) :
    Lasts (Parse.onText t s span) (Parse.onText (t ++ u) s span) := by
  unfold Parse.onText
  split
  · exact (Lasts.sliceOf t u _).bind fun content => .refl _
  · exact .refl _

theorem Lasts.onEmpty (t u : Text) (s : State) (tag : Tag) (span : Span) :
    Lasts (Parse.onEmpty t s tag span) (Parse.onEmpty (t ++ u) s tag span) := by
  unfold Parse.onEmpty
  split
  · exact .refl _
  · split
    · exact .refl _
    · exact (Lasts.refl _).bind fun x => Lasts.pushEntry t u _ _ _ _ _
  · exact .refl _

theorem Lasts.onClose (t u : Text) (s : State) (span : Span) :
    Lasts (Parse.onClose t s span) (Parse.onClose (t ++ u) s span) := by
  unfold Parse.onClose
  split
  · exact .refl _
  · exact .refl _
  · split
    · exact .refl _
    · exact (Lasts.sliceOf t u _).bind fun value => Lasts.pushEntry t u _ _ _ _ _
  · exact .refl _

/-- A token is read in the same way when more text follows. -/
theorem Lasts.step (t u : Text) (s : State) (k : Token) : Lasts (Parse.step t s k) (Parse.step (t ++ u) s k) := by
  cases k with
  | text content => exact Lasts.onText t u _ _
  | cdata content => exact Lasts.onText t u _ _
  | empty tag => exact Lasts.onEmpty t u _ _ _
  | close written => exact Lasts.onClose t u _ _
  | _ => exact .refl _

theorem Lasts.foldlM (t u : Text) (s : State) (ks : List Token) :
    Lasts (ks.foldlM (Parse.step t) s) (ks.foldlM (Parse.step (t ++ u)) s) := by
  induction ks generalizing s with
  | nil => exact .refl _
  | cons k ks ih =>
    rw [List.foldlM_cons, List.foldlM_cons]
    exact (Lasts.step t u s k).bind fun s => ih s

/-- Characters that may not stand outside a root may not if there are more of them. -/
theorem AllSpace.of_append {content rest : Text} (h : AllSpace (content ++ rest)) : AllSpace content := by
  rw [AllSpace, List.dropWhile_append] at h
  rw [AllSpace]
  split at h
  · next hnil =>
    rw [List.isEmpty_iff] at hnil
    rw [hnil]
    rfl
  · rw [List.all_append, Bool.and_eq_true] at h
    exact h.1

/-- Characters in fault are in fault with more of them. -/
theorem step_text_error {before content rest after : Text} {t' after' : Text} (ht : t = before ++ (content ++ after))
    (ht' : t' = before ++ ((content ++ rest) ++ after')) (ho : s.offset = before.size) {stop : Stop}
    (h : Parse.step t s (.text content) = .error stop) : Parse.step t' s (.text (content ++ rest)) = .error stop := by
  have hslice : ∀ {u x y : Text}, u = before ++ (x ++ y) →
      (⟨s.offset, s.offset + (Token.text x).size⟩ : Span).slice? u = some x := by
    rintro u x y rfl
    have hspan : (⟨s.offset, s.offset + (Token.text x).size⟩ : Span) = spanAfter before x := by
      rw [spanAfter, ho, size_append]
      rfl
    rw [hspan]
    exact slice?_spanAfter before x y
  obtain ⟨⟨hdepth, hspace⟩, rfl⟩ := (onText_eq_error_iff (hslice ht)).mp h
  exact (onText_eq_error_iff (hslice ht')).mpr ⟨⟨hdepth, fun hmore => hspace hmore.of_append⟩, rfl⟩

end Lasts

/-! ### A longer text -/

theorem ne_nil_of_run_error {t : Text} {stop : Stop} (h : run t = .error stop) : t ≠ [] := by
  rintro rfl
  have hread : Markup.read [] = { tokens := [], fault := none } := by
    rw [Markup.read, withoutMark, scan_nil]
    rfl
  rw [run, hread] at h
  cases h

theorem unmarked_append {t : Text} (ht : Unmarked t) (hne : t ≠ []) (u : Text) : Unmarked (t ++ u) := by
  obtain ⟨c, t, rfl⟩ := List.exists_cons_of_ne_nil hne
  exact ht

theorem extends_read {t : Text} (ht : Unmarked t) (hne : t ≠ []) (u : Text) :
    (Markup.read t).Extends (Markup.read (t ++ u)) := by
  rw [Markup.read, Markup.read, withoutMark_eq ht, withoutMark_eq (unmarked_append ht hne u)]
  exact (extends_scan t u).matched []

/-- A text in which a token is in fault is in fault with more text after it. -/
theorem foldlM_read_append {t : Text} (ht : Unmarked t) (hne : t ≠ []) (u : Text) {n : Nat} {cause : ParseError.Cause}
    (h : (Markup.read t).tokens.foldlM (Parse.step t) {} = .error (.fault n cause)) :
    (Markup.read (t ++ u)).tokens.foldlM (Parse.step (t ++ u)) {} = .error (.fault n cause) := by
  have hlasts : ∀ {ks : List Token} {x : Except Stop State}, ks.foldlM (Parse.step t) {} = x → x ≠ .error .torn →
      ks.foldlM (Parse.step (t ++ u)) {} = x := by
    rintro ks _ rfl htorn
    exact Lasts.foldlM t u {} ks htorn
  obtain ⟨after, hafter⟩ := exists_sources_read ht
  obtain ⟨after', hafter'⟩ := exists_sources_read (unmarked_append ht hne u)
  cases extends_read ht hne u with
  | same hsame =>
    rw [hsame]
    exact hlasts h (by simp)
  | more ls htokens =>
    rw [htokens]
    exact foldlM_append_eq_error_iff.mpr (Or.inl (hlasts h (by simp)))
  | text ks content rest ls hread htokens =>
    rw [hread, sources_append, sources_cons, sources_nil, List.append_nil, List.append_assoc] at hafter
    rw [htokens, sources_append, sources_cons, List.append_assoc, List.append_assoc] at hafter'
    rw [hread] at h
    rw [htokens]
    rcases foldlM_append_eq_error_iff.mp h with h | ⟨s, hs, h⟩
    · exact foldlM_append_eq_error_iff.mpr (Or.inl (hlasts h (by simp)))
    · have hoffset : s.offset = (sources ks).size := by
        rw [(foldlM_kept hs).offset]
        exact Nat.zero_add _
      rcases foldlM_cons_eq_error_iff.mp h with h | ⟨s', -, h⟩
      · exact foldlM_append_eq_error_iff.mpr (Or.inr ⟨s, hlasts hs (by simp),
          foldlM_cons_eq_error_iff.mpr (Or.inl (step_text_error hafter hafter' hoffset h))⟩)
      · cases h

theorem run_append_of_error {t : Text} (ht : Unmarked t) {n : Nat} {cause : ParseError.Cause}
    (h : run t = .error (.fault n cause)) (hworded : ¬ "syntax error".toList <+: cause.message) (u : Text) :
    run (t ++ u) = .error (.fault n cause) := by
  have hne := ne_nil_of_run_error h
  rcases run_eq_error_iff.mp h with h | ⟨s, fault, hs, hfault, hstop⟩
  · exact run_eq_error_iff.mpr (Or.inl (foldlM_read_append ht hne u h))
  · obtain ⟨rfl, rfl⟩ := Stop.fault.inj hstop
    cases extends_read ht hne u with
    | same hsame =>
      refine run_eq_error_iff.mpr (Or.inr ⟨s, fault, ?_, by rw [hsame, hfault], rfl⟩)
      rw [hsame, Lasts.foldlM t u {} _ (by simp [hs]), hs]
    | more ls htokens hmore => exact absurd (hmore fault hfault).2 hworded
    | text ks content rest ls hread =>
      rw [hread] at hfault
      cases hfault

theorem document_append_of_error {path t : Text} (ht : Unmarked t) {n : Nat} {cause : ParseError.Cause}
    (h : document path t = .error (.fault n cause)) (hworded : ¬ "syntax error".toList <+: cause.message)
    (hopen : cause ≠ .openRoot) (hroot : cause ≠ .noRoot) (u : Text) :
    document path (t ++ u) = .error (.fault n cause) := by
  rcases document_eq_error_iff.mp h with hrun | ⟨s, -, ⟨-, hstop⟩ | ⟨-, -, hstop⟩⟩
  · exact document_eq_error_iff.mpr (Or.inl (run_append_of_error ht hrun hworded u))
  · exact absurd (Stop.fault.inj hstop).2 hopen
  · exact absurd (Stop.fault.inj hstop).2 hroot

end StringResources.Parse

namespace StringResources
open Parse Text

/-- An error of a text stays the same whatever follows the text, but for a token that was not ended, a root that was not
    closed and a root that was not found. -/
theorem parse_append_of_error {path t : Text} (ht : Unmarked t) {e : ParseError}
    (h : parse path t = .error (.error e)) (hworded : ¬ "syntax error".toList <+: e.cause.message)
    (hopen : e.cause ≠ .openRoot) (hroot : e.cause ≠ .noRoot) (u : Text) :
    parse path (t ++ u) = .error (.error e) := by
  unfold parse at h
  split at h
  · cases h
  · next n cause hstop =>
    cases h
    obtain ⟨n, cause', hfault, hat⟩ := document_error ht hstop
    cases hfault
    unfold parse
    rw [document_append_of_error ht hstop hworded hopen hroot u]
    dsimp only
    rw [location_append hat.boundary]
  · cases h

/-- Characters after the root are in fault, also when more of them follow. -/
theorem parse_append_of_error_after_root :
    Unmarked "<resources/>\nx".toList ∧
      parse [] "<resources/>\nx".toList =
        .error (.error { path := [], location := { line := 1, column := 13 }, cause := .textOutside }) ∧
      ¬ "syntax error".toList <+: ParseError.Cause.textOutside.message ∧
      ∀ u, parse [] ("<resources/>\nx".toList ++ u) =
        .error (.error { path := [], location := { line := 1, column := 13 }, cause := .textOutside }) := by
  have ht : Unmarked "<resources/>\nx".toList := by decide
  have h : parse [] "<resources/>\nx".toList =
      .error (.error { path := [], location := { line := 1, column := 13 }, cause := .textOutside }) := by
    decide +kernel
  have hworded : ¬ "syntax error".toList <+: ParseError.Cause.textOutside.message := by decide
  exact ⟨ht, h, hworded, parse_append_of_error ht h hworded (by simp) (by simp)⟩

end StringResources
