import StringResources.Proofs.Markup.Forest

/-! What stops the reading of tokens, and where. A token cannot be read, which is a fault at its start but for a
    document type without a name, or an end tag does not close the innermost open element. Main statements:
    `next_error`, `scan_fault` and `matched_fault`. -/

namespace StringResources.Markup
open Text

/-! ### Tokens that cannot be read -/

/-- A fault at the start of a token, worded as an error of syntax. -/
def Fault.Syntax (fault : Fault) : Prop := fault.offset = 0 ∧ "syntax error".toList <+: fault.error.message

/-- The text of a document type declaration that gives no name. -/
def Nameless (content : Text) : Prop :=
  ∃ name, afterKeyword? "DOCTYPE".toList content = some name ∧ name.all isBlank = true

/-- Reader `f` stops in `t` at the bracket that closes a document type without a name, which stands after `lead`, and
    stops there whatever follows the bracket. -/
def AtDoctype (f : Text → Except Fault (Token × Text)) (lead t : Text) (fault : Fault) : Prop :=
  ∃ content r, t = lead ++ (content ++ '>' :: r) ∧ Nameless content ∧
    fault = { offset := content.size + 2, error := .namelessDoctype } ∧
      ∀ r', f (lead ++ (content ++ '>' :: r')) = .error fault

section Next
variable {t : Text} {fault : Fault}

theorem nextComment_error (h : nextComment t = .error fault) : fault.Syntax := by
  unfold nextComment at h
  split at h <;> cases h
  exact ⟨rfl, by decide⟩

theorem nextCData_error (h : nextCData t = .error fault) : fault.Syntax := by
  unfold nextCData at h
  split at h <;> cases h
  exact ⟨rfl, by decide⟩

theorem nextDoctype_error (h : nextDoctype t = .error fault) : fault.Syntax ∨ AtDoctype nextDoctype [] t fault := by
  unfold nextDoctype at h
  split at h
  · cases h
    exact Or.inl ⟨rfl, by decide⟩
  · next content rest hend =>
    split at h
    · cases h
      exact Or.inl ⟨rfl, by decide⟩
    · next name hname =>
      split at h
      · next hblank =>
        cases h
        refine Or.inr ⟨content, rest, eq_append_of_doctypeEnd? hend, ⟨name, hname, hblank⟩, rfl, fun r' => ?_⟩
        simp only [nextDoctype, List.nil_append, doctypeEnd?_append hend r', hname, if_pos hblank]
      · cases h

theorem nextDeclaration_error (h : nextDeclaration t = .error fault) :
    fault.Syntax ∨ AtDoctype nextDeclaration [] t fault := by
  unfold nextDeclaration at h
  split at h
  · cases h
    exact Or.inl ⟨rfl, by decide⟩
  · next c t =>
    split at h
    · split at h
      · exact Or.inl (nextComment_error h)
      · cases h
        exact Or.inl ⟨rfl, by decide⟩
    · next hcomment =>
      split at h
      · split at h
        · exact Or.inl (nextCData_error h)
        · cases h
          exact Or.inl ⟨rfl, by decide⟩
      · next hcdata =>
        split at h
        · next hd =>
          refine (nextDoctype_error h).imp_right ?_
          rintro ⟨content, r, ht, hnameless, hfault, hfinal⟩
          refine ⟨content, r, ht, hnameless, hfault, fun r' => ?_⟩
          obtain ⟨a, content, rfl⟩ : ∃ a rest, content = a :: rest := by
            refine List.exists_cons_of_ne_nil ?_
            rintro rfl
            obtain ⟨name, hname, -⟩ := hnameless
            cases hname
          obtain ⟨rfl, -⟩ := List.cons.inj ht
          have hread := hfinal r'
          rw [List.nil_append, List.cons_append] at hread ⊢
          rw [nextDeclaration.eq_def]
          dsimp only
          rw [if_neg hcomment, if_neg hcdata, if_pos hd]
          exact hread
        · cases h
          exact Or.inl ⟨rfl, by decide⟩

theorem nextInstruction_error (h : nextInstruction t = .error fault) : fault.Syntax := by
  unfold nextInstruction at h
  split at h
  · cases h
    exact ⟨rfl, by decide⟩
  · split at h <;> cases h
    exact ⟨rfl, by decide⟩

theorem nextClose_error (h : nextClose t = .error fault) : fault.Syntax := by
  unfold nextClose at h
  split at h <;> cases h
  exact ⟨rfl, by decide⟩

theorem nextTag_error (h : nextTag t = .error fault) : fault.Syntax := by
  unfold nextTag at h
  split at h
  · split at h <;> cases h
  · cases h
    exact ⟨rfl, by decide⟩

theorem nextMarkup_error (h : nextMarkup t = .error fault) : fault.Syntax ∨ AtDoctype nextMarkup ['!'] t fault := by
  unfold nextMarkup at h
  split at h
  · cases h
    exact Or.inl ⟨rfl, by decide⟩
  · next c r =>
    split at h
    · next hc =>
      refine (nextDeclaration_error h).imp_right ?_
      rintro ⟨content, r, rfl, hnameless, hfault, hfinal⟩
      exact ⟨content, r, by rw [hc]; rfl, hnameless, hfault, fun r' => hfinal r'⟩
    · split at h
      · exact Or.inl (nextInstruction_error h)
      · split at h
        · exact Or.inl (nextClose_error h)
        · exact Or.inl (nextTag_error h)

/-- What cannot be read as a token is faulted at its start, or is a document type without a name. -/
theorem next_error (h : next t = .error fault) : fault.Syntax ∨ AtDoctype next ['<', '!'] t fault := by
  unfold next at h
  split at h
  · cases h
  · next c r =>
    split at h
    · next hc =>
      refine (nextMarkup_error h).imp_right ?_
      rintro ⟨content, r, rfl, hnameless, hfault, hfinal⟩
      exact ⟨content, r, by rw [hc]; rfl, hnameless, hfault, fun r' => hfinal r'⟩
    · cases h

theorem Fault.Syntax.ne_namelessDoctype (h : fault.Syntax) : fault.error ≠ .namelessDoctype := by
  intro heq
  have hmessage := h.2
  rw [heq] at hmessage
  exact absurd hmessage (by decide)

end Next

/-! ### Texts with such a token -/

/-- The reading of a text stops where a token cannot be read. -/
theorem scan_fault {t : Text} {fault : Fault} (h : (scan t).fault = some fault) :
    ∃ rest, t = sources (scan t).tokens ++ rest ∧ next rest = .error fault := by
  fun_induction scan t with
  | case1 => cases h
  | case2 t ht f hf =>
    obtain rfl := Option.some.inj h
    exact ⟨t, rfl, hf⟩
  | case3 t ht k r hk ih =>
    obtain ⟨rest, hrest, hf⟩ := ih h
    refine ⟨rest, ?_, hf⟩
    rw [Scan.cons, sources_cons, List.append_assoc, ← hrest]
    exact next_source hk

theorem source_ne_nil_of_mem_scan {t : Text} {k : Token} (h : k ∈ (scan t).tokens) : k.source ≠ [] := by
  fun_induction scan t with
  | case1 => cases h
  | case2 t ht f hf => cases h
  | case3 t ht l r hl ih =>
    rcases List.mem_cons.mp h with rfl | h
    · exact source_ne_nil_of_next ht hl
    · exact ih h

/-! ### End tags -/

/-- The names of the elements that are open after a token, innermost first. -/
def nextNames (names : List Text) : Token → List Text
  | .start tag => tag.name :: names
  | .close _ => names.tail
  | _ => names

/-- The names of the elements that are open after tokens. -/
def openNames (names : List Text) (ks : List Token) : List Text := ks.foldl nextNames names

theorem length_openNames (names : List Text) (ks : List Token) :
    (openNames names ks).length = level names.length ks := by
  induction ks generalizing names with
  | nil => rfl
  | cons k ks ih =>
    have hnext : (nextNames names k).length = nextLevel names.length k := by cases k <;> simp [nextNames, nextLevel]
    rw [openNames, List.foldl_cons, level, List.foldl_cons, ← hnext]
    exact ih (nextNames names k)

section Matched
variable {fault : Option Fault} {names : List Text} {ks ls post : List Token} {k : Token}

/-- After a token that was read, end tags are held against the names that are open then. -/
theorem matched_of_tokens_cons (h : (matched fault names ls).tokens = k :: post) :
    (∃ ls', ls = k :: ls' ∧ (matched fault (nextNames names k) ls').tokens = post) ∧
      ∀ written, k = .close written → names ≠ [] := by
  cases ls with
  | nil => cases h
  | cons l ls =>
    by_cases hl : l.isLeaf = true
    · rw [matched_cons_of_isLeaf hl] at h
      obtain ⟨rfl, hpost⟩ := List.cons.inj h
      refine ⟨⟨ls, rfl, ?_⟩, ?_⟩
      · cases l <;> first | exact hpost | cases hl
      · rintro written rfl
        cases hl
    · cases l <;> first | exact absurd rfl hl | skip
      · obtain ⟨rfl, hpost⟩ := List.cons.inj h
        exact ⟨⟨ls, rfl, hpost⟩, by simp⟩
      · cases names with
        | nil => cases h
        | cons expected outer =>
          rw [matched_close] at h
          split at h
          · obtain ⟨rfl, hpost⟩ := List.cons.inj h
            exact ⟨⟨ls, rfl, hpost⟩, by simp⟩
          · cases h

theorem matched_of_tokens_append (h : (matched fault names ls).tokens = ks ++ post) :
    ∃ ls', ls = ks ++ ls' ∧ (matched fault (openNames names ks) ls').tokens = post := by
  induction ks generalizing names ls with
  | nil => exact ⟨ls, rfl, h⟩
  | cons k ks ih =>
    obtain ⟨⟨ls', rfl, htokens⟩, -⟩ := matched_of_tokens_cons h
    obtain ⟨ls'', rfl, hrest⟩ := ih htokens
    exact ⟨ls'', rfl, hrest⟩

/-- An end tag that is read closes an element. -/
theorem openNames_ne_nil {written : Text} (h : (matched fault names ls).tokens = ks ++ .close written :: post) :
    openNames names ks ≠ [] := by
  obtain ⟨ls', -, htokens⟩ := matched_of_tokens_append h
  exact (matched_of_tokens_cons htokens).2 written rfl

/-- A fault of an end tag that does not close the innermost open element. -/
def Fault.OfClose (fault : Fault) : Prop :=
  fault.offset = 0 ∧ ((∃ expected found, fault.error = .mismatchedClose expected found) ∨
    ∃ found, fault.error = .unmatchedClose found)

/-- Tokens held against the open elements are in fault at the first end tag that does not close the innermost, or
    all of them are read, up to where they end. -/
theorem matched_fault {f : Fault} (h : (matched fault names ls).fault = some f) :
    (fault = some f ∧ (matched fault names ls).tokens = ls) ∨
      f.OfClose ∧ ∃ written post, ls = (matched fault names ls).tokens ++ .close written :: post := by
  induction ls generalizing names with
  | nil => exact Or.inl ⟨h, rfl⟩
  | cons l ls ih =>
    have more : ∀ {names' : List Text}, matched fault names (l :: ls) = (matched fault names' ls).cons l →
        (fault = some f ∧ (matched fault names (l :: ls)).tokens = l :: ls) ∨
          f.OfClose ∧ ∃ written post, l :: ls = (matched fault names (l :: ls)).tokens ++ .close written :: post := by
      intro names' heq
      rw [heq] at h ⊢
      rcases ih h with ⟨hf, htokens⟩ | ⟨hclose, written, post, hls⟩
      · exact Or.inl ⟨hf, congrArg (l :: ·) htokens⟩
      · exact Or.inr ⟨hclose, written, post, congrArg (l :: ·) hls⟩
    by_cases hl : l.isLeaf = true
    · exact more (matched_cons_of_isLeaf hl fault names ls)
    · cases l <;> first | exact absurd rfl hl | skip
      · exact more rfl
      · next written =>
        cases names with
        | nil =>
          obtain rfl := Option.some.inj h
          exact Or.inr ⟨⟨rfl, Or.inr ⟨_, rfl⟩⟩, written, ls, rfl⟩
        | cons expected outer =>
          by_cases hname : expected = closeName written
          · exact more (by rw [matched_close, if_pos hname])
          · rw [matched_close, if_neg hname] at h ⊢
            obtain rfl := Option.some.inj h
            exact Or.inr ⟨⟨rfl, Or.inl ⟨_, _, rfl⟩⟩, written, ls, rfl⟩

end Matched

end StringResources.Markup
