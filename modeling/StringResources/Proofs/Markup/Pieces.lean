import StringResources.Proofs.Markup.Alone

/-! Scanning a text that was put together from tokens. Markup is found again as it is; characters are
    found again as longest runs, so those that now stand side by side are read as one token (`glue`). Main
    statements: `scan_sources_append` and `scan_eq_iff`. -/

namespace StringResources.Markup
open Text

/-- The text that tokens were read from. -/
def sources (ks : List Token) : Text := ks.flatMap Token.source

@[simp] theorem sources_nil : sources [] = [] := rfl

@[simp] theorem sources_cons (k : Token) (ks : List Token) : sources (k :: ks) = k.source ++ sources ks := rfl

@[simp] theorem sources_append (ks ls : List Token) : sources (ks ++ ls) = sources ks ++ sources ls :=
  List.flatMap_append

/-- A token that can be put between others: markup that stands alone, or characters, none of which
    begins markup. -/
def Token.Loose : Token → Prop
  | .text content => '<' ∉ content
  | k => k.Alone

theorem Token.loose_of_alone {k : Token} (h : k.isText = false) (ha : k.Alone) : k.Loose := by
  cases k <;> first | exact ha | cases h

theorem Token.Loose.alone {k : Token} (h : k.Loose) (hk : k.isText = false) : k.Alone := by
  cases k <;> first | exact h | cases hk

theorem Token.exists_source {k : Token} (hk : k.isText = false) : ∃ s, k.source = '<' :: s := by
  cases k <;> first | exact ⟨_, rfl⟩ | cases hk

theorem Token.exists_source_concat {k : Token} (hk : k.isText = false) : ∃ s, k.source = s ++ ['>'] := by
  cases k with
  | text content => cases hk
  | comment content => exact ⟨'<' :: '!' :: '-' :: '-' :: (content ++ ['-', '-']), by simp [source, commentEnd]⟩
  | cdata content => exact ⟨'<' :: '!' :: '[' :: (cdataKeyword ++ (content ++ [']', ']'])), by simp [source, cdataEnd]⟩
  | instruction content => exact ⟨'<' :: '?' :: (content ++ ['?']), by simp [source, instructionEnd]⟩
  | doctype content => exact ⟨'<' :: '!' :: content, rfl⟩
  | start tag => exact ⟨'<' :: tag.content, rfl⟩
  | empty tag => exact ⟨'<' :: (tag.content ++ ['/']), by simp [source]⟩
  | close written => exact ⟨'<' :: '/' :: written, rfl⟩

/-! ### Runs of characters -/

/-- Tokens with characters in front, which go into a run of characters that the tokens begin with. -/
def addText (content : Text) : List Token → List Token
  | .text run :: ks => .text (content ++ run) :: ks
  | ks => if content = [] then ks else .text content :: ks

/-- Tokens with all neighbouring characters put together. -/
def glue : List Token → List Token
  | [] => []
  | .text content :: ks => addText content (glue ks)
  | k :: ks => k :: glue ks

@[simp] theorem addText_nil (ks : List Token) : addText [] ks = ks := by
  unfold addText
  split <;> simp

theorem addText_append {ls : List Token} (hl : ∀ k ∈ ls.head?, k.isText = false) (content : Text) (ks : List Token) :
    addText content (ks ++ ls) = addText content ks ++ ls := by
  cases ks with
  | nil =>
    cases ls with
    | nil => simp
    | cons k ls =>
      have hk := hl k rfl
      cases k <;> first | (simp [addText]; split <;> rfl) | cases hk
  | cons k ks => cases k <;> simp [addText] <;> split <;> rfl

theorem glue_cons_of_markup {k : Token} (hk : k.isText = false) (ks : List Token) : glue (k :: ks) = k :: glue ks := by
  cases k <;> first | rfl | cases hk

theorem glue_append_markup {k : Token} (hk : k.isText = false) (ks ls : List Token) :
    glue (ks ++ k :: ls) = glue ks ++ k :: glue ls := by
  induction ks with
  | nil => exact glue_cons_of_markup hk ls
  | cons l ks ih =>
    by_cases hl : l.isText = false
    · rw [List.cons_append, glue_cons_of_markup hl, glue_cons_of_markup hl, ih, List.cons_append]
    · cases l <;> first | exact absurd rfl hl | skip
      rw [List.cons_append, glue, glue, ih, addText_append]
      rintro _ ⟨⟩
      exact hk

theorem sources_addText (content : Text) (ks : List Token) : sources (addText content ks) = content ++ sources ks := by
  unfold addText
  split
  · simp [Token.source]
  · split
    · next h => simp [h]
    · simp [Token.source]

theorem sources_glue (ks : List Token) : sources (glue ks) = sources ks := by
  induction ks with
  | nil => rfl
  | cons k ks ih =>
    by_cases hk : k.isText = false
    · rw [glue_cons_of_markup hk, sources_cons, ih, sources_cons]
    · cases k <;> first | exact absurd rfl hk | skip
      rw [glue, sources_addText, ih]
      rfl

theorem length_addText_le (content : Text) (ks : List Token) : (addText content ks).length ≤ ks.length + 1 := by
  unfold addText
  split
  · simp
  · split <;> simp

theorem length_glue_le (ks : List Token) : (glue ks).length ≤ ks.length := by
  induction ks with
  | nil => exact Nat.le_refl _
  | cons k ks ih =>
    by_cases hk : k.isText = false
    · rw [glue_cons_of_markup hk]
      simpa using ih
    · cases k <;> first | exact absurd rfl hk | skip
      exact Nat.le_trans (length_addText_le _ _) (by simpa using ih)

/-- Tokens with no neighbouring characters have none on either side of markup among them. -/
theorem glue_eq_of_append {k : Token} (hk : k.isText = false) {ks ls : List Token}
    (h : glue (ks ++ k :: ls) = ks ++ k :: ls) : glue ks = ks ∧ glue ls = ls := by
  rw [glue_append_markup hk] at h
  have hks := length_glue_le ks
  have hls := length_glue_le ls
  have hlen := congrArg List.length h
  simp only [List.length_append, List.length_cons] at hlen
  obtain ⟨h₁, h₂⟩ := List.append_inj h (by omega)
  exact ⟨h₁, (List.cons.inj h₂).2⟩

/-! ### Scanning -/

theorem isText_of_head?_scan {t : Text} : ∀ k ∈ (scan ('<' :: t)).tokens.head?, k.isText = false := by
  intro k hk
  cases h : next ('<' :: t) with
  | error f =>
    rw [scan_of_error h] at hk
    cases hk
  | ok x =>
    rw [scan_of_ok (List.cons_ne_nil _ _) h] at hk
    obtain rfl := Option.some.inj hk
    exact (next_alone h).1

theorem scan_append_text {content : Text} (h : '<' ∉ content) (t : Text) :
    scan (content ++ t) = { scan t with tokens := addText content (scan t).tokens } := by
  have hall : ∀ c ∈ content, (c != '<') = true := fun c hc => by
    simp only [bne_iff_ne]
    rintro rfl
    exact h hc
  cases content with
  | nil => simp
  | cons a content =>
    have hne : a ≠ '<' := fun ha => h (ha ▸ List.mem_cons_self)
    have hnext : next (a :: content ++ t) =
        .ok (.text ((a :: content) ++ t.takeWhile (· != '<')), t.dropWhile (· != '<')) := by
      rw [List.cons_append, next, if_neg hne, ← List.cons_append, List.takeWhile_append_of_pos hall,
        List.dropWhile_append_of_pos hall]
    rw [scan_of_ok (by simp) hnext]
    cases t with
    | nil => simp [Scan.cons, addText]
    | cons b t =>
      by_cases hb : b = '<'
      · subst hb
        have hhead := isText_of_head?_scan (t := t)
        simp only [bne_self_eq_false, Bool.false_eq_true, not_false_eq_true, List.takeWhile_cons_of_neg,
          List.append_nil, List.dropWhile_cons_of_neg, Scan.cons]
        have := addText_append hhead (a :: content) []
        rw [List.nil_append] at this
        rw [this]
        simp [addText]
      · have ht : next (b :: t) = .ok (.text ((b :: t).takeWhile (· != '<')), (b :: t).dropWhile (· != '<')) := by
          rw [next, if_neg hb]
        rw [scan_of_ok (List.cons_ne_nil _ _) ht]
        rfl

/-- Tokens put together, before the end or more markup, are read again with neighbouring characters put
    together. -/
theorem scan_sources_append {ks : List Token} (h : ∀ k ∈ ks, k.Loose) {r : Text} (hr : ∀ c ∈ r.head?, c = '<') :
    scan (sources ks ++ r) = { scan r with tokens := glue ks ++ (scan r).tokens } := by
  induction ks with
  | nil => rfl
  | cons k ks ih =>
    rw [List.forall_mem_cons] at h
    rw [sources_cons, List.append_assoc]
    by_cases hk : k.isText = false
    · obtain ⟨s, hs⟩ := Token.exists_source hk
      rw [scan_of_ok (by simp [hs]) (h.1.alone hk _), ih h.2, glue_cons_of_markup hk]
      rfl
    · have hhead : ∀ k ∈ (scan r).tokens.head?, k.isText = false := by
        cases r with
        | nil => simp
        | cons c r =>
          obtain rfl := hr c rfl
          exact isText_of_head?_scan
      cases k <;> first | exact absurd rfl hk | skip
      next content =>
        rw [Token.source, scan_append_text h.1, ih h.2, addText_append hhead]
        rfl

theorem scan_sources {ks : List Token} (h : ∀ k ∈ ks, k.Loose) :
    scan (sources ks) = { tokens := glue ks, fault := none } := by
  have := scan_sources_append h (r := []) (by simp)
  simpa using this

theorem loose_of_mem_scan (t : Text) : ∀ k ∈ (scan t).tokens, k.Loose := by
  fun_induction scan t with
  | case1 => simp
  | case2 => simp
  | case3 t ht k rest h ih =>
    rw [Scan.cons, List.forall_mem_cons]
    refine ⟨?_, ih⟩
    cases t with
    | nil => exact absurd rfl ht
    | cons c t =>
      by_cases hc : c = '<'
      · subst hc
        exact Token.loose_of_alone (next_alone h).1 (next_alone h).2
      · rw [next, if_neg hc] at h
        obtain ⟨rfl, -⟩ := Prod.mk.inj (Except.ok.inj h)
        intro hmem
        have := List.mem_takeWhile_imp hmem
        simp at this

/-- A text is read to its end as those tokens of which it is put together and of which no two neighbours
    are characters. -/
theorem scan_eq_iff {t : Text} {ks : List Token} :
    scan t = { tokens := ks, fault := none } ↔ t = sources ks ∧ (∀ k ∈ ks, k.Loose) ∧ glue ks = ks := by
  constructor
  · intro h
    have hloose := loose_of_mem_scan t
    obtain ⟨rest, ht, hrest⟩ := scan_source t
    rw [h] at hloose ht hrest
    obtain rfl := hrest rfl
    rw [List.append_nil] at ht
    refine ⟨ht, hloose, ?_⟩
    have := scan_sources hloose
    rw [sources, ← ht, h] at this
    exact (congrArg Scan.tokens this).symm
  · rintro ⟨rfl, hloose, hglue⟩
    rw [scan_sources hloose, hglue]

end StringResources.Markup
