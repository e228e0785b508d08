import StringResources.Proofs.Markup.Pieces

/-! Tokens as a forest. An element is a start tag, a forest and the end tag that closes it, and what is
    neither a start nor an end tag is a leaf. Main statements: `read_of_forest`, the tokens of a forest
    are read without a fault, and `exists_forest`, tokens read without a fault that leave no element open
    are those of a forest. -/

namespace StringResources.Markup
open Text

/-- Whether a token neither opens nor closes an element. -/
def Token.isLeaf : Token → Bool
  | .start _ => false
  | .close _ => false
  | _ => true

/-- Leaves and elements side by side. -/
inductive Forest where
  | nil
  | leaf (k : Token) (isLeaf : k.isLeaf = true) (rest : Forest)
  | element (tag : Tag) (body : Forest) (written : Text) (closes : closeName written = tag.name) (rest : Forest)

namespace Forest

def tokens : Forest → List Token
  | nil => []
  | leaf k _ rest => k :: rest.tokens
  | element tag body written _ rest => .start tag :: (body.tokens ++ .close written :: rest.tokens)

def source (F : Forest) : Text := sources F.tokens

def append : Forest → Forest → Forest
  | nil, G => G
  | leaf k h rest, G => leaf k h (rest.append G)
  | element tag body written h rest, G => element tag body written h (rest.append G)

/-- A forest of nothing but characters. -/
def text (content : Text) : Forest := leaf (.text content) rfl nil

/-- A forest all tokens of which can be put between others. -/
def Loose (F : Forest) : Prop := ∀ k ∈ F.tokens, k.Loose

@[simp] theorem source_nil : source nil = [] := rfl

@[simp] theorem source_leaf (k : Token) (h : k.isLeaf = true) (rest : Forest) :
    (leaf k h rest).source = k.source ++ rest.source := rfl

@[simp] theorem source_element (tag : Tag) (body : Forest) (written : Text) (h : closeName written = tag.name)
    (rest : Forest) : (element tag body written h rest).source =
      (Token.start tag).source ++ (body.source ++ ((Token.close written).source ++ rest.source)) := by
  simp [source, tokens]

@[simp] theorem source_text (content : Text) : (text content).source = content := List.append_nil content

@[simp] theorem tokens_append (F G : Forest) : (F.append G).tokens = F.tokens ++ G.tokens := by
  induction F with
  | nil => rfl
  | leaf k h rest ih => simp [append, tokens, ih]
  | element tag body written h rest _ ih => simp [append, tokens, ih]

@[simp] theorem source_append (F G : Forest) : (F.append G).source = F.source ++ G.source := by simp [source]

theorem Loose.append {F G : Forest} (hF : F.Loose) (hG : G.Loose) : (F.append G).Loose := by
  intro k hk
  rw [tokens_append] at hk
  rcases List.mem_append.mp hk with hk | hk
  · exact hF k hk
  · exact hG k hk

theorem loose_leaf_iff {k : Token} {h : k.isLeaf = true} {rest : Forest} :
    (leaf k h rest).Loose ↔ k.Loose ∧ rest.Loose := List.forall_mem_cons

theorem loose_element_iff {tag : Tag} {body rest : Forest} {written : Text} {h : closeName written = tag.name} :
    (element tag body written h rest).Loose ↔
      (Token.start tag).Loose ∧ body.Loose ∧ (Token.close written).Loose ∧ rest.Loose := by
  simp only [Loose, tokens, List.forall_mem_cons, List.forall_mem_append]

theorem loose_nil : nil.Loose := by simp [Loose, tokens]

theorem loose_text {content : Text} (h : '<' ∉ content) : (text content).Loose :=
  loose_leaf_iff.mpr ⟨h, loose_nil⟩

/-! ### Runs of characters -/

/-- A forest with characters in front. -/
def addText (content : Text) : Forest → Forest
  | leaf (.text run) _ rest => leaf (.text (content ++ run)) rfl rest
  | F => if content = [] then F else leaf (.text content) rfl F

/-- A forest with neighbouring characters put together. -/
def glue : Forest → Forest
  | nil => nil
  | leaf (.text content) _ rest => addText content rest.glue
  | leaf k h rest => leaf k h rest.glue
  | element tag body written h rest => element tag body.glue written h rest.glue

theorem tokens_addText (content : Text) (F : Forest) :
    (addText content F).tokens = Markup.addText content F.tokens := by
  cases F with
  | nil => simp only [addText, tokens, Markup.addText]; split <;> rfl
  | leaf k h rest =>
    cases k <;> simp only [addText, tokens, Markup.addText]
    all_goals split <;> rfl
  | element tag body written h rest =>
    simp only [addText, tokens, Markup.addText]
    split <;> rfl

theorem tokens_glue (F : Forest) : F.glue.tokens = Markup.glue F.tokens := by
  induction F with
  | nil => rfl
  | leaf k h rest ih =>
    by_cases hk : k.isText = false
    · rw [tokens, glue_cons_of_markup hk, ← ih]
      cases k <;> first | rfl | cases hk
    · cases k <;> first | exact absurd rfl hk | skip
      rw [glue, tokens_addText, ih]
      rfl
  | element tag body written h rest ihb ihr =>
    rw [glue, tokens, tokens, glue_cons_of_markup rfl, glue_append_markup rfl, ihb, ihr]

theorem source_glue (F : Forest) : F.glue.source = F.source := by rw [source, tokens_glue, sources_glue, source]

end Forest

/-! ### Matching tags -/

/-- The number of open elements after a token. -/
def nextLevel (n : Nat) : Token → Nat
  | .start _ => n + 1
  | .close _ => n - 1
  | _ => n

/-- The number of open elements after tokens. -/
def level (n : Nat) (ks : List Token) : Nat := ks.foldl nextLevel n

theorem nextLevel_of_isLeaf {k : Token} (h : k.isLeaf = true) (n : Nat) : nextLevel n k = n := by
  cases k <;> first | rfl | cases h

theorem level_append (n : Nat) (ks ls : List Token) : level n (ks ++ ls) = level (level n ks) ls := List.foldl_append

theorem matched_cons_of_isLeaf {k : Token} (h : k.isLeaf = true) (fault : Option Fault) (names : List Text)
    (ks : List Token) : matched fault names (k :: ks) = (matched fault names ks).cons k := by
  cases k <;> first | rfl | cases h

theorem matched_close (fault : Option Fault) (expected written : Text) (outer : List Text) (ks : List Token) :
    matched fault (expected :: outer) (.close written :: ks) =
      if expected = closeName written then (matched fault outer ks).cons (.close written)
      else { tokens := [], fault := some { offset := 0, error := .mismatchedClose expected (closeName written) } } :=
  rfl

theorem matched_tokens_append (F : Forest) (fault : Option Fault) (names : List Text) (ks : List Token) :
    matched fault names (F.tokens ++ ks) =
      { matched fault names ks with tokens := F.tokens ++ (matched fault names ks).tokens } := by
  induction F generalizing names ks with
  | nil => rfl
  | leaf k h rest ih =>
    rw [Forest.tokens, List.cons_append, matched_cons_of_isLeaf h, ih]
    rfl
  | element tag body written h rest ihb ihr =>
    rw [Forest.tokens, List.cons_append, List.append_assoc, matched, ihb, List.cons_append, matched_close,
      if_pos h.symm, ihr]
    simp [Scan.cons]

theorem tokens_of_matched {fault : Option Fault} {names : List Text} {ks : List Token}
    (h : (matched fault names ks).fault = none) : fault = none ∧ (matched fault names ks).tokens = ks := by
  induction ks generalizing names with
  | nil => exact ⟨h, rfl⟩
  | cons k ks ih =>
    by_cases hk : k.isLeaf = true
    · rw [matched_cons_of_isLeaf hk] at h ⊢
      obtain ⟨hf, hks⟩ := ih h
      exact ⟨hf, congrArg (k :: ·) hks⟩
    · cases k <;> first | exact absurd rfl hk | skip
      · obtain ⟨hf, hks⟩ := ih h
        exact ⟨hf, congrArg (_ :: ·) hks⟩
      · next written =>
        cases names with
        | nil => cases h
        | cons expected outer =>
          rw [matched_close] at h ⊢
          split at h
          · next he =>
            rw [if_pos he]
            obtain ⟨hf, hks⟩ := ih h
            exact ⟨hf, congrArg (_ :: ·) hks⟩
          · cases h

/-- The tokens of elements still open, innermost first: what stands before the start tag of each, and
    the start tag. -/
def unfinished : List (Forest × Tag) → List Token
  | [] => []
  | (before, tag) :: outer => unfinished outer ++ (before.tokens ++ [.start tag])

/-- Tokens matched without a fault leave elements open whose tokens they are, up to a forest in the
    innermost. -/
theorem exists_unfinished {fault : Option Fault} {ks : List Token} {opened : List (Forest × Tag)} (F : Forest)
    (h : (matched fault (opened.map (·.2.name)) ks).fault = none) :
    ∃ (opened' : List (Forest × Tag)) (F' : Forest),
      unfinished opened' ++ F'.tokens = unfinished opened ++ (F.tokens ++ ks) ∧
      opened'.length = level opened.length ks := by
  induction ks generalizing opened F with
  | nil => exact ⟨opened, F, by simp, rfl⟩
  | cons k ks ih =>
    by_cases hk : k.isLeaf = true
    · rw [matched_cons_of_isLeaf hk] at h
      obtain ⟨opened', F', htokens, hlevel⟩ := ih (F.append (.leaf k hk .nil)) h
      refine ⟨opened', F', by simpa [Forest.tokens] using htokens, ?_⟩
      rw [hlevel, level, level, List.foldl_cons, nextLevel_of_isLeaf hk]
    · cases k <;> first | exact absurd rfl hk | skip
      · next tag =>
        obtain ⟨opened', F', htokens, hlevel⟩ := @ih ((F, tag) :: opened) .nil h
        exact ⟨opened', F', by simpa [unfinished, Forest.tokens] using htokens, hlevel⟩
      · next written =>
        cases opened with
        | nil => cases h
        | cons x outer =>
          obtain ⟨before, tag⟩ := x
          rw [List.map_cons, matched_close] at h
          split at h
          · next hname =>
            -- The end tag closes the innermost element, which joins the forest before it.
            obtain ⟨opened', F', htokens, hlevel⟩ :=
              ih (before.append (.element tag F written hname.symm .nil)) h
            exact ⟨opened', F', by simpa [unfinished, Forest.tokens] using htokens, hlevel⟩
          · cases h

/-! ### Reading -/

theorem read_of_forest {t : Text} {F : Forest} (h : scan (withoutMark t) = { tokens := F.tokens, fault := none }) :
    read t = { tokens := F.tokens, fault := none } := by
  have hm := matched_tokens_append F none [] []
  rw [List.append_nil] at hm
  rw [read, h]
  dsimp only
  rw [hm]
  simp [matched]

theorem exists_forest {t : Text} (h : (read t).fault = none) (hlevel : level 0 (read t).tokens = 0) :
    ∃ F : Forest, scan (withoutMark t) = { tokens := F.tokens, fault := none } ∧ (read t).tokens = F.tokens := by
  rw [read] at h hlevel ⊢
  obtain ⟨hf, htokens⟩ := tokens_of_matched h
  obtain ⟨opened, F, hF, hlen⟩ := @exists_unfinished _ _ [] .nil h
  rw [htokens] at hlevel ⊢
  have hnil : opened = [] := List.length_eq_zero_iff.mp (by simpa [hlevel] using hlen)
  subst hnil
  have hks : F.tokens = (scan (withoutMark t)).tokens := by simpa [unfinished, Forest.tokens] using hF
  refine ⟨F, ?_, hks.symm⟩
  rw [hks, ← hf]

end StringResources.Markup
