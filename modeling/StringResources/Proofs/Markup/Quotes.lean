import StringResources.Proofs.Text.Cuts
import StringResources.Markup.Scan

/-! The quotation marks of a tag. A tag ends at the first closing bracket outside quotes; `quoteAfter?`
    says which quotation mark is open after a piece of a tag, and is `none` where the piece would end
    the tag. Main statement: `tagEnd?_eq_some_iff`. -/

namespace StringResources.Markup
open Text

/-- The quotation mark that is open after one more character of a tag, if `quote` is the one open before
    it. None if the character ends the tag. -/
def nextQuote? (quote : Option Char) (c : Char) : Option (Option Char) :=
  match quote with
  | some q => some (if c = q then none else some q)
  | none => if c = '>' then none else some (if c = '\x22' ∨ c = '\x27' then some c else none)

/-- The quotation mark that is open after a piece of a tag. None if the tag ends within the piece. -/
def quoteAfter? (quote : Option Char) (s : Text) : Option (Option Char) := s.foldlM nextQuote? quote

@[simp] theorem quoteAfter?_nil (quote : Option Char) : quoteAfter? quote [] = some quote := rfl

theorem quoteAfter?_cons (quote : Option Char) (c : Char) (s : Text) :
    quoteAfter? quote (c :: s) = (nextQuote? quote c).bind (quoteAfter? · s) := rfl

theorem quoteAfter?_append (quote : Option Char) (s t : Text) :
    quoteAfter? quote (s ++ t) = (quoteAfter? quote s).bind (quoteAfter? · t) := List.foldlM_append

theorem quoteAfter?_append_of_some {quote quote' : Option Char} {s : Text} (h : quoteAfter? quote s = some quote')
    (t : Text) : quoteAfter? quote (s ++ t) = quoteAfter? quote' t := by
  rw [quoteAfter?_append, h, Option.bind_some]

theorem quoteAfter?_of_kept {quote : Option Char} {s : Text} (h : ∀ c ∈ s, nextQuote? quote c = some quote) :
    quoteAfter? quote s = some quote := by
  induction s with
  | nil => rfl
  | cons c s ih =>
    rw [List.forall_mem_cons] at h
    rw [quoteAfter?_cons, h.1, Option.bind_some, ih h.2]

/-- A character outside quotes that opens none and does not end a tag. -/
def isUnquoted (c : Char) : Bool := c != '>' && c != '\x22' && c != '\x27'

theorem nextQuote?_of_unquoted {c : Char} (h : isUnquoted c = true) : nextQuote? none c = some none := by
  obtain ⟨⟨hb, hd⟩, hs⟩ : (c ≠ '>' ∧ c ≠ '\x22') ∧ c ≠ '\x27' := by simpa [isUnquoted] using h
  simp [nextQuote?, hb, hd, hs]

theorem quoteAfter?_of_unquoted {s : Text} (h : ∀ c ∈ s, isUnquoted c = true) : quoteAfter? none s = some none :=
  quoteAfter?_of_kept fun c hc => nextQuote?_of_unquoted (h c hc)

theorem quoteAfter?_of_not_mem {q : Char} {s : Text} (h : q ∉ s) : quoteAfter? (some q) s = some (some q) :=
  quoteAfter?_of_kept fun c hc => by
    have hcq : c ≠ q := fun heq => h (heq ▸ hc)
    simp [nextQuote?, hcq]

theorem quoteAfter?_quotation {q : Char} {s : Text} (hq : q = '\x22' ∨ q = '\x27') (h : q ∉ s) :
    quoteAfter? none (q :: (s ++ [q])) = some none := by
  have hb : q ≠ '>' := by rcases hq with rfl | rfl <;> decide
  have hopen : nextQuote? none q = some (some q) := by simp [nextQuote?, hb, hq]
  rw [quoteAfter?_cons, hopen, Option.bind_some, quoteAfter?_append_of_some (quoteAfter?_of_not_mem h)]
  simp [quoteAfter?_cons, nextQuote?]

theorem isUnquoted_of_isBlank {c : Char} (h : isBlank c = true) : isUnquoted c = true := by
  simp only [isBlank, Bool.or_eq_true, beq_iff_eq] at h
  rcases h with ((rfl | rfl) | rfl) | rfl <;> decide

theorem isQuote_quoteAfter? {quote quote' : Option Char} {s : Text} (h : ∀ q ∈ quote, q = '\x22' ∨ q = '\x27')
    (hs : quoteAfter? quote s = some quote') : ∀ q ∈ quote', q = '\x22' ∨ q = '\x27' := by
  induction s generalizing quote with
  | nil =>
    obtain rfl := Option.some.inj hs
    exact h
  | cons c s ih =>
    obtain ⟨quote₁, h₁, hs⟩ := Option.bind_eq_some_iff.mp hs
    refine ih ?_ hs
    cases quote with
    | none =>
      rw [nextQuote?] at h₁
      split at h₁
      · cases h₁
      · obtain rfl := Option.some.inj h₁
        split
        · next hc =>
          rintro _ ⟨⟩
          exact hc
        · simp
    | some q =>
      obtain rfl := Option.some.inj h₁
      split
      · simp
      · exact h

/-- Characters other than quotation marks at the end of a tag do not matter to its quotes. -/
theorem quoteAfter?_of_append_unquoted {s u : Text} (hu : ∀ c ∈ u, isUnquoted c = true)
    (h : quoteAfter? none (s ++ u) = some none) : quoteAfter? none s = some none := by
  rw [quoteAfter?_append] at h
  obtain ⟨quote, hs, h⟩ := Option.bind_eq_some_iff.mp h
  have hquote := isQuote_quoteAfter? (by simp) hs
  cases quote with
  | none => exact hs
  | some q =>
    have hmem : q ∉ u := fun hq => by
      have := hu q hq
      rcases hquote q rfl with rfl | rfl <;> exact absurd this (by decide)
    rw [quoteAfter?_of_not_mem hmem] at h
    cases h

/-! ### The end of a tag -/

theorem tagEnd?_cons (quote : Option Char) (c : Char) (t : Text) :
    tagEnd? quote (c :: t) =
      match nextQuote? quote c with
      | none => some ([], t)
      | some quote' => (tagEnd? quote' t).map fun (s, r) => (c :: s, r) := by
  cases quote with
  | none =>
    rw [tagEnd?, nextQuote?]
    split <;> rfl
  | some q => rfl

theorem tagEnd?_append {quote quote' : Option Char} {s : Text} (h : quoteAfter? quote s = some quote') (t : Text) :
    tagEnd? quote (s ++ t) = (tagEnd? quote' t).map fun (u, r) => (s ++ u, r) := by
  induction s generalizing quote with
  | nil =>
    obtain rfl := Option.some.inj h
    simp
  | cons c s ih =>
    obtain ⟨quote₁, h₁, h⟩ := Option.bind_eq_some_iff.mp h
    rw [List.cons_append, tagEnd?_cons, h₁]
    dsimp only
    rw [ih h, Option.map_map]
    rfl

/-- The content of a tag is what leaves all quotes closed up to a closing bracket. -/
theorem tagEnd?_eq_some_iff {quote : Option Char} {t s r : Text} :
    tagEnd? quote t = some (s, r) ↔ t = s ++ '>' :: r ∧ quoteAfter? quote s = some none := by
  constructor
  · intro h
    refine ⟨eq_append_of_tagEnd? h, ?_⟩
    induction t generalizing quote s with
    | nil => simp [tagEnd?] at h
    | cons c t ih =>
      rw [tagEnd?_cons] at h
      split at h
      · next hend =>
        obtain ⟨rfl, rfl⟩ := Prod.mk.inj (Option.some.inj h)
        -- Only outside quotes does a character end the tag.
        cases quote with
        | none => rfl
        | some q => cases hend
      · next quote' hnext =>
        obtain ⟨⟨s', r'⟩, hs, heq⟩ := Option.map_eq_some_iff.mp h
        obtain ⟨rfl, rfl⟩ := Prod.mk.inj heq
        rw [quoteAfter?_cons, hnext]
        exact ih hs
  · rintro ⟨rfl, hs⟩
    rw [tagEnd?_append hs, tagEnd?_cons]
    simp [nextQuote?]

end StringResources.Markup
