import StringResources.Proofs.Markup.Pieces

/-! What makes a tag stand alone: all quotes in it are closed, its name runs to the first blank, and only
    an empty tag has a slash at its end. -/

namespace StringResources.Markup
open Text

/-- A text that begins with none of the characters that lead to other markup than a start or empty tag. -/
def PlainHead (t : Text) : Prop := ∀ c ∈ t.head?, c ≠ '!' ∧ c ≠ '?' ∧ c ≠ '/'

theorem nextMarkup_of_plainHead {c : Char} {t : Text} (h : PlainHead (c :: t)) :
    nextMarkup (c :: t) = nextTag (c :: t) := by
  obtain ⟨h₁, h₂, h₃⟩ := h c rfl
  rw [nextMarkup, if_neg h₁, if_neg h₂, if_neg h₃]

theorem next_tag_iff {content r : Text} (h : PlainHead content) {k : Token} :
    next ('<' :: (content ++ '>' :: r)) = .ok (k, r) ↔
      quoteAfter? none content = some none ∧
        k = match stripEnd? ['/'] content with
          | some inner => .empty (.ofContent inner)
          | none => .start (.ofContent content) := by
  have hmarkup : nextMarkup (content ++ '>' :: r) = nextTag (content ++ '>' :: r) := by
    cases content with
    | nil => exact nextMarkup_of_plainHead (by simp [PlainHead])
    | cons c content => exact nextMarkup_of_plainHead h
  rw [next, if_pos rfl, hmarkup, nextTag]
  constructor
  · intro hk
    split at hk
    · next content' rest hs =>
      obtain ⟨ht, hq⟩ := tagEnd?_eq_some_iff.mp hs
      have hrest : rest = r := by
        split at hk <;> exact (Prod.mk.inj (Except.ok.inj hk)).2
      obtain rfl : content' = content := by
        rw [hrest] at ht
        exact (List.append_cancel_right ht).symm
      refine ⟨hq, ?_⟩
      cases hi : stripEnd? ['/'] content' with
      | some inner =>
        rw [hi] at hk
        exact (Prod.mk.inj (Except.ok.inj hk)).1.symm
      | none =>
        rw [hi] at hk
        exact (Prod.mk.inj (Except.ok.inj hk)).1.symm
    · cases hk
  · rintro ⟨hq, rfl⟩
    rw [tagEnd?_eq_some_iff.mpr ⟨rfl, hq⟩]
    dsimp only
    split <;> simp_all

theorem stripEnd?_eq_none_of_concat {t : Text} {c d : Char} (h : c ≠ d) : stripEnd? [d] (t ++ [c]) = none := by
  simp [stripEnd?, stripStart?, Ne.symm h]

theorem stripEnd?_append_self (t tail : Text) : stripEnd? tail (t ++ tail) = some t := stripEnd?_eq_some_iff.mpr rfl

/-- A tag of which the beginning is known ends somewhere in what follows, with a slash if it is empty. -/
theorem exists_tag_of_next {s t r : Text} {k : Token} (hs : s ≠ []) (hplain : PlainHead s)
    (hq : quoteAfter? none s = some none) (ht : t.head? ≠ some '>') (h : next ('<' :: (s ++ t)) = .ok (k, r)) :
    ∃ w slash, t = w ++ (slash ++ '>' :: r) ∧ quoteAfter? none (w ++ slash) = some none ∧ (slash = [] ∨ slash = ['/']) ∧
      k.tag? = some (.ofContent (s ++ w)) := by
  have hmarkup : nextMarkup (s ++ t) = nextTag (s ++ t) := by
    obtain ⟨c, s, rfl⟩ := List.exists_cons_of_ne_nil hs
    exact nextMarkup_of_plainHead hplain
  rw [next, if_pos rfl, hmarkup, nextTag, tagEnd?_append hq] at h
  cases hend : tagEnd? none t with
  | none =>
    rw [hend] at h
    cases h
  | some x =>
    obtain ⟨w, r'⟩ := x
    obtain ⟨rfl, hw⟩ := tagEnd?_eq_some_iff.mp hend
    rw [hend] at h
    dsimp only [Option.map_some] at h
    split at h
    · next inner hinner =>
      obtain ⟨rfl, rfl⟩ := Prod.mk.inj (Except.ok.inj h)
      rcases List.eq_nil_or_concat w with rfl | ⟨w, c, rfl⟩
      · exact absurd rfl ht
      · have hslash := stripEnd?_eq_some_iff.mp hinner
        rw [List.concat_eq_append, ← List.append_assoc] at hslash
        obtain ⟨rfl, hc⟩ := List.append_inj' hslash rfl
        rw [List.concat_eq_append, hc] at hw ⊢
        exact ⟨w, ['/'], List.append_assoc .., hw, Or.inr rfl, rfl⟩
    · obtain ⟨rfl, rfl⟩ := Prod.mk.inj (Except.ok.inj h)
      exact ⟨w, [], rfl, by rwa [List.append_nil], Or.inl rfl, rfl⟩

theorem Token.alone_start_iff {tag : Tag} (h : PlainHead tag.content) :
    (Token.start tag).Alone ↔
      quoteAfter? none tag.content = some none ∧ stripEnd? ['/'] tag.content = none ∧
        Tag.ofContent tag.content = tag := by
  have hsource : ∀ r, (Token.start tag).source ++ r = '<' :: (tag.content ++ '>' :: r) := fun r => by simp [source]
  simp only [Alone, hsource, next_tag_iff h]
  constructor
  · intro hk
    obtain ⟨hq, hk⟩ := hk []
    cases hs : stripEnd? ['/'] tag.content with
    | none =>
      rw [hs] at hk
      exact ⟨hq, rfl, (Token.start.inj hk).symm⟩
    | some inner =>
      rw [hs] at hk
      cases hk
  · rintro ⟨hq, hs, htag⟩ r
    rw [hs]
    exact ⟨hq, by rw [htag]⟩

theorem Token.alone_empty_iff {tag : Tag} (h : PlainHead (tag.content ++ ['/'])) :
    (Token.empty tag).Alone ↔
      quoteAfter? none (tag.content ++ ['/']) = some none ∧ Tag.ofContent tag.content = tag := by
  have hsource : ∀ r, (Token.empty tag).source ++ r = '<' :: (tag.content ++ ['/'] ++ '>' :: r) := fun r => by
    simp [source]
  simp only [Alone, hsource, next_tag_iff h, stripEnd?_append_self, Token.empty.injEq]
  constructor
  · intro hk
    obtain ⟨hq, htag⟩ := hk []
    exact ⟨hq, htag.symm⟩
  · rintro ⟨hq, htag⟩ r
    exact ⟨hq, htag.symm⟩

end StringResources.Markup
