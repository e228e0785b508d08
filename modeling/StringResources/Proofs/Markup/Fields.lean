import StringResources.Proofs.Text.Cuts
import StringResources.Markup.Attribute

/-! The attributes of a tag as a grammar: blanks, and fields made of a key, an equals sign and a quoted
    value. Reading is exact for it (`allAttributes_eq_ok_iff`), and goes through it whatever follows
    (`readFrom_append`), so fields can be added at the end. -/

namespace StringResources.Markup
open Text

def AllBlank (t : Text) : Prop := ∀ c ∈ t, isBlank c = true

/-- The text of one field, from its key to its closing quote. -/
def IsField (a : Attribute) (field : Text) : Prop :=
  ∃ c word before after q, a.key = c :: word ∧
    field = c :: (word ++ (before ++ '=' :: (after ++ q :: (a.value ++ [q])))) ∧ isBlank c = false ∧
      (∀ x ∈ word, Attribute.isKeyChar x = true) ∧ AllBlank before ∧ AllBlank after ∧
        (q = '\x22' ∨ q = '\x27') ∧ q ∉ a.value

/-- The text of fields, each after blanks or at once after the field before it, up to blanks. -/
inductive Fields : Text → List Attribute → Prop
  | nil {gap : Text} : AllBlank gap → Fields gap []
  | cons {gap field rest : Text} {a : Attribute} {as : List Attribute} :
      AllBlank gap → IsField a field → Fields rest as → Fields (gap ++ (field ++ rest)) (a :: as)

theorem AllBlank.append {s t : Text} (hs : AllBlank s) (ht : AllBlank t) : AllBlank (s ++ t) := by
  intro c hc
  rcases List.mem_append.mp hc with hc | hc
  · exact hs c hc
  · exact ht c hc

theorem AllBlank.dropWhile_append {s : Text} (hs : AllBlank s) (t : Text) :
    (s ++ t).dropWhile isBlank = t.dropWhile isBlank := List.dropWhile_append_of_pos hs

theorem Fields.blanks_append {gap t : Text} {as : List Attribute} (hg : AllBlank gap) (h : Fields t as) :
    Fields (gap ++ t) as := by
  cases h with
  | nil ht => exact .nil (hg.append ht)
  | cons hl hf hr =>
    rw [← List.append_assoc]
    exact .cons (hg.append hl) hf hr

theorem Fields.append {s t : Text} {as bs : List Attribute} (hs : Fields s as) (ht : Fields t bs) :
    Fields (s ++ t) (as ++ bs) := by
  induction hs with
  | nil hg => exact ht.blanks_append hg
  | cons hg hf _ ih =>
    rw [List.append_assoc, List.append_assoc]
    exact .cons hg hf ih

/-! ### Trimming -/

theorem isSpace_of_isBlank {c : Char} (h : isBlank c = true) : isSpace c = true := by
  simp only [isBlank, Bool.or_eq_true, beq_iff_eq] at h
  rcases h with ((rfl | rfl) | rfl) | rfl <;> decide

theorem IsField.exists_concat {a : Attribute} {field : Text} (h : IsField a field) :
    ∃ s q, field = s ++ [q] ∧ (q = '\x22' ∨ q = '\x27') := by
  obtain ⟨c, word, before, after, q, -, rfl, -, -, -, -, hq, -⟩ := h
  exact ⟨c :: (word ++ (before ++ '=' :: (after ++ q :: a.value))), q, by simp, hq⟩

/-- A text that is empty or ends in a quotation mark. -/
def EndsQuoted (t : Text) : Prop := t = [] ∨ ∃ s q, t = s ++ [q] ∧ (q = '\x22' ∨ q = '\x27')

theorem EndsQuoted.append {s t : Text} (hs : EndsQuoted s) (ht : EndsQuoted t) : EndsQuoted (s ++ t) := by
  rcases ht with rfl | ⟨u, q, rfl, hq⟩
  · rwa [List.append_nil]
  · exact Or.inr ⟨s ++ u, q, by rw [List.append_assoc], hq⟩

/-- Without the white space at their end, fields end in a closing quote; only blanks are lost. -/
theorem Fields.trim {t : Text} {as : List Attribute} (h : Fields t as) :
    Fields (trimEndSpaces t) as ∧ EndsQuoted (trimEndSpaces t) ∧ ∃ gap, t = trimEndSpaces t ++ gap ∧ AllBlank gap := by
  induction h with
  | nil hg =>
    rw [show trimEndSpaces _ = [] from trimEnd_eq_nil_iff.mpr fun c hc => isSpace_of_isBlank (hg c hc)]
    exact ⟨.nil (by simp [AllBlank]), Or.inl rfl, _, rfl, hg⟩
  | @cons gap field rest a as hg hf _ ih =>
    obtain ⟨hfields, hends, w, hw, hblank⟩ := ih
    obtain ⟨s, q, hfield, hq⟩ := hf.exists_concat
    have hquote : isSpace q = false := by rcases hq with rfl | rfl <;> decide
    have htrim : trimEndSpaces (gap ++ (field ++ rest)) = gap ++ (field ++ trimEndSpaces rest) := by
      have hlast : trimEnd isSpace (gap ++ field) = gap ++ field := by
        rw [hfield, ← List.append_assoc, trimEnd_concat_of_neg hquote]
      unfold trimEndSpaces
      rw [← List.append_assoc, trimEnd_append]
      split
      · next hnil => rw [hnil, hlast, List.append_nil]
      · rw [List.append_assoc]
    rw [htrim]
    refine ⟨.cons hg hf hfields, Or.inr ?_, w, ?_, hblank⟩
    · rcases hends with hnil | ⟨s', q', hs', hq'⟩
      · exact ⟨gap ++ s, q, by rw [hnil, hfield]; simp, hq⟩
      · exact ⟨gap ++ (field ++ s'), q', by rw [hs']; simp, hq'⟩
    · simp only [List.append_assoc]
      rw [← hw]

/-! ### Reading -/

namespace Attribute

theorem isKeyChar_of_isBlank {c : Char} (h : isBlank c = true) : isKeyChar c = false := by simp [isKeyChar, h]

theorem nextValue_quoted {after value : Text} {q : Char} (ha : AllBlank after) (hq : q = '\x22' ∨ q = '\x27')
    (hv : q ∉ value) (total : Nat) (key r : Text) :
    nextValue total key (after ++ q :: (value ++ q :: r)) = (.ok { key := key, value := value }, r) := by
  have hb : isBlank q = false := by rcases hq with rfl | rfl <;> decide
  have hdrop : (after ++ q :: (value ++ q :: r)).dropWhile isBlank = q :: (value ++ q :: r) :=
    dropWhile_append_of_stop ha (by simp [hb])
  unfold nextValue
  rw [hdrop]
  dsimp only
  rw [if_pos hq, splitAt?_singleton_eq_some_iff.mpr ⟨rfl, hv⟩]

theorem nextValue_eq_ok {total : Nat} {key t r : Text} {a : Attribute} (h : nextValue total key t = (.ok a, r)) :
    a.key = key ∧ ∃ after q, t = after ++ q :: (a.value ++ q :: r) ∧ AllBlank after ∧
      (q = '\x22' ∨ q = '\x27') ∧ q ∉ a.value := by
  unfold nextValue at h
  split at h
  · cases h
  · next c u hu =>
    split at h
    · next hq =>
      split at h
      · next value rest hs =>
        obtain ⟨ha, rfl⟩ := Prod.mk.inj h
        obtain rfl := Except.ok.inj ha
        obtain ⟨rfl, hv⟩ := splitAt?_singleton_eq_some_iff.mp hs
        have ht := List.takeWhile_append_dropWhile (p := isBlank) (l := t)
        rw [hu] at ht
        exact ⟨rfl, _, c, ht.symm, fun x hx => List.mem_takeWhile_imp hx, hq, hv⟩
      · cases h
    · cases h

theorem nextField_of_isField {a : Attribute} {field : Text} (hf : IsField a field) {c : Char} {t r : Text}
    (ht : field ++ r = c :: t) {keys : List (Text × Nat)} (hk : keys.lookup a.key = none) (total : Nat) :
    ∃ start, nextField total true keys c t = ((a.key, start) :: keys, .ok a, r) := by
  obtain ⟨d, word, before, after, q, hkey, rfl, hd, hw, hb, ha, hq, hv⟩ := hf
  obtain ⟨rfl, rfl⟩ : d = c ∧ word ++ (before ++ '=' :: (after ++ q :: (a.value ++ [q] ++ r))) = t := by
    simpa using ht
  have hstop : ∀ x ∈ (before ++ '=' :: (after ++ q :: (a.value ++ [q] ++ r))).head?, isKeyChar x = false := by
    cases before with
    | nil => simp [isKeyChar]
    | cons x before =>
      rintro _ ⟨⟩
      exact isKeyChar_of_isBlank (hb _ List.mem_cons_self)
  have hafter : (before ++ '=' :: (after ++ q :: (a.value ++ [q] ++ r))).dropWhile isBlank =
      '=' :: (after ++ q :: (a.value ++ [q] ++ r)) := dropWhile_append_of_stop hb (by simp [isBlank])
  unfold nextField
  rw [takeWhile_append_of_stop hw hstop, dropWhile_append_of_stop hw hstop, hafter, ← hkey]
  dsimp only
  rw [if_pos rfl, if_pos rfl, hk]
  have hvalue := nextValue_quoted ha hq hv total a.key r
  rw [List.append_assoc, List.singleton_append, hvalue]
  exact ⟨_, rfl⟩

theorem nextField_eq_ok {total : Nat} {keys keys' : List (Text × Nat)} {c : Char} {t r : Text} {a : Attribute}
    (hc : isBlank c = false) (h : nextField total true keys c t = (keys', .ok a, r)) :
    keys.lookup a.key = none ∧ (∃ start, keys' = (a.key, start) :: keys) ∧
      ∃ field, IsField a field ∧ c :: t = field ++ r := by
  unfold nextField at h
  dsimp only at h
  split at h
  · cases h
  · next d u hu =>
    split at h
    · next hd =>
      subst hd
      rw [if_pos rfl] at h
      split at h
      · cases h
      · next hk =>
        obtain ⟨hkeys, hvalue⟩ := Prod.mk.inj h
        obtain ⟨hkey, after, q, rfl, ha, hq, hv⟩ := nextValue_eq_ok hvalue
        rw [← hkey] at hk hkeys
        have ht := List.takeWhile_append_dropWhile (p := isKeyChar) (l := t)
        have hb := List.takeWhile_append_dropWhile (p := isBlank) (l := t.dropWhile isKeyChar)
        rw [hu] at hb
        rw [← hb] at ht
        refine ⟨hk, ⟨_, hkeys.symm⟩, c :: (t.takeWhile isKeyChar ++ ((t.dropWhile isKeyChar).takeWhile isBlank ++
          '=' :: (after ++ q :: (a.value ++ [q])))), ⟨c, _, _, after, q, hkey, rfl, hc,
            fun x hx => List.mem_takeWhile_imp hx, fun x hx => List.mem_takeWhile_imp hx, ha, hq, hv⟩, ?_⟩
        simpa using ht.symm
    · cases h

theorem readFrom_of_nil {total : Nat} {unique : Bool} {keys : List (Text × Nat)} {t : Text}
    (h : t.dropWhile isBlank = []) : readFrom total unique keys t = [] := by
  rw [readFrom]
  split
  · rfl
  · next hc => rw [h] at hc; cases hc

theorem readFrom_of_cons {total : Nat} {unique : Bool} {keys : List (Text × Nat)} {t r : Text} {c : Char}
    (h : t.dropWhile isBlank = c :: r) :
    readFrom total unique keys t =
      (nextField total unique keys c r).2.1 ::
        readFrom total unique (nextField total unique keys c r).1 (nextField total unique keys c r).2.2 := by
  rw [readFrom]
  split
  · next hc => rw [h] at hc; cases hc
  · next d u hd =>
    rw [h] at hd
    obtain ⟨rfl, rfl⟩ := List.cons.inj hd
    rfl

theorem readFrom_blanks_append {gap : Text} (hg : AllBlank gap) (total : Nat) (unique : Bool)
    (keys : List (Text × Nat)) (t : Text) : readFrom total unique keys (gap ++ t) = readFrom total unique keys t := by
  cases h : t.dropWhile isBlank with
  | nil => rw [readFrom_of_nil h, readFrom_of_nil (by rw [hg.dropWhile_append, h])]
  | cons c r => rw [readFrom_of_cons h, readFrom_of_cons (by rw [hg.dropWhile_append, h])]

/-- Keys that may still stand after the fields of `as`. -/
def Free (keys : List (Text × Nat)) (as : List Attribute) : Prop :=
  (as.map (·.key)).Nodup ∧ ∀ a ∈ as, keys.lookup a.key = none

theorem free_cons_iff {keys : List (Text × Nat)} (start : Nat) {a : Attribute} {as : List Attribute} :
    Free keys (a :: as) ↔ keys.lookup a.key = none ∧ Free ((a.key, start) :: keys) as := by
  simp only [Free, List.map_cons, List.nodup_cons, List.mem_map, not_exists, not_and, List.forall_mem_cons,
    List.lookup_cons]
  constructor
  · rintro ⟨⟨hne, hnd⟩, hk, has⟩
    refine ⟨hk, hnd, fun b hb => ?_⟩
    rw [beq_false_of_ne (hne b hb)]
    exact has b hb
  · rintro ⟨hk, hnd, has⟩
    have hne : ∀ b ∈ as, ¬ b.key = a.key := fun b hb heq => by
      have := has b hb
      rw [heq, beq_self_eq_true] at this
      cases this
    refine ⟨⟨hne, hnd⟩, hk, fun b hb => ?_⟩
    have := has b hb
    rwa [beq_false_of_ne (hne b hb)] at this

/-- Reading goes through fields whatever follows them. -/
theorem readFrom_append {t : Text} {as : List Attribute} (h : Fields t as) {keys : List (Text × Nat)}
    (hk : Free keys as) (total : Nat) (r : Text) :
    ∃ keys', readFrom total true keys (t ++ r) = as.map .ok ++ readFrom total true keys' r := by
  induction h generalizing keys with
  | nil hg => exact ⟨keys, readFrom_blanks_append hg total true keys r⟩
  | @cons gap field rest a as hg hf _ ih =>
    obtain ⟨c, u, hu⟩ : ∃ c u, field ++ (rest ++ r) = c :: u := by
      obtain ⟨c, word, before, after, q, -, rfl, -⟩ := hf
      exact ⟨c, _, rfl⟩
    have hc : isBlank c = false := by
      obtain ⟨d, word, before, after, q, -, rfl, hd, -⟩ := hf
      obtain ⟨rfl, -⟩ := List.cons.inj hu
      exact hd
    have hlookup : keys.lookup a.key = none := hk.2 a List.mem_cons_self
    obtain ⟨start, hnext⟩ := nextField_of_isField hf hu hlookup total
    obtain ⟨keys', hkeys'⟩ := ih ((free_cons_iff start).mp hk).2
    refine ⟨keys', ?_⟩
    have hcons : (c :: u).dropWhile isBlank = c :: u := by simp [hc]
    rw [List.append_assoc, readFrom_blanks_append hg, List.append_assoc, hu, readFrom_of_cons hcons, hnext]
    dsimp only
    rw [hkeys']
    rfl

theorem fields_of_readFrom {total : Nat} {keys : List (Text × Nat)} {t : Text} {as : List Attribute}
    (h : readFrom total true keys t = as.map .ok) : Fields t as ∧ Free keys as := by
  have ht := List.takeWhile_append_dropWhile (p := isBlank) (l := t)
  have hgap : AllBlank (t.takeWhile isBlank) := fun c hc => List.mem_takeWhile_imp hc
  induction as generalizing keys t with
  | nil =>
    cases hd : t.dropWhile isBlank with
    | nil =>
      rw [hd, List.append_nil] at ht
      exact ⟨ht ▸ .nil hgap, by simp [Free]⟩
    | cons c r =>
      rw [readFrom_of_cons hd] at h
      cases h
  | cons a as ih =>
    cases hd : t.dropWhile isBlank with
    | nil =>
      rw [readFrom_of_nil hd] at h
      cases h
    | cons c r =>
      rcases hn : nextField total true keys c r with ⟨keys', x, rest⟩
      rw [readFrom_of_cons hd, hn] at h
      obtain ⟨rfl, has⟩ := List.cons.inj h
      have hc : isBlank c = false := by
        have := List.head?_dropWhile_not isBlank t
        rw [hd] at this
        simpa using this
      obtain ⟨hk, ⟨start, rfl⟩, field, hf, hcr⟩ := nextField_eq_ok hc hn
      obtain ⟨hfields, hfree⟩ := ih has List.takeWhile_append_dropWhile fun c hc => List.mem_takeWhile_imp hc
      rw [← ht, hd, hcr]
      exact ⟨.cons hgap hf hfields, (free_cons_iff _).mpr ⟨hk, hfree⟩⟩

end Attribute

/-- Fields that begin with other fields go on with fields. -/
theorem Fields.of_append {s t : Text} {as bs : List Attribute} (hs : Fields s as) (has : (as.map (·.key)).Nodup)
    (h : Fields (s ++ t) bs) (hbs : (bs.map (·.key)).Nodup) : ∃ cs, bs = as ++ cs ∧ Fields t cs := by
  obtain ⟨keys, hread⟩ := @Attribute.readFrom_append _ _ hs [] ⟨has, fun _ _ => rfl⟩ 0 t
  obtain ⟨keys', hwhole⟩ := @Attribute.readFrom_append _ _ h [] ⟨hbs, fun _ _ => rfl⟩ 0 []
  have hnil : Attribute.readFrom 0 true keys' [] = [] := Attribute.readFrom_of_nil rfl
  rw [hnil, List.append_nil, List.append_nil, hread] at hwhole
  obtain ⟨as', cs, rfl, has', hcs⟩ := List.map_eq_append_iff.mp hwhole.symm
  obtain rfl : as' = as := List.map_inj_right (fun _ _ hab => Except.ok.inj hab) |>.mp has'
  exact ⟨cs, rfl, (Attribute.fields_of_readFrom hcs.symm).1⟩

theorem mapM_id_eq_ok_iff {ε α : Type} {l : List (Except ε α)} {as : List α} :
    l.mapM id = .ok as ↔ l = as.map .ok := by
  induction l generalizing as with
  | nil => cases as <;> simp [pure, Except.pure]
  | cons x l ih =>
    rw [List.mapM_cons]
    cases x with
    | error e => cases as <;> simp [bind, Except.bind]
    | ok a =>
      cases hl : l.mapM id with
      | error e =>
        cases as <;> simp [bind, Except.bind, hl, ← ih]
      | ok bs => cases as <;> simp [bind, Except.bind, pure, Except.pure, hl, ← ih]

/-- The attributes of a tag are read without an error where the tag is its name and fields with different
    keys. -/
theorem Tag.allAttributes_eq_ok_iff {tag : Tag} {as : List Attribute} :
    tag.allAttributes = .ok as ↔ Fields tag.fields as ∧ (as.map (·.key)).Nodup := by
  rw [allAttributes, mapM_id_eq_ok_iff, attributes]
  constructor
  · intro h
    obtain ⟨hf, hk⟩ := Attribute.fields_of_readFrom h
    exact ⟨hf, hk.1⟩
  · rintro ⟨hf, hk⟩
    obtain ⟨keys', h⟩ := @Attribute.readFrom_append _ _ hf [] ⟨hk, fun _ _ => rfl⟩ (Text.size tag.content) []
    have hnil : Attribute.readFrom (Text.size tag.content) true keys' [] = [] := Attribute.readFrom_of_nil rfl
    rwa [hnil, List.append_nil, List.append_nil] at h

end StringResources.Markup
