import StringResources.Proofs.Report.Grammar
import StringResources.Proofs.Text.Cuts

/-! Reading JSON documents. The reader goes by the first character of what is left and gives back, with the value, what
    follows it. Main statement: `read_eq_some_iff`, the reader takes exactly the documents of the grammar, each as the
    value it holds, so no document holds two values. -/

namespace StringResources.Json

/-! ### White space and single characters -/

def skip (t : Text) : Text := t.dropWhile isBlank

/-- What follows a character and white space before it. -/
def next? (c : Char) (t : Text) : Option Text := Text.stripStart? [c] (skip t)

section Blanks
variable {c : Char} {t u r : Text}

theorem blanks_skip (t : Text) : Blanks t (skip t) :=
  ⟨t.takeWhile isBlank, fun _ hc => List.mem_takeWhile_imp hc, List.takeWhile_append_dropWhile.symm⟩

theorem skip_eq_of_blanks (h : Blanks t r) (hr : ∀ c ∈ r.head?, isBlank c = false) : skip t = r := by
  obtain ⟨b, hb, rfl⟩ := h
  exact Text.dropWhile_append_of_stop hb hr

theorem next?_eq_some_iff (hc : isBlank c = false) : next? c t = some r ↔ Blanks t (c :: r) := by
  rw [next?, Text.stripStart?_eq_some_iff, List.singleton_append]
  constructor
  · intro h
    exact h ▸ blanks_skip t
  · intro h
    exact skip_eq_of_blanks h (by rintro _ ⟨⟩; exact hc)

theorem Blanks.length_le (h : Blanks t r) : r.length ≤ t.length := by
  obtain ⟨b, -, rfl⟩ := h
  rw [List.length_append]
  exact Nat.le_add_left _ _

theorem length_skip_le (t : Text) : (skip t).length ≤ t.length := (blanks_skip t).length_le

theorem length_lt_of_next? (h : next? c t = some r) : r.length < t.length := by
  have hlength := length_skip_le t
  rw [next?, Text.stripStart?_eq_some_iff] at h
  rw [h] at hlength
  exact hlength

end Blanks

/-! ### Strings -/

/-- The character that a backslash and what comes after it stand for, and what follows. -/
def escaped? : Text → Option (Char × Text)
  | 'u' :: a :: b :: c :: d :: t =>
    match codeUnit? a b c d with
    | none => none
    | some n =>
      if n.isValidChar then some (Char.ofNat n, t)
      else
        match t with
        | '\\' :: 'u' :: a :: b :: c :: d :: r =>
          match codeUnit? a b c d with
          | none => none
          | some low => if Surrogates n low then some (ofSurrogates n low, r) else none
        | _ => none
  | e :: t => (escapes.lookup e).map fun c => (c, t)
  | [] => none

def char? : Text → Option (Char × Text)
  | [] => none
  | c :: t =>
    if c = '\\' then escaped? t
    else if c = '\x22' ∨ c.toNat < 0x20 then none
    else some (c, t)

section Strings
variable {c : Char} {t s r : Text}

theorem not_isValidChar_of_surrogates {high low : Nat} (h : Surrogates high low) : ¬ high.isValidChar := by
  obtain ⟨hge, hlt, -, -⟩ := h
  unfold Nat.isValidChar
  omega

theorem character_of_escaped? (h : escaped? t = some (c, r)) : Character ('\\' :: t) c r := by
  unfold escaped? at h
  split at h
  · split at h
    · cases h
    · next n hn =>
      split at h
      · next hvalid =>
        cases h
        exact .unit hn hvalid
      · -- The code unit is no character, so another one has to follow.
        split at h
        · split at h
          · cases h
          · next low hlow =>
            split at h
            · next hpair =>
              obtain ⟨rfl, rfl⟩ := Prod.mk.inj (Option.some.inj h)
              exact .pair hn hlow hpair
            · cases h
        · cases h
  · obtain ⟨x, hx, ⟨⟩⟩ := Option.map_eq_some_iff.mp h
    exact .escaped hx
  · cases h

theorem char?_eq_some_iff : char? t = some (c, r) ↔ Character t c r := by
  constructor
  · intro h
    cases t with
    | nil => cases h
    | cons d t =>
      rw [char?] at h
      split at h
      · next hslash => exact hslash ▸ character_of_escaped? h
      · next hslash =>
        split at h
        · cases h
        · next hplain =>
          cases h
          rw [not_or, Nat.not_lt] at hplain
          exact .plain hplain.2 hplain.1 hslash
  · intro h
    cases h with
    | plain hge hquote hslash => rw [char?, if_neg hslash, if_neg (by simp [hquote, hge])]
    | @escaped e _ _ he =>
      have hu : e ≠ 'u' := by
        rintro rfl
        cases he
      rw [char?, if_pos rfl]
      unfold escaped?
      split <;> simp_all
    | unit hn hvalid => simp [char?, escaped?, hn, hvalid]
    | pair hhigh hlow hpair => simp [char?, escaped?, hhigh, not_isValidChar_of_surrogates hpair, hlow, hpair]

theorem Character.length_lt (h : Character t c r) : r.length < t.length := by
  cases h <;> simp only [List.length_cons] <;> omega

theorem Character.ne_quote (h : Character ('\x22' :: t) c r) : False := by
  cases h with
  | plain _ hquote _ => exact hquote rfl

/-- The characters of a string after its opening quote, and what follows the closing one. -/
def chars? (t : Text) : Option (Text × Text) :=
  match t with
  | [] => none
  | d :: u =>
    if d = '\x22' then some ([], u)
    else
      match _h : char? (d :: u) with
      | some (c, u) => (chars? u).map fun (s, r) => (c :: s, r)
      | none => none
termination_by t.length
decreasing_by exact (char?_eq_some_iff.mp _h).length_lt

theorem chars?_eq_some_iff : chars? t = some (s, r) ↔ Chars t s r := by
  constructor
  · intro h
    fun_induction chars? t generalizing s with
    | case1 => cases h
    | case2 u =>
      cases h
      exact .close
    | case3 d u _ c u' hc ih =>
      obtain ⟨⟨s', r'⟩, hs, ⟨⟩⟩ := Option.map_eq_some_iff.mp h
      exact .more (char?_eq_some_iff.mp hc) (ih hs)
    | case4 => cases h
  · intro h
    induction h with
    | close => simp [chars?]
    | @more c t u s r hc _ ih =>
      cases t with
      | nil => cases hc
      | cons d t =>
        have hquote : d ≠ '\x22' := by
          rintro rfl
          exact hc.ne_quote
        have hchar := char?_eq_some_iff.mpr hc
        rw [chars?, if_neg hquote]
        split
        · next heq =>
          rw [hchar] at heq
          cases heq
          rw [ih]
          rfl
        · next heq => rw [hchar] at heq; cases heq

theorem Chars.length_lt (h : Chars t s r) : r.length < t.length := by
  induction h with
  | close => exact Nat.lt_succ_self _
  | more hc _ ih => exact ih.trans hc.length_lt

end Strings

/-! ### Values without parts -/

def number? (t : Text) : Option (Json × Text) :=
  let ds := t.takeWhile Char.isDigit
  if ds = [] ∨ ds.head? = some '0' ∧ ds ≠ ['0'] then none
  else some (.number (Nat.ofDigitChars 10 ds 0), t.dropWhile Char.isDigit)

def scalar? : Text → Option (Json × Text)
  | [] => none
  | c :: t =>
    if c = '\x22' then (chars? t).map fun (s, r) => (.text s, r)
    else
      match Text.stripStart? "true".toList (c :: t), Text.stripStart? "false".toList (c :: t) with
      | some r, _ => some (.flag true, r)
      | none, some r => some (.flag false, r)
      | none, none => number? (c :: t)

/-- The name of a field, and what follows the colon after it. -/
def name? : Text → Option (Text × Text)
  | [] => none
  | c :: t =>
    if c = '\x22' then
      match chars? t with
      | some (key, u) => (next? ':' u).map fun r => (key, r)
      | none => none
    else none

section Scalars
variable {t r key : Text} {v : Json}

theorem scalar_of_number? (h : number? t = some (v, r)) : Scalar t v r := by
  simp only [number?] at h
  split at h
  · cases h
  · next hds =>
    cases h
    rw [not_or, not_and_not_right] at hds
    have hnumeral : Numeral (t.takeWhile Char.isDigit) :=
      ⟨hds.1, fun _ hc => List.mem_takeWhile_imp hc, hds.2⟩
    have hstop : ∀ c ∈ (t.dropWhile Char.isDigit).head?, c.isDigit = false := by
      intro c hc
      have := List.head?_dropWhile_not Char.isDigit t
      rw [Option.mem_def.mp hc] at this
      simpa using this
    have hscalar := Scalar.number hnumeral hstop
    rwa [List.takeWhile_append_dropWhile] at hscalar

theorem number?_of_numeral {ds : Text} (hds : Numeral ds) (hr : ∀ c ∈ r.head?, c.isDigit = false) :
    number? (ds ++ r) = some (.number (Nat.ofDigitChars 10 ds 0), r) := by
  rw [number?, Text.takeWhile_append_of_stop hds.digits hr, Text.dropWhile_append_of_stop hds.digits hr]
  refine if_neg ?_
  rw [not_or, not_and_not_right]
  exact ⟨hds.ne_nil, hds.zero⟩

theorem scalar?_eq_some_iff : scalar? t = some (v, r) ↔ Scalar t v r := by
  constructor
  · intro h
    unfold scalar? at h
    split at h
    · cases h
    · next c t =>
      split at h
      · next hc =>
        subst hc
        obtain ⟨⟨s, r'⟩, hs, ⟨⟩⟩ := Option.map_eq_some_iff.mp h
        exact .text (chars?_eq_some_iff.mp hs)
      · split at h
        · next hyes =>
          cases h
          rw [Text.stripStart?_eq_some_iff.mp hyes]
          exact .yes
        · next hno =>
          cases h
          rw [Text.stripStart?_eq_some_iff.mp hno]
          exact .no
        · exact scalar_of_number? h
  · intro h
    cases h with
    | text hs => simp [scalar?, chars?_eq_some_iff.mpr hs]
    | yes => rfl
    | no => rfl
    | @number ds _ hds hr =>
      obtain ⟨c, ds, rfl⟩ := List.exists_cons_of_ne_nil hds.ne_nil
      have hc : c.isDigit = true := hds.digits c List.mem_cons_self
      have hother : ∀ d : Char, d.isDigit = false → c ≠ d := by
        rintro d hd rfl
        rw [hc] at hd
        cases hd
      have hquote := hother '\x22' (by decide)
      have hyes : ∀ u, Text.stripStart? "true".toList (c :: u) = none := fun u =>
        if_neg (hother 't' (by decide)).symm
      have hno : ∀ u, Text.stripStart? "false".toList (c :: u) = none := fun u =>
        if_neg (hother 'f' (by decide)).symm
      have hnumber := number?_of_numeral hds hr
      rw [List.cons_append] at hnumber ⊢
      rw [scalar?, if_neg hquote, hyes, hno]
      exact hnumber

theorem Scalar.length_lt (h : Scalar t v r) : r.length < t.length := by
  cases h with
  | text hs => exact hs.length_lt.trans (Nat.lt_succ_self _)
  | number hds _ =>
    rw [List.length_append]
    exact Nat.lt_add_of_pos_left (List.length_pos_iff.mpr hds.ne_nil)
  | yes =>
    rw [List.length_append]
    exact Nat.lt_add_of_pos_left (by decide)
  | no =>
    rw [List.length_append]
    exact Nat.lt_add_of_pos_left (by decide)

theorem name?_eq_some_iff : name? t = some (key, r) ↔ Name t key r := by
  constructor
  · intro h
    unfold name? at h
    split at h
    · cases h
    · split at h
      · next hc =>
        subst hc
        split at h
        · next hkey =>
          obtain ⟨r', hr, ⟨⟩⟩ := Option.map_eq_some_iff.mp h
          exact .colon (chars?_eq_some_iff.mp hkey) ((next?_eq_some_iff (by decide)).mp hr)
        · cases h
      · cases h
  · rintro ⟨hkey, hcolon⟩
    simp [name?, chars?_eq_some_iff.mpr hkey, (next?_eq_some_iff (by decide)).mpr hcolon]

theorem Name.length_lt (h : Name t key r) : r.length < t.length := by
  cases h with
  | colon hkey hcolon =>
    have hlength := hcolon.length_le
    have := hkey.length_lt
    simp only [List.length_cons] at hlength ⊢
    omega

end Scalars

/-! ### Values with parts -/

/-- What a reader leaves of a text: less than there was. -/
abbrev Rest (t : Text) := { r : Text // r.length < t.length }

/-- What is left of a part is less than the whole. -/
def Rest.within {t u : Text} (r : Rest u) (h : u.length ≤ t.length) : Rest t := ⟨r.val, r.property.trans_le h⟩

section Lengths
variable {c : Char} {t u w key : Text}

theorem length_skip_le_cons (c : Char) (t : Text) : (skip t).length ≤ (c :: t).length :=
  (length_skip_le t).trans (Nat.le_succ _)

theorem length_skip_lt_of_next? (h : next? c u = some w) (hu : u.length < t.length) : (skip w).length < t.length :=
  (length_skip_le w).trans_lt ((length_lt_of_next? h).trans hu)

theorem length_skip_lt_of_name? (h : name? t = some (key, u)) : (skip u).length < t.length :=
  (length_skip_le u).trans_lt (name?_eq_some_iff.mp h).length_lt

end Lengths

mutual

/-- The value that a text begins with, and what follows it. -/
def value? (t : Text) : Option (Json × Rest t) :=
  match t with
  | [] => none
  | c :: u =>
    if c = '[' then
      match h : next? ']' u with
      | some r => some (.list [], ⟨r, (length_lt_of_next? h).trans (Nat.lt_succ_self _)⟩)
      | none =>
        match items? (skip u) with
        | some (items, r) => some (.list items, r.within (length_skip_le_cons c u))
        | none => none
    else if c = '\x7b' then
      match h : next? '\x7d' u with
      | some r => some (.object [], ⟨r, (length_lt_of_next? h).trans (Nat.lt_succ_self _)⟩)
      | none =>
        match fields? (skip u) with
        | some (fields, r) => some (.object fields, r.within (length_skip_le_cons c u))
        | none => none
    else
      match h : scalar? (c :: u) with
      | some (v, r) => some (v, ⟨r, (scalar?_eq_some_iff.mp h).length_lt⟩)
      | none => none
termination_by (t.length, 0)
decreasing_by
  · exact Prod.Lex.left _ _ (Nat.lt_succ_of_le (length_skip_le u))
  · exact Prod.Lex.left _ _ (Nat.lt_succ_of_le (length_skip_le u))

/-- The items that a text begins with, up to the bracket of their list, and what follows it. -/
def items? (t : Text) : Option (List Json × Rest t) :=
  match value? t with
  | none => none
  | some (v, ⟨u, hu⟩) =>
    match hend : next? ']' u with
    | some r => some ([v], ⟨r, (length_lt_of_next? hend).trans hu⟩)
    | none =>
      match hmore : next? ',' u with
      | none => none
      | some w =>
        match items? (skip w) with
        | some (items, r) => some (v :: items, r.within (length_skip_lt_of_next? hmore hu).le)
        | none => none
termination_by (t.length, 1)
decreasing_by
  · exact Prod.Lex.right _ Nat.zero_lt_one
  · exact Prod.Lex.left _ _ (length_skip_lt_of_next? hmore hu)

/-- The fields that a text begins with, up to the brace of their object, and what follows it. -/
def fields? (t : Text) : Option (List (Text × Json) × Rest t) :=
  match hname : name? t with
  | none => none
  | some (key, u) =>
    match value? (skip u) with
    | none => none
    | some (v, ⟨x, hx⟩) =>
      match hend : next? '\x7d' x with
      | some r =>
        some ([(key, v)], ⟨r, (length_lt_of_next? hend).trans (hx.trans (length_skip_lt_of_name? hname))⟩)
      | none =>
        match hmore : next? ',' x with
        | none => none
        | some y =>
          match fields? (skip y) with
          | some (fields, r) =>
            some ((key, v) :: fields,
              r.within (length_skip_lt_of_next? hmore (hx.trans (length_skip_lt_of_name? hname))).le)
          | none => none
termination_by (t.length, 1)
decreasing_by
  · exact Prod.Lex.left _ _ (length_skip_lt_of_name? hname)
  · exact Prod.Lex.left _ _ (length_skip_lt_of_next? hmore (hx.trans (length_skip_lt_of_name? hname)))

end

/-! ### What is read follows the grammar -/

-- The recursion is the reader's.
mutual

theorem value_of_value? {t : Text} {v : Json} {r : Rest t} (h : value? t = some (v, r)) : Value t v r.val := by
  match t with
  | [] =>
    rw [value?] at h
    cases h
  | c :: u =>
    rw [value?] at h
    split at h
    · next hc =>
      subst hc
      split at h
      · next hend =>
        cases h
        exact .emptyList ((next?_eq_some_iff (by decide)).mp hend)
      · split at h
        · next hitems =>
          cases h
          exact .list (blanks_skip u) (items_of_items? hitems)
        · cases h
    · split at h
      · next hc =>
        subst hc
        split at h
        · next hend =>
          cases h
          exact .emptyObject ((next?_eq_some_iff (by decide)).mp hend)
        · split at h
          · next hfields =>
            cases h
            exact .object (blanks_skip u) (fields_of_fields? hfields)
          · cases h
      · split at h
        · next hscalar =>
          cases h
          exact .scalar (scalar?_eq_some_iff.mp hscalar)
        · cases h
termination_by (t.length, 0)
decreasing_by
  · exact Prod.Lex.left _ _ (Nat.lt_succ_of_le (length_skip_le u))
  · exact Prod.Lex.left _ _ (Nat.lt_succ_of_le (length_skip_le u))

theorem items_of_items? {t : Text} {items : List Json} {r : Rest t} (h : items? t = some (items, r)) :
    Items t items r.val := by
  rw [items?] at h
  split at h
  · cases h
  · next v u hu hvalue =>
    have hfirst := value_of_value? hvalue
    split at h
    · next hend =>
      cases h
      exact .last hfirst ((next?_eq_some_iff (by decide)).mp hend)
    · split at h
      · cases h
      · next w hmore =>
        split at h
        · next hitems =>
          cases h
          exact .more hfirst ((next?_eq_some_iff (by decide)).mp hmore) (blanks_skip w) (items_of_items? hitems)
        · cases h
termination_by (t.length, 1)
decreasing_by
  · exact Prod.Lex.right _ Nat.zero_lt_one
  · exact Prod.Lex.left _ _ (length_skip_lt_of_next? ‹_› ‹_›)

theorem fields_of_fields? {t : Text} {fields : List (Text × Json)} {r : Rest t} (h : fields? t = some (fields, r)) :
    Fields t fields r.val := by
  rw [fields?] at h
  split at h
  · cases h
  · next key u hname =>
    have hkey := name?_eq_some_iff.mp hname
    split at h
    · cases h
    · next v x hx hvalue =>
      have hfirst := value_of_value? hvalue
      split at h
      · next hend =>
        cases h
        exact .last hkey (blanks_skip u) hfirst ((next?_eq_some_iff (by decide)).mp hend)
      · split at h
        · cases h
        · next y hmore =>
          split at h
          · next hfields =>
            cases h
            exact .more hkey (blanks_skip u) hfirst ((next?_eq_some_iff (by decide)).mp hmore) (blanks_skip y)
              (fields_of_fields? hfields)
          · cases h
termination_by (t.length, 1)
decreasing_by
  · exact Prod.Lex.left _ _ (length_skip_lt_of_name? ‹_›)
  · exact Prod.Lex.left _ _ (length_skip_lt_of_next? ‹_› (Nat.lt_trans ‹_› (length_skip_lt_of_name? ‹_›)))

end

/-! ### What follows the grammar is read -/

section Beginnings
variable {c : Char} {t u r key : Text} {v : Json} {items : List Json} {fields : List (Text × Json)}

theorem next?_eq_none (h : Blanks t (c :: u)) (hc : isBlank c = false) {d : Char} (hne : d ≠ c) : next? d t = none := by
  rw [next?, skip_eq_of_blanks h (by rintro _ ⟨⟩; exact hc)]
  exact if_neg hne

theorem Scalar.exists_cons (h : Scalar t v r) :
    ∃ c u, t = c :: u ∧ isBlank c = false ∧ c ≠ '[' ∧ c ≠ '\x7b' ∧ c ≠ ']' ∧ c ≠ '\x7d' := by
  cases h with
  | text _ => exact ⟨_, _, rfl, by decide⟩
  | yes => exact ⟨_, _, rfl, by decide⟩
  | no => exact ⟨_, _, rfl, by decide⟩
  | @number ds _ hds _ =>
    obtain ⟨c, ds, rfl⟩ := List.exists_cons_of_ne_nil hds.ne_nil
    have hdigit : c.isDigit = true := hds.digits c List.mem_cons_self
    refine ⟨c, _, rfl, ?_, ?_, ?_, ?_, ?_⟩
    · by_contra hblank
      simp only [isBlank, Bool.not_eq_false, Bool.or_eq_true, beq_iff_eq] at hblank
      rcases hblank with ((rfl | rfl) | rfl) | rfl <;> cases hdigit
    all_goals
      rintro rfl
      cases hdigit

/-- Something begins here: there is no white space, and no list or object ends. -/
def Begins (t : Text) : Prop := ∃ c u, t = c :: u ∧ isBlank c = false ∧ c ≠ ']' ∧ c ≠ '\x7d'

theorem Begins.skip_eq (h : Begins u) (hblanks : Blanks t u) : skip t = u := by
  obtain ⟨c, u, rfl, hc, -⟩ := h
  exact skip_eq_of_blanks hblanks (by rintro _ ⟨⟩; exact hc)

theorem Value.begins (h : Value t v r) : Begins t := by
  cases h with
  | scalar h =>
    obtain ⟨c, u, ht, hc, -, -, hends⟩ := h.exists_cons
    exact ⟨c, u, ht, hc, hends⟩
  | emptyList _ => exact ⟨_, _, rfl, by decide⟩
  | list _ _ => exact ⟨_, _, rfl, by decide⟩
  | emptyObject _ => exact ⟨_, _, rfl, by decide⟩
  | object _ _ => exact ⟨_, _, rfl, by decide⟩

theorem Items.begins (h : Items t items r) : Begins t := by
  cases h with
  | last h _ => exact h.begins
  | more h _ _ _ => exact h.begins

theorem Name.begins (h : Name t key r) : Begins t := by
  cases h
  exact ⟨_, _, rfl, by decide⟩

theorem Fields.begins (h : Fields t fields r) : Begins t := by
  cases h with
  | last h _ _ _ => exact h.begins
  | more h _ _ _ _ _ => exact h.begins

end Beginnings

/-- A reader gives back a value and what follows it. -/
def Reads {α : Type} (read : (t : Text) → Option (α × Rest t)) (t : Text) (a : α) (r : Text) : Prop :=
  ∃ h, read t = some (a, ⟨r, h⟩)

theorem Reads.skip {α : Type} {read : (t : Text) → Option (α × Rest t)} {t u r : Text} {a : α} (h : Reads read u a r)
    (hu : Begins u) (hblanks : Blanks t u) : Reads read (skip t) a r :=
  (hu.skip_eq hblanks).symm ▸ h

-- The recursion is the grammar's: its rule says which of the reader's tests succeeds, and how a text begins why those
-- before fail.
mutual

theorem reads_value? {t r : Text} {v : Json} : Value t v r → Reads value? t v r
  | .scalar h => by
    obtain ⟨c, u, rfl, -, hlist, hobject, -⟩ := h.exists_cons
    have hread := scalar?_eq_some_iff.mpr h
    rw [Reads, value?, if_neg hlist, if_neg hobject]
    split
    · next heq =>
      cases hread.symm.trans heq
      exact ⟨h.length_lt, rfl⟩
    · next heq => cases hread.symm.trans heq
  | .emptyList hend => by
    have hread := (next?_eq_some_iff (by decide)).mpr hend
    rw [Reads, value?, if_pos rfl]
    split
    · next heq =>
      cases hread.symm.trans heq
      exact ⟨(length_lt_of_next? hread).trans (Nat.lt_succ_self _), rfl⟩
    · next heq => cases hread.symm.trans heq
  | .list hblanks hitems => by
    obtain ⟨hr, hread⟩ := (reads_items? hitems).skip hitems.begins hblanks
    obtain ⟨c, u, rfl, hc, hne, -⟩ := hitems.begins
    rw [Reads, value?, if_pos rfl]
    split
    · next heq => cases (next?_eq_none hblanks hc hne.symm).symm.trans heq
    · rw [hread]
      exact ⟨hr.trans_le (length_skip_le_cons _ _), rfl⟩
  | .emptyObject hend => by
    have hread := (next?_eq_some_iff (by decide)).mpr hend
    rw [Reads, value?, if_neg (by decide), if_pos rfl]
    split
    · next heq =>
      cases hread.symm.trans heq
      exact ⟨(length_lt_of_next? hread).trans (Nat.lt_succ_self _), rfl⟩
    · next heq => cases hread.symm.trans heq
  | .object hblanks hfields => by
    obtain ⟨hr, hread⟩ := (reads_fields? hfields).skip hfields.begins hblanks
    obtain ⟨c, u, rfl, hc, -, hne⟩ := hfields.begins
    rw [Reads, value?, if_neg (by decide), if_pos rfl]
    split
    · next heq => cases (next?_eq_none hblanks hc hne.symm).symm.trans heq
    · rw [hread]
      exact ⟨hr.trans_le (length_skip_le_cons _ _), rfl⟩

theorem reads_items? {t r : Text} {items : List Json} : Items t items r → Reads items? t items r
  | .last hvalue hend => by
    obtain ⟨hu, hfirst⟩ := reads_value? hvalue
    have hread := (next?_eq_some_iff (by decide)).mpr hend
    rw [Reads, items?, hfirst]
    dsimp only
    split
    · next heq =>
      cases hread.symm.trans heq
      exact ⟨(length_lt_of_next? hread).trans hu, rfl⟩
    · next heq => cases hread.symm.trans heq
  | .more hvalue hmore hblanks hitems => by
    obtain ⟨hu, hfirst⟩ := reads_value? hvalue
    obtain ⟨hr, hrest⟩ := (reads_items? hitems).skip hitems.begins hblanks
    have hread := (next?_eq_some_iff (by decide)).mpr hmore
    rw [Reads, items?, hfirst]
    dsimp only
    split
    · next heq => cases (next?_eq_none hmore (by decide) (by decide)).symm.trans heq
    · split
      · next heq => cases hread.symm.trans heq
      · next heq =>
        cases hread.symm.trans heq
        rw [hrest]
        exact ⟨hr.trans_le (length_skip_lt_of_next? hread hu).le, rfl⟩

theorem reads_fields? {t r : Text} {fields : List (Text × Json)} : Fields t fields r → Reads fields? t fields r
  | .last hname hblanks hvalue hend => by
    obtain ⟨hx, hfirst⟩ := (reads_value? hvalue).skip hvalue.begins hblanks
    have hkey := name?_eq_some_iff.mpr hname
    have hread := (next?_eq_some_iff (by decide)).mpr hend
    rw [Reads, fields?]
    split
    · next heq => cases hkey.symm.trans heq
    · next heq =>
      cases hkey.symm.trans heq
      rw [hfirst]
      dsimp only
      split
      · next heq =>
        cases hread.symm.trans heq
        exact ⟨(length_lt_of_next? hread).trans (hx.trans (length_skip_lt_of_name? hkey)), rfl⟩
      · next heq => cases hread.symm.trans heq
  | .more hname hblanks hvalue hmore hblanks' hfields => by
    obtain ⟨hx, hfirst⟩ := (reads_value? hvalue).skip hvalue.begins hblanks
    obtain ⟨hr, hrest⟩ := (reads_fields? hfields).skip hfields.begins hblanks'
    have hkey := name?_eq_some_iff.mpr hname
    have hread := (next?_eq_some_iff (by decide)).mpr hmore
    rw [Reads, fields?]
    split
    · next heq => cases hkey.symm.trans heq
    · next heq =>
      cases hkey.symm.trans heq
      rw [hfirst]
      dsimp only
      split
      · next heq => cases (next?_eq_none hmore (by decide) (by decide)).symm.trans heq
      · split
        · next heq => cases hread.symm.trans heq
        · next heq =>
          cases hread.symm.trans heq
          rw [hrest]
          exact ⟨hr.trans (length_skip_lt_of_next? hread (hx.trans (length_skip_lt_of_name? hkey))), rfl⟩

end

/-! ### Documents -/

/-- The value of a document. -/
def read (t : Text) : Option Json :=
  match value? (skip t) with
  | some (v, r) => if r.val.all isBlank then some v else none
  | none => none

theorem read_eq_some_iff {t : Text} {v : Json} : read t = some v ↔ Document t v := by
  constructor
  · intro h
    unfold read at h
    split at h
    · next r hvalue =>
      split at h
      · next hrest =>
        cases h
        exact ⟨_, _, blanks_skip t, value_of_value? hvalue, r.val, List.all_eq_true.mp hrest, by rw [List.append_nil]⟩
      · cases h
    · cases h
  · rintro ⟨u, r, hblanks, hvalue, b, hb, hr⟩
    obtain ⟨hr', hread⟩ := (reads_value? hvalue).skip hvalue.begins hblanks
    rw [List.append_nil] at hr
    subst hr
    rw [read, hread]
    exact if_pos (List.all_eq_true.mpr hb)

/-- No text is a document of two values. -/
theorem Document.unique {t : Text} {v w : Json} (hv : Document t v) (hw : Document t w) : v = w :=
  Option.some.inj ((read_eq_some_iff.mpr hv).symm.trans (read_eq_some_iff.mpr hw))

end StringResources.Json
