import StringResources.Proofs.CommandLine.Output
import StringResources.Proofs.Report.Listing
import StringResources.Proofs.Report.Reader

/-! What programs get of a report. The indented form of a value is a document that holds it, and a report can be made
    again of its value, with the keys told from the way they are displayed. Main statements: `prints_prettyAt`,
    `SyncReport.ofJson?_toJson` and `closingOutput_json`. -/

namespace StringResources
namespace Json

/-! ### Strings -/

theorem codeUnit?_hexDigit {n : Nat} (h : n < 0x20) :
    codeUnit? '0' '0' (hexDigit (n / 16)) (hexDigit (n % 16)) = some n := by
  have hall : ∀ n < 0x20, codeUnit? '0' '0' (hexDigit (n / 16)) (hexDigit (n % 16)) = some n := by decide
  exact hall n h

theorem character_escape (c : Char) (r : Text) : Character (escape c ++ r) c r := by
  unfold escape
  split_ifs with hquote hslash _ _ _ _ _ hcontrol
  any_goals
    subst c
    exact .escaped rfl
  · have hvalid : c.toNat.isValidChar := c.valid
    have hunit := Character.unit (r := r) (codeUnit?_hexDigit hcontrol) hvalid
    rwa [Char.ofNat_toNat] at hunit
  · exact .plain (Nat.not_lt.mp hcontrol) hquote hslash

theorem chars_flatMap_escape (t r : Text) : Chars (t.flatMap escape ++ '\x22' :: r) t r := by
  induction t with
  | nil => exact .close
  | cons c t ih =>
    rw [List.flatMap_cons, List.append_assoc]
    exact .more (character_escape c _) ih

theorem quoted_append (t r : Text) : quoted t ++ r = '\x22' :: (t.flatMap escape ++ '\x22' :: r) := by
  rw [quoted, List.cons_append, List.append_assoc]
  rfl

/-! ### Numbers -/

theorem ofDigitChars_ofNat (n : Nat) : Nat.ofDigitChars 10 (Text.ofNat n) 0 = n := Nat.ofDigitChars_ten_toDigits

theorem digitChar_ne_zero {n : Nat} (h : n < 10) (hpos : 0 < n) : n.digitChar ≠ '0' := by
  have hall : ∀ n < 10, 0 < n → n.digitChar ≠ '0' := by decide
  exact hall n h hpos

/-- The first digit of a positive number is not zero. -/
theorem head?_ofNat_ne_zero {n : Nat} (hpos : 0 < n) : (Text.ofNat n).head? ≠ some '0' := by
  induction n using Nat.strongRecOn with
  | ind n ih =>
    rw [Text.ofNat, Nat.toDigits_eq_if (by decide)]
    split
    · next hlt =>
      intro hhead
      exact digitChar_ne_zero hlt hpos (Option.some.inj hhead)
    · next hge =>
      rw [List.head?_append_of_ne_nil _ Nat.toDigits_ne_nil]
      exact ih (n / 10) (Nat.div_lt_self hpos (by decide)) (Nat.div_pos (Nat.not_lt.mp hge) (by decide))

theorem numeral_ofNat (n : Nat) : Numeral (Text.ofNat n) where
  ne_nil := Nat.toDigits_ne_nil
  digits := fun _ hc => Nat.isDigit_of_mem_toDigits (by decide) (by decide) hc
  zero := by
    intro hhead
    rcases Nat.eq_zero_or_pos n with rfl | hpos
    · rfl
    · exact absurd hhead (head?_ofNat_ne_zero hpos)

/-! ### Values -/

theorem Blanks.refl (t : Text) : Blanks t t := ⟨[], by simp, rfl⟩

theorem blanks_lineStart (depth : Nat) (r : Text) : Blanks (lineStart depth ++ r) r := by
  refine ⟨lineStart depth, fun c hc => ?_, rfl⟩
  rcases List.mem_cons.mp hc with rfl | hc
  · rfl
  · rw [List.eq_of_mem_replicate hc]
    rfl

theorem blanks_space (t : Text) : Blanks (' ' :: t) t := ⟨[' '], fun _ hc => List.mem_singleton.mp hc ▸ rfl, rfl⟩

theorem name_quoted (key r : Text) : Name (quoted key ++ (": ".toList ++ r)) key (' ' :: r) := by
  rw [quoted_append]
  exact .colon (chars_flatMap_escape key _) (Blanks.refl _)

/-- No digit comes first, so what is before may end in one. -/
def StopsDigits (t : Text) : Prop := ∀ c ∈ t.head?, c.isDigit = false

theorem stopsDigits_prettyItems (depth : Nat) (items : List Json) (d : Nat) (r : Text) :
    StopsDigits (prettyItems depth items ++ (lineStart d ++ r)) := by
  cases items <;> rintro _ ⟨⟩ <;> rfl

theorem stopsDigits_prettyFields (depth : Nat) (fields : List (Text × Json)) (d : Nat) (r : Text) :
    StopsDigits (prettyFields depth fields ++ (lineStart d ++ r)) := by
  cases fields <;> rintro _ ⟨⟩ <;> rfl

/-- However a text goes on, it begins with a value, unless a number would go on with it. -/
def Prints (t : Text) (v : Json) : Prop := ∀ r, StopsDigits r → Value (t ++ r) v r

mutual

theorem prints_prettyAt (depth : Nat) : ∀ v : Json, Prints (prettyAt depth v) v
  | .text t => by
    intro r _
    rw [prettyAt, quoted_append]
    exact .scalar (.text (chars_flatMap_escape t r))
  | .number n => by
    intro r hr
    have hscalar := Scalar.number (numeral_ofNat n) hr
    rw [ofDigitChars_ofNat] at hscalar
    exact .scalar hscalar
  | .flag true => fun _ _ => .scalar .yes
  | .flag false => fun _ _ => .scalar .no
  | .list [] => fun _ _ => .emptyList (Blanks.refl _)
  | .list (item :: items) => by
    intro r _
    simp only [prettyAt, List.cons_append, List.append_assoc]
    exact .list (blanks_lineStart _ _) (items_prettyItems (depth + 1) items (prints_prettyAt (depth + 1) item) depth r)
  | .object [] => fun _ _ => .emptyObject (Blanks.refl _)
  | .object ((key, value) :: fields) => by
    intro r _
    simp only [prettyAt, List.cons_append, List.append_assoc]
    exact .object (blanks_lineStart _ _)
      (fields_prettyFields (depth + 1) key fields (prints_prettyAt (depth + 1) value) depth r)

/-- After its first item a list goes on with the others, each on its line. -/
theorem items_prettyItems (depth : Nat) (items : List Json) {t : Text} {v : Json} (hfirst : Prints t v) (d : Nat)
    (r : Text) : Items (t ++ (prettyItems depth items ++ (lineStart d ++ ([']'] ++ r)))) (v :: items) r := by
  have hvalue := hfirst _ (stopsDigits_prettyItems depth items d (']' :: r))
  match items with
  | [] => exact .last hvalue (blanks_lineStart _ _)
  | item :: items =>
    simp only [prettyItems, List.cons_append, List.append_assoc] at hvalue ⊢
    exact .more hvalue (Blanks.refl _) (blanks_lineStart _ _)
      (items_prettyItems depth items (prints_prettyAt depth item) d r)

/-- After its first field an object goes on with the others, each on its line. -/
theorem fields_prettyFields (depth : Nat) (key : Text) (fields : List (Text × Json)) {t : Text} {v : Json}
    (hfirst : Prints t v) (d : Nat) (r : Text) :
    Fields (quoted key ++ (": ".toList ++ (t ++ (prettyFields depth fields ++ (lineStart d ++ (['\x7d'] ++ r))))))
      ((key, v) :: fields) r := by
  have hname := name_quoted key (t ++ (prettyFields depth fields ++ (lineStart d ++ '\x7d' :: r)))
  have hvalue := hfirst _ (stopsDigits_prettyFields depth fields d ('\x7d' :: r))
  match fields with
  | [] => exact .last hname (blanks_space _) hvalue (blanks_lineStart _ _)
  | (next, value) :: fields =>
    simp only [prettyFields, List.cons_append, List.append_assoc] at hname hvalue ⊢
    exact .more hname (blanks_space _) hvalue (Blanks.refl _) (blanks_lineStart _ _)
      (fields_prettyFields depth next fields (prints_prettyAt depth value) d r)

end

/-- The indented form of a value, on lines of its own, is a document that holds the value. -/
theorem document_pretty (v : Json) : Document (v.pretty ++ ['\n']) v :=
  ⟨_, ['\n'], Blanks.refl _, prints_prettyAt 0 v ['\n'] (by rintro _ ⟨⟩; rfl), ['\n'],
    fun _ hc => List.mem_singleton.mp hc ▸ rfl, rfl⟩

theorem read_pretty (v : Json) : read (v.pretty ++ ['\n']) = some v := read_eq_some_iff.mpr (document_pretty v)

/-! ### What is made of values -/

def field? (key : Text) : Json → Option Json
  | .object fields => fields.lookup key
  | _ => none

def asText? : Json → Option Text
  | .text t => some t
  | _ => none

def asNumber? : Json → Option Nat
  | .number n => some n
  | _ => none

def asFlag? : Json → Option Bool
  | .flag b => some b
  | _ => none

def asList? {α : Type} (item? : Json → Option α) : Json → Option (List α)
  | .list items => items.mapM item?
  | _ => none

theorem asList?_map {α : Type} {item? : Json → Option α} {f : α → Json} (h : ∀ a, item? (f a) = some a) (as : List α) :
    asList? item? (.list (as.map f)) = some as := by
  rw [asList?]
  induction as with
  | nil => rfl
  | cons a as ih => simp [h, ih]

end Json

open Json

def Key.ofJson? (v : Json) : Option Key := v.asText?.bind Key.ofDisplay?

theorem Key.ofJson?_text_display (k : Key) : Key.ofJson? (.text k.display) = some k := k.ofDisplay?_display

namespace FileReport

/-- The report of which a value was made. -/
def ofJson? (v : Json) : Option FileReport := do
  return {
    base := ← (← v.field? "base".toList).asText?
    locale := ← (← v.field? "locale".toList).asText?
    added := ← asList? Key.ofJson? (← v.field? "added".toList)
    skipped := ← asList? Key.ofJson? (← v.field? "skipped".toList)
    preserved := ← (← v.field? "preserved".toList).asNumber?
    written := ← (← v.field? "written".toList).asFlag? }

theorem ofJson?_toJson (r : FileReport) : ofJson? r.toJson = some r := by
  have hkeys : ∀ keys : List Key, asList? Key.ofJson? (keysJson keys) = some keys :=
    asList?_map Key.ofJson?_text_display
  simp [ofJson?, toJson, field?, List.lookup, asText?, asNumber?, asFlag?, hkeys]

end FileReport

namespace SyncReport

def ofJson? (v : Json) : Option SyncReport := do
  return { files := ← asList? FileReport.ofJson? (← v.field? "files".toList) }

theorem ofJson?_toJson (r : SyncReport) : ofJson? r.toJson = some r := by
  have hfiles := asList?_map FileReport.ofJson?_toJson r.files
  simp [ofJson?, toJson, field?, List.lookup, hfiles]

end SyncReport

namespace Command

/-- The document of a report gives the report back. -/
theorem read_document (r : SyncReport) : (Json.read (line r.toJson.pretty)).bind SyncReport.ofJson? = some r := by
  rw [line, read_pretty]
  exact r.ofJson?_toJson

/-- What is printed of a report is a document of one value, and of no other report is the same printed. The report and
    its keys can be told from it. A run that is to report in JSON prints just that, if it comes to its end. -/
theorem closingOutput_json (a : Arguments) (r : SyncReport) :
    let asked := { a with json := true }
    let printed := closingOutput asked r
    (∀ s : SyncReport, closingOutput asked s = printed ↔ s = r) ∧
    (∀ v : Json, Json.Document printed v ↔ v = r.toJson) ∧
    (Json.read printed).bind SyncReport.ofJson? = some r ∧
    (∀ k : Key, Key.ofDisplay? k.display = some k) ∧
    ∀ d : Disk, (run asked d).result = .ok r → (run asked d).stdout = printed := by
  intro asked printed
  have hprinted : ∀ s, closingOutput asked s = line s.toJson.pretty := fun _ => if_pos rfl
  have hdocument : Json.Document (closingOutput asked r) r.toJson := hprinted r ▸ document_pretty r.toJson
  have hread : ∀ s, (Json.read (closingOutput asked s)).bind SyncReport.ofJson? = some s := by
    intro s
    rw [hprinted]
    exact read_document s
  refine ⟨fun s => ⟨fun h => ?_, fun h => h ▸ rfl⟩, fun v => ⟨fun h => h.unique hdocument, fun h => h ▸ hdocument⟩,
    hread r, Key.ofDisplay?_display, fun d h => ?_⟩
  · have hs := hread s
    rw [h, hread r] at hs
    exact (Option.some.inj hs).symm
  · rw [stdout_of_json rfl, h]
    exact (hprinted r).symm

/-- A report with quotes, backslashes, a control character and a slash in its texts. -/
def unwieldy : SyncReport where
  files := [{
    base := "a\x22\\b".toList
    locale := "c".toList
    added := [{ kind := .stringArray, name := "@d/\n\x01".toList }, { kind := .string, name := "array/".toList }]
    skipped := []
    preserved := 10
    written := true }]

theorem closingOutput_json_unwieldy :
    let printed := closingOutput { json := true } unwieldy
    printed = "\x7b\n  \x22files\x22: [\n    \x7b\n      \x22base\x22: \x22a\\\x22\\\\b\x22,\n".toList ++
      "      \x22locale\x22: \x22c\x22,\n      \x22added\x22: [\n".toList ++
      "        \x22@array/@d/\\n\\u0001\x22,\n        \x22@string/array/\x22\n      ],\n".toList ++
      "      \x22skipped\x22: [],\n      \x22preserved\x22: 10,\n".toList ++
      "      \x22written\x22: true\n    \x7d\n  ]\n\x7d\n".toList ∧
    (Json.read printed).bind SyncReport.ofJson? = some unwieldy :=
  ⟨by decide +kernel, (closingOutput_json { json := true } unwieldy).2.2.1⟩

end Command

end StringResources
