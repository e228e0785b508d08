import Mathlib
import StringResources.Merge.Plan
import StringResources.Proofs.Text.Located
import StringResources.Report.Summary
import StringResources.Resource.Parse

/-! The list of the keys that a report prints, one after the other and each with a lead. The names of keys may have line
    breaks, so a key may take several lines, and a line of a name may look like one of another key (`Key.Mimics`). Lists
    without such names are determined by their text, and every list prints the text of one of them. Main statements:
    `length_lines_keyList`, `keyList_injective` and `keyList_added`. -/

namespace StringResources

/-! ### Keys as they are displayed -/

namespace Kind

/-- The kind for which a word stands in a reference. -/
def ofReferenceType? (word : Text) : Option Kind := all.find? (·.referenceType == word)

@[simp] theorem ofReferenceType?_referenceType (k : Kind) : ofReferenceType? k.referenceType = some k := by
  cases k <;> rfl

theorem slash_notMem_referenceType (k : Kind) : '/' ∉ k.referenceType := by cases k <;> decide

theorem lineFeed_notMem_referenceType (k : Kind) : '\n' ∉ k.referenceType := by cases k <;> decide

end Kind

namespace Key

/-- The key that a reference names. -/
def ofDisplay? : Text → Option Key
  | '@' :: t =>
    match Text.splitAt? ['/'] t with
    | some (word, name) => (Kind.ofReferenceType? word).map fun kind => { kind := kind, name := name }
    | none => none
  | _ => none

/-- A name may have slashes, but the word before it has none. -/
theorem ofDisplay?_display (k : Key) : ofDisplay? k.display = some k := by
  have hsplit : Text.splitAt? ['/'] (k.kind.referenceType ++ '/' :: k.name) = some (k.kind.referenceType, k.name) :=
    Text.splitAt?_singleton_eq_some_iff.mpr ⟨rfl, k.kind.slash_notMem_referenceType⟩
  simp [ofDisplay?, display, hsplit]

theorem display_injective : Function.Injective display := fun k l h =>
  Option.some.inj ((ofDisplay?_display k).symm.trans (h ▸ ofDisplay?_display l))

theorem count_display (k : Key) : k.display.count '\n' = k.name.count '\n' := by
  have hword : k.kind.referenceType.count '\n' = 0 := List.count_eq_zero.mpr k.kind.lineFeed_notMem_referenceType
  simp [display, hword]

/-- How a line for a key begins, up to the name. -/
def lineStart (lead : Text) (kind : Kind) : Text := lead ++ '@' :: (kind.referenceType ++ ['/'])

theorem lead_append_display (lead : Text) (k : Key) : lead ++ k.display = lineStart lead k.kind ++ k.name := by
  simp [display, lineStart]

theorem lineFeed_notMem_lineStart {lead : Text} (hlead : '\n' ∉ lead) (kind : Kind) : '\n' ∉ lineStart lead kind := by
  simp [lineStart, hlead, kind.lineFeed_notMem_referenceType]

/-- After a line break the name of a key goes on like a line for a key. -/
def Mimics (lead : Text) (k : Key) : Prop := ∃ (s : Text) (l : Key), k.name = s ++ '\n' :: (lead ++ l.display)

end Key

namespace Report
open Key

/-! ### Lines -/

section Lines
variable {lead : Text}

theorem keyList_cons_cons (lead : Text) (k l : Key) (ks : List Key) :
    keyList lead (k :: l :: ks) = lead ++ k.display ++ '\n' :: keyList lead (l :: ks) := by
  simp [keyList, List.intercalate]

/-- The lines of a list are those of its keys. -/
theorem lines_keyList (lead : Text) {keys : List Key} (h : keys ≠ []) :
    Text.splitOn '\n' (keyList lead keys) = keys.flatMap fun k => Text.splitOn '\n' (lead ++ k.display) := by
  induction keys with
  | nil => exact absurd rfl h
  | cons k keys ih =>
    cases keys with
    | nil => simp [keyList]
    | cons l keys =>
      rw [keyList_cons_cons, Text.splitOn_append, ih (List.cons_ne_nil _ _)]
      rfl

/-- Each line break in a name makes one more line. -/
theorem length_lines_keyList (hlead : '\n' ∉ lead) {keys : List Key} (h : keys ≠ []) :
    (Text.splitOn '\n' (keyList lead keys)).length = keys.length + (keys.map (·.name.count '\n')).sum := by
  have hline : ∀ k : Key, (Text.splitOn '\n' (lead ++ k.display)).length = 1 + k.name.count '\n' := by
    intro k
    rw [Text.length_splitOn, List.count_append, List.count_eq_zero.mpr hlead, count_display, Nat.zero_add, Nat.add_comm]
  rw [lines_keyList lead h, List.length_flatMap]
  clear h
  induction keys with
  | nil => rfl
  | cons k keys ih =>
    simp only [List.map_cons, List.sum_cons, List.length_cons, hline] at ih ⊢
    omega

theorem sum_count_eq_zero_iff {keys : List Key} :
    (keys.map (·.name.count '\n')).sum = 0 ↔ ∀ k ∈ keys, '\n' ∉ k.name := by
  simp [List.sum_eq_zero_iff_forall_eq_nat, List.count_eq_zero]

theorem lines_keyList_of_notMem (hlead : '\n' ∉ lead) {keys : List Key} (h : keys ≠ [])
    (hnames : ∀ k ∈ keys, '\n' ∉ k.name) :
    Text.splitOn '\n' (keyList lead keys) = keys.map fun k => lead ++ k.display := by
  rw [lines_keyList lead h, List.map_eq_flatMap]
  refine List.flatMap_congr fun k hk => Text.splitOn_of_notMem ?_
  rw [lead_append_display, List.mem_append, not_or]
  exact ⟨lineFeed_notMem_lineStart hlead k.kind, hnames k hk⟩

/-- There is a line for each key that begins with it exactly if no name has a line break. -/
theorem forall₂_lines_iff (hlead : '\n' ∉ lead) {keys : List Key} (h : keys ≠ []) :
    List.Forall₂ (fun k line => lead ++ k.display <+: line) keys (Text.splitOn '\n' (keyList lead keys)) ↔
      ∀ k ∈ keys, '\n' ∉ k.name := by
  constructor
  · intro hlines
    have hlength := hlines.length_eq
    rw [length_lines_keyList hlead h] at hlength
    exact sum_count_eq_zero_iff.mp (by omega)
  · intro hnames
    rw [lines_keyList_of_notMem hlead h hnames, List.forall₂_map_right_iff, List.forall₂_same]
    exact fun k _ => List.prefix_refl _

end Lines

/-! ### Lists with the same text -/

section Texts
variable {lead : Text}

/-- What follows the first key of a list. -/
def following (lead : Text) (keys : List Key) : Text := keys.flatMap fun k => '\n' :: (lead ++ k.display)

theorem keyList_cons (lead : Text) (k : Key) (ks : List Key) :
    keyList lead (k :: ks) = lineStart lead k.kind ++ (k.name ++ following lead ks) := by
  induction ks generalizing k with
  | nil => simp [keyList, following, lead_append_display]
  | cons l ks ih =>
    rw [keyList_cons_cons, ih, lead_append_display]
    simp [following, lead_append_display]

theorem following_cons (lead : Text) (k : Key) (ks : List Key) :
    following lead (k :: ks) = '\n' :: keyList lead (k :: ks) := by
  rw [keyList_cons, following, List.flatMap_cons, lead_append_display]
  simp [following]

theorem head_of_following {ks : List Key} {c : Char} {t : Text} (h : following lead ks = c :: t) : c = '\n' := by
  cases ks with
  | nil => cases h
  | cons k ks => exact (List.cons.inj h).1.symm

theorem keyList_eq_of_following {ks ls : List Key} (h : following lead ks = following lead ls) :
    keyList lead ks = keyList lead ls := by
  cases ks with
  | nil =>
    cases ls with
    | nil => rfl
    | cons l ls => cases h
  | cons k ks =>
    cases ls with
    | nil => cases h
    | cons l ls =>
      rw [following_cons, following_cons] at h
      exact (List.cons.inj h).2

/-- A text before the keys that follow, where others follow without it, begins with a line break and goes on like the
    line of one of these. -/
theorem exists_of_append_following (hlead : '\n' ∉ lead) {w : Text} (hw : w ≠ []) {ks ls : List Key}
    (h : w ++ following lead ls = following lead ks) : ∃ l : Key, w = '\n' :: (lead ++ l.display) := by
  cases ks with
  | nil => exact absurd (List.append_eq_nil_iff.mp h).1 hw
  | cons k ks =>
    rw [following_cons, keyList_cons] at h
    cases w with
    | nil => exact absurd rfl hw
    | cons c w =>
      rw [List.cons_append] at h
      obtain ⟨rfl, hline⟩ := List.cons.inj h
      rcases List.append_eq_append_iff.mp hline with ⟨x, hstart, hrest⟩ | ⟨name, hw, -⟩
      · -- The text ends within the beginning of the line, where the others that follow have no line break.
        cases x with
        | nil =>
          rw [List.append_nil] at hstart
          exact ⟨{ kind := k.kind, name := [] }, by rw [lead_append_display, List.append_nil, hstart]⟩
        | cons d x =>
          obtain rfl := head_of_following hrest
          exact absurd (hstart ▸ by simp) (lineFeed_notMem_lineStart hlead k.kind)
      · exact ⟨{ kind := k.kind, name := name }, by rw [lead_append_display, hw]⟩

/-- Without names that mimic a line, a name ends where another one does that is followed by the same text. -/
theorem name_eq_of_append_following (hlead : '\n' ∉ lead) {k l : Key} {ks ls : List Key} (hk : ¬ k.Mimics lead)
    (hl : ¬ l.Mimics lead) (h : k.name ++ following lead ks = l.name ++ following lead ls) :
    k.name = l.name ∧ following lead ks = following lead ls := by
  rcases List.append_eq_append_iff.mp h with ⟨w, hname, hrest⟩ | ⟨w, hname, hrest⟩
  · by_cases hw : w = []
    · subst hw
      exact ⟨by simpa using hname.symm, by simpa using hrest⟩
    · obtain ⟨m, rfl⟩ := exists_of_append_following hlead hw hrest.symm
      exact absurd ⟨k.name, m, hname⟩ hl
  · by_cases hw : w = []
    · subst hw
      exact ⟨by simpa using hname, by simpa using hrest.symm⟩
    · obtain ⟨m, rfl⟩ := exists_of_append_following hlead hw hrest.symm
      exact absurd ⟨l.name, m, hname⟩ hk

theorem lineStart_append_inj {kind kind' : Kind} {t u : Text}
    (h : lineStart lead kind ++ t = lineStart lead kind' ++ u) : kind = kind' ∧ t = u := by
  have hdisplay : ({ kind := kind, name := t } : Key).display = ({ kind := kind', name := u } : Key).display := by
    rw [← lead_append_display lead ⟨kind, t⟩, ← lead_append_display lead ⟨kind', u⟩] at h
    exact List.append_cancel_left h
  exact (Key.mk.injEq ..).mp (display_injective hdisplay)

/-- Lists without names that mimic a line are determined by their text. -/
theorem keyList_injective (hlead : '\n' ∉ lead) {ks ls : List Key} (hks : ∀ k ∈ ks, ¬ k.Mimics lead)
    (hls : ∀ l ∈ ls, ¬ l.Mimics lead) (h : keyList lead ks = keyList lead ls) : ks = ls := by
  have hcons : ∀ (k : Key) (ks : List Key), keyList lead (k :: ks) ≠ [] := by
    intro k ks hnil
    simp [keyList_cons, lineStart] at hnil
  induction ks generalizing ls with
  | nil =>
    cases ls with
    | nil => rfl
    | cons l ls => exact absurd h.symm (hcons l ls)
  | cons k ks ih =>
    cases ls with
    | nil => exact absurd h (hcons k ks)
    | cons l ls =>
      rw [List.forall_mem_cons] at hks hls
      rw [keyList_cons, keyList_cons] at h
      obtain ⟨hkind, h⟩ := lineStart_append_inj h
      obtain ⟨hname, hrest⟩ := name_eq_of_append_following hlead hks.1 hls.1 h
      rw [ih hks.2 hls.2 (keyList_eq_of_following hrest)]
      cases k
      cases l
      cases hkind
      cases hname
      rfl

/-- A key whose name mimics a line may as well be two. -/
theorem keyList_split {k l : Key} {s : Text} (h : k.name = s ++ '\n' :: (lead ++ l.display)) (before after : List Key) :
    keyList lead (before ++ { kind := k.kind, name := s } :: l :: after) = keyList lead (before ++ k :: after) :=
  keyList_eq_of_following (by simp [following, h, lead_append_display])

/-- Every list prints the text of one without names that mimic a line. -/
theorem exists_keyList_eq (lead : Text) (keys : List Key) :
    ∃ ks : List Key, (∀ k ∈ ks, ¬ k.Mimics lead) ∧ keyList lead ks = keyList lead keys := by
  induction hn : (keys.map (·.name.length)).sum using Nat.strongRecOn generalizing keys with
  | ind n ih =>
    by_cases hplain : ∀ k ∈ keys, ¬ k.Mimics lead
    · exact ⟨keys, hplain, rfl⟩
    · push Not at hplain
      obtain ⟨k, hk, s, l, hname⟩ := hplain
      obtain ⟨before, after, rfl⟩ := List.append_of_mem hk
      have hshorter : ((before ++ { kind := k.kind, name := s } :: l :: after).map (·.name.length)).sum < n := by
        have hlength := congrArg List.length hname
        simp only [List.length_append, List.length_cons, Key.display] at hlength
        rw [← hn]
        simp only [List.map_append, List.map_cons, List.sum_append, List.sum_cons]
        omega
      obtain ⟨ks, hks, htext⟩ := ih _ hshorter _ rfl
      exact ⟨ks, hks, htext.trans (keyList_split hname before after)⟩

end Texts

/-- The list of the keys that a plan adds has a line for each of them exactly if no name among them has a line break,
    and then each line is the one of its key. Lists of plans are told apart by their texts if no name mimics a line; a
    text is always that of exactly one list without such names. -/
theorem keyList_added (base locale : Document) (options : MergeOptions)
    (hadded : (MergePlan.compute base locale options).addedKeys ≠ []) :
    let lead := "  + ".toList
    let keys := (MergePlan.compute base locale options).addedKeys
    let lines := Text.splitOn '\n' (keyList lead keys)
    (lines.length = keys.length ↔ ∀ k ∈ keys, '\n' ∉ k.name) ∧
    (List.Forall₂ (fun k line => lead ++ k.display <+: line) keys lines ↔ ∀ k ∈ keys, '\n' ∉ k.name) ∧
    (∀ base' locale' options', (∀ k ∈ keys, ¬ k.Mimics lead) →
      (∀ k ∈ (MergePlan.compute base' locale' options').addedKeys, ¬ k.Mimics lead) →
      keyList lead (MergePlan.compute base' locale' options').addedKeys = keyList lead keys →
      (MergePlan.compute base' locale' options').addedKeys = keys) ∧
    ∃! ks : List Key, (∀ k ∈ ks, ¬ k.Mimics lead) ∧ keyList lead ks = keyList lead keys := by
  intro lead keys lines
  have hlead : '\n' ∉ lead := by decide
  refine ⟨?_, forall₂_lines_iff hlead hadded, fun _ _ _ hplain hplain' => keyList_injective hlead hplain' hplain, ?_⟩
  · rw [← sum_count_eq_zero_iff, length_lines_keyList hlead hadded]
    exact Nat.add_eq_left
  · obtain ⟨ks, hks, htext⟩ := exists_keyList_eq lead keys
    exact ⟨ks, ⟨hks, htext⟩, fun ls ⟨hls, h⟩ => keyList_injective hlead hls hks (h.trans htext.symm)⟩

/-! ### Two names, and one that shows as two -/

/-- A document read from a text: its strings have the given names and elements, and no values. -/
def stringsIn (t : Text) (names : List (Text × Text)) : Document where
  path := []
  text := t
  entries := names.map fun (name, element) =>
    { key := { kind := .string, name := name }, value := [], translatable := true, element := element }
  indent := none
  rootOpen := ⟨0, 11⟩
  rootClose := .endTag (t.size - 12)
  namespaces := []

def noNames : Text := "<resources></resources>".toList

def twoNames : Text := "<resources><string name=\x22a\x22/><string name=\x22b\x22/></resources>".toList

def brokenName : Text := "<resources><string name=\x22a&#10;  + @string/b\x22/></resources>".toList

def foundNone : Document := stringsIn noNames []

def foundTwo : Document :=
  stringsIn twoNames
    [("a".toList, "<string name=\x22a\x22/>".toList), ("b".toList, "<string name=\x22b\x22/>".toList)]

def foundBroken : Document :=
  stringsIn brokenName [("a\n  + @string/b".toList, "<string name=\x22a&#10;  + @string/b\x22/>".toList)]

theorem parse_noNames : parse [] noNames = .ok foundNone := by decide +kernel

theorem parse_twoNames : parse [] twoNames = .ok foundTwo := by decide +kernel

theorem parse_brokenName : parse [] brokenName = .ok foundBroken := by decide +kernel

/-- Two names without line breaks: there is a line for each. -/
theorem keyList_added_two :
    parse [] twoNames = .ok foundTwo ∧ parse [] noNames = .ok foundNone ∧
    (MergePlan.compute foundTwo foundNone {}).addedKeys ≠ [] ∧
    (Text.splitOn '\n' (keyList "  + ".toList (MergePlan.compute foundTwo foundNone {}).addedKeys)).length = 2 ∧
    ∃! ks : List Key, (∀ k ∈ ks, ¬ k.Mimics "  + ".toList) ∧
      keyList "  + ".toList ks = keyList "  + ".toList (MergePlan.compute foundTwo foundNone {}).addedKeys := by
  have hadded : (MergePlan.compute foundTwo foundNone {}).addedKeys ≠ [] := by decide
  obtain ⟨hlength, -, -, hunique⟩ := keyList_added foundTwo foundNone {} hadded
  exact ⟨parse_twoNames, parse_noNames, hadded, hlength.mpr (by decide), hunique⟩

/-- One name with a line break takes two lines, and the list looks the same as that of two names. -/
theorem keyList_added_broken :
    parse [] brokenName = .ok foundBroken ∧ parse [] twoNames = .ok foundTwo ∧ parse [] noNames = .ok foundNone ∧
    (MergePlan.compute foundBroken foundNone {}).addedKeys.length = 1 ∧
    (Text.splitOn '\n' (keyList "  + ".toList (MergePlan.compute foundBroken foundNone {}).addedKeys)).length = 2 ∧
    (MergePlan.compute foundBroken foundNone {}).addedKeys ≠ (MergePlan.compute foundTwo foundNone {}).addedKeys ∧
    keyList "  + ".toList (MergePlan.compute foundBroken foundNone {}).addedKeys =
      keyList "  + ".toList (MergePlan.compute foundTwo foundNone {}).addedKeys :=
  ⟨parse_brokenName, parse_twoNames, parse_noNames, by decide, by decide, by decide, by decide⟩

end Report
end StringResources
