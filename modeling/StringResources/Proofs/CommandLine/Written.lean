import StringResources.CommandLine.Arguments
import StringResources.Proofs.Merge.Partition
import StringResources.Proofs.Sync.Checked
import StringResources.Proofs.Text.Decode

/-! Command lines written from their parts. An option with its value, a flag and a file are one word each. Reading such
    a word does one thing to the arguments (`place`), so the words that set different things may stand in any order, and
    the files anywhere among them. Main statements: `readFrom_spelled`, what reading words does, and `ofWords_written`,
    a command line is read as the parts it was written from. -/

namespace StringResources
namespace CommandLine

/-! ### Words and what they give -/

/-- What a word gives: an option with its value, a flag, or a file. -/
inductive Item where
  | setting (s : Setting) (value : Text)
  | switch (s : Switch)
  | file (name : Text)
  deriving DecidableEq

/-- How an option begins that has its value in the same word. -/
def Setting.lead : Setting → Text
  | .root => "--root=".toList
  | .locale => "--locale=".toList

/-- The words for a flag. -/
def Switch.words : Switch → List Text
  | .dryRun => ["--dry-run".toList]
  | .noMark => ["--no-mark".toList]
  | .skipUntranslatable => ["--skip-untranslatable".toList]
  | .json => ["--json".toList]
  | .quiet => ["--quiet".toList, "-q".toList]
  | .debug => ["--debug".toList]

def Switch.all : List Switch := [.dryRun, .noMark, .skipUntranslatable, .json, .quiet, .debug]

/-- A word gives an item. A file is written as it is, so it must not begin with a hyphen. -/
inductive Spells : Text → Item → Prop
  | setting (s : Setting) (value : Text) : Spells (s.lead ++ value) (.setting s value)
  | switch {s : Switch} {w : Text} : w ∈ s.words → Spells w (.switch s)
  | file {name : Text} : name.head? ≠ some '-' → Spells name (.file name)

namespace Item

def value? (s : Setting) : Item → Option Text
  | .setting s' value => if s' = s then some value else none
  | _ => none

def file? : Item → Option Text
  | .file name => some name
  | _ => none

/-- Items that are not two values for one option, and not one flag given twice. -/
def Apart : Item → Item → Prop
  | .setting s _, .setting s' _ => s ≠ s'
  | .switch s, .switch s' => s ≠ s'
  | _, _ => True

theorem Apart.symm {i j : Item} (h : i.Apart j) : j.Apart i := by
  cases i <;> cases j <;> first | exact trivial | exact Ne.symm h

end Item

/-- The arguments with one more item. -/
def place (a : Arguments) : Item → Arguments
  | .setting .root value => { a with root := some (Text.encode value) }
  | .setting .locale value => { a with locale := some value }
  | .switch s => set a s
  | .file name => { a with files := a.files ++ [name] }

/-- There is room for an item: its option or flag has not been given. A root has to be one. -/
def Takes (a : Arguments) : Item → Prop
  | .setting s value => valueOf a s = none ∧ (s = .root → value ≠ [])
  | .switch s => isSet a s = false
  | .file _ => True

section Place
variable {a : Arguments} {i j : Item} {s : Setting}

theorem valueOf_place : valueOf (place a i) s = ((i.value? s).map Text.encode).or (valueOf a s) := by
  cases i with
  | setting s' value => cases s' <;> cases s <;> rfl
  | switch s' => cases s' <;> cases s <;> rfl
  | file name => cases s <;> rfl

theorem isSet_place {s : Switch} : isSet (place a i) s = (decide (.switch s = i) || isSet a s) := by
  cases i with
  | setting s' value => cases s' <;> cases s <;> rfl
  | switch s' => cases s' <;> cases s <;> simp [place, set, isSet]
  | file name => cases s <;> rfl

theorem files_place : (place a i).files = a.files ++ i.file?.toList := by
  cases i with
  | setting s value => cases s <;> exact (List.append_nil _).symm
  | switch s => cases s <;> exact (List.append_nil _).symm
  | file name => rfl

/-- An item leaves room for those it is apart from. -/
theorem Takes.place (h : i.Apart j) (hj : Takes a j) : Takes (place a i) j := by
  cases j with
  | setting s value =>
    refine ⟨?_, hj.2⟩
    rw [valueOf_place, hj.1, Option.or_none]
    cases i with
    | setting s' value' => exact congrArg (Option.map Text.encode) (if_neg h)
    | switch s' => rfl
    | file name => rfl
  | switch s =>
    have hother : Item.switch s ≠ i := by
      rintro rfl
      exact h rfl
    have hfree : isSet a s = false := hj
    show isSet _ s = false
    rw [isSet_place, hfree, decide_eq_false hother, Bool.or_false]
  | file name => trivial

end Place

/-- Arguments are determined by the values of the options, the flags and the files. -/
theorem arguments_ext {a b : Arguments} (hvalues : ∀ s, valueOf a s = valueOf b s) (hflags : ∀ s, isSet a s = isSet b s)
    (hfiles : a.files = b.files) : a = b := by
  cases a
  cases b
  rw [Arguments.mk.injEq]
  exact ⟨hvalues .root, Option.map_injective Text.encode_injective (hvalues .locale), hfiles, hflags .dryRun, hflags .noMark, hflags .skipUntranslatable,
    hflags .json, hflags .quiet, hflags .debug⟩

/-! ### Reading words -/

section Reading
variable {a : Arguments} {w : Text} {i : Item} {words rest : List Text} {items : List Item}

theorem ofText_long {name : Text} (h : '=' ∉ name) (value : Text) :
    Word.ofText ('-' :: '-' :: (name ++ '=' :: value)) = .long name (some value) := by
  have hsplit : Text.splitAt? ['='] (name ++ '=' :: value) = some (name, value) :=
    Text.splitAt?_singleton_eq_some_iff.mpr ⟨rfl, h⟩
  cases name <;> simp [Word.ofText, hsplit] at *

theorem ofText_setting (s : Setting) (value : Text) :
    ∃ name, Word.ofText (s.lead ++ value) = .long name (some value) ∧ longNames.lookup name = some (.setting s) := by
  cases s with
  | root => exact ⟨"root".toList, @ofText_long "root".toList (by decide) value, rfl⟩
  | locale => exact ⟨"locale".toList, @ofText_long "locale".toList (by decide) value, rfl⟩

theorem ofText_switch {s : Switch} (h : w ∈ s.words) :
    (∃ name, Word.ofText w = .long name none ∧ longNames.lookup name = some (.switch s)) ∨
      ∃ c, Word.ofText w = .short [c] ∧ shortNames.lookup c = some (.switch s) := by
  cases s with
  | quiet =>
    rcases List.mem_pair.mp h with rfl | rfl
    · exact Or.inl ⟨_, rfl, rfl⟩
    · exact Or.inr ⟨_, rfl, rfl⟩
  | _ =>
    obtain rfl := List.mem_singleton.mp h
    exact Or.inl ⟨_, rfl, rfl⟩

theorem ofText_file (h : w.head? ≠ some '-') : Word.ofText w = .plain := by
  cases w with
  | nil => rfl
  | cons c t =>
    have hc : c ≠ '-' := fun hc => h (by rw [hc]; rfl)
    rw [Word.ofText.eq_def]
    split <;> simp_all

theorem Spells.ne_separator (h : Spells w i) : Word.ofText w ≠ .separator := by
  cases h with
  | setting s value =>
    obtain ⟨name, hword, -⟩ := ofText_setting s value
    rw [hword]
    exact Word.noConfusion
  | switch hw =>
    rcases ofText_switch hw with ⟨name, hword, -⟩ | ⟨c, hword, -⟩ <;> rw [hword] <;> exact Word.noConfusion
  | file hname =>
    rw [ofText_file hname]
    exact Word.noConfusion

theorem store_of_takes {s : Setting} {value : Text} (h : Takes a (.setting s value)) :
    store a s value = .ok (place a (.setting s value)) := by
  have hfree : ¬ (valueOf a s).isSome = true := by simp [h.1]
  cases s with
  | root => rw [store.eq_def, if_neg hfree, if_neg (h.2 rfl), place]
  | locale => rw [store.eq_def, if_neg hfree, place]

theorem apply_of_takes {s : Switch} (h : Takes a (.switch s)) :
    apply { arguments := a } (.switch s) = .ok { arguments := set a s } := by
  have hfree : ¬ isSet a s = true := by
    rw [show isSet a s = false from h]
    exact Bool.false_ne_true
  exact if_neg hfree

/-- A word is read as what it gives. -/
theorem step_spelled (hw : Spells w i) (h : Takes a i) :
    step { arguments := a } w = .ok { arguments := place a i } := by
  cases hw with
  | setting s value =>
    obtain ⟨name, hword, hname⟩ := ofText_setting s value
    simp only [step, hword, hname, applyValue, settle, bind, Except.bind, store_of_takes h]
  | switch hw =>
    rcases ofText_switch hw with ⟨name, hword, hname⟩ | ⟨c, hword, hc⟩
    · simp only [step, hword, hname, apply_of_takes h, place]
    · simp only [step, hword, List.foldlM_cons, List.foldlM_nil, applyLetter, hc, apply_of_takes h, place]
      rfl
  | file hname =>
    simp only [step, ofText_file hname, addFile, settle]
    rfl

/-- Words for items that leave room for each other are read as these, one after the other. -/
theorem readFrom_spelled (hwords : List.Forall₂ Spells words items) (happart : items.Pairwise Item.Apart)
    (h : ∀ i ∈ items, Takes a i) (rest : List Text) :
    readFrom { arguments := a } (words ++ rest) = readFrom { arguments := items.foldl place a } rest := by
  induction hwords generalizing a with
  | nil => rfl
  | @cons w i words items hw _ ih =>
    rw [List.pairwise_cons] at happart
    have hi : Takes a i := h i List.mem_cons_self
    have hnext : ∀ j ∈ items, Takes (place a i) j := fun j hj =>
      (h j (List.mem_cons_of_mem i hj)).place (happart.1 j hj)
    rw [List.cons_append, readFrom, if_neg hw.ne_separator, step_spelled hw hi]
    exact ih happart.2 hnext

theorem foldlM_addFile (a : Arguments) (names : List Text) :
    names.foldlM addFile { arguments := a } = .ok { arguments := { a with files := a.files ++ names } } := by
  induction names generalizing a with
  | nil =>
    rw [List.append_nil]
    rfl
  | cons name names ih =>
    have hrest := ih { a with files := a.files ++ [name] }
    rw [List.append_assoc] at hrest
    rw [List.foldlM_cons]
    exact hrest

/-- After two hyphens all words are files. -/
theorem readFrom_separator (a : Arguments) (names : List Text) :
    readFrom { arguments := a } ("--".toList :: names) = .ok { a with files := a.files ++ names } := by
  have hword : Word.ofText "--".toList = .separator := rfl
  rw [readFrom, if_pos hword, foldlM_addFile]
  rfl

end Reading

/-! ### What words in any order give -/

section Order
variable {a : Arguments} {items : List Item}

theorem valueOf_foldl_place (s : Setting) :
    valueOf (items.foldl place a) s =
      ((items.filterMap (Item.value? s)).getLast?.map Text.encode).or (valueOf a s) := by
  induction items generalizing a with
  | nil => rfl
  | cons i items ih =>
    rw [List.foldl_cons, ih, valueOf_place]
    cases h : i.value? s with
    | none => rw [List.filterMap_cons_none h, Option.map_none, Option.none_or]
    | some value =>
      rw [List.filterMap_cons_some h, List.getLast?_cons]
      cases (items.filterMap (Item.value? s)).getLast? <;> rfl

theorem isSet_foldl_place (s : Switch) :
    isSet (items.foldl place a) s = (decide (.switch s ∈ items) || isSet a s) := by
  induction items generalizing a with
  | nil => rfl
  | cons i items ih =>
    rw [List.foldl_cons, ih, isSet_place, ← Bool.or_assoc]
    congr 1
    simp [Bool.or_comm]

theorem files_foldl_place : (items.foldl place a).files = a.files ++ items.filterMap Item.file? := by
  induction items generalizing a with
  | nil => exact (List.append_nil _).symm
  | cons i items ih =>
    rw [List.foldl_cons, ih, files_place, List.append_assoc]
    cases h : i.file? with
    | none => rw [List.filterMap_cons_none h]; rfl
    | some name => rw [List.filterMap_cons_some h]; rfl

end Order

/-- The options and the flags that are set, in one order. -/
def groups (root : Text) (code : LocaleCode) (flags : Switch → Bool) : List Item :=
  .setting .root root :: .setting .locale code.text :: (Switch.all.filter flags).map .switch

/-- The arguments with given parts. -/
def holding (root : Text) (code : LocaleCode) (names : List Text) (flags : Switch → Bool) : Arguments where
  root := some (Text.encode root)
  locale := some code.text
  files := names
  dryRun := flags .dryRun
  noMark := flags .noMark
  skipUntranslatable := flags .skipUntranslatable
  json := flags .json
  quiet := flags .quiet
  debug := flags .debug

section Groups
variable {root : Text} {code : LocaleCode} {flags : Switch → Bool} {names : List Text} {items given : List Item}

theorem filterMap_value?_groups (s : Setting) : (groups root code flags).filterMap (Item.value? s) =
    [match s with
      | .root => root
      | .locale => code.text] := by
  have hflags : ((Switch.all.filter flags).map Item.switch).filterMap (Item.value? s) = [] := by
    simp [List.filterMap_map, Function.comp_def, Item.value?]
  cases s <;> simp [groups, Item.value?, hflags]

theorem switch_mem_groups (s : Switch) : .switch s ∈ groups root code flags ↔ flags s = true := by
  have hall : s ∈ Switch.all := by cases s <;> decide
  simp [groups, hall]

theorem pairwise_apart_groups : (groups root code flags).Pairwise Item.Apart := by
  have hflags : ((Switch.all.filter flags).map Item.switch).Pairwise Item.Apart := by
    rw [List.pairwise_map]
    exact List.Nodup.filter flags (by decide)
  refine List.pairwise_cons.mpr ⟨?_, List.pairwise_cons.mpr ⟨?_, hflags⟩⟩
  · intro j hj
    rcases List.mem_cons.mp hj with rfl | hj
    · exact Setting.noConfusion
    · obtain ⟨s, -, rfl⟩ := List.mem_map.mp hj
      trivial
  · intro j hj
    obtain ⟨s, -, rfl⟩ := List.mem_map.mp hj
    trivial

/-- Groups in any order and files among them are put together to the arguments they are parts of. -/
theorem foldl_place_groups (hgroups : given.Perm (groups root code flags))
    (hitems : Interleaved given (names.map .file) items) : items.foldl place {} = holding root code names flags := by
  have hperm : items.Perm (groups root code flags ++ names.map .file) := hitems.perm.trans (hgroups.append_right _)
  refine arguments_ext (fun s => ?_) (fun s => ?_) ?_
  · have hfiles : (names.map Item.file).filterMap (Item.value? s) = [] := by
      simp [List.filterMap_map, Function.comp_def, Item.value?]
    have hvalues := hperm.filterMap (Item.value? s)
    rw [List.filterMap_append, hfiles, List.append_nil, filterMap_value?_groups, List.perm_singleton] at hvalues
    rw [valueOf_foldl_place, hvalues]
    cases s <;> rfl
  · have hflag : .switch s ∈ items ↔ flags s = true := by simp [hperm.mem_iff, switch_mem_groups]
    rw [isSet_foldl_place]
    cases s <;> simp [hflag, holding, isSet]
  · have hnone : ∀ i ∈ given, i.file? = none := by
      intro i hi
      have hi := hgroups.subset hi
      simp only [groups, List.mem_cons, List.mem_map] at hi
      rcases hi with rfl | rfl | ⟨s, -, rfl⟩ <;> rfl
    rw [files_foldl_place, hitems.filterMap_eq hnone]
    simp [List.filterMap_map, Function.comp_def, Item.file?, holding]

/-- The words of groups and of files among them are read, with the words that may follow, from the arguments they make
    up. -/
theorem readFrom_groups (hroot : root ≠ []) (hgroups : given.Perm (groups root code flags))
    (hitems : Interleaved given (names.map .file) items) {words : List Text} (hwords : List.Forall₂ Spells words items)
    (rest : List Text) :
    readFrom {} (words ++ rest) = readFrom { arguments := holding root code names flags } rest := by
  have hperm : items.Perm (groups root code flags ++ names.map .file) := hitems.perm.trans (hgroups.append_right _)
  have happart : items.Pairwise Item.Apart := by
    refine (hperm.pairwise_iff Item.Apart.symm).mpr (List.pairwise_append.mpr ⟨pairwise_apart_groups, ?_, ?_⟩)
    · exact List.pairwise_map.mpr (List.pairwise_of_forall fun _ _ => trivial)
    · intro i _ j hj
      obtain ⟨name, -, rfl⟩ := List.mem_map.mp hj
      cases i <;> trivial
  have htakes : ∀ i ∈ items, Takes {} i := by
    intro i hi
    rcases List.mem_append.mp (hperm.subset hi) with hi | hi
    · simp only [groups, List.mem_cons, List.mem_map] at hi
      rcases hi with rfl | rfl | ⟨s, -, rfl⟩
      · exact ⟨rfl, fun _ => hroot⟩
      · exact ⟨rfl, Setting.noConfusion⟩
      · cases s <;> rfl
    · obtain ⟨name, -, rfl⟩ := List.mem_map.mp hi
      trivial
  have hread := readFrom_spelled hwords happart htakes rest
  rwa [foldl_place_groups hgroups hitems] at hread

end Groups

/-- A root, a locale and flags are each written as one word, in any order, and the files after two hyphens. Such a
    command line is read, and its configuration has the root, the locale and the files as they were given; the flags say
    how to merge and how much to report. Files that do not begin with a hyphen may as well stand anywhere among the
    other words. -/
theorem ofWords_written {root : Text} {code : LocaleCode} {flags : Switch → Bool} {files : List FileName}
    {given : List Item} {words : List Text} (hroot : root ≠ []) (hfiles : files ≠ [])
    (hgroups : given.Perm (groups root code flags)) (hwords : List.Forall₂ Spells words given) :
    ∃ a c, Arguments.ofWords (words ++ "--".toList :: files.map (·.text)) = .ok a ∧ a.config = .ok c ∧
      c.routes = { root := root, locale := code } ∧ c.files = files ∧
      c.options = { markUntranslated := !flags .noMark, skipUntranslatable := flags .skipUntranslatable,
                    dryRun := flags .dryRun } ∧
      a.json = flags .json ∧
      a.verbosity = (if flags .quiet then .quiet else if flags .debug then .debug else .normal) ∧
      ((∀ file ∈ files, file.text.head? ≠ some '-') →
        ∀ mixed, Interleaved words (files.map (·.text)) mixed → Arguments.ofWords mixed = .ok a) := by
  let options : MergeOptions :=
    { markUntranslated := !flags .noMark, skipUntranslatable := flags .skipUntranslatable, dryRun := flags .dryRun }
  let c : Config :=
    { routes := { root := root, locale := code }, files := files, options := options, files_ne_nil := hfiles }
  have halone : Interleaved given (([] : List Text).map .file) given := .nil_right given
  have hseparated : Arguments.ofWords (words ++ "--".toList :: files.map (·.text)) =
      .ok (holding root code (files.map (·.text)) flags) := by
    rw [Arguments.ofWords, readFrom_groups hroot hgroups halone hwords, readFrom_separator]
    rfl
  have hconfig : (holding root code (files.map (·.text)) flags).config = .ok c :=
    Config.ofValues_eq_ok_iff.mpr ⟨congrArg some (Text.lossy_encode root), hroot, rfl, rfl, rfl⟩
  refine ⟨_, c, hseparated, hconfig, rfl, rfl, rfl, rfl, rfl, fun hplain mixed hmixed => ?_⟩
  have hnames : List.Forall₂ Spells (files.map (·.text)) ((files.map (·.text)).map .file) := by
    rw [List.forall₂_map_right_iff, List.forall₂_same, List.forall_mem_map]
    exact fun file hfile => .file (hplain file hfile)
  obtain ⟨items, hspelled, hitems⟩ := hmixed.exists_forall₂ hwords hnames
  have hread := readFrom_groups hroot hgroups hitems hspelled []
  rw [List.append_nil] at hread
  exact hread

/-- A root that looks like a flag is taken as it is given, and files stand between the flags. -/
theorem ofWords_written_mixed :
    ∃ a c, Arguments.ofWords ["-q".toList, "--locale=fr".toList, "--dry-run".toList, "--root=--json".toList,
        "--debug".toList, "--".toList, "a".toList, "b".toList] = .ok a ∧ a.config = .ok c ∧
      c.routes.root = "--json".toList ∧ c.options.dryRun = true ∧ a.json = false ∧ a.verbosity = .quiet ∧
      Arguments.ofWords ["a".toList, "-q".toList, "--locale=fr".toList, "b".toList, "--dry-run".toList,
        "--root=--json".toList, "--debug".toList] = .ok a := by
  let flags : Switch → Bool := fun s => decide (s ∈ [Switch.dryRun, .quiet, .debug])
  let french : LocaleCode := { text := "fr".toList, admitted := by decide }
  let files : List FileName :=
    [{ text := "a".toList, admitted := by decide }, { text := "b".toList, admitted := by decide }]
  have hgroups : [.switch .quiet, .setting .locale "fr".toList, .switch .dryRun, .setting .root "--json".toList,
      .switch .debug].Perm (groups "--json".toList french flags) := by decide
  have hwords : List.Forall₂ Spells ["-q".toList, "--locale=fr".toList, "--dry-run".toList, "--root=--json".toList,
      "--debug".toList] [.switch .quiet, .setting .locale "fr".toList, .switch .dryRun,
        .setting .root "--json".toList, .switch .debug] :=
    .cons (.switch (by decide)) (.cons (.setting .locale _) (.cons (.switch (by decide))
      (.cons (.setting .root _) (.cons (.switch (by decide)) .nil))))
  obtain ⟨a, c, hread, hconfig, hroutes, -, hoptions, hjson, hverbosity, hmixed⟩ :=
    @ofWords_written _ french flags files _ _ (by decide) (by decide) hgroups hwords
  refine ⟨a, c, hread, hconfig, by rw [hroutes], by rw [hoptions]; rfl, hjson, hverbosity, hmixed (by decide) _ ?_⟩
  exact .right (.left (.left (.right (.left (.left (.left .nil))))))

end CommandLine
end StringResources
