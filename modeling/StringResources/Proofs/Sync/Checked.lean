import StringResources.Proofs.Layout.Routes
import StringResources.Proofs.Resource.Stops
import StringResources.Sync.Config

/-! What is checked of the values for a run, and in which order. The conditions on them are a list, each with the
    error that reports it: a configuration is made if all of them hold, and otherwise the first that does not is
    reported. A check that is made of others, one after the other, has their conditions one after the other
    (`Checks.bind`, `Checks.mapM`). Main statement: `Config.ofValues_checked`. -/

namespace StringResources

/-! ### Conditions in order -/

section Conditions
variable {ε ε' α β : Type} {conditions conditions' : List (Prop × ε)} {x : Except ε α}

/-- The first of the conditions that does not hold is reported by the error. -/
def FirstViolated (conditions : List (Prop × ε)) (e : ε) : Prop :=
  ∃ before condition after,
    conditions = before ++ (condition, e) :: after ∧ (∀ c ∈ before, c.1) ∧ ¬ condition

theorem not_firstViolated_nil (e : ε) : ¬ FirstViolated [] e := by
  rintro ⟨before, condition, after, h, -⟩
  simp at h

theorem firstViolated_cons_iff {condition : Prop} {e e' : ε} :
    FirstViolated ((condition, e') :: conditions) e ↔
      ¬ condition ∧ e' = e ∨ condition ∧ FirstViolated conditions e := by
  constructor
  · rintro ⟨before, failed, after, h, hbefore, hfailed⟩
    rcases List.cons_eq_append_iff.mp h with ⟨rfl, h⟩ | ⟨rest, rfl, rfl⟩
    · obtain ⟨⟨rfl, rfl⟩, -⟩ := List.cons.inj h
      exact Or.inl ⟨hfailed, rfl⟩
    · obtain ⟨hcondition, hrest⟩ := List.forall_mem_cons.mp hbefore
      exact Or.inr ⟨hcondition, rest, failed, after, rfl, hrest, hfailed⟩
  · rintro (⟨hfailed, rfl⟩ | ⟨hcondition, before, failed, after, rfl, hbefore, hfailed⟩)
    · exact ⟨[], condition, conditions, rfl, by simp, hfailed⟩
    · exact ⟨(condition, e') :: before, failed, after, rfl, List.forall_mem_cons.mpr ⟨hcondition, hbefore⟩, hfailed⟩

theorem firstViolated_append_iff {e : ε} : FirstViolated (conditions ++ conditions') e ↔
    FirstViolated conditions e ∨ (∀ c ∈ conditions, c.1) ∧ FirstViolated conditions' e := by
  induction conditions with
  | nil => simp [not_firstViolated_nil]
  | cons c conditions ih =>
    obtain ⟨condition, e'⟩ := c
    simp only [List.cons_append, firstViolated_cons_iff, ih, List.forall_mem_cons, and_or_left, or_assoc, and_assoc]

theorem firstViolated_map_iff {report : ε → ε'} {e : ε'} :
    FirstViolated (conditions.map (Prod.map id report)) e ↔ ∃ e', FirstViolated conditions e' ∧ report e' = e := by
  induction conditions with
  | nil => simp [not_firstViolated_nil]
  | cons c conditions ih =>
    obtain ⟨condition, e'⟩ := c
    simp only [List.map_cons, Prod.map, id, firstViolated_cons_iff, ih]
    constructor
    · rintro (⟨hfailed, rfl⟩ | ⟨hcondition, e', hfirst, rfl⟩)
      · exact ⟨e', Or.inl ⟨hfailed, rfl⟩, rfl⟩
      · exact ⟨e', Or.inr ⟨hcondition, hfirst⟩, rfl⟩
    · rintro ⟨e', ⟨hfailed, rfl⟩ | ⟨hcondition, hfirst⟩, rfl⟩
      · exact Or.inl ⟨hfailed, rfl⟩
      · exact Or.inr ⟨hcondition, e', hfirst, rfl⟩

/-- A condition that is tested before others is reported before them. -/
theorem firstViolated_of_ite {condition p : Prop} [Decidable p] {fault? : Option ε} (hp : ¬ p ↔ condition)
    (h : ∀ e, fault? = some e ↔ FirstViolated conditions e) (e' : ε) :
    ∀ e, (if p then some e' else fault?) = some e ↔ FirstViolated ((condition, e') :: conditions) e := by
  intro e
  rw [firstViolated_cons_iff, ← hp]
  split
  · next htrue => simp [htrue]
  · next hfalse => simp [hfalse, h e]

theorem exists_firstViolated_iff : (∃ e, FirstViolated conditions e) ↔ ¬ ∀ c ∈ conditions, c.1 := by
  induction conditions with
  | nil => simp [not_firstViolated_nil]
  | cons c conditions ih =>
    obtain ⟨condition, e'⟩ := c
    simp only [firstViolated_cons_iff, List.forall_mem_cons, exists_or, exists_and_left, ih, exists_eq', and_true]
    by_cases hcondition : condition <;> simp [hcondition]

/-- The outcome of a check of conditions: an error exactly if one of them fails, and then that of the first. -/
def Checks (conditions : List (Prop × ε)) (x : Except ε α) : Prop :=
  ∀ e, x = .error e ↔ FirstViolated conditions e

theorem Checks.ok_iff (h : Checks conditions x) : (∃ a, x = .ok a) ↔ ∀ c ∈ conditions, c.1 := by
  have hfailed : (∃ e, x = .error e) ↔ ¬ ∀ c ∈ conditions, c.1 :=
    (exists_congr h).trans exists_firstViolated_iff
  cases x with
  | ok a => simpa using hfailed
  | error e => simpa using hfailed

theorem checks_ok (a : α) : Checks ([] : List (Prop × ε)) (.ok a) := fun e => by
  simp [not_firstViolated_nil]

theorem Checks.mapError (h : Checks conditions x) (report : ε → ε') :
    Checks (conditions.map (Prod.map id report)) (x.mapError report) := by
  intro e
  rw [firstViolated_map_iff, Parse.mapError_eq_error_iff]
  exact exists_congr fun e' => and_congr_left' (h e')

theorem Checks.bind (h : Checks conditions x) {f : α → Except ε β} (hf : ∀ a, x = .ok a → Checks conditions' (f a)) :
    Checks (conditions ++ conditions') (x >>= f) := by
  intro e
  rw [Parse.bind_eq_error_iff, firstViolated_append_iff, h e, ← h.ok_iff]
  refine or_congr_right ⟨?_, ?_⟩
  · rintro ⟨a, ha, he⟩
    exact ⟨⟨a, ha⟩, (hf a ha e).mp he⟩
  · rintro ⟨⟨a, ha⟩, he⟩
    exact ⟨a, ha, (hf a ha e).mpr he⟩

/-- The elements of a list are checked in order. -/
theorem Checks.mapM {conditions : α → List (Prop × ε)} {f : α → Except ε β} (h : ∀ a, Checks (conditions a) (f a))
    (as : List α) : Checks (as.flatMap conditions) (as.mapM f) := by
  induction as with
  | nil => exact checks_ok []
  | cons a as ih =>
    rw [List.mapM_cons, List.flatMap_cons]
    refine (h a).bind fun b _ => ?_
    rw [← List.append_nil (as.flatMap conditions)]
    exact ih.bind fun bs _ => checks_ok (b :: bs)

end Conditions

/-! ### Locale codes and file names -/

/-- An ASCII letter or digit, a hyphen, an underscore or a plus sign. -/
def LocaleCode.CodeChar (c : Char) : Prop :=
  'A' ≤ c ∧ c ≤ 'Z' ∨ 'a' ≤ c ∧ c ≤ 'z' ∨ '0' ≤ c ∧ c ≤ '9' ∨ c = '-' ∨ c = '_' ∨ c = '+'

/-- What a locale code has to be. -/
def LocaleCode.conditions (t : Text) : List (Prop × Fault) :=
  [(t ≠ [], .empty), (t.head? ≠ some '-' ∧ t.getLast? ≠ some '-', .hyphenAtEnd), (∀ c ∈ t, CodeChar c, .character)]

/-- What a file name has to be. -/
def FileName.conditions (t : Text) : List (Prop × Fault) :=
  [(t ≠ [], .empty), (t ≠ ['.'] ∧ t ≠ ['.', '.'], .dots), ('/' ∉ t ∧ '\\' ∉ t, .separator), ('\x00' ∉ t, .nul)]

theorem LocaleCode.isAlphanum_iff {c : Char} :
    c.isAlphanum = true ↔ 'A' ≤ c ∧ c ≤ 'Z' ∨ 'a' ≤ c ∧ c ≤ 'z' ∨ '0' ≤ c ∧ c ≤ '9' := by
  have hupper : c.isUpper = true ↔ 'A' ≤ c ∧ c ≤ 'Z' := decide_eq_true_iff
  have hlower : c.isLower = true ↔ 'a' ≤ c ∧ c ≤ 'z' :=
    (Iff.of_eq (Bool.and_eq_true ..)).trans (and_congr decide_eq_true_iff decide_eq_true_iff)
  have hdigit : c.isDigit = true ↔ '0' ≤ c ∧ c ≤ '9' :=
    (Iff.of_eq (Bool.and_eq_true ..)).trans (and_congr decide_eq_true_iff decide_eq_true_iff)
  have halpha : c.isAlpha = true ↔ c.isUpper = true ∨ c.isLower = true := Iff.of_eq (Bool.or_eq_true ..)
  have halphanum : c.isAlphanum = true ↔ c.isAlpha = true ∨ c.isDigit = true := Iff.of_eq (Bool.or_eq_true ..)
  rw [halphanum, halpha, hupper, hlower, hdigit, or_assoc]

theorem LocaleCode.isCodeChar_iff {c : Char} : isCodeChar c = true ↔ CodeChar c := by
  simp only [isCodeChar, CodeChar, Bool.or_eq_true, beq_iff_eq, isAlphanum_iff, or_assoc]

theorem LocaleCode.fault?_eq_some_iff {t : Text} :
    ∀ fault, fault? t = some fault ↔ FirstViolated (conditions t) fault := by
  refine firstViolated_of_ite Iff.rfl (firstViolated_of_ite not_or (fun fault => ?_) _) _
  -- The last test is for what holds, not for what fails.
  have hall : t.all isCodeChar = true ↔ ∀ c ∈ t, CodeChar c := by
    simp only [← isCodeChar_iff, List.all_eq_true]
  rw [firstViolated_cons_iff, ← hall]
  split
  · next htrue => simp [htrue, not_firstViolated_nil]
  · next hfalse => simp [hfalse]

theorem FileName.fault?_eq_some_iff {t : Text} :
    ∀ fault, fault? t = some fault ↔ FirstViolated (conditions t) fault :=
  firstViolated_of_ite Iff.rfl (firstViolated_of_ite not_or (firstViolated_of_ite not_or
    (firstViolated_of_ite Iff.rfl (fun fault => by simp [not_firstViolated_nil]) _) _) _) _

theorem LocaleCode.checks_ofText (t : Text) : Checks (conditions t) (ofText t) := by
  intro fault
  rw [← fault?_eq_some_iff, ofText]
  split
  · next h => simp [h]
  · next h => simp [h]

theorem FileName.checks_ofText (t : Text) : Checks (conditions t) (ofText t) := by
  intro fault
  rw [← fault?_eq_some_iff, ofText]
  split
  · next h => simp [h]
  · next h => simp [h]

theorem LocaleCode.ofText_eq_ok_iff {t : Text} {code : LocaleCode} : ofText t = .ok code ↔ code.text = t := by
  constructor
  · unfold ofText
    split
    · rintro ⟨⟩
      rfl
    · nofun
  · rintro rfl
    unfold ofText
    split
    · rfl
    · next h => cases code.admitted.symm.trans h

theorem FileName.ofText_eq_ok_iff {t : Text} {file : FileName} : ofText t = .ok file ↔ file.text = t := by
  constructor
  · unfold ofText
    split
    · rintro ⟨⟩
      rfl
    · nofun
  · rintro rfl
    unfold ofText
    split
    · rfl
    · next h => cases file.admitted.symm.trans h

theorem LocaleCode.ne_nil (code : LocaleCode) : code.text ≠ [] := by
  intro h
  cases code.admitted.symm.trans (if_pos h)

/-! ### Configurations -/

namespace Config

/-- A value is given unless it is missing or empty. -/
def Given (value : Option Text) : Prop := ∃ t, value = some t ∧ t ≠ []

/-- What the values for a run have to be, in the order in which they are checked. -/
def conditions (root locale : Option Text) (files : List Text) : List (Prop × ConfigError) :=
  [(Given root, .missingRoot), (Given locale, .missingLocale)] ++
    locale.toList.flatMap (fun t => (LocaleCode.conditions t).map (Prod.map id (.badLocale t))) ++
    files.flatMap (fun t => (FileName.conditions t).map (Prod.map id (.badFileName t))) ++
    [(files ≠ [], .noFiles)]

variable {root locale : Option Text} {files : List Text} {options : MergeOptions}

theorem present_eq_ok_iff {value : Option Text} {missing : ConfigError} {t : Text} :
    present value missing = .ok t ↔ value = some t ∧ t ≠ [] := by
  unfold present
  split
  · simp
  · simp +contextual
  · next c s =>
    constructor
    · rintro ⟨⟩
      simp
    · rintro ⟨h, -⟩
      exact congrArg Except.ok (Option.some.inj h)

theorem checks_present (value : Option Text) (missing : ConfigError) :
    Checks [(Given value, missing)] (present value missing) := by
  intro e
  rw [firstViolated_cons_iff]
  have hok : (∃ t, present value missing = .ok t) ↔ Given value := exists_congr fun t => present_eq_ok_iff
  rw [← hok]
  unfold present
  split <;> simp [not_firstViolated_nil]

theorem mapM_fileOf_eq_ok_iff {names : List FileName} :
    files.mapM fileOf = .ok names ↔ files = names.map (·.text) := by
  induction files generalizing names with
  | nil =>
    rw [List.mapM_nil]
    cases names <;> simp [pure, Except.pure]
  | cons t files ih =>
    simp only [List.mapM_cons, Parse.bind_eq_ok_iff, fileOf, Parse.mapError_eq_ok_iff, FileName.ofText_eq_ok_iff]
    constructor
    · rintro ⟨file, rfl, rest, hrest, ⟨⟩⟩
      rw [List.map_cons, ← ih.mp hrest]
    · intro h
      obtain ⟨file, rest, rfl, rfl, hrest⟩ := List.map_eq_cons_iff.mp h.symm
      exact ⟨file, rfl, rest, ih.mpr hrest.symm, rfl⟩

/-- A configuration is made of the values it holds and of no others. -/
theorem ofValues_eq_ok_iff {c : Config} : ofValues root locale files options = .ok c ↔
    root = some c.routes.root ∧ c.routes.root ≠ [] ∧ locale = some c.routes.locale.text ∧
      files = c.files.map (·.text) ∧ options = c.options := by
  simp only [ofValues, Parse.bind_eq_ok_iff, present_eq_ok_iff, localeOf, Parse.mapError_eq_ok_iff,
    LocaleCode.ofText_eq_ok_iff, mapM_fileOf_eq_ok_iff]
  constructor
  · rintro ⟨r, ⟨rfl, hr⟩, t, ⟨rfl, ht⟩, code, rfl, names, rfl, h⟩
    split at h
    · cases h
    · cases h
      exact ⟨rfl, hr, rfl, rfl, rfl⟩
  · rintro ⟨rfl, hr, rfl, rfl, rfl⟩
    exact ⟨_, ⟨rfl, hr⟩, _, ⟨rfl, c.routes.locale.ne_nil⟩, _, rfl, _, rfl, dif_neg c.files_ne_nil⟩

theorem checks_ofValues : Checks (conditions root locale files) (ofValues root locale files options) := by
  rw [conditions, List.append_assoc, List.append_assoc]
  refine (checks_present root .missingRoot).bind fun r _ => (checks_present locale .missingLocale).bind fun t ht => ?_
  -- The locale is given from here on, so its conditions are those of one code.
  obtain ⟨rfl, -⟩ := present_eq_ok_iff.mp ht
  rw [Option.toList_some, List.flatMap_singleton]
  refine ((LocaleCode.checks_ofText t).mapError _).bind fun code _ =>
    (Checks.mapM (fun name => (FileName.checks_ofText name).mapError _) files).bind fun names hnames => ?_
  -- There are as many names as files, so it does not matter which of the two lists is tested.
  obtain rfl := mapM_fileOf_eq_ok_iff.mp hnames
  intro e
  rw [firstViolated_cons_iff]
  split
  · next h => simp [h, not_firstViolated_nil]
  · next h => simp [h, not_firstViolated_nil]

theorem forall_conditions_iff : (∀ c ∈ conditions root locale files, c.1) ↔
    Given root ∧ Given locale ∧ (∀ t ∈ locale, ∀ c ∈ LocaleCode.conditions t, c.1) ∧
      (∀ t ∈ files, ∀ c ∈ FileName.conditions t, c.1) ∧ files ≠ [] := by
  simp only [conditions, List.forall_mem_append, List.forall_mem_flatMap, List.forall_mem_map, List.forall_mem_cons,
    Option.mem_toList, Option.mem_def, Prod.map, id, and_assoc, List.not_mem_nil, false_implies, implies_true, and_true]

/-- The values for a run make up a configuration exactly if a root and a locale are given, the code and all names are
    well-formed and there is a file; otherwise the first fault is reported. The files of a configuration are inside
    its resources, no base path leads where a locale path does, and locale paths under one root are different for
    different locales or files, even if they are only compared by their names. -/
theorem ofValues_checked (root locale : Option Text) (files : List Text) (options : MergeOptions) :
    ((∃ c, ofValues root locale files options = .ok c) ↔
      Given root ∧ Given locale ∧ (∀ t ∈ locale, ∀ c ∈ LocaleCode.conditions t, c.1) ∧
        (∀ t ∈ files, ∀ c ∈ FileName.conditions t, c.1) ∧ files ≠ []) ∧
    (∀ e, ofValues root locale files options = .error e ↔ FirstViolated (conditions root locale files) e) ∧
    (∀ c, ofValues root locale files options = .ok c →
      (root = some c.routes.root ∧ locale = some c.routes.locale.text ∧ files = c.files.map (·.text) ∧
        options = c.options) ∧
      ∀ file, c.routes.Placed file ∧
        ∀ file', Path.names (c.routes.pair file).base ≠ Path.names (c.routes.pair file').locale) ∧
    ∀ (root : Text) (code code' : LocaleCode) (file file' : FileName),
      Path.names (({ root := root, locale := code } : Routes).pair file).locale =
        Path.names (({ root := root, locale := code' } : Routes).pair file').locale →
      code = code' ∧ file = file' := by
  refine ⟨checks_ofValues.ok_iff.trans forall_conditions_iff, checks_ofValues, fun c h => ?_,
    fun _ _ _ _ _ => Routes.locale_inj⟩
  obtain ⟨hroot, -, hlocale, hfiles, hoptions⟩ := ofValues_eq_ok_iff.mp h
  exact ⟨⟨hroot, hlocale, hfiles, hoptions⟩, fun file => ⟨c.routes.placed file, c.routes.names_base_ne file⟩⟩

/-- A configuration whose root ends in a slash. -/
def slashed : Config where
  routes := { root := "app/".toList, locale := { text := "pt-rBR".toList, admitted := by decide } }
  files := [{ text := "a.xml".toList, admitted := by decide }]
  options := {}
  files_ne_nil := by decide

/-- The values of a configuration, and values of which the second file name is at fault. -/
theorem ofValues_checked_slashed :
    ofValues (some "app/".toList) (some "pt-rBR".toList) ["a.xml".toList] {} = .ok slashed ∧
      slashed.pairs = [{ base := "app/res/values/a.xml".toList, locale := "app/res/values-pt-rBR/a.xml".toList }] ∧
      (∀ file ∈ slashed.files, slashed.routes.Placed file) ∧
      FirstViolated (conditions (some "app".toList) (some "de".toList) ["a.xml".toList, "..".toList, []])
        (.badFileName "..".toList .dots) := by
  have hslashed : ofValues (some "app/".toList) (some "pt-rBR".toList) ["a.xml".toList] {} = .ok slashed := by decide
  have hdots : ofValues (some "app".toList) (some "de".toList) ["a.xml".toList, "..".toList, []] {} =
      .error (.badFileName "..".toList .dots) := by decide
  exact ⟨hslashed, by decide, fun file _ => ((ofValues_checked _ _ _ _).2.2.1 _ hslashed |>.2 file).1,
    ((ofValues_checked _ _ _ _).2.1 _).mp hdots⟩

end Config
end StringResources
