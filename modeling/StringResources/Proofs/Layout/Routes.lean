import StringResources.Proofs.Disk.Names

/-! Where the files of an application are. A path is followed by its names: putting a part at its end adds one
    name and takes none away, whatever the path is. So the files are in the directories that their names say,
    under the root, and different files have different paths, however these are written. Main statements:
    `names_join`, `Routes.placed` and `Routes.locale_inj`. -/

namespace StringResources
namespace Path

/-- The names a path is followed by, without those that stand for the directory they are in. Paths that are
    only written differently have the same names. -/
def names (path : Text) : List Text := (components path).filter (· ≠ here)

/-- The last name of a path, unless it has none or the last one leads up. -/
def fileName? (path : Text) : Option Text := (names path).getLast?.filter (· ≠ up)

variable {path part rest name : Text}

/-- The name that a slash at the end asks for is not counted. -/
theorem names_eq (path : Text) : names path = (Text.splitOn '/' path).filter fun n => n ≠ here ∧ n ≠ [] := by
  have hend : (if endsInSlash path then [here] else []).filter (· ≠ here) = ([] : List Text) := by
    split
    · decide
    · rfl
  rw [names, components, List.filter_append, hend, List.append_nil, List.filter_filter]
  simp

@[simp] theorem names_nil : names [] = [] := by decide

theorem names_append (path rest : Text) : names (path ++ '/' :: rest) = names path ++ names rest := by
  rw [names_eq, names_eq, names_eq, Text.splitOn_append, List.filter_append]

theorem IsName.names_eq (h : IsName name) : names name = [name] := by
  rw [Path.names_eq, Text.splitOn_of_notMem h.slash]
  simp [h.ne_here, h.ne_nil]

/-- A name at the end of a path is followed last, whether or not the path is empty or ends in a slash. -/
theorem names_join (hpart : IsName part) (path : Text) : names (join path part) = names path ++ [part] := by
  rw [join, isAbsolute_of_slash_notMem hpart.slash, if_neg Bool.false_ne_true]
  split
  · next hend =>
    rcases hend with rfl | hslash
    · exact hpart.names_eq
    · -- The slash is already there: nothing stands between it and the part.
      obtain ⟨directory, rfl⟩ := List.getLast?_eq_some_iff.mp (eq_of_beq hslash)
      rw [List.append_assoc, List.cons_append, List.nil_append, names_append, names_append, hpart.names_eq, names_nil,
        List.append_nil]
  · rw [names_append, hpart.names_eq]

theorem fileName?_join (hpart : IsName part) (path : Text) : fileName? (join path part) = some part := by
  simp [fileName?, names_join hpart, hpart.ne_up]

theorem isAbsolute_append (hpart : part ≠ []) (rest : Text) : isAbsolute (part ++ rest) = isAbsolute part := by
  cases part with
  | nil => exact absurd rfl hpart
  | cons c t => rfl

theorem isAbsolute_join (hpart : isAbsolute part = false) (path : Text) :
    isAbsolute (join path part) = isAbsolute path := by
  rw [join, hpart, if_neg Bool.false_ne_true]
  cases path with
  | nil => exact hpart
  | cons c t => split <;> rfl

/-- Two parts can be put together first. -/
theorem join_join (hpart : IsName part) (hrest : isAbsolute rest = false) (path : Text) :
    join (join path part) rest = join path (part ++ '/' :: rest) := by
  have hends : EndsIn (join path part) part := endsIn_join hpart.slash
  have hrelative := isAbsolute_of_slash_notMem hpart.slash
  have houter : join (join path part) rest = join path part ++ '/' :: rest := by
    rw [join, hrest, hends.endsInSlash_eq hpart, if_neg Bool.false_ne_true, if_neg (by simp [hends.ne_nil hpart])]
  rw [houter]
  simp only [join, isAbsolute_append hpart.ne_nil, hrelative, if_neg Bool.false_ne_true]
  split <;> simp

end Path

/-! ### The paths of a configuration -/

open StringResources.Path

namespace Routes
variable (r : Routes) (file : FileName)

/-- Where the two files of a pair are: under the root, by two names that lead nowhere else. -/
structure Placed : Prop where
  base : (r.pair file).base = join r.root ("res/values/".toList ++ file.text)
  locale : (r.pair file).locale = join r.root ("res/values-".toList ++ r.locale.text ++ ['/'] ++ file.text)
  directory : IsName ("values-".toList ++ r.locale.text)
  name : IsName file.text
  /-- The base path begins as the root does and goes on by three names. -/
  inside_base : isAbsolute (r.pair file).base = isAbsolute r.root ∧
    names (r.pair file).base = names r.root ++ ["res".toList, "values".toList, file.text]
  inside_locale : isAbsolute (r.pair file).locale = isAbsolute r.root ∧
    names (r.pair file).locale = names r.root ++ ["res".toList, "values-".toList ++ r.locale.text, file.text]
  fileName_base : fileName? (r.pair file).base = some file.text
  fileName_locale : fileName? (r.pair file).locale = some file.text

theorem isName_res : IsName "res".toList := by decide

theorem isName_values : IsName "values".toList := by decide

theorem names_base : names (r.pair file).base = names r.root ++ ["res".toList, "values".toList, file.text] := by
  simp only [pair, baseDir, resDir, names_join file.isName, names_join isName_values, names_join isName_res,
    List.append_assoc, List.cons_append, List.nil_append]

theorem names_locale :
    names (r.pair file).locale = names r.root ++ ["res".toList, r.locale.valuesDir, file.text] := by
  simp only [pair, localeDir, resDir, names_join file.isName, names_join r.locale.isName_valuesDir,
    names_join isName_res, List.append_assoc, List.cons_append, List.nil_append]

/-- A file in a directory under the resources, with the parts after the root put together first. -/
theorem join_resDir {directory : Text} (hdirectory : IsName directory) :
    join (join r.resDir directory) file.text = join r.root ("res/".toList ++ directory ++ ['/'] ++ file.text) := by
  have hfile := isAbsolute_of_slash_notMem file.isName.slash
  have hrest : isAbsolute (directory ++ '/' :: file.text) = false := by
    rw [isAbsolute_append hdirectory.ne_nil, isAbsolute_of_slash_notMem hdirectory.slash]
  rw [resDir, join_join hdirectory hfile, join_join isName_res hrest]
  simp

theorem isAbsolute_resDir {directory : Text} (hdirectory : IsName directory) :
    isAbsolute (join (join r.resDir directory) file.text) = isAbsolute r.root := by
  rw [isAbsolute_join (isAbsolute_of_slash_notMem file.isName.slash),
    isAbsolute_join (isAbsolute_of_slash_notMem hdirectory.slash), resDir, isAbsolute_join (by decide)]

theorem placed : r.Placed file where
  base := r.join_resDir file isName_values
  locale := by
    have hdirectory : "res/".toList ++ r.locale.valuesDir = "res/values-".toList ++ r.locale.text :=
      (List.append_assoc ..).symm
    rw [← hdirectory]
    exact r.join_resDir file r.locale.isName_valuesDir
  directory := r.locale.isName_valuesDir
  name := file.isName
  inside_base := ⟨r.isAbsolute_resDir file isName_values, r.names_base file⟩
  inside_locale := ⟨r.isAbsolute_resDir file r.locale.isName_valuesDir, r.names_locale file⟩
  fileName_base := fileName?_join file.isName _
  fileName_locale := fileName?_join file.isName _

end Routes

theorem LocaleCode.valuesDir_ne (code : LocaleCode) : "values".toList ≠ code.valuesDir := by
  intro h
  have hlength : 6 = 7 + code.text.length := (congrArg List.length h).trans List.length_append
  omega

theorem LocaleCode.text_injective : Function.Injective LocaleCode.text := by
  rintro ⟨t, _⟩ ⟨_, _⟩ rfl
  rfl

theorem FileName.text_injective : Function.Injective FileName.text := by
  rintro ⟨t, _⟩ ⟨_, _⟩ rfl
  rfl

namespace Routes
variable {r : Routes} {file file' : FileName}

/-- No base path leads where a locale path under the same root does. -/
theorem names_base_ne (r : Routes) (file file' : FileName) :
    names (r.pair file).base ≠ names (r.pair file').locale := by
  rw [names_base, names_locale]
  intro h
  have hnames := List.append_cancel_left h
  exact r.locale.valuesDir_ne (List.cons.inj (List.cons.inj hnames).2).1

/-- Locale paths under one root that lead by the same names are those of one locale and one file. -/
theorem locale_inj {root : Text} {code code' : LocaleCode}
    (h : names (({ root := root, locale := code } : Routes).pair file).locale =
      names (({ root := root, locale := code' } : Routes).pair file').locale) : code = code' ∧ file = file' := by
  rw [names_locale, names_locale] at h
  have hnames := List.append_cancel_left h
  simp only [List.cons.injEq, true_and, and_true] at hnames
  exact ⟨LocaleCode.text_injective (List.append_cancel_left hnames.1), FileName.text_injective hnames.2⟩

end Routes
end StringResources
