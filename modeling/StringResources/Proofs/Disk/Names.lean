import StringResources.Disk.Replace
import StringResources.Layout.Routes
import StringResources.Proofs.Text.Cuts

/-! Paths and the names in them. A path that is put together from a directory and a name is taken apart into
    them again. Main statements: `components_join`, `parent_join` and `destination_of_endsIn`. -/

namespace StringResources

namespace Text

theorem size_replicate (n : Nat) (c : Char) : Text.size (List.replicate n c) = n * c.utf8Size := by
  induction n with
  | zero => simp
  | succ n ih => rw [List.replicate_succ, Text.size_cons, ih, Nat.succ_mul, Nat.add_comm]

end Text

namespace Path

/-- A text that paths can name something by. -/
structure IsName (name : Text) : Prop where
  ne_nil : name ≠ []
  slash : '/' ∉ name
  ne_here : name ≠ here
  ne_up : name ≠ up

instance (name : Text) : Decidable (IsName name) :=
  decidable_of_iff (name ≠ [] ∧ '/' ∉ name ∧ name ≠ here ∧ name ≠ up)
    ⟨fun ⟨h₁, h₂, h₃, h₄⟩ => ⟨h₁, h₂, h₃, h₄⟩, fun h => ⟨h.ne_nil, h.slash, h.ne_here, h.ne_up⟩⟩

theorem slash_notMem_of_mem_components {path name : Text} (h : name ∈ components path) : '/' ∉ name ∧ name ≠ [] := by
  rcases List.mem_append.mp h with h | h
  · obtain ⟨h, hne⟩ := List.mem_filter.mp h
    exact ⟨Text.notMem_of_mem_splitOn h, of_decide_eq_true hne⟩
  · split at h
    · obtain rfl := List.mem_singleton.mp h
      decide
    · cases h

/-- A path ends in a name if that is all of it or stands after a slash. -/
def EndsIn (path name : Text) : Prop := ∃ before, path = before ++ name ∧ (before = [] ∨ endsInSlash before = true)

theorem isAbsolute_of_slash_notMem {name : Text} (h : '/' ∉ name) : isAbsolute name = false := by
  cases name with
  | nil => rfl
  | cons c t =>
    rw [List.mem_cons, not_or] at h
    simpa [isAbsolute] using Ne.symm h.1

theorem endsIn_join {directory name : Text} (hname : '/' ∉ name) : EndsIn (join directory name) name := by
  rw [join, isAbsolute_of_slash_notMem hname, if_neg (by simp)]
  split
  · next hdirectory => exact ⟨directory, rfl, hdirectory⟩
  · exact ⟨directory ++ ['/'], by simp, Or.inr (by simp [endsInSlash])⟩

@[simp] theorem ofNames_singleton (name : Text) : ofNames [name] = name := by
  simp [ofNames, List.intercalate]

theorem ofNames_cons_cons (first second : Text) (names : List Text) :
    ofNames (first :: second :: names) = first ++ '/' :: ofNames (second :: names) := by
  simp [ofNames, List.intercalate]

theorem isAbsolute_ofNames {first : Text} (hne : first ≠ []) (hslash : '/' ∉ first) (names : List Text) :
    isAbsolute (ofNames (first :: names)) = false := by
  cases first with
  | nil => exact absurd rfl hne
  | cons c t =>
    have hc : c ≠ '/' := fun hc => hslash (hc ▸ List.mem_cons_self)
    cases names with
    | nil => simpa [isAbsolute] using hc
    | cons second names => simpa [isAbsolute, ofNames_cons_cons] using hc

theorem ofNames_concat {names : List Text} (h : names ≠ []) (name : Text) :
    ofNames (names ++ [name]) = ofNames names ++ '/' :: name := by
  induction names with
  | nil => exact absurd rfl h
  | cons first names ih =>
    cases names with
    | nil => simp [ofNames_cons_cons]
    | cons second names =>
      rw [List.cons_append, List.cons_append, ofNames_cons_cons, ← List.cons_append, ih (by simp), ofNames_cons_cons]
      simp

theorem endsIn_ofNames (names : List Text) (name : Text) : EndsIn (ofNames (names ++ [name])) name := by
  by_cases h : names = []
  · subst h
    exact ⟨[], ofNames_singleton name, Or.inl rfl⟩
  · rw [ofNames_concat h]
    exact ⟨ofNames names ++ ['/'], by simp, Or.inr (by simp [endsInSlash])⟩

theorem endsIn_ofAddress (a : Address) (name : Text) : EndsIn (ofAddress (a ++ [name])) name := by
  obtain ⟨before, hpath, hbefore⟩ := endsIn_ofNames a name
  refine ⟨'/' :: before, by rw [ofAddress, hpath]; rfl, Or.inr ?_⟩
  rcases hbefore with rfl | hslash
  · rfl
  · cases before with
    | nil => cases hslash
    | cons c t => exact hslash

section EndsIn
variable {path name : Text}

/-- The reverse of a path that ends in a name begins with the last character of the name. -/
theorem EndsIn.reverse_eq (h : EndsIn path name) :
    ∃ before, path.reverse = name.reverse ++ before ∧ (before = [] ∨ ∃ t, before = '/' :: t) := by
  obtain ⟨before, rfl, hbefore⟩ := h
  refine ⟨before.reverse, List.reverse_append, ?_⟩
  rcases hbefore with rfl | hslash
  · exact Or.inl rfl
  · rcases List.eq_nil_or_concat before with rfl | ⟨t, c, rfl⟩
    · cases hslash
    · simp only [List.concat_eq_append, endsInSlash, List.getLast?_append, List.getLast?_singleton] at hslash
      simp at hslash
      exact Or.inr ⟨t.reverse, by simp [hslash]⟩

theorem EndsIn.lastName_eq (h : EndsIn path name) (hname : '/' ∉ name) : lastName path = name := by
  obtain ⟨before, hreverse, hbefore⟩ := h.reverse_eq
  have htake : (name.reverse ++ before).takeWhile (· != '/') = name.reverse := by
    have hall : ∀ c ∈ name.reverse, (c != '/') = true := by
      intro c hc
      rw [bne_iff_ne]
      rintro rfl
      exact hname (List.mem_reverse.mp hc)
    rw [List.takeWhile_append_of_pos hall]
    rcases hbefore with rfl | ⟨t, rfl⟩ <;> simp
  rw [lastName, hreverse, htake, List.reverse_reverse]

/-- The last character of a path that ends in a name is one of the name. -/
theorem EndsIn.reverse_eq_cons (h : EndsIn path name) (hname : IsName name) :
    ∃ c t, path.reverse = c :: t ∧ c ≠ '/' := by
  obtain ⟨before, hreverse, -⟩ := h.reverse_eq
  cases hlast : name.reverse with
  | nil => exact absurd (List.reverse_eq_nil_iff.mp hlast) hname.ne_nil
  | cons c t =>
    refine ⟨c, t ++ before, by rw [hreverse, hlast]; rfl, ?_⟩
    rintro rfl
    exact hname.slash (List.mem_reverse.mp (hlast ▸ List.mem_cons_self))

theorem EndsIn.ne_nil (h : EndsIn path name) (hname : IsName name) : path ≠ [] := by
  rintro rfl
  obtain ⟨c, t, hreverse, -⟩ := h.reverse_eq_cons hname
  cases hreverse

theorem EndsIn.endsInSlash_eq (h : EndsIn path name) (hname : IsName name) : endsInSlash path = false := by
  obtain ⟨c, t, hreverse, hc⟩ := h.reverse_eq_cons hname
  rw [endsInSlash, List.getLast?_eq_head?_reverse, hreverse]
  simpa using hc

/-- A text is not trimmed after a character other than a slash, unless that is a name which stands for a directory. -/
theorem trimReversed_cons {c : Char} {t : Text} (hc : c ≠ '/') (ht : ∀ r, t = '/' :: r → c ≠ '.') :
    trimReversed (c :: t) = c :: t := by
  rw [trimReversed.eq_def]
  dsimp only
  rw [if_neg hc]
  split
  · next r => exact if_neg (ht r rfl)
  · rfl

theorem trimReversed_slash (t : Text) : trimReversed ('/' :: t) = trimReversed t := by
  rw [trimReversed.eq_def]
  exact if_pos rfl

theorem EndsIn.trimmed_eq (h : EndsIn path name) (hname : IsName name) : trimmed path = path := by
  obtain ⟨before, hreverse, -⟩ := h.reverse_eq
  suffices htrim : trimReversed path.reverse = path.reverse by rw [trimmed, htrim, List.reverse_reverse]
  cases hlast : name.reverse with
  | nil => exact absurd (List.reverse_eq_nil_iff.mp hlast) hname.ne_nil
  | cons c t =>
    have hslash : ∀ x ∈ c :: t, x ≠ '/' := by
      rintro x hx rfl
      exact hname.slash (List.mem_reverse.mp (hlast ▸ hx))
    rw [hreverse, hlast, List.cons_append]
    refine trimReversed_cons (hslash c List.mem_cons_self) ?_
    rintro r hr rfl
    cases t with
    | nil => exact hname.ne_here (List.reverse_eq_iff.mp hlast)
    | cons x t => exact hslash x (by simp) (List.cons.inj hr).1

end EndsIn

theorem components_ofNames {names : List Text} {name : Text} (hnames : ∀ n ∈ names, n ≠ [] ∧ '/' ∉ n)
    (hname : IsName name) : components (ofNames (names ++ [name])) = names ++ [name] := by
  have hsplit : Text.splitOn '/' (ofNames (names ++ [name])) = names ++ [name] := by
    induction names with
    | nil =>
      rw [List.nil_append, ofNames_singleton]
      exact Text.splitOn_of_notMem hname.slash
    | cons first names ih =>
      obtain ⟨⟨-, hfirst⟩, hnames⟩ := List.forall_mem_cons.mp hnames
      have hcons : ofNames (first :: names ++ [name]) = first ++ '/' :: ofNames (names ++ [name]) := by
        cases names <;> exact ofNames_cons_cons ..
      rw [hcons, Text.splitOn_append, Text.splitOn_of_notMem hfirst, ih hnames]
      rfl
  rw [components, hsplit, (endsIn_ofNames names name).endsInSlash_eq hname, if_neg (by simp), List.append_nil,
    List.filter_eq_self]
  intro n hn
  rcases List.mem_append.mp hn with hn | hn
  · simpa using (hnames n hn).1
  · obtain rfl := List.mem_singleton.mp hn
    simpa using hname.ne_nil

theorem size_ofAddress_replicate (n : Nat) (name : Text) :
    (ofAddress (List.replicate (n + 1) name)).size = (n + 1) * (name.size + 1) := by
  induction n with
  | zero =>
    have hslash : Char.utf8Size '/' = 1 := by decide
    rw [Nat.zero_add, List.replicate_one, ofAddress, ofNames_singleton, Text.size_cons, hslash]
    omega
  | succ n ih =>
    have hslash : Char.utf8Size '/' = 1 := by decide
    rw [ofAddress, Text.size_cons, hslash] at ih ⊢
    rw [List.replicate_succ, List.replicate_succ, ofNames_cons_cons, ← List.replicate_succ, Text.size_append,
      Text.size_cons, hslash, Nat.succ_mul, ← ih]
    omega

/-! ### Paths put together -/

section Join
variable {directory name last : Text}

theorem join_eq (hdirectory : EndsIn directory last) (hlast : IsName last) (hname : '/' ∉ name) :
    join directory name = directory ++ '/' :: name := by
  rw [join, isAbsolute_of_slash_notMem hname, if_neg (by simp), hdirectory.endsInSlash_eq hlast,
    if_neg (by simp [hdirectory.ne_nil hlast])]

/-- A path leads first to its directory and then on by its name. -/
theorem components_join (hdirectory : EndsIn directory last) (hlast : IsName last) (hname : IsName name) :
    components (join directory name) = components directory ++ [name] := by
  have hslash := (endsIn_join hname.slash : EndsIn (join directory name) name).endsInSlash_eq hname
  rw [components, components, hslash, hdirectory.endsInSlash_eq hlast, join_eq hdirectory hlast hname.slash,
    Text.splitOn_append, Text.splitOn_of_notMem hname.slash]
  simp [hname.ne_nil]

theorem parent_join (hdirectory : EndsIn directory last) (hlast : IsName last) (hname : IsName name) :
    parent (join directory name) = directory := by
  have hends : EndsIn (join directory name) name := endsIn_join hname.slash
  have hbody := hends.trimmed_eq hname
  have htake : (join directory name).take ((join directory name).length - (lastName (join directory name)).length) =
      directory ++ ['/'] := by
    rw [hends.lastName_eq hname.slash, join_eq hdirectory hlast hname.slash]
    have hlength : (directory ++ '/' :: name).length - name.length = (directory ++ ['/']).length := by
      simp only [List.length_append, List.length_cons, List.length_nil]
      omega
    rw [hlength, show directory ++ '/' :: name = (directory ++ ['/']) ++ name by simp, List.take_left]
  have hslash : trimmed (directory ++ ['/']) = directory := by
    rw [trimmed, List.reverse_append, List.reverse_singleton, List.singleton_append, trimReversed_slash]
    exact hdirectory.trimmed_eq hlast
  simp only [parent, hbody, htake, hslash]
  cases directory with
  | nil => exact absurd rfl (hdirectory.ne_nil hlast)
  | cons c t => rfl

end Join
end Path

theorem FileName.isName (file : FileName) : Path.IsName file.text := by
  have hfault := file.admitted
  unfold fault? at hfault
  split at hfault
  · cases hfault
  · next hempty =>
    split at hfault
    · cases hfault
    · next hdots =>
      split at hfault
      · cases hfault
      · next hslash => exact ⟨hempty, fun h => hslash (Or.inl h), fun h => hdots (Or.inl h), fun h => hdots (Or.inr h)⟩

theorem LocaleCode.slash_notMem (code : LocaleCode) : '/' ∉ code.text := by
  intro hslash
  have hfault := code.admitted
  unfold fault? at hfault
  split at hfault
  · cases hfault
  · split at hfault
    · cases hfault
    · split at hfault
      · next hall => exact absurd (List.all_eq_true.mp hall '/' hslash) (by decide)
      · cases hfault

theorem LocaleCode.isName_valuesDir (code : LocaleCode) : Path.IsName code.valuesDir := by
  have hmem : 'v' ∈ code.valuesDir := List.mem_append_left _ (by decide)
  refine ⟨List.ne_nil_of_mem hmem, ?_, fun h => ?_, fun h => ?_⟩
  · intro hslash
    rcases List.mem_append.mp hslash with hslash | hslash
    · exact absurd hslash (by decide)
    · exact code.slash_notMem hslash
  · rw [h] at hmem
    exact absurd hmem (by decide)
  · rw [h] at hmem
    exact absurd hmem (by decide)

/-- A file stays where it is under a path that ends in a name. -/
theorem Disk.destination_of_endsIn {path name : Text} (h : Path.EndsIn path name) (hname : Path.IsName name)
    {a : Address} (ha : a ≠ []) (mode : Nat) (contents : Bytes) :
    destination path (.ok (.node a (.file mode contents))) = .ok a := by
  obtain ⟨c, t, hreverse, hc⟩ := h.reverse_eq_cons hname
  have htrim : Text.trimEnd (· == '/') path = path := by
    rw [Text.trimEnd, hreverse, List.dropWhile_cons_of_neg (by simpa using hc), ← hreverse, List.reverse_reverse]
  have hdots : endsInDots path = false := by
    simp [endsInDots, htrim, h.lastName_eq hname.slash, hname.ne_here, hname.ne_up]
  have hall : path.all (· == '/') = false := by
    have hmem : c ∈ path := List.mem_reverse.mp (hreverse ▸ List.mem_cons_self)
    rw [List.all_eq_false]
    exact ⟨c, hmem, by simpa using hc⟩
  cases a with
  | nil => exact absurd rfl ha
  | cons first a => simp [destination, hdots, hall, h.endsInSlash_eq hname]

end StringResources
