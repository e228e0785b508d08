import StringResources.Proofs.Disk.Names
import StringResources.Proofs.Disk.Rooted

/-! How walks end: a link at the end of a path is followed or not, the last name is looked up in the directory
    that the names before it lead to, and a file is found under a name. Main statements: `walk_toLink`,
    `walk_concat` and `exists_name_of_walk`. -/

namespace StringResources

namespace Tree
variable {t : Tree} {links : Nat} {directory a : Address} {names : List Text} {name : Text}

/-- Where names lead through all links, they lead to the same place or to a link at their end if that is not
    followed. -/
theorem walk_toLink {p : Place} (h : t.walk .throughLinks links directory names = .ok p) :
    t.walk .toLink links directory names = .ok p ∨
      ∃ a text, t.walk .toLink links directory names = .ok (.node a (.link text)) := by
  have hfree : ∀ a : Address, ¬ (Pursuit.toLink = .resolving ∧ maxPath < Text.size (Path.ofAddress a)) := by
    intro a ha
    cases ha.1
  generalize hpursuit : Pursuit.throughLinks = pursuit at h
  fun_induction walk t pursuit links directory names with
  | case1 links directory =>
    rw [walk]
    exact Or.inl h
  | case2 links directory rest ih =>
    rw [walk, if_pos rfl]
    exact ih h
  | case3 links directory rest hhere ih =>
    rw [walk, if_neg hhere, if_pos rfl]
    exact ih h
  | case6 links directory name address hhere hup hname hpath hnone =>
    rw [walk_cons hhere hup hname (hfree _), hnone]
    exact Or.inl h
  | case8 links directory name rest address hhere hup hname hpath mode hnode ih =>
    rw [walk_cons hhere hup hname (hfree _), hnode]
    exact ih h
  | case9 links directory name address hhere hup hname hpath mode contents hnode =>
    rw [walk_cons hhere hup hname (hfree _), hnode]
    exact Or.inl h
  | case11 links directory name rest address hhere hup hname hpath link hnode hend =>
    rw [← hpursuit] at hend
    cases hend.2
  | case13 directory name rest address hhere hup hname hpath link hnode hend links ih =>
    rw [walk_cons hhere hup hname (hfree _), hnode]
    dsimp only
    by_cases hrest : rest = []
    · rw [if_pos ⟨hrest, rfl⟩]
      exact Or.inr ⟨_, link, rfl⟩
    · rw [if_neg fun hboth => hrest hboth.1]
      exact ih h
  | _ => cases h

/-- Names that lead somewhere lead first to the directory of the last name. -/
theorem walk_concat {p : Place} (h : t.walk .toLink links directory (names ++ [name]) = .ok p) :
    ∃ links' d n, t.walk .throughLinks links directory names = .ok (.node d n) ∧
      t.walk .toLink links' d [name] = .ok p := by
  have hfree : ∀ a : Address, ¬ (Pursuit.toLink = .resolving ∧ maxPath < Text.size (Path.ofAddress a)) := by
    intro a ha
    cases ha.1
  have hmore : ∀ rest : List Text, rest ++ [name] ≠ [] := by simp
  generalize hpursuit : Pursuit.throughLinks = pursuit
  fun_induction walk t pursuit links directory names with
  | case1 links directory => exact ⟨links, directory, _, rfl, h⟩
  | case2 links directory rest ih =>
    rw [List.cons_append, walk, if_pos rfl] at h
    exact ih h
  | case3 links directory rest hhere ih =>
    rw [List.cons_append, walk, if_neg hhere, if_pos rfl] at h
    exact ih h
  | case4 links directory name rest hhere hup hlong =>
    rw [List.cons_append, walk, if_neg hhere, if_neg hup, if_pos hlong] at h
    cases h
  | case5 links directory name rest address hhere hup hname hlong =>
    rw [← hpursuit] at hlong
    cases hlong.1
  | case6 links directory name address hhere hup hname hpath hnone =>
    rw [List.cons_append, walk_cons hhere hup hname (hfree _), hnone] at h
    cases h
  | case7 links directory name rest address hhere hup hname hpath hnone hrest =>
    rw [List.cons_append, walk_cons hhere hup hname (hfree _), hnone] at h
    dsimp only at h
    rw [if_neg (hmore rest)] at h
    cases h
  | case8 links directory name rest address hhere hup hname hpath mode hnode ih =>
    rw [List.cons_append, walk_cons hhere hup hname (hfree _), hnode] at h
    exact ih h
  | case9 links directory name address hhere hup hname hpath mode contents hnode =>
    rw [List.cons_append, walk_cons hhere hup hname (hfree _), hnode] at h
    cases h
  | case10 links directory name rest address hhere hup hname hpath mode contents hnode hrest =>
    rw [List.cons_append, walk_cons hhere hup hname (hfree _), hnode] at h
    dsimp only at h
    rw [if_neg (hmore rest)] at h
    cases h
  | case11 links directory name rest address hhere hup hname hpath link hnode hend =>
    rw [← hpursuit] at hend
    cases hend.2
  | case12 directory name rest address hhere hup hname hpath link hnode hend =>
    rw [List.cons_append, walk_cons hhere hup hname (hfree _), hnode] at h
    dsimp only at h
    rw [if_neg fun hboth => hmore rest hboth.1] at h
    cases h
  | case13 directory name rest address hhere hup hname hpath link hnode hend links ih =>
    rw [List.cons_append, walk_cons hhere hup hname (hfree _), hnode] at h
    dsimp only at h
    rw [if_neg fun hboth => hmore rest hboth.1, ← List.append_assoc] at h
    exact ih h

theorem walk_singleton (hname : Path.IsName name) {mode : Nat} {contents : Bytes}
    (h : t.walk .toLink links directory [name] = .ok (.node a (.file mode contents))) : a = directory ++ [name] := by
  rw [walk, if_neg hname.ne_here, if_neg hname.ne_up] at h
  split at h
  · cases h
  · split at h
    · cases h
    · split at h
      · cases h
      · rw [walk] at h
        exact (Place.node.inj (Except.ok.inj h)).1.symm
      · exact (Place.node.inj (Except.ok.inj h)).1.symm
      · cases (Place.node.inj (Except.ok.inj h)).2

/-- A file that is walked to is found under a name. -/
theorem exists_name_of_walk (ht : t.Rooted) {pursuit : Pursuit} (hd : t.IsDirectory directory)
    (hnames : ∀ n ∈ names, '/' ∉ n ∧ n ≠ []) {mode : Nat} {contents : Bytes}
    (h : t.walk pursuit links directory names = .ok (.node a (.file mode contents))) :
    ∃ d name, a = d ++ [name] ∧ Path.IsName name := by
  fun_induction walk t pursuit links directory names with
  | case1 links directory =>
    obtain ⟨mode', hmode⟩ := hd
    rw [hmode] at h
    cases h
  | case2 links directory rest ih => exact ih hd (fun n hn => hnames n (List.mem_cons_of_mem _ hn)) h
  | case3 links directory rest hhere ih =>
    obtain ⟨mode', hmode⟩ := hd
    exact ih (ht.dropLast hmode) (fun n hn => hnames n (List.mem_cons_of_mem _ hn)) h
  | case8 links directory name rest address hhere hup hname hpath mode' hnode ih =>
    exact ih ⟨mode', hnode⟩ (fun n hn => hnames n (List.mem_cons_of_mem _ hn)) h
  | case9 links directory name address hhere hup hname hpath mode' contents' hnode =>
    obtain ⟨rfl, -⟩ := Place.node.inj (Except.ok.inj h)
    obtain ⟨hslash, hne⟩ := hnames name List.mem_cons_self
    exact ⟨directory, name, rfl, hne, hslash, hhere, hup⟩
  | case11 links directory name rest address hhere hup hname hpath link hnode hend =>
    cases (Place.node.inj (Except.ok.inj h)).2
  | case13 directory name rest address hhere hup hname hpath link hnode hend links ih =>
    refine ih ?_ (fun n hn => ?_) h
    · split
      · exact t.isDirectory_root
      · exact hd
    · rcases List.mem_append.mp hn with hn | hn
      · exact Path.slash_notMem_of_mem_components hn
      · exact hnames n (List.mem_cons_of_mem _ hn)
  | _ => cases h

/-! ### Walks by the kinds of nodes -/

section Steps
variable {t : Tree} {pursuit : Pursuit} {links : Nat} {name : Text} {rest : List Text} {n : Nat}

theorem walk_directory {directory : Address} (hname : Path.IsName name) (hsize : name.size ≤ maxName)
    (hpath : pursuit = .resolving → (Path.ofAddress (directory ++ [name])).size ≤ maxPath) {mode : Nat}
    (hnode : t.node? (directory ++ [name]) = some (.directory mode)) :
    t.walk pursuit links directory (name :: rest) = t.walk pursuit links (directory ++ [name]) rest := by
  rw [walk_cons hname.ne_here hname.ne_up (Nat.not_lt.mpr hsize)
    (fun hlong => absurd hlong.2 (Nat.not_lt.mpr (hpath hlong.1))), hnode]

theorem walk_link {directory : Address} (hname : Path.IsName name) (hsize : name.size ≤ maxName)
    (hpath : pursuit = .resolving → (Path.ofAddress (directory ++ [name])).size ≤ maxPath) {target : Text}
    (hnode : t.node? (directory ++ [name]) = some (.link target)) (hpursuit : pursuit ≠ .toLink) :
    t.walk pursuit (links + 1) directory (name :: rest) =
      t.walk pursuit links (if Path.isAbsolute target then [] else directory) (Path.components target ++ rest) := by
  rw [walk_cons hname.ne_here hname.ne_up (Nat.not_lt.mpr hsize)
    (fun hlong => absurd hlong.2 (Nat.not_lt.mpr (hpath hlong.1))), hnode]
  exact if_neg fun hend => hpursuit hend.2

theorem walk_up {directory : Address} :
    t.walk pursuit links directory (Path.up :: rest) = t.walk pursuit links directory.dropLast rest := by
  rw [walk, if_neg (by decide), if_pos rfl]

theorem walk_ups (n : Nat) : t.walk pursuit links (List.replicate n name) (List.replicate n Path.up ++ rest) =
    t.walk pursuit links [] rest := by
  induction n with
  | zero => rfl
  | succ n ih =>
    rw [List.replicate_succ (a := Path.up), List.cons_append, walk_up, List.dropLast_replicate]
    exact ih

section Down
variable (hname : Path.IsName name) (hsize : name.size ≤ maxName)
  (hdirectories : ∀ i ≤ n, t.node? (List.replicate i name) = some (.directory Node.directoryMode))
include hname hsize hdirectories

/-- Down through directories of one name. -/
theorem walk_downs {i k : Nat} (hn : i + k ≤ n) :
    t.walk .throughLinks links (List.replicate i name) (List.replicate k name ++ rest) =
      t.walk .throughLinks links (List.replicate (i + k) name) rest := by
  induction k generalizing i with
  | zero => rfl
  | succ k ih =>
    have hnext := hdirectories (i + 1) (by omega)
    rw [List.replicate_succ'] at hnext
    rw [List.replicate_succ (n := k), List.cons_append, walk_directory hname hsize (by simp) hnext,
      ← List.replicate_succ', ih (by omega), Nat.add_right_comm, Nat.add_assoc]

/-- A walk that looks each node up by its own path ends where the path is too long. -/
theorem walk_downs_resolving (hlong : maxPath < (Path.ofAddress (List.replicate n name)).size) {i k : Nat} (hi : i < n)
    (hn : n ≤ i + k) :
    t.walk .resolving links (List.replicate i name) (List.replicate k name ++ rest) = .error .nameTooLong := by
  induction k generalizing i with
  | zero => omega
  | succ k ih =>
    rw [List.replicate_succ (n := k), List.cons_append, walk, if_neg hname.ne_here, if_neg hname.ne_up,
      if_neg (Nat.not_lt.mpr hsize), ← List.replicate_succ']
    split
    · rfl
    · next hshort =>
      have hne : i + 1 ≠ n := by
        rintro rfl
        exact hshort ⟨rfl, hlong⟩
      rw [hdirectories (i + 1) (by omega)]
      exact ih (by omega) (by omega)

end Down
end Steps
end Tree

end StringResources
