import StringResources.Proofs.Disk.Walk

/-! Trees in which every node stands in a directory. A path there leads to a node of the tree or to a free
    address in a directory, and never to a link once all links are followed. Main statements: `walk_stands`
    and `walk_added`. -/

namespace StringResources

namespace Tree

def IsDirectory (t : Tree) (a : Address) : Prop := ∃ mode, t.node? a = some (.directory mode)

/-- Whatever stands below an address stands in a directory. -/
def Rooted (t : Tree) : Prop := ∀ a name n, t.node? (a ++ [name]) = some n → t.IsDirectory a

theorem isDirectory_root (t : Tree) : t.IsDirectory [] := ⟨Node.directoryMode, rfl⟩

theorem Rooted.dropLast {t : Tree} (h : t.Rooted) {a : Address} {n : Node} (ha : t.node? a = some n) :
    t.IsDirectory a.dropLast := by
  rcases List.eq_nil_or_concat a with rfl | ⟨b, name, rfl⟩
  · exact t.isDirectory_root
  · rw [List.concat_eq_append] at ha ⊢
    rw [List.dropLast_concat]
    exact h b name n ha

theorem mem_of_lookup {nodes : List (Address × Node)} {a : Address} {n : Node} (h : nodes.lookup a = some n) :
    (a, n) ∈ nodes := by
  obtain ⟨before, after, rfl, -⟩ := List.lookup_eq_some_iff.mp h
  exact List.mem_append_right before List.mem_cons_self

theorem rooted_of_nodes {t : Tree} (h : ∀ x ∈ t.nodes, t.IsDirectory x.1.dropLast) : t.Rooted := by
  intro a name n hn
  have hlookup : t.nodes.lookup (a ++ [name]) = some n := by
    cases a <;> exact hn
  have := h _ (mem_of_lookup hlookup)
  rwa [List.dropLast_concat] at this

/-- A place is as the tree has it: a node at its address, or none in a directory. Past all links it is no
    link. -/
def Stands (t : Tree) (pursuit : Pursuit) : Place → Prop
  | .node a n => t.node? a = some n ∧ (pursuit ≠ .toLink → ∀ target, n ≠ .link target)
  | .vacant a => t.node? a = none ∧ t.IsDirectory a.dropLast

theorem walk_stands {t : Tree} (ht : t.Rooted) {pursuit : Pursuit} {links : Nat} {directory : Address}
    {names : List Text} {p : Place} (hd : t.IsDirectory directory)
    (h : t.walk pursuit links directory names = .ok p) : t.Stands pursuit p := by
  fun_induction walk t pursuit links directory names with
  | case1 links directory =>
    obtain ⟨mode, hmode⟩ := hd
    rw [hmode, Option.getD_some] at h
    obtain rfl := Except.ok.inj h
    exact ⟨hmode, by simp⟩
  | case2 links directory rest ih => exact ih hd h
  | case3 links directory rest hhere ih =>
    obtain ⟨mode, hmode⟩ := hd
    exact ih (ht.dropLast hmode) h
  | case6 links directory name address hhere hup hname hpath hnone =>
    obtain rfl := Except.ok.inj h
    exact ⟨hnone, by rwa [List.dropLast_concat]⟩
  | case8 links directory name rest address hhere hup hname hpath mode hnode ih => exact ih ⟨mode, hnode⟩ h
  | case9 links directory name address hhere hup hname hpath mode contents hnode =>
    obtain rfl := Except.ok.inj h
    exact ⟨hnode, by simp⟩
  | case11 links directory name rest address hhere hup hname hpath link hnode hend =>
    obtain rfl := Except.ok.inj h
    exact ⟨hnode, fun hpursuit => absurd hend.2 hpursuit⟩
  | case13 directory name rest address hhere hup hname hpath link hnode hend links ih =>
    refine ih ?_ h
    split
    · exact t.isDirectory_root
    · exact hd
  | _ => cases h

/-- Where a file was put at a free address, the names that led there lead to the file. -/
theorem walk_added {t t' : Tree} {target : Address} {n : Node} (hn : n.isFile = true) (hfree : t.node? target = none)
    (h : t.Changed t' target n) {pursuit : Pursuit} {links : Nat} {directory : Address} {names : List Text}
    (hwalk : t.walk pursuit links directory names = .ok (.vacant target)) :
    t'.walk pursuit links directory names = .ok (.node target n) := by
  obtain ⟨mode', contents', rfl⟩ : ∃ mode' contents', n = .file mode' contents' := by
    cases n <;> first | exact ⟨_, _, rfl⟩ | cases hn
  -- What stood at an address of the way still stands there: the target was free.
  have hsame : ∀ {a : Address} {m : Node}, t.node? a = some m → t'.node? a = some m := by
    intro a m hm
    rw [h.of_ne, hm]
    rintro rfl
    rw [hfree] at hm
    cases hm
  fun_induction walk t pursuit links directory names with
  | case1 links directory => cases hwalk
  | case2 links directory rest ih =>
    rw [walk, if_pos rfl]
    exact ih hwalk
  | case3 links directory rest hhere ih =>
    rw [walk, if_neg hhere, if_pos rfl]
    exact ih hwalk
  | case6 links directory name address hhere hup hname hpath hnone =>
    obtain rfl := Place.vacant.inj (Except.ok.inj hwalk)
    rw [walk_cons hhere hup hname hpath, h.node?_self]
    rfl
  | case8 links directory name rest address hhere hup hname hpath mode hnode ih =>
    rw [walk_cons hhere hup hname hpath, hsame hnode]
    exact ih hwalk
  | case13 directory name rest address hhere hup hname hpath link hnode hend links ih =>
    rw [walk_cons hhere hup hname hpath, hsame hnode]
    simp only [if_neg hend]
    exact ih hwalk
  | _ => cases hwalk

theorem Changed.isDirectory {t t' : Tree} {target : Address} {n : Node} (h : t.Changed t' target n)
    (hnot : ¬ t.IsDirectory target) {a : Address} (ha : t.IsDirectory a) : t'.IsDirectory a := by
  obtain ⟨mode, hmode⟩ := ha
  refine ⟨mode, ?_⟩
  rw [h.of_ne, hmode]
  rintro rfl
  exact hnot ⟨mode, hmode⟩

/-- A tree stays rooted where a node other than a directory is replaced or one is added in a directory. -/
theorem Changed.rooted {t t' : Tree} {target : Address} {n : Node} (h : t.Changed t' target n) (ht : t.Rooted)
    (hnot : ¬ t.IsDirectory target) (hin : t.IsDirectory target.dropLast) : t'.Rooted := by
  intro a name m hm
  by_cases ha : a ++ [name] = target
  · rw [← ha, List.dropLast_concat] at hin
    exact h.isDirectory hnot hin
  · rw [h.of_ne ha] at hm
    exact h.isDirectory hnot (ht a name m hm)

end Tree

namespace Disk

/-- A rooted tree, with a working directory in it. -/
structure Sound (d : Disk) : Prop where
  rooted : d.tree.Rooted
  home : d.tree.IsDirectory d.home

theorem Sound.stands {d : Disk} (h : d.Sound) {pursuit : Pursuit} {path : Text} {p : Place}
    (hp : d.find pursuit path = .ok p) : d.tree.Stands pursuit p := by
  unfold find at hp
  split at hp
  · cases hp
  · split at hp
    · cases hp
    · refine Tree.walk_stands h.rooted ?_ hp
      split
      · exact d.tree.isDirectory_root
      · exact h.home

theorem Sound.changed {d d' : Disk} (hd : d.Sound) {target : Address} {n : Node} (hhome : d'.home = d.home)
    (h : d.tree.Changed d'.tree target n) (hnot : ¬ d.tree.IsDirectory target)
    (hin : d.tree.IsDirectory target.dropLast) : d'.Sound where
  rooted := h.rooted hd.rooted hnot hin
  home := by
    rw [hhome]
    exact h.isDirectory hnot hd.home

theorem find_added {d d' : Disk} {target : Address} {n : Node} (hhome : d'.home = d.home) (hn : n.isFile = true)
    (hfree : d.tree.node? target = none) (h : d.tree.Changed d'.tree target n) {pursuit : Pursuit} {path : Text}
    (hp : d.find pursuit path = .ok (.vacant target)) : d'.find pursuit path = .ok (.node target n) := by
  unfold find at hp ⊢
  split at hp
  · cases hp
  · split at hp
    · cases hp
    · next hne =>
      rw [if_neg hne, hhome]
      exact Tree.walk_added hn hfree h hp

end Disk
end StringResources
