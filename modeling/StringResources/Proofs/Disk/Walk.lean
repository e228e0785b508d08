import StringResources.Disk.Basic

/-! Following paths after the contents of one file changed: every path leads where it led before. Main
    statements: `walk_changed` and `walk_throughLinks_of_resolving`. -/

namespace StringResources

def Node.isFile : Node → Bool
  | .file _ _ => true
  | _ => false

/-- A place after the node at an address was replaced. -/
def Place.changed (target : Address) (n : Node) : Place → Place
  | .node a m => .node a (if a = target then n else m)
  | .vacant a => .vacant a

namespace Tree

/-- Tree `t'` is `t` but for the node at one address. -/
def Changed (t t' : Tree) (target : Address) (n : Node) : Prop :=
  ∀ a, t'.node? a = if a = target then some n else t.node? a

theorem Changed.of_ne {t t' : Tree} {target : Address} {n : Node} (h : t.Changed t' target n) {a : Address}
    (ha : a ≠ target) : t'.node? a = t.node? a := (h a).trans (if_neg ha)

theorem Changed.node?_self {t t' : Tree} {target : Address} {n : Node} (h : t.Changed t' target n) :
    t'.node? target = some n := (h target).trans (if_pos rfl)

theorem Changed.node?_of_not_file {t t' : Tree} {target : Address} {n : Node} (h : t.Changed t' target n)
    (hfile : ∃ mode contents, t.node? target = some (.file mode contents)) {a : Address} {m : Option Node}
    (hm : t.node? a = m) (hnot : ∀ k ∈ m, k.isFile = false) : t'.node? a = m := by
  obtain ⟨mode, contents, hfile⟩ := hfile
  rw [h.of_ne, hm]
  rintro rfl
  rw [hfile] at hm
  exact absurd (hnot _ hm.symm) (by simp [Node.isFile])

section Walk
variable {t : Tree} {pursuit : Pursuit} {links : Nat} {directory : Address} {name : Text} {rest : List Text}

theorem walk_cons (hhere : ¬ name = Path.here) (hup : ¬ name = Path.up) (hname : ¬ maxName < name.size)
    (hpath : ¬ (pursuit = .resolving ∧ maxPath < Text.size (Path.ofAddress (directory ++ [name])))) :
    t.walk pursuit links directory (name :: rest) =
      match t.node? (directory ++ [name]) with
      | none => if rest = [] then .ok (.vacant (directory ++ [name])) else .error .notFound
      | some (.directory _) => t.walk pursuit links (directory ++ [name]) rest
      | some (.file mode contents) =>
        if rest = [] then .ok (.node (directory ++ [name]) (.file mode contents)) else .error .notADirectory
      | some (.link target) =>
        if rest = [] ∧ pursuit = .toLink then .ok (.node (directory ++ [name]) (.link target))
        else
          match links with
          | 0 => .error .linkLoop
          | links + 1 =>
            t.walk pursuit links (if Path.isAbsolute target then [] else directory)
              (Path.components target ++ rest) := by
  rw [walk, if_neg hhere, if_neg hup, if_neg hname]
  exact if_neg hpath

end Walk

/-- Where a file got other contents, all names lead to the same place. -/
theorem walk_changed {t t' : Tree} {target : Address} {n : Node}
    (hfile : ∃ mode contents, t.node? target = some (.file mode contents)) (hn : n.isFile = true)
    (h : t.Changed t' target n) (pursuit : Pursuit) (links : Nat) (directory : Address) (names : List Text) :
    t'.walk pursuit links directory names = (t.walk pursuit links directory names).map (Place.changed target n) := by
  obtain ⟨mode', contents', rfl⟩ : ∃ mode' contents', n = .file mode' contents' := by
    cases n <;> first | exact ⟨_, _, rfl⟩ | cases hn
  have hsame := @Changed.node?_of_not_file t t' target _ h hfile
  fun_induction walk t pursuit links directory names with
  | case1 links directory =>
    rw [walk]
    by_cases hd : directory = target
    · simp [hd, h.node?_self, Except.map, Place.changed]
    · simp [h.of_ne hd, hd, Except.map, Place.changed]
  | case2 links directory rest ih => rw [walk, if_pos rfl, ih]
  | case3 links directory rest hhere ih => rw [walk, if_neg hhere, if_pos rfl, ih]
  | case4 links directory name rest hhere hup hlong => simp [walk, hhere, hup, hlong, Except.map]
  | case5 links directory name rest address hhere hup hname hlong =>
    rw [walk, if_neg hhere, if_neg hup, if_neg hname, if_pos hlong, Except.map]
  | case6 links directory name address hhere hup hname hpath hnone =>
    rw [walk_cons hhere hup hname hpath, hsame hnone (by simp)]
    rfl
  | case7 links directory name rest address hhere hup hname hpath hnone hrest =>
    rw [walk_cons hhere hup hname hpath, hsame hnone (by simp)]
    simp [hrest, Except.map]
  | case8 links directory name rest address hhere hup hname hpath mode hnode ih =>
    rw [walk_cons hhere hup hname hpath, hsame hnode (by simp [Node.isFile])]
    exact ih
  | case9 links directory name address hhere hup hname hpath mode contents hnode =>
    rw [walk_cons hhere hup hname hpath]
    by_cases ha : directory ++ [name] = target
    · rw [ha, h.node?_self]
      simp [Except.map, Place.changed, address, ha]
    · rw [h.of_ne ha, hnode]
      simp [Except.map, Place.changed, address, ha]
  | case10 links directory name rest address hhere hup hname hpath mode contents hnode hrest =>
    rw [walk_cons hhere hup hname hpath]
    by_cases ha : directory ++ [name] = target
    · rw [ha, h.node?_self]
      simp [hrest, Except.map]
    · rw [h.of_ne ha, hnode]
      simp [hrest, Except.map]
  | case11 links directory name rest address hhere hup hname hpath link hnode hend =>
    rw [walk_cons hhere hup hname hpath, hsame hnode (by simp [Node.isFile])]
    have ha : address ≠ target := fun ha => by
      obtain ⟨mode, contents, hfile⟩ := hfile
      rw [ha, hfile] at hnode
      cases hnode
    simp [hend, Except.map, Place.changed, address, ha]
  | case12 directory name rest address hhere hup hname hpath link hnode hend =>
    rw [walk_cons hhere hup hname hpath, hsame hnode (by simp [Node.isFile])]
    simp only [if_neg hend]
    rfl
  | case13 directory name rest address hhere hup hname hpath link hnode hend links ih =>
    rw [walk_cons hhere hup hname hpath, hsame hnode (by simp [Node.isFile])]
    simp only [if_neg hend]
    exact ih

/-- What is found by following links is found by the other way to follow them. Where that looks each node up by its own
    path, the paths must not be too long, and what is found be a node. -/
theorem walk_follow {t : Tree} {links : Nat} {directory : Address} {names : List Text} {place : Place}
    {pursuit pursuit' : Pursuit} (hpursuit : pursuit ≠ .toLink) (hpursuit' : pursuit' ≠ .toLink)
    (hsize : pursuit' = .resolving →
      (∀ b n, t.node? b = some n → (Path.ofAddress b).size ≤ maxPath) ∧ ∀ a, place ≠ .vacant a)
    (h : t.walk pursuit links directory names = .ok place) : t.walk pursuit' links directory names = .ok place := by
  have hfree : ∀ {b : Address} {n : Node}, t.node? b = some n →
      ¬ (pursuit' = .resolving ∧ maxPath < (Path.ofAddress b).size) := fun hn hlong =>
    absurd hlong.2 (Nat.not_lt.mpr ((hsize hlong.1).1 _ _ hn))
  fun_induction walk t pursuit links directory names with
  | case1 links directory =>
    rw [walk]
    exact h
  | case2 links directory rest ih =>
    rw [walk, if_pos rfl]
    exact ih h
  | case3 links directory rest hhere ih =>
    rw [walk, if_neg hhere, if_pos rfl]
    exact ih h
  | case6 links directory name address hhere hup hname hpath hnone =>
    obtain rfl := Except.ok.inj h
    rw [walk_cons hhere hup hname (fun hlong => (hsize hlong.1).2 _ rfl), hnone]
    rfl
  | case8 links directory name rest address hhere hup hname hpath mode hnode ih =>
    rw [walk_cons hhere hup hname (hfree hnode), hnode]
    exact ih h
  | case9 links directory name address hhere hup hname hpath mode contents hnode =>
    rw [walk_cons hhere hup hname (hfree hnode), hnode]
    exact h
  | case11 links directory name rest address hhere hup hname hpath link hnode hend => exact absurd hend.2 hpursuit
  | case13 directory name rest address hhere hup hname hpath link hnode hend links ih =>
    rw [walk_cons hhere hup hname (hfree hnode), hnode]
    dsimp only
    rw [if_neg fun hlast => hpursuit' hlast.2]
    exact ih h
  | _ => cases h

/-- What is found by resolving every step is found by following the links. -/
theorem walk_throughLinks_of_resolving {t : Tree} {links : Nat} {directory : Address} {names : List Text} {p : Place}
    (h : t.walk .resolving links directory names = .ok p) : t.walk .throughLinks links directory names = .ok p :=
  walk_follow (by decide) (by decide) (fun hpursuit => nomatch hpursuit) h

theorem node?_of_walk {t : Tree} {pursuit : Pursuit} {links : Nat} {directory a : Address} {names : List Text}
    {mode : Nat} {contents : Bytes} (h : t.walk pursuit links directory names = .ok (.node a (.file mode contents))) :
    t.node? a = some (.file mode contents) := by
  fun_induction walk t pursuit links directory names with
  | case1 links directory =>
    obtain ⟨rfl, hnode⟩ := Place.node.inj (Except.ok.inj h)
    cases ht : t.node? directory with
    | none =>
      rw [ht] at hnode
      cases hnode
    | some n =>
      rw [ht] at hnode
      exact congrArg some hnode
  | case2 links directory rest ih => exact ih h
  | case3 links directory rest hhere ih => exact ih h
  | case8 links directory name rest address hhere hup hname hpath mode hnode ih => exact ih h
  | case9 links directory name address hhere hup hname hpath mode contents hnode =>
    obtain ⟨ha, hfile⟩ := Place.node.inj (Except.ok.inj h)
    rw [← ha, hnode, hfile]
  | case11 links directory name rest address hhere hup hname hpath link hnode hend =>
    cases (Place.node.inj (Except.ok.inj h)).2
  | case13 directory name rest address hhere hup hname hpath link hnode hend links ih => exact ih h
  | _ => cases h

end Tree

namespace Disk

theorem find_changed {d d' : Disk} {target : Address} {n : Node} (hhome : d'.home = d.home)
    (hfile : ∃ mode contents, d.tree.node? target = some (.file mode contents)) (hn : n.isFile = true)
    (h : d.tree.Changed d'.tree target n) (pursuit : Pursuit) (path : Text) :
    d'.find pursuit path = (d.find pursuit path).map (Place.changed target n) := by
  unfold find
  split
  · rfl
  · split
    · rfl
    · rw [hhome]
      exact Tree.walk_changed hfile hn h _ _ _ _

theorem find_throughLinks_of_resolving {d : Disk} {path : Text} {p : Place} (h : d.find .resolving path = .ok p) :
    d.find .throughLinks path = .ok p := by
  unfold find at h ⊢
  split
  · next hcheck =>
    rw [hcheck] at h
    exact h
  · next hcheck =>
    rw [hcheck] at h
    dsimp only at h
    split at h
    · cases h
    · next hne =>
      rw [if_neg hne]
      exact Tree.walk_throughLinks_of_resolving h

theorem node?_of_find {d : Disk} {pursuit : Pursuit} {path : Text} {a : Address} {mode : Nat} {contents : Bytes}
    (h : d.find pursuit path = .ok (.node a (.file mode contents))) : d.tree.node? a = some (.file mode contents) := by
  unfold find at h
  split at h
  · cases h
  · split at h
    · cases h
    · exact Tree.node?_of_walk h

end Disk
end StringResources
