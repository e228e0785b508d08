import StringResources.Proofs.Disk.Rooted

/-! A disk on which one file got other contents. All paths lead where they led before, and only those that
    lead to the file read otherwise. Main statements: `Rewritten.find`, `Rewritten.read_of_leadsTo` and
    `Rewritten.read_of_not_leadsTo`. -/

namespace StringResources

/-- Where names lead to a node, it is what the tree has at its address. Only a walk that takes no step can
    end where nothing is. -/
theorem Tree.getD_node?_of_walk {t : Tree} {pursuit : Pursuit} {links : Nat} {directory a : Address} {names : List Text}
    {n : Node} (h : t.walk pursuit links directory names = .ok (.node a n)) :
    (t.node? a).getD (.directory Node.directoryMode) = n := by
  fun_induction walk t pursuit links directory names with
  | case1 links directory =>
    obtain ⟨rfl, hn⟩ := Place.node.inj (Except.ok.inj h)
    exact hn
  | case2 links directory rest ih => exact ih h
  | case3 links directory rest hhere ih => exact ih h
  | case8 links directory name rest address hhere hup hname hpath mode hnode ih => exact ih h
  | case9 links directory name address hhere hup hname hpath mode contents hnode =>
    obtain ⟨rfl, rfl⟩ := Place.node.inj (Except.ok.inj h)
    rw [hnode, Option.getD_some]
  | case11 links directory name rest address hhere hup hname hpath link hnode hend =>
    obtain ⟨rfl, rfl⟩ := Place.node.inj (Except.ok.inj h)
    rw [hnode, Option.getD_some]
  | case13 directory name rest address hhere hup hname hpath link hnode hend links ih => exact ih h
  | _ => cases h

namespace Disk

theorem getD_node?_of_find {d : Disk} {pursuit : Pursuit} {path : Text} {a : Address} {n : Node}
    (h : d.find pursuit path = .ok (.node a n)) : (d.tree.node? a).getD (.directory Node.directoryMode) = n := by
  unfold find at h
  split at h
  · cases h
  · split at h
    · cases h
    · exact Tree.getD_node?_of_walk h

/-- Through all links, a path leads to an address. -/
def LeadsTo (d : Disk) (path : Text) (a : Address) : Prop := ∃ n, d.find .throughLinks path = .ok (.node a n)

theorem LeadsTo.unique {d : Disk} {path : Text} {a b : Address} (h : d.LeadsTo path a) (h' : d.LeadsTo path b) :
    a = b := by
  obtain ⟨n, hn⟩ := h
  obtain ⟨m, hm⟩ := h'
  exact (Place.node.inj (Except.ok.inj (hn.symm.trans hm))).1

/-- Through all links, a path leads to a file at an address. -/
def LeadsToFile (d : Disk) (path : Text) (a : Address) : Prop :=
  ∃ mode contents, d.find .throughLinks path = .ok (.node a (.file mode contents))

theorem LeadsToFile.leadsTo {d : Disk} {path : Text} {a : Address} (h : d.LeadsToFile path a) : d.LeadsTo path a := by
  obtain ⟨mode, contents, hfind⟩ := h
  exact ⟨_, hfind⟩

theorem LeadsTo.leadsToFile {d : Disk} {path path' : Text} {a : Address} (h : d.LeadsTo path a)
    (hfile : d.LeadsToFile path' a) : d.LeadsToFile path a := by
  obtain ⟨n, hn⟩ := h
  obtain ⟨mode, contents, hfind⟩ := hfile
  obtain rfl := (getD_node?_of_find hn).symm.trans (getD_node?_of_find hfind)
  exact ⟨mode, contents, hn⟩

/-- Disk `d'` is `d` but for the contents, and the mode, of the file at one address. -/
structure Rewritten (d d' : Disk) (target : Address) (mode : Nat) (contents : Bytes) : Prop where
  home : d'.home = d.home
  file : ∃ mode old, d.tree.node? target = some (.file mode old)
  changed : d.tree.Changed d'.tree target (.file mode contents)

namespace Rewritten
variable {d d' : Disk} {target : Address} {mode : Nat} {contents : Bytes}

theorem find (h : d.Rewritten d' target mode contents) (pursuit : Pursuit) (path : Text) :
    d'.find pursuit path = (d.find pursuit path).map (Place.changed target (.file mode contents)) :=
  find_changed h.home h.file rfl h.changed pursuit path

theorem leadsTo_iff (h : d.Rewritten d' target mode contents) {path : Text} {a : Address} :
    d'.LeadsTo path a ↔ d.LeadsTo path a := by
  unfold LeadsTo
  rw [h.find]
  rcases d.find .throughLinks path with e | ⟨b, n⟩ | b <;> simp [Except.map, Place.changed]

theorem leadsToFile_iff (h : d.Rewritten d' target mode contents) {path : Text} {a : Address} :
    d'.LeadsToFile path a ↔ d.LeadsToFile path a := by
  constructor
  · rintro ⟨mode', old, hfind'⟩
    obtain ⟨n, hn⟩ := h.leadsTo_iff.mp (LeadsToFile.leadsTo ⟨mode', old, hfind'⟩)
    by_cases ha : a = target
    · obtain ⟨mode', old, hfile⟩ := h.file
      have hnode := getD_node?_of_find hn
      rw [ha, hfile, Option.getD_some] at hnode
      exact ⟨mode', old, hnode ▸ hn⟩
    · rw [h.find, hn, Except.map, Place.changed, if_neg ha] at hfind'
      exact ⟨mode', old, hn.trans hfind'⟩
  · rintro ⟨mode', old, hfind⟩
    have hfind' := h.find .throughLinks path
    rw [hfind, Except.map, Place.changed] at hfind'
    split at hfind'
    · exact ⟨_, _, hfind'⟩
    · exact ⟨_, _, hfind'⟩

theorem read_of_leadsTo (h : d.Rewritten d' target mode contents) {path : Text} (hpath : d.LeadsTo path target) :
    d'.read path = .ok contents := by
  obtain ⟨n, hn⟩ := hpath
  rw [read, h.find, hn, Except.map, Place.changed, if_pos rfl]

theorem read_of_not_leadsTo (h : d.Rewritten d' target mode contents) {path : Text}
    (hpath : ¬ d.LeadsTo path target) : d'.read path = d.read path := by
  rw [read, read, h.find]
  rcases hfind : d.find .throughLinks path with e | ⟨a, n⟩ | a
  · rfl
  · have hne : a ≠ target := fun ha => hpath ⟨n, ha ▸ hfind⟩
    rw [Except.map, Place.changed, if_neg hne]
  · rfl

theorem isDirectory (h : d.Rewritten d' target mode contents) (path : Text) :
    d'.isDirectory path = d.isDirectory path := by
  rw [Disk.isDirectory, Disk.isDirectory, h.find]
  rcases hfind : d.find .throughLinks path with e | ⟨a, n⟩ | a
  · rfl
  · by_cases ha : a = target
    · -- The file that was rewritten is a file before and after.
      obtain ⟨mode', old, hfile⟩ := h.file
      have hn := getD_node?_of_find hfind
      rw [ha, hfile, Option.getD_some] at hn
      rw [← hn, Except.map, Place.changed, if_pos ha]
    · rw [Except.map, Place.changed, if_neg ha]
  · rfl

end Rewritten
end Disk
end StringResources
