import StringResources.Proofs.Disk.Replaceable

/-! A replacement without its temporary file. Where it succeeds the tree is the old one with the contents put in
    place, node for node, and it would be the same on a disk where another file has other contents. Main statements:
    `replace_eq_ok_iff` and `replace_put`. -/

namespace StringResources

namespace Tree

/-- Nodes put at two addresses, one of which is taken, are there in either order. -/
theorem putIn_comm {a b : Address} (hne : a ≠ b) (m n : Node) {l : List (Address × Node)} (ha : a ∈ l.map (·.1)) :
    putIn b n (putIn a m l) = putIn a m (putIn b n l) := by
  induction l with
  | nil => cases ha
  | cons x l ih =>
    obtain ⟨c, k⟩ := x
    by_cases hca : c = a
    · subst hca
      simp [putIn, hne]
    · by_cases hcb : c = b
      · subst hcb
        simp [putIn, hca]
      · simp [putIn, hca, hcb, ih (List.mem_of_ne_of_mem (Ne.symm hca) ha)]

theorem length_putIn {a : Address} (n : Node) {l : List (Address × Node)} (ha : a ∈ l.map (·.1)) :
    (putIn a n l).length = l.length := by
  induction l with
  | nil => cases ha
  | cons x l ih =>
    obtain ⟨c, k⟩ := x
    rw [putIn]
    split
    · rfl
    · next hca => rw [List.length_cons, List.length_cons, ih (List.mem_of_ne_of_mem (Ne.symm hca) ha)]

theorem putIn_putIn (a : Address) (m n : Node) (l : List (Address × Node)) : putIn a n (putIn a m l) = putIn a n l := by
  induction l with
  | nil => simp [putIn]
  | cons x l ih =>
    obtain ⟨c, k⟩ := x
    by_cases hca : c = a
    · simp [putIn, hca]
    · simp [putIn, hca, ih]

theorem putIn_of_lookup {a : Address} {n : Node} {l : List (Address × Node)} (h : l.lookup a = some n) :
    putIn a n l = l := by
  induction l with
  | nil => cases h
  | cons x l ih =>
    obtain ⟨c, k⟩ := x
    rw [putIn]
    split
    · next hca =>
      subst hca
      obtain rfl : k = n := by simpa using h
      rfl
    · next hca =>
      rw [List.lookup_cons, beq_false_of_ne (Ne.symm hca)] at h
      rw [ih h]

section File
variable {t : Tree} {a : Address} {mode : Nat} {contents : Bytes}

/-- A file is one of the nodes, not the root. -/
theorem lookup_of_node?_file (h : t.node? a = some (.file mode contents)) :
    t.nodes.lookup a = some (.file mode contents) := by
  cases a with
  | nil => cases h
  | cons => exact h

theorem mem_of_node?_file (h : t.node? a = some (.file mode contents)) : a ∈ t.nodes.map (·.1) :=
  List.mem_map_of_mem (mem_of_lookup (lookup_of_node?_file h))

theorem put_of_node?_file (h : t.node? a = some (.file mode contents)) : t.put a (.file mode contents) = t := by
  rw [put, putIn_of_lookup (lookup_of_node?_file h)]

theorem put_comm (h : t.node? a = some (.file mode contents)) {b : Address} (hne : a ≠ b) (m n : Node) :
    (t.put a m).put b n = (t.put b n).put a m := by
  rw [put, put, put, put, putIn_comm hne m n (mem_of_node?_file h)]

theorem fresh?_put (h : t.node? a = some (.file mode contents)) (n : Node) (directory : Address) :
    Temporary.fresh? (t.put a n) directory = Temporary.fresh? t directory := by
  have ha : a ≠ [] := by
    rintro rfl
    cases h
  have hfree : ∀ b, ((t.put a n).node? b == none) = (t.node? b == none) := by
    intro b
    by_cases hb : b = a
    · rw [hb, node?_put_self _ _ ha, h]
      rfl
    · rw [node?_put_of_ne _ _ hb]
  have hlength : (t.put a n).nodes.length = t.nodes.length := length_putIn n (mem_of_node?_file h)
  simp only [Temporary.fresh?, hlength, hfree]

end File
end Tree

namespace Disk

/-- A disk with a node put at an address. -/
def put (d : Disk) (a : Address) (n : Node) : Disk := { d with tree := d.tree.put a n }

section Put
variable {d d' : Disk} {target : Address} {mode : Nat} {old : Bytes}

@[simp] theorem put_put (a : Address) (m n : Node) : (d.put a m).put a n = d.put a n := by
  simp only [put, Tree.put, Tree.putIn_putIn]

theorem put_of_node?_file (h : d.tree.node? target = some (.file mode old)) : d.put target (.file mode old) = d := by
  rw [put, Tree.put_of_node?_file h]

theorem put_comm (h : d.tree.node? target = some (.file mode old)) {b : Address} (hne : target ≠ b) (m n : Node) :
    (d.put target m).put b n = (d.put b n).put target m := by
  simp only [put, Tree.put_comm h hne]

theorem node?_put_file (h : d.tree.node? target = some (.file mode old)) (n : Node) :
    (d.put target n).tree.node? target = some n := by
  have hne : target ≠ [] := by
    rintro rfl
    cases h
  exact Tree.node?_put_self _ _ hne

theorem rewritten_put (h : d.tree.node? target = some (.file mode old)) (mode' : Nat) (new : Bytes) :
    d.Rewritten (d.put target (.file mode' new)) target mode' new where
  home := rfl
  file := ⟨mode, old, h⟩
  changed a := by
    by_cases ha : a = target
    · rw [ha, if_pos rfl, node?_put_file h]
    · rw [if_neg ha, put, Tree.node?_put_of_ne _ _ ha]

/-- Installing that succeeds puts the contents at the destination, and the temporary file is gone. -/
theorem install_eq_ok_iff {path directory : Text} {address : Except FileError Address}
    {place : Except FileError Place} {contents : Bytes} :
    d.install path directory address place contents = (.ok (), d') ↔
      (∃ temporary, d.temporaryIn directory address = .ok temporary) ∧ d.failNext = false ∧
        ∃ mode target, modeFor place = .ok mode ∧ destination path place = .ok target ∧
          d' = d.put target (.file mode contents) := by
  unfold install
  rcases htemporary : d.temporaryIn directory address with e | temporary
  · simp
  · have hfresh := node?_of_temporaryIn htemporary
    have htemp : temporary ≠ [] := Tree.ne_nil_of_node? (by rw [hfresh]; simp)
    simp only [Tree.erase_put_self, Tree.erase_of_node?_eq_none hfresh, Tree.move, Tree.node?_put_self _ _ htemp]
    cases hfail : d.failNext with
    | true => simp
    | false =>
      rcases modeFor place with e | mode
      · simp
      · rcases destination path place with e | target
        · simp
        · simp [put, hfail, eq_comm]

theorem replace_eq_ok_iff {path : Text} {contents : Bytes} :
    d.replace path contents = (.ok (), d') ↔
      ∃ s mode target, d.site path = .ok s ∧ (∃ temporary, d.temporaryIn s.directory s.address = .ok temporary) ∧
        d.failNext = false ∧ modeFor s.place = .ok mode ∧ destination s.path s.place = .ok target ∧
        d' = d.put target (.file mode contents) := by
  rw [replace_eq]
  rcases d.site path with e | s
  · simp
  · simp only [install_eq_ok_iff, Except.ok.injEq, exists_and_left, exists_eq_left']

/-- A replacement goes to the node that the path leads to. -/
theorem eq_of_destination {path : Text} {s : Site} {a b : Address} {n : Node} (hsite : d.site path = .ok s)
    (hfind : d.find .throughLinks path = .ok (.node a n)) (h : destination s.path s.place = .ok b) : b = a := by
  rw [place_of_site hsite, hfind] at h
  rcases destination_eq_ok h with ⟨m, hm, -⟩ | hvacant
  · exact (Place.node.inj (Except.ok.inj hm)).1.symm
  · cases hvacant

/-- A file that a path leads to is replaced where it is and keeps its mode. -/
theorem eq_put_of_replace {path : Text} {contents : Bytes}
    (hfind : d.find .throughLinks path = .ok (.node target (.file mode old)))
    (h : d.replace path contents = (.ok (), d')) : d' = d.put target (.file mode contents) := by
  obtain ⟨s, mode', target', hsite, -, -, hmode, hdestination, rfl⟩ := replace_eq_ok_iff.mp h
  obtain rfl := eq_of_destination hsite hfind hdestination
  rw [place_of_site hsite, hfind] at hmode
  obtain rfl := Except.ok.inj hmode
  rfl

theorem temporaryIn_put (h : d.tree.node? target = some (.file mode old)) (n : Node) (directory : Text)
    (address : Except FileError Address) :
    (d.put target n).temporaryIn directory address = d.temporaryIn directory address := by
  simp only [temporaryIn, put, Tree.fresh?_put h]

/-! ### Other files -/

theorem Rewritten.find_of_ne (h : d.Rewritten d' target mode old) {pursuit : Pursuit} {path : Text}
    (hne : ∀ n, d.find pursuit path ≠ .ok (.node target n)) : d'.find pursuit path = d.find pursuit path := by
  rw [h.find]
  rcases hfind : d.find pursuit path with e | ⟨a, n⟩ | a
  · rfl
  · have ha : a ≠ target := by
      rintro rfl
      exact hne n hfind
    rw [Except.map, Place.changed, if_neg ha]
  · rfl

/-- A path that leads elsewhere has its site where it was. -/
theorem Rewritten.site_of_not_leadsTo (h : d.Rewritten d' target mode old) {path : Text}
    (hpath : ¬ d.LeadsTo path target) : d'.site path = d.site path := by
  have hfind := h.find_of_ne fun n hn => hpath ⟨n, hn⟩
  have hresolving := h.find_of_ne fun n hn => hpath ⟨n, find_throughLinks_of_resolving hn⟩
  by_cases hlink : ∃ b text, d.find .toLink path = .ok (.node b (.link text))
  · obtain ⟨b, text, hlink⟩ := hlink
    simp only [site, h.find_link_iff.mpr hlink, hlink, hresolving, h.pathTo]
  · simp only [not_exists] at hlink
    rw [site_of_not_link hlink, site_of_not_link fun b text hb => hlink b text (h.find_link_iff.mp hb), hfind,
      h.directoryAt]

/-- A replacement of a file does the same where another file has other contents. -/
theorem replace_put (h : d.tree.node? target = some (.file mode old)) {path : Text} {a : Address} {n : Node}
    (hfind : d.find .throughLinks path = .ok (.node a n)) (hne : target ≠ a) {contents : Bytes} (mode' : Nat)
    (new : Bytes) (hreplace : d.replace path contents = (.ok (), d')) :
    (d.put target (.file mode' new)).replace path contents = (.ok (), d'.put target (.file mode' new)) := by
  obtain ⟨s, mode'', b, hsite, htemporary, hfail, hmode, hdestination, rfl⟩ := replace_eq_ok_iff.mp hreplace
  have hpath : ¬ d.LeadsTo path target := fun ha => hne (LeadsTo.unique ha ⟨n, hfind⟩)
  obtain rfl := eq_of_destination hsite hfind hdestination
  refine replace_eq_ok_iff.mpr ⟨s, mode'', b, ((rewritten_put h mode' new).site_of_not_leadsTo hpath).trans hsite, ?_,
    hfail, hmode, hdestination, (put_comm h hne _ _).symm⟩
  rwa [temporaryIn_put h]

end Put
end Disk
end StringResources
