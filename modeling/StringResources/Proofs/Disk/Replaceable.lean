import Mathlib
import StringResources.Proofs.Disk.Atomic
import StringResources.Proofs.Disk.Ends
import StringResources.Proofs.Disk.Rewritten

/-! When a replacement succeeds. A file that can be read through a path can be replaced through it, if a link
    at its end can be resolved and a temporary file can be made: the directory of the file is there, the name
    is one that a file can have, and no failure is to come. Main statements: `Temporary.exists_fresh` and
    `replace_ok`. -/

namespace StringResources

namespace Temporary

theorem name_injective : Function.Injective name := by
  intro m n h
  have hpad : (Text.ofNat m).leftpad 6 '0' = (Text.ofNat n).leftpad 6 '0' :=
    List.append_cancel_left (List.append_cancel_right h)
  have hread : ∀ k, Nat.ofDigitChars 10 ((Text.ofNat k).leftpad 6 '0') 0 = k := by
    intro k
    rw [List.leftpad, Nat.ofDigitChars_append, Nat.ofDigitChars_replicate_zero, Nat.mul_zero, Text.ofNat]
    exact Nat.ofDigitChars_toDigits (by decide) (by decide)
  rw [← hread m, hpad, hread]

/-- In any directory there is a free address for a temporary file: more are tried than the tree has nodes. -/
theorem exists_fresh (t : Tree) (directory : Address) : ∃ a, fresh? t directory = some a := by
  rw [← Option.isSome_iff_exists, Option.isSome_iff_ne_none]
  intro hnone
  have htaken := List.find?_eq_none.mp hnone
  have hnodup : ((List.range (t.nodes.length + 1)).map fun n => directory ++ [name n]).Nodup := by
    refine List.nodup_range.map fun m n h => name_injective ?_
    exact List.singleton_inj.mp (List.append_cancel_left h)
  have hsubset : ((List.range (t.nodes.length + 1)).map fun n => directory ++ [name n]) ⊆ t.nodes.map (·.1) := by
    intro a ha
    have hnode := htaken a ha
    obtain ⟨n, -, rfl⟩ := List.mem_map.mp ha
    cases hlookup : t.nodes.lookup (directory ++ [name n]) with
    | none =>
      refine absurd ?_ hnode
      cases directory <;> exact beq_iff_eq.mpr hlookup
    | some node => exact List.mem_map_of_mem (Tree.mem_of_lookup hlookup)
  have hlength := (hnodup.subperm hsubset).length_le
  simp at hlength

end Temporary

namespace Path

/-- A path of the kind that routes give: of a name in a directory that is itself given by a name. -/
def Routed (path : Text) : Prop :=
  ∃ directory last name, path = join directory name ∧ EndsIn directory last ∧ IsName last ∧ IsName name

end Path

namespace Disk

theorem checkPath_of_append {s t : Text} (h : checkPath (s ++ t) = .ok ()) : checkPath s = .ok () := by
  unfold checkPath at h ⊢
  split at h
  · cases h
  · next hzero =>
    split at h
    · cases h
    · next hsize =>
      rw [if_neg (by simp only [List.contains_eq_mem, List.mem_append, decide_eq_true_eq] at hzero ⊢; tauto), if_neg]
      rw [Text.size_append] at hsize
      omega

section Find
variable {d : Disk} {pursuit : Pursuit} {path : Text}

theorem find_eq_walk (hcheck : checkPath path = .ok ()) (hne : path ≠ []) (pursuit : Pursuit) :
    d.find pursuit path = d.tree.walk pursuit Tree.maxLinks (if Path.isAbsolute path then [] else d.home)
      (Path.components path) := by
  rw [find, hcheck]
  exact if_neg hne

theorem checkPath_of_find {p : Place} (h : d.find pursuit path = .ok p) : checkPath path = .ok () ∧ path ≠ [] := by
  unfold find at h
  split at h
  · cases h
  · next hcheck =>
    split at h
    · cases h
    · next hne => exact ⟨hcheck, hne⟩

theorem find_toLink {p : Place} (h : d.find .throughLinks path = .ok p) :
    d.find .toLink path = .ok p ∨ ∃ a text, d.find .toLink path = .ok (.node a (.link text)) := by
  obtain ⟨hcheck, hne⟩ := checkPath_of_find h
  rw [find_eq_walk hcheck hne] at h ⊢
  exact Tree.walk_toLink h

end Find

section Sound
variable {d : Disk} {path : Text} {a : Address} {mode : Nat} {contents : Bytes}

/-- A file under a name is in the directory that the path names. -/
theorem Sound.directoryAt_of_join (hd : d.Sound) {directory last name : Text} (hdirectory : Path.EndsIn directory last)
    (hlast : Path.IsName last) (hname : Path.IsName name)
    (h : d.find .toLink (Path.join directory name) = .ok (.node a (.file mode contents))) :
    ∃ parent, d.directoryAt directory = .ok parent ∧ a = parent ++ [name] := by
  obtain ⟨hcheck, hne⟩ := checkPath_of_find h
  rw [find_eq_walk hcheck hne, Path.components_join hdirectory hlast hname] at h
  rw [Path.join_eq hdirectory hlast hname.slash] at hcheck h
  obtain ⟨links, parent, n, hparent, hstep⟩ := Tree.walk_concat h
  obtain rfl := Tree.walk_singleton hname hstep
  refine ⟨parent, ?_, rfl⟩
  -- The directory is walked to from where the path starts.
  have habsolute : Path.isAbsolute (directory ++ '/' :: name) = Path.isAbsolute directory := by
    cases directory with
    | nil => exact absurd rfl (hdirectory.ne_nil hlast)
    | cons => rfl
  rw [habsolute, ← find_eq_walk (checkPath_of_append hcheck) (hdirectory.ne_nil hlast)] at hparent
  obtain ⟨mode', hmode⟩ := hd.rooted parent name _ (Tree.node?_of_walk h)
  have hn := (hd.stands hparent).1
  rw [hmode] at hn
  obtain rfl := Option.some.inj hn
  rw [directoryAt, hparent]
  rfl

theorem Sound.exists_name_of_find (hd : d.Sound) {pursuit : Pursuit}
    (h : d.find pursuit path = .ok (.node a (.file mode contents))) :
    ∃ parent name, a = parent ++ [name] ∧ Path.IsName name := by
  obtain ⟨hcheck, hne⟩ := checkPath_of_find h
  rw [find_eq_walk hcheck hne] at h
  refine Tree.exists_name_of_walk hd.rooted ?_ (fun n hn => Path.slash_notMem_of_mem_components hn) h
  split
  · exact d.tree.isDirectory_root
  · exact hd.home

theorem endsIn_pathTo {parent : Address} {name : Text} (h : parent ++ [name] ≠ d.home) :
    Path.EndsIn (d.pathTo (parent ++ [name])) name := by
  rw [pathTo, if_neg h]
  split
  · next hprefix =>
    obtain ⟨rest, hrest⟩ := List.isPrefixOf_iff_prefix.mp hprefix
    rcases List.eq_nil_or_concat rest with rfl | ⟨names, last, rfl⟩
    · rw [List.append_nil] at hrest
      exact absurd hrest.symm h
    · rw [List.concat_eq_append, ← List.append_assoc] at hrest
      obtain ⟨rfl, hlast⟩ := List.append_inj' hrest rfl
      obtain rfl := List.singleton_inj.mp hlast
      rw [List.append_assoc, List.drop_left]
      exact Path.endsIn_ofNames names last
  · exact Path.endsIn_ofAddress parent name

/-- Where the path leads to a node behind a link at its end, the link can be resolved. -/
def Resolvable (d : Disk) (path : Text) : Prop :=
  ∀ a text b n, d.find .toLink path = .ok (.node a (.link text)) → d.find .throughLinks path = .ok (.node b n) →
    d.find .resolving path = .ok (.node b n)

/-- All links can be resolved in a tree whose nodes have paths that are not too long. -/
theorem resolvable_of_size_le (h : ∀ x ∈ d.tree.nodes, (Path.ofAddress x.1).size ≤ Tree.maxPath) (path : Text) :
    d.Resolvable path := by
  have hsize : ∀ b n, d.tree.node? b = some n → (Path.ofAddress b).size ≤ Tree.maxPath := by
    intro b n hnode
    cases b with
    | nil => decide
    | cons => exact h _ (Tree.mem_of_lookup hnode)
  intro a text b n hlink hfind
  obtain ⟨hcheck, hne⟩ := checkPath_of_find hfind
  rw [find_eq_walk hcheck hne] at hfind ⊢
  exact Tree.walk_follow (by decide) (by decide) (fun _ => ⟨hsize, by simp⟩) hfind

/-- A temporary file can be made in the directory for the contents of a path, if that is there. -/
def HasRoom (d : Disk) (path : Text) : Prop :=
  ∀ s parent, d.site path = .ok s → s.address = .ok parent →
    ∃ temporary, d.temporaryIn s.directory (.ok parent) = .ok temporary

theorem site_of_not_link (h : ∀ b text, d.find .toLink path ≠ .ok (.node b (.link text))) :
    d.site path = .ok { path := path, directory := Path.parent path, address := d.directoryAt (Path.parent path),
                        place := d.find .throughLinks path } := by
  unfold site
  split
  · next b text hlink => exact absurd hlink (h b text)
  · rfl

theorem site_of_link {b : Address} {text : Text} {n : Node} (h : d.find .toLink path = .ok (.node b (.link text)))
    (hresolving : d.find .resolving path = .ok (.node a n)) :
    d.site path = .ok { path := d.pathTo a, directory := d.pathTo a.dropLast, address := .ok a.dropLast,
                        place := .ok (.node a n) } := by
  rw [site, h]
  dsimp only
  rw [hresolving]

/-- What is known of the site for a file that can be read: its directory is there, and its path is one that a file can
    have. -/
theorem Sound.exists_site (hd : d.Sound) (hrouted : Path.Routed path) (hresolvable : d.Resolvable path)
    (hfind : d.find .throughLinks path = .ok (.node a (.file mode contents))) :
    ∃ s parent name, d.site path = .ok s ∧ s.place = .ok (.node a (.file mode contents)) ∧ s.address = .ok parent ∧
      Path.EndsIn s.path name ∧ Path.IsName name := by
  rcases find_toLink hfind with hfile | ⟨b, text, hlink⟩
  · obtain ⟨directory, last, name, rfl, hdirectory, hlast, hname⟩ := hrouted
    obtain ⟨parent, hparent, -⟩ := hd.directoryAt_of_join hdirectory hlast hname hfile
    rw [← Path.parent_join hdirectory hlast hname] at hparent
    exact ⟨_, parent, name, site_of_not_link (by simp [hfile]), hfind, hparent, Path.endsIn_join hname.slash, hname⟩
  · have hresolving := hresolvable _ _ _ _ hlink hfind
    obtain ⟨parent, name, rfl, hname⟩ := hd.exists_name_of_find hfind
    have hhome : parent ++ [name] ≠ d.home := by
      intro hhome
      obtain ⟨mode', hmode⟩ := hd.home
      rw [← hhome, (hd.stands hfind).1] at hmode
      cases hmode
    exact ⟨_, _, name, site_of_link hlink hresolving, rfl, rfl, endsIn_pathTo hhome, hname⟩

/-- A file that can be read through a path of a route can be replaced, if no failure is to come, a temporary file can
    be made, and a link at the end of the path can be resolved. -/
theorem replace_ok (hd : d.Sound) (hcalm : d.failNext = false) (hrouted : Path.Routed path)
    (hresolvable : d.Resolvable path) (hroom : d.HasRoom path)
    (hfind : d.find .throughLinks path = .ok (.node a (.file mode contents))) (new : Bytes) :
    (d.replace path new).1 = .ok () := by
  obtain ⟨s, parent, name, hsite, hplace, haddress, hends, hname⟩ := hd.exists_site hrouted hresolvable hfind
  obtain ⟨temporary, htemporary⟩ := hroom s parent hsite haddress
  have hnode := node?_of_find hfind
  have ha : a ≠ [] := by
    rintro rfl
    cases hnode
  rw [replace_eq, hsite]
  dsimp only
  rw [install, haddress, htemporary, hplace]
  dsimp only
  rw [hcalm, if_neg (by simp), modeFor, destination_of_endsIn hends hname ha]

end Sound

/-! ### Where a file got other contents -/

theorem temporaryIn_ok_iff {d : Disk} {directory : Text} {a : Address} :
    (∃ temporary, d.temporaryIn directory (.ok a) = .ok temporary) ↔
      checkPath (Temporary.path d.home directory 0) = .ok () := by
  obtain ⟨temporary, hfresh⟩ := Temporary.exists_fresh d.tree a
  rw [temporaryIn]
  rcases checkPath (Temporary.path d.home directory 0) with e | _
  · simp [bind, Except.bind]
  · simp [bind, Except.bind, hfresh]

namespace Rewritten
variable {d d' : Disk} {target : Address} {mode : Nat} {new : Bytes}

theorem sound (h : d.Rewritten d' target mode new) (hd : d.Sound) : d'.Sound := by
  obtain ⟨mode', old, hfile⟩ := h.file
  refine hd.changed h.home h.changed ?_ (hd.rooted.dropLast hfile)
  rintro ⟨other, hdirectory⟩
  rw [hfile] at hdirectory
  cases hdirectory

theorem find_link_iff (h : d.Rewritten d' target mode new) {path text : Text} {a : Address} :
    d'.find .toLink path = .ok (.node a (.link text)) ↔ d.find .toLink path = .ok (.node a (.link text)) := by
  rw [h.find]
  constructor
  · intro hlink
    rcases hfind : d.find .toLink path with e | ⟨b, n⟩ | b
    · rw [hfind] at hlink
      cases hlink
    · rw [hfind, Except.map, Place.changed] at hlink
      split at hlink
      · cases (Place.node.inj (Except.ok.inj hlink)).2
      · exact hlink
    · rw [hfind] at hlink
      cases hlink
  · intro hlink
    have hne : a ≠ target := by
      rintro rfl
      obtain ⟨mode', old, hfile⟩ := h.file
      have hnode := getD_node?_of_find hlink
      rw [hfile] at hnode
      cases hnode
    rw [hlink, Except.map, Place.changed, if_neg hne]

theorem directoryAt (h : d.Rewritten d' target mode new) (path : Text) : d'.directoryAt path = d.directoryAt path := by
  rw [Disk.directoryAt, Disk.directoryAt, h.find]
  rcases hfind : d.find .throughLinks path with e | ⟨a, n⟩ | a
  · rfl
  · by_cases ha : a = target
    · obtain ⟨mode', old, hfile⟩ := h.file
      have hn := getD_node?_of_find hfind
      rw [ha, hfile, Option.getD_some] at hn
      simp only [Except.map, Place.changed, if_pos ha, ← hn]
      rfl
    · simp only [Except.map, Place.changed, if_neg ha]
  · rfl

theorem pathTo (h : d.Rewritten d' target mode new) (a : Address) : d'.pathTo a = d.pathTo a := by
  rw [Disk.pathTo, Disk.pathTo, h.home]

theorem resolvable (h : d.Rewritten d' target mode new) {path : Text} (hpath : d.Resolvable path) :
    d'.Resolvable path := by
  intro a text b n' hlink hfind'
  rw [h.find] at hfind' ⊢
  rcases hfind : d.find .throughLinks path with e | ⟨c, n⟩ | c
  · rw [hfind] at hfind'
    cases hfind'
  · rw [hpath a text c n (h.find_link_iff.mp hlink) hfind, ← hfind]
    exact hfind'
  · rw [hfind] at hfind'
    cases hfind'

/-- The site is where it was, but for what stands at its place. -/
theorem exists_site (h : d.Rewritten d' target mode new) {path : Text} {s' : Site} (hsite : d'.site path = .ok s') :
    ∃ s, d.site path = .ok s ∧ s.directory = s'.directory ∧ s.address = s'.address := by
  by_cases hlink : ∃ b text, d.find .toLink path = .ok (.node b (.link text))
  · obtain ⟨b, text, hlink⟩ := hlink
    rcases hresolving : d.find .resolving path with e | ⟨a, n⟩ | a
    · rw [site, h.find_link_iff.mpr hlink, h.find, hresolving] at hsite
      cases hsite
    · rw [site, h.find_link_iff.mpr hlink, h.find, hresolving] at hsite
      obtain rfl := Except.ok.inj hsite
      exact ⟨_, site_of_link hlink hresolving, (h.pathTo _).symm, rfl⟩
    · rw [site, h.find_link_iff.mpr hlink, h.find, hresolving] at hsite
      cases hsite
  · simp only [not_exists] at hlink
    rw [site_of_not_link fun b text hb => hlink b text (h.find_link_iff.mp hb)] at hsite
    obtain rfl := Except.ok.inj hsite
    exact ⟨_, site_of_not_link hlink, rfl, (h.directoryAt _).symm⟩

theorem hasRoom (h : d.Rewritten d' target mode new) {path : Text} (hpath : d.HasRoom path) : d'.HasRoom path := by
  intro s' parent hsite hparent
  obtain ⟨s, hs, hdirectory, haddress⟩ := h.exists_site hsite
  have hroom := temporaryIn_ok_iff.mp (hpath s parent hs (haddress.trans hparent))
  rw [temporaryIn_ok_iff, h.home, ← hdirectory]
  exact hroom

end Rewritten
end Disk
end StringResources
