import Mathlib
import StringResources.Proofs.Disk.Replacement
import StringResources.Proofs.Disk.Rooted

/-! Replacing the contents a path leads to, whatever the path leads to. Either nothing changes but the
    request for a failure, or the contents are new, one node is changed or added, and all links are as they
    were. Main statement: `replace_atomic`. -/

namespace StringResources.Disk

/-! ### Where contents go -/

/-- Where the contents for a path are installed: what messages call the file and its directory, the address of
    the directory, and the place. -/
structure Site where
  path : Text
  directory : Text
  address : Except FileError Address
  place : Except FileError Place

/-- The site for a path, behind its link if it leads to one. -/
def site (d : Disk) (path : Text) : Except IoError Site :=
  match d.find .toLink path with
  | .ok (.node _ (.link _)) =>
    match d.find .resolving path with
    | .ok (.node address node) =>
      .ok { path := d.pathTo address, directory := d.pathTo address.dropLast, address := .ok address.dropLast,
            place := .ok (.node address node) }
    | .ok (.vacant _) => .error { path := path, kind := .notFound }
    | .error e => .error { path := path, kind := e }
  | _ =>
    .ok { path := path, directory := Path.parent path, address := d.directoryAt (Path.parent path),
          place := d.find .throughLinks path }

theorem replace_eq (d : Disk) (path : Text) (contents : Bytes) :
    d.replace path contents =
      match d.site path with
      | .error e => (.error e, d)
      | .ok s => d.install s.path s.directory s.address s.place contents := by
  unfold replace site
  rcases d.find .toLink path with e | ⟨a, n⟩ | a
  · rfl
  · cases n with
    | link text => rcases d.find .resolving path with e | ⟨a, n⟩ | a <;> rfl
    | file mode old => rfl
    | directory mode => rfl
  · rfl

/-- The address of the temporary file that a replacement makes. None if it makes none. -/
def temporaryFor? (d : Disk) (path : Text) : Option Address :=
  match d.site path with
  | .error _ => none
  | .ok s => (d.temporaryIn s.directory s.address).toOption

section Sound
variable {d : Disk} {path : Text} {s : Site}

/-- A site is where the path leads, or its link cannot be resolved to a place. -/
theorem place_of_site (h : d.site path = .ok s) : s.place = d.find .throughLinks path := by
  unfold site at h
  split at h
  · split at h
    · next address node hresolving =>
      obtain rfl := Except.ok.inj h
      exact (find_throughLinks_of_resolving hresolving).symm
    · cases h
    · cases h
  · obtain rfl := Except.ok.inj h
    rfl

/-- Behind a link there is a node. -/
theorem exists_node_of_site (h : d.site path = .ok s) {a : Address} {text : Text}
    (hlink : d.find .toLink path = .ok (.node a (.link text))) : ∃ target n, s.place = .ok (.node target n) := by
  rw [site, hlink] at h
  dsimp only at h
  split at h
  · next address node hresolving =>
    obtain rfl := Except.ok.inj h
    exact ⟨address, node, rfl⟩
  · cases h
  · cases h

theorem Sound.place_ne_vacant_nil (hd : d.Sound) (h : d.site path = .ok s) : s.place ≠ .ok (.vacant []) := by
  intro hplace
  rw [place_of_site h] at hplace
  cases (hd.stands hplace).1

/-- A place past all links that contents can go to is a file or free. -/
theorem Sound.file_or_vacant (hd : d.Sound) (h : d.site path = .ok s) {target : Address}
    (htarget : destination s.path s.place = .ok target) :
    (∃ mode old, d.find .throughLinks path = .ok (.node target (.file mode old))) ∨
      d.find .throughLinks path = .ok (.vacant target) := by
  rcases destination_eq_ok htarget with ⟨n, hplace, -, hdirectory⟩ | hplace
  · rw [place_of_site h] at hplace
    obtain ⟨-, hlink⟩ := hd.stands hplace
    cases n with
    | file mode old => exact Or.inl ⟨mode, old, hplace⟩
    | directory mode => exact absurd rfl (hdirectory mode)
    | link link => exact absurd rfl (hlink (by simp) link)
  · rw [place_of_site h] at hplace
    exact Or.inr hplace

end Sound

/-! ### What a replacement does -/

/-- The contents are at the target. It keeps its mode, or it is new and has the mode of a temporary file; all else is
    as it was, a link that the path leads to included. -/
structure Replaced (d d' : Disk) (path : Text) (contents : Bytes) (target : Address) (mode : Nat) : Prop where
  before : (∃ old, d.find .throughLinks path = .ok (.node target (.file mode old))) ∨
    d.find .throughLinks path = .ok (.vacant target) ∧ mode = Node.temporaryMode
  after : d'.find .throughLinks path = .ok (.node target (.file mode contents))
  link : ∀ a text, d.find .toLink path = .ok (.node a (.link text)) →
    d'.find .toLink path = .ok (.node a (.link text))
  others : ∀ a, a ≠ target → d'.tree.node? a = d.tree.node? a

theorem Replaced.read {d d' : Disk} {path : Text} {contents : Bytes} {target : Address} {mode : Nat}
    (h : Replaced d d' path contents target mode) : d'.read path = .ok contents := by
  rw [Disk.read, h.after]

theorem replaced_of_changed {d d' : Disk} (hd : d.Sound) {path : Text} {s : Site} (hsite : d.site path = .ok s)
    {target : Address} {mode : Nat} {contents : Bytes} (hmode : modeFor s.place = .ok mode)
    (htarget : destination s.path s.place = .ok target) (hhome : d'.home = d.home)
    (hchanged : d.tree.Changed d'.tree target (.file mode contents)) :
    Replaced d d' path contents target mode ∧ d'.Sound := by
  have hplace := place_of_site hsite
  rcases hd.file_or_vacant hsite htarget with ⟨mode', old, hfind⟩ | hfind
  · -- A file that is there keeps its mode.
    rw [hplace, hfind] at hmode
    obtain rfl := Except.ok.inj hmode
    have hfile := (hd.stands hfind).1
    have hfound := fun pursuit => find_changed hhome ⟨mode', old, hfile⟩ rfl hchanged pursuit path
    refine ⟨⟨Or.inl ⟨old, hfind⟩, ?_, fun a text hlink => ?_, fun a ha => hchanged.of_ne ha⟩,
      hd.changed hhome hchanged ?_ (hd.rooted.dropLast hfile)⟩
    · rw [hfound, hfind, Except.map, Place.changed, if_pos rfl]
    · have hne : a ≠ target := by
        rintro rfl
        have := (hd.stands hlink).1
        rw [hfile] at this
        cases this
      rw [hfound, hlink, Except.map, Place.changed, if_neg hne]
    · rintro ⟨other, hdirectory⟩
      rw [hfile] at hdirectory
      cases hdirectory
  · -- A new file has the mode of the temporary one. No link leads here, for behind a link there is a node.
    rw [hplace, hfind] at hmode
    obtain rfl := Except.ok.inj hmode
    obtain ⟨hfree, hin⟩ := hd.stands hfind
    refine ⟨⟨Or.inr ⟨hfind, rfl⟩, find_added hhome rfl hfree hchanged hfind, fun a text hlink => ?_,
      fun a ha => hchanged.of_ne ha⟩, hd.changed hhome hchanged ?_ hin⟩
    · obtain ⟨address, node, hnode⟩ := exists_node_of_site hsite hlink
      rw [hplace, hfind] at hnode
      cases hnode
    · rintro ⟨other, hdirectory⟩
      rw [hfree] at hdirectory
      cases hdirectory

/-- A replacement fails and leaves the tree as it was, or it succeeds and the path leads to the new contents. A failure
    that was asked for happens if the temporary file is made, and stays asked for if not. -/
theorem replace_atomic {d d' : Disk} (hd : d.Sound) {path : Text} {contents : Bytes} {result : Except IoError Unit}
    (h : d.replace path contents = (result, d')) :
    (∀ e, result = .error e → d'.tree = d.tree) ∧
    (result = .ok () → d'.read path = .ok contents ∧ ∃ target mode, Replaced d d' path contents target mode) ∧
    d'.home = d.home ∧ d'.Sound ∧
    (d'.failNext = true ↔ d.failNext = true ∧ d.temporaryFor? path = none) ∧
    (d.failNext = true → d.temporaryFor? path ≠ none → ∃ e, result = .error e) := by
  rw [replace_eq] at h
  rw [temporaryFor?]
  cases hsite : d.site path with
  | error e =>
    rw [hsite] at h
    obtain ⟨rfl, rfl⟩ := Prod.mk.inj h
    exact ⟨fun _ _ => rfl, by simp, rfl, hd, by simp, by simp⟩
  | ok s =>
    rw [hsite] at h
    have hinstalled := install_installed d s.path s.directory s.address (hd.place_ne_vacant_nil hsite) contents
    dsimp only at h ⊢
    rw [h] at hinstalled
    cases hinstalled with
    | refused e refusal hrefused =>
      rw [hrefused]
      exact ⟨fun _ _ => rfl, by simp, rfl, hd, by simp [Except.toOption], by simp [Except.toOption]⟩
    | injected e temporary hmade hfail =>
      rw [hmade]
      exact ⟨fun _ _ => rfl, by simp, rfl, ⟨hd.rooted, hd.home⟩, by simp [Except.toOption], fun _ _ => ⟨e, rfl⟩⟩
    | failed e temporary hmade hfail =>
      exact ⟨fun _ _ => rfl, by simp, rfl, hd, by simp [hfail], by simp [hfail]⟩
    | @done tree target mode temporary hmade hfail hmode htarget hchanged =>
      obtain ⟨hreplaced, hsound⟩ :=
        @replaced_of_changed d { d with tree := tree } hd path s hsite target mode contents hmode htarget rfl hchanged
      exact ⟨by simp, fun _ => ⟨hreplaced.read, target, mode, hreplaced⟩, rfl, hsound, by simp [hfail], by simp [hfail]⟩

/-- A disk with a link `l` to a file `r`. -/
def linkedFile (contents : Bytes) (failNext : Bool) : Disk where
  tree := { nodes := [([['l']], .link ['r']), ([['r']], .file 0o640 contents)] }
  home := []
  failNext := failNext

theorem sound_linkedFile (contents : Bytes) (failNext : Bool) : (linkedFile contents failNext).Sound where
  rooted := Tree.rooted_of_nodes (List.forall_mem_cons.mpr
    ⟨Tree.isDirectory_root _, List.forall_mem_singleton.mpr (Tree.isDirectory_root _)⟩)
  home := Tree.isDirectory_root _

/-- The file behind a link gets new contents and keeps its mode. A failure that was asked for leaves all as it
    was. -/
theorem replace_atomic_linked :
    (linkedFile [] false).replace ['l'] [0x21] = (.ok (), linkedFile [0x21] false) ∧
    (linkedFile [0x21] false).read ['l'] = .ok [0x21] ∧
    (∃ target mode, Replaced (linkedFile [] false) (linkedFile [0x21] false) ['l'] [0x21] target mode) ∧
    ∃ e d', (linkedFile [] true).replace ['l'] [0x21] = (.error e, d') ∧ d'.tree = (linkedFile [] true).tree ∧
      d'.failNext = false := by
  have hdone : (linkedFile [] false).replace ['l'] [0x21] = (.ok (), linkedFile [0x21] false) := by cbv
  obtain ⟨-, hread, -⟩ := replace_atomic (sound_linkedFile [] false) hdone
  rcases hfails : (linkedFile [] true).replace ['l'] [0x21] with ⟨result, d'⟩
  obtain ⟨hsame, -, -, -, hflag, herror⟩ := replace_atomic (sound_linkedFile [] true) hfails
  have htemporary : (linkedFile [] true).temporaryFor? ['l'] ≠ none := by
    have hmade : (linkedFile [] true).temporaryFor? ['l'] = some [Temporary.name 0] := by cbv
    simp [hmade]
  obtain ⟨e, rfl⟩ := herror rfl htemporary
  refine ⟨hdone, (hread rfl).1, (hread rfl).2, e, d', rfl, hsame e rfl, ?_⟩
  rw [← Bool.not_eq_true, hflag]
  exact fun h => htemporary h.2

end StringResources.Disk
