import StringResources.Proofs.Disk.Walk
import StringResources.Disk.Replace

/-! Replacing a file that a path leads to. It succeeds and changes the contents of that file, or fails and
    changes nothing. Main statements: `install_installed`, all the ways the installing of contents can end,
    and `replace_cases`. -/

namespace StringResources

namespace Tree

theorem ne_nil_of_node? {t : Tree} {a : Address} (h : t.node? a ≠ some (.directory Node.directoryMode)) : a ≠ [] := by
  rintro rfl
  exact h rfl

theorem node?_erase_self (t : Tree) {a : Address} (h : a ≠ []) : (t.erase a).node? a = none := by
  cases a with
  | nil => exact absurd rfl h
  | cons name a =>
    refine List.lookup_eq_none_iff.mpr fun x hx => ?_
    have hne := (List.mem_filter.mp hx).2
    exact bne_iff_ne.mpr (Ne.symm (of_decide_eq_true hne))

theorem erase_put_self (t : Tree) (a : Address) (n : Node) : (t.put a n).erase a = t.erase a := by
  obtain ⟨l⟩ := t
  simp only [put, erase, mk.injEq]
  induction l with
  | nil => simp [putIn]
  | cons x l ih =>
    obtain ⟨b, m⟩ := x
    rw [putIn]
    split
    · next hb => simp [hb]
    · next hb => simp only [List.filter_cons, ih]

theorem erase_of_node?_eq_none {t : Tree} {a : Address} (h : t.node? a = none) : t.erase a = t := by
  have hlookup : t.nodes.lookup a = none := by
    cases a with
    | nil => cases h
    | cons name a => exact h
  rw [erase, List.filter_eq_self.mpr]
  intro x hx
  have := List.lookup_eq_none_iff.mp hlookup x hx
  simpa using Ne.symm (bne_iff_ne.mp this)

/-- Trees with the same nodes at all addresses. -/
def Same (t t' : Tree) : Prop := ∀ a, t'.node? a = t.node? a

/-- Trees with the same nodes but for those at the address of a temporary file. -/
def SameBut (temporary : Address) (t t' : Tree) : Prop := ∀ a, a ≠ temporary → t'.node? a = t.node? a

section Temporary
variable {t t' : Tree} {temporary : Address}

theorem SameBut.refl (t : Tree) (temporary : Address) : SameBut temporary t t := fun _ _ => rfl

theorem SameBut.put (h : SameBut temporary t t') (n : Node) : SameBut temporary t (t'.put temporary n) :=
  fun a ha => (node?_put_of_ne t' n ha).trans (h a ha)

theorem SameBut.erase (h : SameBut temporary t t') (hfresh : t.node? temporary = none) :
    t.Same (t'.erase temporary) := by
  intro a
  by_cases ha : a = temporary
  · have hne : temporary ≠ [] := ne_nil_of_node? (by rw [hfresh]; simp)
    rw [ha, node?_erase_self t' hne, hfresh]
  · rw [node?_erase_of_ne t' ha, h a ha]

/-- Where the temporary file takes the place of a file, only that file changes. -/
theorem SameBut.move (h : SameBut temporary t t') (hfresh : t.node? temporary = none) {n : Node}
    (hn : t'.node? temporary = some n) {target : Address} (hne : target ≠ []) :
    t.Changed (t'.move temporary target) target n := by
  intro a
  rw [Tree.move, hn]
  dsimp only
  by_cases ha : a = target
  · rw [ha, if_pos rfl, node?_put_self _ n hne]
  · rw [if_neg ha, node?_put_of_ne _ n ha]
    exact h.erase hfresh a

end Temporary
end Tree

theorem Temporary.node?_of_fresh? {t : Tree} {directory a : Address} (h : fresh? t directory = some a) :
    t.node? a = none := by
  have := List.find?_some h
  exact beq_iff_eq.mp this

namespace Disk

theorem node?_of_temporaryIn {d : Disk} {directory : Text} {address : Except FileError Address} {temporary : Address}
    (h : d.temporaryIn directory address = .ok temporary) : d.tree.node? temporary = none := by
  unfold temporaryIn at h
  simp only [bind, Except.bind] at h
  split at h
  · cases h
  · split at h
    · cases h
    · split at h
      · next a hfresh =>
        obtain rfl := Except.ok.inj h
        exact Temporary.node?_of_fresh? hfresh
      · cases h

theorem destination_eq_ok {path : Text} {place : Except FileError Place} {target : Address}
    (h : destination path place = .ok target) :
    (∃ n, place = .ok (.node target n) ∧ target ≠ [] ∧ ∀ mode, n ≠ .directory mode) ∨ place = .ok (.vacant target) := by
  unfold destination at h
  split at h
  · split at h <;> cases h
  · split at h
    · cases h
    · split at h
      · cases h
      · cases h
      · cases h
      · next a n hroot hdirectory =>
        obtain rfl := Except.ok.inj h
        exact Or.inl ⟨n, rfl, hroot, hdirectory⟩
      · next a =>
        obtain rfl := Except.ok.inj h
        exact Or.inr rfl

/-- Installing contents by way of a temporary file. It ends before the temporary file is made, by the failure that
    was asked for, by another failure, or with the contents at the target. -/
inductive Installed (d : Disk) (path directory : Text) (address : Except FileError Address)
    (place : Except FileError Place) (contents : Bytes) : Except IoError Unit × Disk → Prop
  | refused (e : IoError) (refusal : FileError) : d.temporaryIn directory address = .error refusal →
      Installed d path directory address place contents (.error e, d)
  | injected (e : IoError) (temporary : Address) : d.temporaryIn directory address = .ok temporary →
      d.failNext = true → Installed d path directory address place contents (.error e, { d with failNext := false })
  | failed (e : IoError) (temporary : Address) : d.temporaryIn directory address = .ok temporary →
      d.failNext = false → Installed d path directory address place contents (.error e, d)
  | done {tree : Tree} {target : Address} {mode : Nat} (temporary : Address) :
      d.temporaryIn directory address = .ok temporary → d.failNext = false → modeFor place = .ok mode →
      destination path place = .ok target → d.tree.Changed tree target (.file mode contents) →
      Installed d path directory address place contents (.ok (), { d with tree := tree })

theorem install_installed (d : Disk) (path directory : Text) (address : Except FileError Address)
    {place : Except FileError Place} (hplace : place ≠ .ok (.vacant [])) (contents : Bytes) :
    d.Installed path directory address place contents (d.install path directory address place contents) := by
  unfold install
  split
  · next e he => exact .refused _ e he
  · next temporary htemporary =>
    have hfresh := node?_of_temporaryIn htemporary
    have htemp : temporary ≠ [] := Tree.ne_nil_of_node? (by rw [hfresh]; simp)
    have hfilled := ((Tree.SameBut.refl d.tree temporary).put (.file Node.temporaryMode [])).put
      (.file Node.temporaryMode contents)
    have hrestored := Tree.erase_of_node?_eq_none hfresh
    simp only [Tree.erase_put_self, hrestored]
    split
    · next hfail => exact .injected _ temporary htemporary hfail
    · next hfail =>
      rw [Bool.not_eq_true] at hfail
      split
      · exact .failed _ temporary htemporary hfail
      · next mode hmode =>
        split
        · exact .failed _ temporary htemporary hfail
        · next target htarget =>
          have hne : target ≠ [] := by
            rcases destination_eq_ok htarget with ⟨n, -, hne, -⟩ | hvacant
            · exact hne
            · rintro rfl
              exact hplace hvacant
          have hready := hfilled.put (.file mode contents)
          exact .done temporary htemporary hfail hmode htarget
            (hready.move hfresh (Tree.node?_put_self _ _ htemp) hne)

/-- A disk on which nothing changed, but that a failure may be no longer asked for. -/
def Untouched (d d' : Disk) : Prop := d' = d ∨ d' = { d with failNext := false }

theorem Untouched.refl (d : Disk) : d.Untouched d := Or.inl rfl

theorem Untouched.tree {d d' : Disk} (h : d.Untouched d') : d'.tree = d.tree := by
  rcases h with rfl | rfl <;> rfl

theorem Untouched.eq {d d' : Disk} (h : d.Untouched d') (hfail : d.failNext = false) : d' = d := by
  rcases h with rfl | rfl
  · rfl
  · rw [← hfail]

/-- Replacing the contents of the file at `target`: it is done or nothing is. -/
inductive Replacing (d : Disk) (target : Address) (mode : Nat) (contents : Bytes) :
    Except IoError Unit × Disk → Prop
  | done {d' : Disk} : d'.home = d.home → d.tree.Changed d'.tree target (.file mode contents) →
      d'.failNext = d.failNext → Replacing d target mode contents (.ok (), d')
  | failed {d' : Disk} (e : IoError) : d.Untouched d' → Replacing d target mode contents (.error e, d')

theorem install_replacing (d : Disk) (target : Address) (mode : Nat) (old : Bytes) (path directory : Text)
    (address : Except FileError Address) (contents : Bytes) :
    d.Replacing target mode contents
      (d.install path directory address (.ok (.node target (.file mode old))) contents) := by
  have h := @install_installed d path directory address (.ok (.node target (.file mode old))) (by simp) contents
  generalize d.install path directory address (.ok (.node target (.file mode old))) contents = x at h
  cases h with
  | refused e _ _ => exact .failed e (Untouched.refl d)
  | injected e _ _ _ => exact .failed e (Or.inr rfl)
  | failed e _ _ _ => exact .failed e (Untouched.refl d)
  | done _ _ _ hmode htarget hchanged =>
    obtain rfl := Except.ok.inj hmode
    rcases destination_eq_ok htarget with ⟨n, hplace, -⟩ | hplace
    · obtain ⟨rfl, -⟩ := Place.node.inj (Except.ok.inj hplace)
      exact .done rfl hchanged rfl
    · cases hplace

/-- Replacing the file a path leads to changes that file, or fails and changes nothing. -/
theorem replace_cases {d : Disk} {path : Text} {target : Address} {mode : Nat} {old : Bytes}
    (hfind : d.find .throughLinks path = .ok (.node target (.file mode old))) (contents : Bytes) :
    d.Replacing target mode contents (d.replace path contents) := by
  unfold replace
  split
  · split
    · next address node hresolving =>
      have hthrough := find_throughLinks_of_resolving hresolving
      rw [hfind] at hthrough
      obtain ⟨rfl, rfl⟩ := Place.node.inj (Except.ok.inj hthrough)
      exact d.install_replacing _ _ _ _ _ _ contents
    · exact .failed _ (Untouched.refl d)
    · exact .failed _ (Untouched.refl d)
  · rw [hfind]
    exact d.install_replacing _ _ _ _ _ _ contents

end Disk
end StringResources
