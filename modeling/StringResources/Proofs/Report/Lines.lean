import StringResources.Proofs.Report.Listing

/-! The lines of a report: what became of the locale file, the keys added and, under a heading, the keys left out
    (`Shows`). They are what is printed of the report, and if its path and its names have no line breaks, nothing else
    prints the same. Main statements: `lines_eq_iff` and `lines_injective`. -/

namespace StringResources
namespace FileReport

/-- The words for a number of entries. -/
inductive Counts : Nat → Text → Prop
  | one : Counts 1 "1 entry".toList
  | other {n : Nat} : n ≠ 1 → Counts n ((toString n).toList ++ " entries".toList)

/-- What is said of the locale file after its path. -/
inductive Says (r : FileReport) : Text → Prop
  | upToDate : r.added = [] → Says r ": up to date".toList
  | added {count : Text} : r.added ≠ [] → r.written = true → Counts r.added.length count →
      Says r (": added ".toList ++ count)
  | wouldAdd {count : Text} : r.added ≠ [] → r.written = false → Counts r.added.length count →
      Says r (": would add ".toList ++ count)

def keyLines (lead : Text) (keys : List Key) : List Text := keys.map fun k => lead ++ k.display

/-- The keys left out, if there are any, below a heading. -/
def skippedLines (keys : List Key) : List Text :=
  if keys = [] then [] else "  skipped (translatable=\x22false\x22):".toList :: keyLines "    ".toList keys

/-- The lines of a report. -/
def Shows (r : FileReport) (ls : List Text) : Prop :=
  ∃ said, Says r said ∧ ls = (r.locale ++ said) :: (keyLines "  + ".toList r.added ++ skippedLines r.skipped)

/-- Lines as they are printed, each with its line break. -/
def printed (ls : List Text) : Text := ls.flatMap (· ++ ['\n'])

variable {r s : FileReport}

/-! ### What is printed -/

theorem toList_toString (n : Nat) : (toString n).toList = Text.ofNat n := by simp [Text.ofNat]

theorem counts_count (n : Nat) : Counts n (Report.count n) := by
  rw [Report.count]
  split
  · next h => exact h ▸ .one
  · next h => exact toList_toString n ▸ .other h

theorem Counts.unique {n : Nat} {t u : Text} (ht : Counts n t) (hu : Counts n u) : t = u := by
  cases ht with
  | one =>
    cases hu with
    | one => rfl
    | other h => exact absurd rfl h
  | other h =>
    cases hu with
    | one => exact absurd rfl h
    | other => rfl

theorem exists_says (r : FileReport) : ∃ said, Says r said ∧ r.summary = r.locale ++ said := by
  unfold summary
  split
  · next hnone => exact ⟨_, .upToDate (List.isEmpty_iff.mp hnone), rfl⟩
  · next hsome =>
    have hadded : r.added ≠ [] := fun h => hsome (List.isEmpty_iff.mpr h)
    split
    · next hwritten => exact ⟨_, .added hadded hwritten (counts_count _), List.append_assoc ..⟩
    · next hwritten => exact ⟨_, .wouldAdd hadded (by simpa using hwritten) (counts_count _), List.append_assoc ..⟩

theorem Says.unique {t u : Text} (ht : Says r t) (hu : Says r u) : t = u := by
  cases ht with
  | upToDate hnone =>
    cases hu with
    | upToDate => rfl
    | added hsome | wouldAdd hsome => exact absurd hnone hsome
  | added hsome hwritten ht =>
    cases hu with
    | upToDate hnone => exact absurd hnone hsome
    | added _ _ hu => rw [ht.unique hu]
    | wouldAdd _ hdry => cases hwritten.symm.trans hdry
  | wouldAdd hsome hdry ht =>
    cases hu with
    | upToDate hnone => exact absurd hnone hsome
    | added _ hwritten => cases hwritten.symm.trans hdry
    | wouldAdd _ _ hu => rw [ht.unique hu]

theorem printed_append (ls ms : List Text) : printed (ls ++ ms) = printed ls ++ printed ms := List.flatMap_append

theorem printed_cons (l : Text) (ls : List Text) : printed (l :: ls) = l ++ '\n' :: printed ls := by
  simp [printed]

theorem printed_keyLines (lead : Text) {keys : List Key} (h : keys ≠ []) :
    printed (keyLines lead keys) = Report.keyList lead keys ++ ['\n'] := by
  induction keys with
  | nil => exact absurd rfl h
  | cons k keys ih =>
    cases keys with
    | nil => simp [printed, keyLines, Report.keyList]
    | cons l keys =>
      have hcons : keyLines lead (k :: l :: keys) = (lead ++ k.display) :: keyLines lead (l :: keys) := rfl
      rw [hcons, printed_cons, ih (List.cons_ne_nil l keys), Report.keyList_cons_cons]
      simp

/-- A report prints its lines. -/
theorem lines_eq_iff {t : Text} : r.lines = t ↔ ∃ ls, Shows r ls ∧ t = printed ls := by
  obtain ⟨said, hsaid, hsummary⟩ := exists_says r
  have hadded : (if r.added = [] then [] else Report.keyList "  + ".toList r.added ++ ['\n']) =
      printed (keyLines "  + ".toList r.added) := by
    split
    · next hnil => rw [hnil]; rfl
    · next hne => exact (printed_keyLines _ hne).symm
  have hlines : r.lines =
      printed ((r.locale ++ said) :: (keyLines "  + ".toList r.added ++ skippedLines r.skipped)) := by
    rw [lines, hadded, hsummary, printed_cons, printed_append, skippedLines]
    split
    · simp [printed]
    · next hne =>
      rw [printed_cons, printed_keyLines _ hne]
      simp
  constructor
  · rintro rfl
    exact ⟨_, ⟨said, hsaid, rfl⟩, hlines⟩
  · rintro ⟨_, ⟨said', hsaid', rfl⟩, rfl⟩
    rw [hlines, hsaid.unique hsaid']

/-! ### Reports that print the same -/

/-- Nothing that a report shows has a line break. -/
structure Plain (r : FileReport) : Prop where
  locale : '\n' ∉ r.locale
  added : ∀ k ∈ r.added, '\n' ∉ k.name
  skipped : ∀ k ∈ r.skipped, '\n' ∉ k.name

theorem lineFeed_notMem_keyLines {lead : Text} (hlead : '\n' ∉ lead) {keys : List Key} (h : ∀ k ∈ keys, '\n' ∉ k.name) :
    ∀ l ∈ keyLines lead keys, '\n' ∉ l := by
  rw [keyLines, List.forall_mem_map]
  intro k hk
  rw [Key.lead_append_display, List.mem_append, not_or]
  exact ⟨Key.lineFeed_notMem_lineStart hlead k.kind, h k hk⟩

theorem Counts.lineFeed_notMem {n : Nat} {t : Text} (h : Counts n t) : '\n' ∉ t := by
  cases h with
  | one => decide
  | other =>
    rw [toList_toString, List.mem_append, not_or]
    exact ⟨fun hdigit => absurd (Nat.isDigit_of_mem_toDigits (by decide) (by decide) hdigit) (by decide), by decide⟩

theorem Says.lineFeed_notMem {t : Text} (h : Says r t) : '\n' ∉ t := by
  cases h with
  | upToDate => decide
  | added _ _ hcount | wouldAdd _ _ hcount => simp [hcount.lineFeed_notMem]

theorem Shows.lineFeed_notMem {ls : List Text} (h : Shows r ls) (hplain : r.Plain) : ∀ l ∈ ls, '\n' ∉ l := by
  obtain ⟨said, hsaid, rfl⟩ := h
  rw [List.forall_mem_cons, List.forall_mem_append]
  refine ⟨by simp [hplain.locale, hsaid.lineFeed_notMem], lineFeed_notMem_keyLines (by decide) hplain.added, ?_⟩
  rw [skippedLines]
  split
  · exact List.forall_mem_nil _
  · exact List.forall_mem_cons.mpr ⟨by decide, lineFeed_notMem_keyLines (by decide) hplain.skipped⟩

/-- Lines without line breaks can be told from the text that they print. -/
theorem splitOn_printed {ls : List Text} (h : ∀ l ∈ ls, '\n' ∉ l) : Text.splitOn '\n' (printed ls) = ls ++ [[]] := by
  induction ls with
  | nil => rfl
  | cons l ls ih =>
    rw [List.forall_mem_cons] at h
    rw [printed_cons, Text.splitOn_append, Text.splitOn_of_notMem h.1, ih h.2]
    rfl

theorem skippedLines_injective : Function.Injective skippedLines := by
  intro ks ls h
  unfold skippedLines at h
  split at h <;> split at h
  · next hks hls => rw [hks, hls]
  · cases h
  · cases h
  · exact List.map_injective_iff.mpr
      (fun _ _ hline => Key.display_injective (List.append_cancel_left hline)) (List.cons.inj h).2

/-- The keys added end where the heading of the others comes, or the lines do. -/
theorem keyLines_append_injective {ks ls ks' ls' : List Key}
    (h : keyLines "  + ".toList ks ++ skippedLines ks' = keyLines "  + ".toList ls ++ skippedLines ls') :
    ks = ls ∧ ks' = ls' := by
  have hheading : ∀ (keys : List Key) (k : Key) (rest : List Text),
      skippedLines keys ≠ ("  + ".toList ++ k.display) :: rest := by
    intro keys k rest heq
    rw [skippedLines] at heq
    split at heq
    · cases heq
    · cases (List.cons.inj heq).1
  induction ks generalizing ls with
  | nil =>
    cases ls with
    | nil => exact ⟨rfl, skippedLines_injective h⟩
    | cons l ls => exact absurd h (hheading _ _ _)
  | cons k ks ih =>
    cases ls with
    | nil => exact absurd h.symm (hheading _ _ _)
    | cons l ls =>
      obtain ⟨hline, hrest⟩ := List.cons.inj h
      obtain ⟨rfl, rfl⟩ := ih hrest
      rw [Key.display_injective (List.append_cancel_left hline)]
      exact ⟨rfl, rfl⟩

/-- The first line tells the path, and whether what is added was written. -/
theorem Says.injective {t u : Text} (ht : Says r t) (hu : Says s u) (hadded : r.added = s.added)
    (h : r.locale ++ t = s.locale ++ u) : r.locale = s.locale ∧ (r.added ≠ [] → r.written = s.written) := by
  have hwords : ∀ {v w count : Text}, v ++ (": added ".toList ++ count) ≠ w ++ (": would add ".toList ++ count) := by
    intro v w count heq
    rw [← List.append_assoc, ← List.append_assoc] at heq
    have hlast := congrArg List.reverse (List.append_cancel_right heq)
    simp at hlast
  cases ht with
  | upToDate hnone =>
    cases hu with
    | upToDate => exact ⟨List.append_cancel_right h, fun hsome => absurd hnone hsome⟩
    | added hsome | wouldAdd hsome => exact absurd (hadded ▸ hnone) hsome
  | added hsome hwritten ht =>
    rw [hadded] at ht
    cases hu with
    | upToDate hnone => exact absurd (hadded.trans hnone) hsome
    | added _ hwritten' hu =>
      rw [ht.unique hu] at h
      exact ⟨List.append_cancel_right h, fun _ => hwritten.trans hwritten'.symm⟩
    | wouldAdd _ _ hu => exact absurd (ht.unique hu ▸ h) hwords
  | wouldAdd hsome hdry ht =>
    rw [hadded] at ht
    cases hu with
    | upToDate hnone => exact absurd (hadded.trans hnone) hsome
    | added _ _ hu => exact absurd (ht.unique hu ▸ h).symm hwords
    | wouldAdd _ hdry' hu =>
      rw [ht.unique hu] at h
      exact ⟨List.append_cancel_right h, fun _ => hdry.trans hdry'.symm⟩

/-- Reports that print the same show the same. -/
theorem lines_injective (hr : r.Plain) (hs : s.Plain) (h : r.lines = s.lines) :
    r.locale = s.locale ∧ r.added = s.added ∧ r.skipped = s.skipped ∧ (r.added ≠ [] → r.written = s.written) := by
  obtain ⟨ls, hshows, hls⟩ := lines_eq_iff.mp (Eq.refl r.lines)
  obtain ⟨ms, hshows', hms⟩ := lines_eq_iff.mp (Eq.refl s.lines)
  have hsame : ls = ms := by
    have hlines := splitOn_printed (hshows.lineFeed_notMem hr)
    rw [← hls, h, hms, splitOn_printed (hshows'.lineFeed_notMem hs)] at hlines
    exact (List.append_cancel_right hlines).symm
  subst hsame
  obtain ⟨t, ht, rfl⟩ := hshows
  obtain ⟨u, hu, heq⟩ := hshows'
  obtain ⟨hfirst, hrest⟩ := List.cons.inj heq
  obtain ⟨hadded, hskipped⟩ := keyLines_append_injective hrest
  obtain ⟨hlocale, hwritten⟩ := ht.injective hu hadded hfirst
  exact ⟨hlocale, hadded, hskipped, hwritten⟩

end FileReport
end StringResources
