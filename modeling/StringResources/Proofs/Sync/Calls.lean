import StringResources.Sync.Run

/-! Calls on a disk: merges, runs over all files of a configuration, and asking for failures, between the
    calls and between the files of one run. -/

namespace StringResources

inductive Call where
  /-- A merge of one file into another. -/
  | merge (base locale : Text) (options : MergeOptions)
  /-- A run over all files of a configuration; before some of them a failure is asked for. -/
  | sync (config : Config) (failing : Nat → Bool)
  /-- The next writing of a temporary file is to fail, or is not to fail. -/
  | failNext (fail : Bool)

namespace Disk

/-- Merging pairs of files; before some of them a failure is asked for. -/
def mergePairsFailing (options : MergeOptions) (d : Disk) : List (FilePair × Bool) → SyncOutcome
  | [] => { finished := [], failure := none, disk := d }
  | (pair, fail) :: pairs =>
    match { d with failNext := d.failNext || fail }.mergeFile pair.base pair.locale options with
    | (.error e, d) => { finished := [], failure := some e, disk := d }
    | (.ok report, d) =>
      let rest := mergePairsFailing options d pairs
      { rest with finished := report :: rest.finished }

/-- Merging all files of a configuration; before some of them a failure is asked for. -/
def syncFailing (d : Disk) (c : Config) (failing : Nat → Bool) : SyncOutcome :=
  if d.isDirectory c.routes.root then
    mergePairsFailing c.options d (c.pairs.zipIdx.map fun (pair, i) => (pair, failing i))
  else { finished := [], failure := some (.config (.rootNotDirectory c.routes.root)), disk := d }

theorem mergePairsFailing_eq (options : MergeOptions) (d : Disk) (pairs : List FilePair) :
    mergePairsFailing options d (pairs.map fun pair => (pair, false)) = mergePairs options d pairs := by
  induction pairs generalizing d with
  | nil => rfl
  | cons pair pairs ih =>
    have hsame : { d with failNext := d.failNext || false } = d := by rw [Bool.or_false]
    rw [List.map_cons, mergePairsFailing, mergePairs_cons, hsame]
    rcases d.mergeFile pair.base pair.locale options with ⟨_ | report, d'⟩
    · rfl
    · simp only [ih]

theorem syncFailing_eq (d : Disk) (c : Config) : d.syncFailing c (fun _ => false) = d.sync c := by
  have hpairs : (c.pairs.zipIdx.map fun (pair, _) => (pair, false)) = c.pairs.map fun pair => (pair, false) := by
    rw [← List.zipIdx_map_fst 0 c.pairs, List.map_map]
    simp [Function.comp_def]
  rw [syncFailing, sync_eq, hpairs, mergePairsFailing_eq]

/-- The disk after a call, whether the call fails or not. -/
def perform (d : Disk) : Call → Disk
  | .merge base locale options => (d.mergeFile base locale options).2
  | .sync config failing => (d.syncFailing config failing).disk
  | .failNext fail => { d with failNext := fail }

end Disk
end StringResources
