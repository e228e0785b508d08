import StringResources.Sync.Merge

/-! Merging all files of a configuration, in order, up to the first that fails. -/

namespace StringResources

structure SyncReport where
  files : List FileReport
  deriving DecidableEq, Repr

def SyncReport.totalAdded (r : SyncReport) : Nat := r.files.foldr (fun f n => f.added.length + n) 0

/-- How far a run came: the reports it gathered of the files it finished, the error that stopped it, and the
    disk it left. -/
structure SyncOutcome where
  finished : List FileReport
  failure : Option SyncError
  disk : Disk
  deriving DecidableEq

/-- The report of a run that was not stopped. -/
def SyncOutcome.result (o : SyncOutcome) : Except SyncError SyncReport :=
  match o.failure with
  | none => .ok { files := o.finished }
  | some e => .error e

namespace Disk

section Observed
variable {State : Type} (onFile : State → FileReport → State)

/-- Merges pairs of files, one after the other, up to the first that fails. An observer is told the report of
    a pair before the next one is merged; its state is returned with the outcome. -/
def mergeEach (options : MergeOptions) (state : State) (d : Disk) : List FilePair → State × SyncOutcome
  | [] => (state, { finished := [], failure := none, disk := d })
  | pair :: pairs =>
    match d.mergeFile pair.base pair.locale options with
    | (.error e, d) => (state, { finished := [], failure := some e, disk := d })
    | (.ok report, d) =>
      let (state, rest) := mergeEach options (onFile state report) d pairs
      (state, { rest with finished := report :: rest.finished })

/-- Merges all files of a configuration whose root is a directory, and tells an observer their reports. -/
def syncEach (state : State) (d : Disk) (c : Config) : State × SyncOutcome :=
  if d.isDirectory c.routes.root then mergeEach onFile c.options state d c.pairs
  else (state, { finished := [], failure := some (.config (.rootNotDirectory c.routes.root)), disk := d })

end Observed

/-- Merges pairs of files without an observer. -/
def mergePairs (options : MergeOptions) (d : Disk) (pairs : List FilePair) : SyncOutcome :=
  (mergeEach (fun _ _ => ()) options () d pairs).2

theorem mergePairs_nil (options : MergeOptions) (d : Disk) :
    mergePairs options d [] = { finished := [], failure := none, disk := d } := rfl

theorem mergePairs_cons (options : MergeOptions) (d : Disk) (pair : FilePair) (pairs : List FilePair) :
    mergePairs options d (pair :: pairs) =
      match d.mergeFile pair.base pair.locale options with
      | (.error e, d) => { finished := [], failure := some e, disk := d }
      | (.ok report, d) =>
        { mergePairs options d pairs with finished := report :: (mergePairs options d pairs).finished } := by
  rw [mergePairs, mergeEach]
  split <;> rfl

/-- Merges all files of a configuration without an observer. -/
def sync (d : Disk) (c : Config) : SyncOutcome := (syncEach (fun _ _ => ()) () d c).2

theorem sync_eq (d : Disk) (c : Config) : d.sync c =
    if d.isDirectory c.routes.root then mergePairs c.options d c.pairs
    else { finished := [], failure := some (.config (.rootNotDirectory c.routes.root)), disk := d } := by
  rw [sync, syncEach]
  split <;> rfl

end Disk
end StringResources
