import StringResources.Resource.Document

/-! What a locale document needs from its base: the entries under keys it lacks, in the order of the
    base. Entries it has are never replaced. -/

namespace StringResources

structure MergeOptions where
  /-- Put a comment before each added entry. -/
  markUntranslated : Bool := true
  /-- Leave out entries that are not to be translated. -/
  skipUntranslatable : Bool := false
  /-- Write no file. -/
  dryRun : Bool := false
  deriving DecidableEq, Repr

/-- The entries to add to a locale document, the number of entries it has, and the keys it lacks but
    does not get. -/
structure MergePlan where
  additions : List Entry
  preserved : Nat
  skipped : List Key
  deriving DecidableEq, Repr

namespace MergePlan

/-- The entries of a base document under keys that a locale document lacks. -/
def missing (base locale : Document) : List Entry := base.entries.filter fun e => !locale.keys.contains e.key

/-- Whether an entry that is missing is left out. -/
def leavesOut (options : MergeOptions) (e : Entry) : Bool := options.skipUntranslatable && !e.translatable

def compute (base locale : Document) (options : MergeOptions) : MergePlan where
  additions := (missing base locale).filter (!leavesOut options ·)
  preserved := locale.entries.length
  skipped := ((missing base locale).filter (leavesOut options)).map (·.key)

def addedKeys (plan : MergePlan) : List Key := plan.additions.map (·.key)

/-- Whether the locale document needs no change. -/
def isEmpty (plan : MergePlan) : Bool := plan.additions.isEmpty

/-- The entries of the locale document after the merge. -/
def merged (plan : MergePlan) (locale : Document) : List Entry := locale.entries ++ plan.additions

end MergePlan
end StringResources
