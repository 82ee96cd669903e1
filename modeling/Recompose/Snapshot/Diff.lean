import Recompose.Snapshot.Closure

/-!
The groups to invalidate when one snapshot follows another: those that are new or reach something
else than before, and then the groups right around their scopes.
-/

namespace Recompose

inductive Reason where
  /-- What the group reaches has changed, or the group is new. -/
  | direct
  /-- A group directly inside it is invalidated. -/
  | parentWidening
deriving DecidableEq, Repr

namespace Reason

def name : Reason → String
  | direct => "Direct"
  | parentWidening => "ParentWidening"

end Reason

structure Invalidation where
  key : GroupKey
  reason : Reason
deriving DecidableEq, Repr

namespace Invalidation

def text (i : Invalidation) : String :=
  toString i.key ++ " (" ++ i.reason.name ++ ")"

end Invalidation

namespace Snapshot

/-- The groups of the later snapshot with another fingerprint in the earlier one, or none. -/
def changedKeys (before after : Snapshot) : List GroupKey :=
  after.groupKeys.filter fun key => before.resolve key != after.resolve key

/-- The groups of the parents of scopes with the given keys, those keys left out. -/
def parentKeys (s : Snapshot) (keys : List GroupKey) : List GroupKey :=
  let around := (keys.flatMap s.tagged).filterMap (·.2.parentGroup)
  Ascending.ofList (around.filter fun key => !keys.contains key)

/-- Changed groups, ascending, and then the groups around them, ascending. -/
def diff (before after : Snapshot) : List Invalidation :=
  let direct := changedKeys before after
  direct.map (⟨·, .direct⟩) ++ (after.parentKeys direct).map (⟨·, .parentWidening⟩)

end Snapshot

end Recompose
