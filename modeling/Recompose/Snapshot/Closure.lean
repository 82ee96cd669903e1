import Recompose.Snapshot

/-!
What a group can reach: its own scopes and, over and over, every scope of every method that a
reached scope depends on. Methods without a tree add nothing. The fingerprint of a group is the sum
of the spread hashes of what it reaches, so it does not depend on any order.
-/

namespace Recompose

namespace Closure

variable {α : Type} [DecidableEq α]

/-- The elements of `remaining` that can be reached from `pending` by way of `next`, through other
elements of `remaining`. -/
def gather (next : α → List α) (remaining pending : List α) : List α :=
  match _found : pending.dropWhile (· ∉ remaining) with
  | [] => []
  | a :: later => a :: gather next (remaining.erase a) (next a ++ later)
termination_by remaining.length
decreasing_by
  have head := List.head?_dropWhile_not (· ∉ remaining) pending
  simp only [_found, List.head?_cons] at head
  have member : a ∈ remaining := by simpa using head
  have := List.length_erase_of_mem member
  have := List.length_pos_of_mem member
  omega

end Closure

namespace Snapshot

/-- The methods that have a tree, each once. -/
def methods (s : Snapshot) : List MethodId :=
  (s.trees.map (·.method)).eraseDups

/-- What the scopes of a method depend on. -/
def dependenciesOf (s : Snapshot) (method : MethodId) : List MethodId :=
  (s.treesOf method).flatMap fun t => t.scopes.flatMap (·.dependencies)

/-- The methods with a tree that can be reached from some methods, these included. -/
def reachedFrom (s : Snapshot) (methods : List MethodId) : List MethodId :=
  Closure.gather s.dependenciesOf s.methods methods

/-- The methods that the scopes of a group depend on, directly or through other methods. -/
def reached (s : Snapshot) (key : GroupKey) : List MethodId :=
  s.reachedFrom ((s.tagged key).flatMap (·.2.dependencies))

/-- What a group reaches: its own scopes and all scopes of the methods reached. -/
def members (s : Snapshot) (key : GroupKey) : List Scope :=
  let reached := s.reached key
  s.trees.flatMap fun t =>
    if reached.contains t.method then t.scopes else t.scopes.filter (·.group == some key)

def sumOfHashes (scopes : List Scope) : UInt64 :=
  scopes.foldl (fun sum scope => sum + Hash.avalanche scope.hash) 0

/-- The fingerprint of all that a group reaches; none if no scope carries the key. -/
def resolve (s : Snapshot) (key : GroupKey) : Option UInt64 :=
  if s.hasGroup key then some (sumOfHashes (s.members key)) else none

end Snapshot

end Recompose
