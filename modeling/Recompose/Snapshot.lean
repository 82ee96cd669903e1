import Recompose.Ascending
import Recompose.Scope

/-!
All scope trees known at one time, in order; a method may have several. A scope is referred to by
the place of its tree and its number in it.
-/

namespace Recompose

/-- Where a scope stands in a snapshot. -/
structure ScopeRef where
  tree : Nat
  scope : Nat
deriving DecidableEq, Repr

structure Snapshot where
  trees : List ScopeTree := []
deriving DecidableEq, Repr, Inhabited

namespace Snapshot

def size (s : Snapshot) : Nat := s.trees.length

def isEmpty (s : Snapshot) : Bool := s.trees.isEmpty

/-! ## Methods -/

def treesOf (s : Snapshot) (method : MethodId) : List ScopeTree :=
  s.trees.filter (·.method == method)

def hasMethod (s : Snapshot) (method : MethodId) : Bool :=
  s.trees.any (·.method == method)

/-- The trees of methods without one in `incoming`, followed by the incoming ones. -/
def merge (s incoming : Snapshot) : Snapshot :=
  ⟨(s.trees.filter fun t => !incoming.hasMethod t.method) ++ incoming.trees⟩

/-! ## Scopes -/

def tree? (s : Snapshot) (ref : ScopeRef) : Option ScopeTree :=
  s.trees[ref.tree]?

def scope? (s : Snapshot) (ref : ScopeRef) : Option PlacedScope :=
  (s.tree? ref).bind (·.scope? ref.scope)

/-- All scopes with their references, by tree and number. -/
def placed (s : Snapshot) : List (ScopeRef × PlacedScope) :=
  s.trees.zipIdx.flatMap fun (t, i) => t.placed.zipIdx.map fun (scope, n) => (⟨i, n⟩, scope)

/-! ## Groups -/

/-- The scopes of a group. -/
def tagged (s : Snapshot) (key : GroupKey) : List (ScopeRef × PlacedScope) :=
  s.placed.filter (·.2.group == some key)

def group (s : Snapshot) (key : GroupKey) : List ScopeRef :=
  (s.tagged key).map (·.1)

def hasGroup (s : Snapshot) (key : GroupKey) : Bool :=
  s.placed.any (·.2.group == some key)

/-- The keys of all groups, ascending. -/
def groupKeys (s : Snapshot) : List GroupKey :=
  Ascending.ofList (s.placed.filterMap (·.2.group))

end Snapshot

end Recompose
