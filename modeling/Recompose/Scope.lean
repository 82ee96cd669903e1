import Recompose.Event
import Recompose.Hash.Mix

/-!
The scopes of a method: a root that spans the whole method and, nested in it, a forest of the groups
that its marker calls delimit. A scope's number is its place when every scope is listed before the
scopes nested in it, so the root is number zero and the scopes in a scope follow it.
-/

namespace Recompose

structure Scope where
  kind : ScopeKind
  group : Option GroupKey
  /-- The hash of the scope's instructions, those of the scopes nested in it included. -/
  hash : Hash
  /-- The methods that instructions directly in the scope depend on, each once. -/
  dependencies : List MethodId
deriving DecidableEq, Repr

/-- Scopes side by side, each with the scopes nested in it. -/
inductive Forest where
  | nil
  | cons (scope : Scope) (nested rest : Forest)
deriving DecidableEq, Repr

/-- A scope in its place: the enclosing scope with its group, and the scopes directly inside. -/
structure PlacedScope extends Scope where
  parent : Option Nat
  parentGroup : Option GroupKey
  children : List Nat
deriving DecidableEq, Repr

namespace Forest

def size : Forest → Nat
  | nil => 0
  | cons _ nested rest => nested.size + rest.size + 1

/-- The scopes in the order of their numbers. -/
def scopes : Forest → List Scope
  | nil => []
  | cons scope nested rest => scope :: nested.scopes ++ rest.scopes

/-- The numbers of the outermost scopes if the first one has number `first`. -/
def roots (first : Nat) : Forest → List Nat
  | nil => []
  | cons _ nested rest => first :: rest.roots (first + nested.size + 1)

/-- The scopes in their places under the scope of number `parent` and group `parentGroup`. -/
def placed (first parent : Nat) (parentGroup : Option GroupKey) : Forest → List PlacedScope
  | nil => []
  | cons scope nested rest =>
    ⟨scope, some parent, parentGroup, nested.roots (first + 1)⟩ ::
      nested.placed (first + 1) first scope.group ++
      rest.placed (first + nested.size + 1) parent parentGroup

/-- How many scopes the one at a place and those nested in it are; none if there is no such place. -/
def extent : Forest → Nat → Nat
  | nil, _ => 0
  | cons _ nested _, 0 => nested.size + 1
  | cons _ nested rest, n + 1 =>
    if n < nested.size then nested.extent n else rest.extent (n - nested.size)

/-- The forest of scopes given last one first, each with the scopes nested in it. -/
def ofReversed (closed : List (Scope × Forest)) : Forest :=
  closed.foldl (fun rest c => cons c.1 c.2 rest) nil

end Forest

/-- The scopes of one method. -/
structure ScopeTree where
  method : MethodId
  root : Scope
  nested : Forest
deriving DecidableEq, Repr

namespace ScopeTree

/-- The number of scopes, the root included. -/
def size (t : ScopeTree) : Nat := t.nested.size + 1

/-- The scopes in the order of their numbers. -/
def scopes (t : ScopeTree) : List Scope := t.root :: t.nested.scopes

def placed (t : ScopeTree) : List PlacedScope :=
  ⟨t.root, none, none, t.nested.roots 1⟩ :: t.nested.placed 1 0 t.root.group

def scope? (t : ScopeTree) (number : Nat) : Option PlacedScope :=
  t.placed[number]?

/-- A scope and all scopes below it, parents first; empty if there is no such scope. -/
def descendants (t : ScopeTree) (number : Nat) : List Nat :=
  List.range' number ((Forest.cons t.root t.nested .nil).extent number)

end ScopeTree

end Recompose
