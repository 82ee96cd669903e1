import Recompose.Scope

/-!
Scopes by their numbers: the list of all scopes, that of all scopes in their places, and the size of
a tree agree with one another.
-/

namespace Recompose

namespace Forest

@[simp] theorem length_scopes (f : Forest) : f.scopes.length = f.size := by
  induction f with
  | nil => rfl
  | cons scope nested rest nestedIh restIh =>
    simp only [scopes, size, List.cons_append, List.length_cons, List.length_append, nestedIh,
      restIh]

/-- Placing scopes changes neither the scopes nor their order. -/
theorem map_toScope_placed (f : Forest) (first parent : Nat) (parentGroup : Option GroupKey) :
    (f.placed first parent parentGroup).map (·.toScope) = f.scopes := by
  induction f generalizing first parent parentGroup with
  | nil => rfl
  | cons scope nested rest nestedIh restIh =>
    simp only [placed, scopes, List.cons_append, List.map_cons, List.map_append, nestedIh, restIh]

@[simp] theorem length_placed (f : Forest) (first parent : Nat) (parentGroup : Option GroupKey) :
    (f.placed first parent parentGroup).length = f.size := by
  rw [← List.length_map (·.toScope), map_toScope_placed, length_scopes]

end Forest

namespace ScopeTree

theorem map_toScope_placed (t : ScopeTree) : t.placed.map (·.toScope) = t.scopes := by
  simp only [placed, scopes, List.map_cons, Forest.map_toScope_placed]

end ScopeTree

end Recompose
