import Recompose.Proofs.Scope.Links

/-!
The scopes below a scope. Taking scopes off a stack and putting those directly inside each of them
on it finds, from any scope on, its own number and the ones right behind it: those of the scopes that
have it around them.
-/

namespace Recompose

namespace ScopeTree

/-- What is found by taking the first of the numbers that wait, and putting in its place the scopes
directly inside it; a number without a scope is passed over. -/
inductive Visits (t : ScopeTree) : (waiting found : List Nat) → Prop
  | done : Visits t [] []
  | missing {number : Nat} {waiting found : List Nat} :
      t.scope? number = none → Visits t waiting found → Visits t (number :: waiting) found
  | scope {number : Nat} {s : PlacedScope} {waiting found : List Nat} :
      t.scope? number = some s → Visits t (s.children ++ waiting) found →
        Visits t (number :: waiting) (number :: found)

/-- The first number is that of the scope around the second one. -/
def IsParent (t : ScopeTree) (parent number : Nat) : Prop :=
  ∃ s, t.scope? number = some s ∧ s.parent = some parent

/-- The second number is the first one or that of a scope inside it, at any depth. -/
def Below (t : ScopeTree) : Nat → Nat → Prop :=
  Relation.ReflTransGen t.IsParent

variable {t : ScopeTree} {f : Forest} {first parent number : Nat} {parentGroup : Option GroupKey}

/-- There is one way to go. -/
theorem Visits.unique {waiting found found' : List Nat} (h : t.Visits waiting found)
    (h' : t.Visits waiting found') : found' = found := by
  induction h generalizing found' with
  | done =>
    cases h'
    rfl
  | missing none _ ih =>
    cases h' with
    | missing _ rest => exact ih rest
    | scope some => rw [none] at some; cases some
  | scope here _ ih =>
    cases h' with
    | missing none => rw [none] at here; cases here
    | scope here' rest =>
      obtain rfl := Option.some.inj (here.symm.trans here')
      rw [ih rest]

namespace Stands

/-- A forest is found from its outermost scopes on, in the order of its numbers. -/
theorem visits (h : t.Stands f first parent parentGroup) {waiting found : List Nat}
    (rest : t.Visits waiting found) :
    t.Visits (f.roots first ++ waiting) (List.range' first f.size ++ found) := by
  induction f generalizing first parent parentGroup waiting found with
  | nil => exact rest
  | cons scope nested others nestedIh othersIh =>
    obtain ⟨here, inside, behind⟩ := h.cons
    have numbers : List.range' first (Forest.cons scope nested others).size =
        first :: (List.range' (first + 1) nested.size ++
          List.range' (first + nested.size + 1) others.size) := by
      rw [Forest.size, List.range'_succ, Nat.add_right_comm first, List.range'_append_1]
    rw [numbers, List.cons_append, List.append_assoc]
    exact .scope here (nestedIh inside (othersIh behind rest))

/-- All scopes of the forest are inside the scope that it stands in. -/
theorem below (h : t.Stands f first parent parentGroup) :
    ∀ number, first ≤ number → number < first + f.size → t.Below parent number := by
  induction f generalizing first parent parentGroup with
  | nil =>
    intro number from' upto
    rw [Forest.size] at upto
    omega
  | cons scope nested rest nestedIh restIh =>
    obtain ⟨here, inside, behind⟩ := h.cons
    intro number from' upto
    have step : t.IsParent parent first := ⟨_, here, rfl⟩
    rcases Forest.number_cases from' upto with rfl | ⟨from', upto⟩ | ⟨from', upto⟩
    · exact .single step
    · exact .head step (nestedIh inside number from' upto)
    · exact restIh behind number from' upto

/-- What is directly inside a scope of the forest is a scope of the forest. -/
theorem closed (h : t.Stands f first parent parentGroup) {s : PlacedScope}
    (here : t.scope? number = some s) (from' : first ≤ number) (upto : number < first + f.size) :
    ∀ child ∈ s.children, first ≤ child ∧ child < first + f.size := by
  induction f generalizing first parent parentGroup with
  | nil =>
    rw [Forest.size] at upto
    omega
  | cons scope nested rest nestedIh restIh =>
    obtain ⟨own, inside, behind⟩ := h.cons
    intro child mem
    rw [Forest.size]
    rcases Forest.number_cases from' upto with rfl | ⟨from', upto⟩ | ⟨from', upto⟩
    · obtain rfl := Option.some.inj (own.symm.trans here)
      have := nested.roots_bounds _ child mem
      omega
    · have := nestedIh inside from' upto child mem
      omega
    · have := restIh behind from' upto child mem
      omega

end Stands

/-- Nothing is found from a number without a scope. -/
theorem descendants_of_size_le (h : t.size ≤ number) : t.descendants number = [] := by
  have outside : (Forest.cons t.root t.nested .nil).size ≤ number := by
    rwa [Forest.size, Forest.size, Nat.add_zero]
  rw [descendants, Forest.extent_of_size_le outside]
  rfl

/-- **Following the links down finds the descendants.** -/
theorem visits_descendants (t : ScopeTree) (number : Nat) :
    t.Visits [number] (t.descendants number) := by
  cases found : t.scope? number with
  | none =>
    have outside : t.size ≤ number := by
      refine Nat.le_of_not_lt fun inside => ?_
      obtain ⟨s, here⟩ := (t.exists_scope?_iff number).mpr inside
      rw [found] at here
      cases here
    rw [descendants_of_size_le outside]
    exact .missing found .done
  | some s =>
    obtain ⟨inner, children, stands, numbers⟩ := exists_nested_of_scope? found
    have rest := stands.visits .done
    rw [List.append_nil (List.range' ..), ← children] at rest
    rw [numbers, List.range'_succ]
    exact .scope found rest

/-- The descendants of a scope are itself and the scopes inside it. -/
theorem mem_descendants_iff (inside : number < t.size) (other : Nat) :
    other ∈ t.descendants number ↔ t.Below number other := by
  obtain ⟨s, here⟩ := (t.exists_scope?_iff number).mpr inside
  obtain ⟨inner, children, stands, numbers⟩ := exists_nested_of_scope? here
  rw [numbers, List.mem_range'_1]
  constructor
  · rintro ⟨from', upto⟩
    rcases Nat.eq_or_lt_of_le from' with rfl | later
    · exact .refl
    · exact stands.below other later (by omega)
  · intro below
    -- A step down from the scope or from one inside it leads to one inside it.
    induction below with
    | refl => omega
    | @tail between other _ step ih =>
      obtain ⟨s', found, up⟩ := step
      obtain ⟨-, outer, around, listed⟩ := exists_outer_of_parent found up
      rcases Nat.eq_or_lt_of_le ih.1 with rfl | later
      · obtain rfl := Option.some.inj (here.symm.trans around)
        have := inner.roots_bounds _ other (children ▸ listed)
        omega
      · have := stands.closed around later (by omega) other listed
        omega

theorem descendants_root (t : ScopeTree) : t.descendants 0 = List.range t.size := by
  rw [List.range_eq_range']
  rfl

end ScopeTree

end Recompose
