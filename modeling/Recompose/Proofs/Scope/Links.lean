import Mathlib.Logic.Relation
import Recompose.Proofs.Scope.Numbering

/-!
Scopes and their links. Wherever a scope stands in a tree, the scopes nested in it have the numbers
behind its own; the links between them say the same as the nesting. Main results: which links a tree
has, and that following them down from a scope finds the numbers from its own on.
-/

namespace Recompose

/-- The links of a scope: the scope around it and the scopes directly inside. -/
structure Links where
  parent : Option Nat
  children : List Nat
deriving DecidableEq, Repr

def PlacedScope.links (s : PlacedScope) : Links :=
  ⟨s.parent, s.children⟩

namespace Forest

/-- The numbers of the outermost scopes ascend. -/
theorem roots_bounds (f : Forest) (first : Nat) :
    ∀ number ∈ f.roots first, first ≤ number ∧ number < first + f.size := by
  induction f generalizing first with
  | nil => exact List.forall_mem_nil _
  | cons scope nested rest _ ih =>
    rw [roots, size]
    refine List.forall_mem_cons.mpr ⟨by omega, fun number mem => ?_⟩
    have := ih _ number mem
    omega

theorem roots_pairwise (f : Forest) (first : Nat) : (f.roots first).Pairwise (· < ·) := by
  induction f generalizing first with
  | nil => exact .nil
  | cons scope nested rest _ ih =>
    refine .cons (fun number mem => ?_) (ih _)
    have := rest.roots_bounds _ number mem
    omega

/-- A number of a forest is that of the first scope, of one inside it or of one behind it. -/
theorem number_cases {scope : Scope} {nested rest : Forest} {first number : Nat}
    (from' : first ≤ number) (upto : number < first + (cons scope nested rest).size) :
    number = first ∨ (first + 1 ≤ number ∧ number < first + 1 + nested.size) ∨
      (first + nested.size + 1 ≤ number ∧ number < first + nested.size + 1 + rest.size) := by
  rw [size] at upto
  omega

theorem extent_of_size_le {f : Forest} {n : Nat} (h : f.size ≤ n) : f.extent n = 0 := by
  induction f generalizing n with
  | nil => rfl
  | cons scope nested rest _ ih =>
    rw [size] at h
    obtain ⟨n, rfl⟩ : ∃ m, n = m + 1 := ⟨n - 1, by omega⟩
    rw [extent, if_neg (by omega)]
    exact ih (by omega)

end Forest

/-! ## Forests in a tree -/

namespace ScopeTree

/-- The forest stands in the tree from a number on, directly inside the scope `parent`. -/
def Stands (t : ScopeTree) (f : Forest) (first parent : Nat) (parentGroup : Option GroupKey) :
    Prop :=
  ∀ k s, (f.placed first parent parentGroup)[k]? = some s → t.scope? (first + k) = some s

namespace Stands

variable {t : ScopeTree} {f nested rest : Forest} {scope : Scope} {first parent : Nat}
  {parentGroup : Option GroupKey}

theorem root (t : ScopeTree) : t.Stands t.nested 1 0 t.root.group := by
  intro k s here
  rw [Nat.add_comm, scope?, placed, List.getElem?_cons_succ, here]

/-- The scope comes first, those inside it next, and then those behind it. -/
theorem cons (h : t.Stands (.cons scope nested rest) first parent parentGroup) :
    t.scope? first = some ⟨scope, some parent, parentGroup, nested.roots (first + 1)⟩ ∧
      t.Stands nested (first + 1) first scope.group ∧
      t.Stands rest (first + nested.size + 1) parent parentGroup := by
  have table : (Forest.cons scope nested rest).placed first parent parentGroup =
      ⟨scope, some parent, parentGroup, nested.roots (first + 1)⟩ ::
        (nested.placed (first + 1) first scope.group ++
          rest.placed (first + nested.size + 1) parent parentGroup) := rfl
  rw [Stands, table] at h
  refine ⟨h 0 _ rfl, fun k s here => ?_, fun k s here => ?_⟩
  · have := h (k + 1) s
      (List.getElem?_append_left (List.getElem?_eq_some_iff.mp here).1 |>.trans here)
    rwa [Nat.add_comm k 1, ← Nat.add_assoc] at this
  · have := h (nested.size + k + 1) s (by
      rw [List.getElem?_cons_succ, List.getElem?_append_right (by simp), Forest.length_placed,
        Nat.add_sub_cancel_left]
      exact here)
    rwa [show first + (nested.size + k + 1) = first + nested.size + 1 + k by omega] at this

/-- The outermost scopes know the scope around them. -/
theorem exists_of_mem_roots (h : t.Stands f first parent parentGroup) :
    ∀ number ∈ f.roots first, ∃ s, t.scope? number = some s ∧ s.parent = some parent := by
  induction f generalizing first with
  | nil => exact List.forall_mem_nil _
  | cons scope nested rest _ ih =>
    obtain ⟨here, -, behind⟩ := h.cons
    exact List.forall_mem_cons.mpr ⟨⟨_, here, rfl⟩, ih behind⟩

/-- Every scope of the forest is listed by the scope around it. -/
theorem exists_outer {outer : PlacedScope} (h : t.Stands f first parent outer.group)
    (around : t.scope? parent = some outer) (before : parent < first)
    (listed : f.roots first ⊆ outer.children) :
    ∀ number, first ≤ number → number < first + f.size →
      ∃ s p o, t.scope? number = some s ∧ s.parent = some p ∧ p < number ∧ t.scope? p = some o ∧
        number ∈ o.children ∧ s.parentGroup = o.group := by
  induction f generalizing first parent outer with
  | nil =>
    intro number from' upto
    rw [Forest.size] at upto
    omega
  | cons scope nested rest nestedIh restIh =>
    obtain ⟨here, inside, behind⟩ := h.cons
    obtain ⟨own, others⟩ := List.cons_subset.mp listed
    intro number from' upto
    rcases Forest.number_cases from' upto with rfl | ⟨from', upto⟩ | ⟨from', upto⟩
    · exact ⟨_, parent, outer, here, rfl, before, around, own, rfl⟩
    · exact nestedIh inside here (Nat.lt_succ_self first) (List.Subset.refl _) number from' upto
    · exact restIh behind around (by omega) others number from' upto

/-- Every scope of the forest has a forest of its own standing right behind it. -/
theorem exists_nested (h : t.Stands f first parent parentGroup) {k : Nat} {s : PlacedScope}
    (here : (f.placed first parent parentGroup)[k]? = some s) :
    ∃ inner, s.children = inner.roots (first + k + 1) ∧
      t.Stands inner (first + k + 1) (first + k) s.group ∧ f.extent k = inner.size + 1 := by
  induction f generalizing first parent parentGroup k with
  | nil => cases here
  | cons scope nested rest nestedIh restIh =>
    obtain ⟨-, inside, behind⟩ := h.cons
    rw [Forest.placed, List.cons_append] at here
    cases k with
    | zero =>
      cases here
      exact ⟨nested, rfl, inside, rfl⟩
    | succ k =>
      rw [List.getElem?_cons_succ] at here
      rw [Forest.extent]
      by_cases within : k < nested.size
      · rw [List.getElem?_append_left (by rwa [Forest.length_placed])] at here
        obtain ⟨inner, found⟩ := nestedIh inside here
        rw [if_pos within]
        rw [Nat.add_assoc first 1 k, Nat.add_comm 1 k] at found
        exact ⟨inner, found⟩
      · rw [List.getElem?_append_right (by rw [Forest.length_placed]; omega),
          Forest.length_placed] at here
        obtain ⟨inner, found⟩ := restIh behind here
        rw [if_neg within]
        rw [show first + nested.size + 1 + (k - nested.size) = first + (k + 1) by omega] at found
        exact ⟨inner, found⟩

end Stands

/-! ## Single scopes -/

section

variable {t : ScopeTree} {number : Nat} {s : PlacedScope}

theorem length_placed (t : ScopeTree) : t.placed.length = t.size := by
  rw [placed, List.length_cons, Forest.length_placed, size]

/-- The numbers are those below the size. -/
theorem exists_scope?_iff (t : ScopeTree) (number : Nat) :
    (∃ s, t.scope? number = some s) ↔ number < t.size := by
  rw [← length_placed]
  constructor
  · rintro ⟨s, found⟩
    exact (List.getElem?_eq_some_iff.mp found).1
  · exact fun inside => ⟨_, List.getElem?_eq_getElem inside⟩

/-- The scopes inside a scope stand right behind it, and are its descendants. -/
theorem exists_nested_of_scope? (h : t.scope? number = some s) :
    ∃ inner, s.children = inner.roots (number + 1) ∧
      t.Stands inner (number + 1) number s.group ∧
      t.descendants number = List.range' number (inner.size + 1) := by
  cases number with
  | zero =>
    cases h
    exact ⟨t.nested, rfl, .root t, rfl⟩
  | succ k =>
    obtain ⟨inner, children, stands, extent⟩ := (Stands.root t).exists_nested h
    have inside : k < t.nested.size := by
      have := (exists_scope?_iff t (k + 1)).mp ⟨s, h⟩
      rw [size] at this
      omega
    rw [Nat.add_comm 1 k] at children stands
    refine ⟨inner, children, stands, ?_⟩
    rw [descendants, Forest.extent, if_pos inside, extent]

/-- Every scope but the root is listed by a scope in front of it, whose group it knows. -/
theorem exists_outer_of_scope? (h : t.scope? number = some s) (positive : 0 < number) :
    ∃ p outer, s.parent = some p ∧ p < number ∧ t.scope? p = some outer ∧
      number ∈ outer.children ∧ s.parentGroup = outer.group := by
  have inside := (exists_scope?_iff t number).mp ⟨s, h⟩
  have root : t.scope? 0 = some ⟨t.root, none, none, t.nested.roots 1⟩ := rfl
  obtain ⟨s', p, outer, found, rest⟩ := (Stands.root t).exists_outer root Nat.one_pos
    (List.Subset.refl _) number positive (by rw [size] at inside; omega)
  obtain rfl := Option.some.inj (h.symm.trans found)
  exact ⟨p, outer, rest⟩

/-- A scope that has one around it is not the root, and that one lists it. -/
theorem exists_outer_of_parent {p : Nat} (h : t.scope? number = some s)
    (up : s.parent = some p) :
    p < number ∧ ∃ outer, t.scope? p = some outer ∧ number ∈ outer.children := by
  have positive : 0 < number := by
    refine Nat.pos_of_ne_zero fun zero => ?_
    subst zero
    cases h
    cases up
  obtain ⟨p', outer, up', before, around, listed, -⟩ := exists_outer_of_scope? h positive
  obtain rfl := Option.some.inj (up.symm.trans up')
  exact ⟨before, outer, around, listed⟩

/-- The group that a scope notes for the scope around it is the group of that scope. -/
theorem parentGroup_eq (h : t.scope? number = some s) :
    s.parentGroup = s.parent.bind fun p => (t.scope? p).bind (·.group) := by
  rcases Nat.eq_zero_or_pos number with rfl | positive
  · cases h
    rfl
  · obtain ⟨p, outer, up, -, around, -, same⟩ := exists_outer_of_scope? h positive
    simp [up, around, same]

end

end ScopeTree

end Recompose
