import Recompose.Proofs.Snapshot.Diff

/-!
The order of the trees does not matter: a rearranged snapshot has the same groups, and each group
reaches the same methods and has the same fingerprint. So comparisons with it list the same groups.
-/

namespace Recompose

namespace Snapshot

variable {s s' : Snapshot} {key : GroupKey}

/-- A scope somewhere is a scope of some tree. -/
theorem exists_scope_iff {P : PlacedScope → Prop} :
    (∃ ref scope, s.scope? ref = some scope ∧ P scope) ↔
      ∃ t ∈ s.trees, ∃ scope ∈ t.placed, P scope := by
  constructor
  · rintro ⟨ref, scope, here, holds⟩
    obtain ⟨t, atTree, atScope⟩ := Option.bind_eq_some_iff.mp here
    exact ⟨t, List.mem_of_getElem? atTree, scope, List.mem_of_getElem? atScope, holds⟩
  · rintro ⟨t, mem, scope, inside, holds⟩
    obtain ⟨i, atTree⟩ := List.mem_iff_getElem?.mp mem
    obtain ⟨n, atScope⟩ := List.mem_iff_getElem?.mp inside
    exact ⟨⟨i, n⟩, scope, Option.bind_eq_some_iff.mpr ⟨t, atTree, atScope⟩, holds⟩

/-! ## The same methods are reached -/

/-- What the scopes of a group depend on. -/
theorem mem_taggedDependencies {m : MethodId} :
    m ∈ (s.tagged key).flatMap (·.2.dependencies) ↔
      ∃ ref scope, s.scope? ref = some scope ∧ scope.group = some key ∧ m ∈ scope.dependencies := by
  simp [mem_tagged, and_assoc]

/-- More methods, dependencies and scopes of the group let a group reach more. -/
theorem reached_mono (methods : ∀ m ∈ s.methods, m ∈ s'.methods)
    (dependencies : ∀ m, ∀ d ∈ s.dependenciesOf m, d ∈ s'.dependenciesOf m)
    (tagged : ∀ m ∈ (s.tagged key).flatMap (·.2.dependencies),
      m ∈ (s'.tagged key).flatMap (·.2.dependencies)) :
    ∀ m ∈ s.reached key, m ∈ s'.reached key := by
  obtain ⟨started, followed⟩ := Closure.gather_complete s'.dependenciesOf s'.methods
    ((s'.tagged key).flatMap (·.2.dependencies))
  refine Closure.gather_sound ?_ ?_
  · intro m pending known
    exact started m (tagged m pending) (methods m known)
  · intro m found d depends known
    exact followed m found d (dependencies m d depends) (methods d known)

variable (h : s.trees.Perm s'.trees)
include h

theorem exists_scope_iff_of_perm {P : PlacedScope → Prop} :
    (∃ ref scope, s.scope? ref = some scope ∧ P scope) ↔
      ∃ ref scope, s'.scope? ref = some scope ∧ P scope := by
  simp only [exists_scope_iff, h.mem_iff]

theorem hasGroup_eq_of_perm : s.hasGroup key = s'.hasGroup key := by
  rw [Bool.eq_iff_iff, hasGroup_iff, hasGroup_iff]
  exact exists_scope_iff_of_perm h

theorem reached_subset_of_perm : ∀ m ∈ s.reached key, m ∈ s'.reached key := by
  refine reached_mono ?_ ?_ ?_
  · simp only [mem_methods, h.mem_iff, imp_self, implies_true]
  · simp only [mem_dependenciesOf, h.mem_iff, imp_self, implies_true]
  · intro m
    rw [mem_taggedDependencies, mem_taggedDependencies]
    exact (exists_scope_iff_of_perm h).mp

/-! ## The same fingerprint -/

theorem members_perm : (s.members key).Perm (s'.members key) := by
  have reached : ∀ m, (s.reached key).contains m = (s'.reached key).contains m := by
    intro m
    rw [Bool.eq_iff_iff, List.contains_iff_mem, List.contains_iff_mem]
    exact ⟨reached_subset_of_perm h m, reached_subset_of_perm h.symm m⟩
  simp only [members, reached]
  exact h.flatMap_right _

/-- **The order of the trees does not show in a fingerprint.** -/
theorem resolve_eq_of_perm : s.resolve key = s'.resolve key := by
  have sums : sumOfHashes (s.members key) = sumOfHashes (s'.members key) := by
    rw [sumOfHashes_eq, sumOfHashes_eq, ((members_perm h).map _).sum_eq]
  rw [resolve, resolve, hasGroup_eq_of_perm h, sums]

/-! ## The same comparison -/

theorem groupKeys_eq_of_perm : s.groupKeys = s'.groupKeys := by
  refine Ascending.ofList_congr fun key => ?_
  rw [← Ascending.mem_ofList, ← Ascending.mem_ofList (l := s'.placed.filterMap _)]
  show key ∈ s.groupKeys ↔ key ∈ s'.groupKeys
  rw [mem_groupKeys, mem_groupKeys, hasGroup_eq_of_perm h]

theorem parentKeys_eq_of_perm (keys : List GroupKey) : s.parentKeys keys = s'.parentKeys keys := by
  refine Ascending.ofList_congr fun key => ?_
  rw [← Ascending.mem_ofList, ← Ascending.mem_ofList (l := List.filter _ _)]
  show key ∈ s.parentKeys keys ↔ key ∈ s'.parentKeys keys
  have inside (inner : GroupKey) : s.RightInside key inner ↔ s'.RightInside key inner :=
    exists_scope_iff_of_perm h
  simp only [mem_parentKeys, inside]

omit h

/-- **The order of the trees does not show in a comparison**, on either side. -/
theorem diff_eq_of_perm {before before' after after' : Snapshot}
    (h : before.trees.Perm before'.trees) (h' : after.trees.Perm after'.trees) :
    before.diff after = before'.diff after' := by
  have changed : changedKeys before after = changedKeys before' after' := by
    unfold changedKeys
    rw [groupKeys_eq_of_perm h']
    refine List.filter_congr fun key _ => ?_
    rw [resolve_eq_of_perm h, resolve_eq_of_perm h']
  simp only [diff, changed, parentKeys_eq_of_perm h']

theorem diff_self (s : Snapshot) : s.diff s = [] := by
  simp [diff, changedKeys, parentKeys, Ascending.ofList]

end Snapshot

end Recompose
