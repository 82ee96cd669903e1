import Recompose.Proofs.Ascending
import Recompose.Proofs.Snapshot.Closure
import Recompose.Snapshot.Diff

/-!
Which groups a comparison of two snapshots lists, and for which reason.
-/

namespace Recompose

namespace Snapshot

variable {s before after : Snapshot} {key : GroupKey}

theorem mem_groupKeys : key ∈ s.groupKeys ↔ s.hasGroup key = true := by
  simp [groupKeys, hasGroup]

/-- There is a fingerprint just of the groups that a scope carries. -/
theorem isSome_resolve : (s.resolve key).isSome = s.hasGroup key := by
  cases has : s.hasGroup key <;> simp [resolve, has]

theorem mem_changedKeys :
    key ∈ changedKeys before after ↔
      after.hasGroup key = true ∧ before.resolve key ≠ after.resolve key := by
  simp [changedKeys, mem_groupKeys]

/-- A scope of the group `inner` lies right inside a scope of the group `outer`. -/
def RightInside (s : Snapshot) (outer inner : GroupKey) : Prop :=
  ∃ ref scope, s.scope? ref = some scope ∧ scope.group = some inner ∧
    scope.parentGroup = some outer

theorem mem_parentKeys {keys : List GroupKey} :
    key ∈ s.parentKeys keys ↔ key ∉ keys ∧ ∃ inner ∈ keys, s.RightInside key inner := by
  simp only [parentKeys, Ascending.mem_ofList, List.mem_filter, List.mem_filterMap,
    List.mem_flatMap, Prod.exists, mem_tagged, Bool.not_eq_true', List.contains_eq_mem,
    decide_eq_false_iff_not]
  constructor
  · rintro ⟨⟨ref, scope, ⟨inner, mem, here, group⟩, around⟩, new⟩
    exact ⟨new, inner, mem, ref, scope, here, group, around⟩
  · rintro ⟨new, inner, mem, ref, scope, here, group, around⟩
    exact ⟨⟨ref, scope, ⟨inner, mem, here, group⟩, around⟩, new⟩

theorem mem_diff_direct :
    ⟨key, .direct⟩ ∈ before.diff after ↔ key ∈ changedKeys before after := by
  simp [diff]

theorem mem_diff_parentWidening :
    ⟨key, .parentWidening⟩ ∈ before.diff after ↔
      key ∈ after.parentKeys (changedKeys before after) := by
  simp [diff]

end Snapshot

end Recompose
