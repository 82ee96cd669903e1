import Recompose.Proofs.Scope.Links
import Recompose.Proofs.Snapshot.Order

/-!
The list that a comparison of two snapshots makes: how it is ordered, and what stands in it. The
group around a scope is noted in the scope when it is opened; that it is the group of the scope
which the links name is what makes every listed key one of the later snapshot.
-/

namespace Recompose

namespace Snapshot

variable {s before after : Snapshot} {key : GroupKey}

/-! ## Groups and the groups around them -/

theorem groupKeys_pairwise (s : Snapshot) : s.groupKeys.Pairwise (· < ·) :=
  Ascending.pairwise_lt_ofList _

/-- The group around a scope is that of the scope that its link names, in the same tree. -/
theorem parentGroup_eq_link {ref : ScopeRef} {scope : PlacedScope}
    (here : s.scope? ref = some scope) :
    scope.parentGroup = scope.parent.bind fun p => (s.scope? ⟨ref.tree, p⟩).bind (·.group) := by
  obtain ⟨t, atTree, atScope⟩ := Option.bind_eq_some_iff.mp here
  have inTree (p : Nat) : s.scope? ⟨ref.tree, p⟩ = t.scope? p := by
    show (s.tree? ref).bind (·.scope? p) = _
    rw [atTree]
    rfl
  simp only [inTree]
  exact ScopeTree.parentGroup_eq atScope

/-- A scope lies right inside a group if the scope that its link names carries the key. -/
theorem rightInside_iff {outer inner : GroupKey} :
    s.RightInside outer inner ↔
      ∃ ref scope parent around, s.scope? ref = some scope ∧ scope.group = some inner ∧
        scope.parent = some parent ∧ s.scope? ⟨ref.tree, parent⟩ = some around ∧
        around.group = some outer := by
  constructor
  · rintro ⟨ref, scope, here, group, up⟩
    rw [parentGroup_eq_link here, Option.bind_eq_some_iff] at up
    obtain ⟨parent, link, up⟩ := up
    obtain ⟨around, there, same⟩ := Option.bind_eq_some_iff.mp up
    exact ⟨ref, scope, parent, around, here, group, link, there, same⟩
  · rintro ⟨ref, scope, parent, around, here, group, link, there, same⟩
    refine ⟨ref, scope, here, group, ?_⟩
    rw [parentGroup_eq_link here, link, Option.bind_some, there, Option.bind_some, same]

/-- The group around a scope of the snapshot is a group of the snapshot. -/
theorem hasGroup_of_rightInside {outer inner : GroupKey} (h : s.RightInside outer inner) :
    s.hasGroup outer = true := by
  obtain ⟨ref, -, parent, around, -, -, -, there, group⟩ := rightInside_iff.mp h
  exact hasGroup_iff.mpr ⟨⟨ref.tree, parent⟩, around, there, group⟩

/-! ## What is listed -/

/-- A changed group is a new one or has another fingerprint. -/
theorem mem_changedKeys_iff :
    key ∈ changedKeys before after ↔
      after.hasGroup key = true ∧
        (before.hasGroup key = false ∨ before.resolve key ≠ after.resolve key) := by
  rw [mem_changedKeys]
  refine and_congr_right fun has => ⟨.inr, ?_⟩
  rintro (new | differs)
  · -- There is no fingerprint before, and there is one after.
    intro same
    rw [← isSome_resolve] at has new
    rw [same, has] at new
    cases new
  · exact differs

theorem hasGroup_eq_false_iff :
    s.hasGroup key = false ↔ ∀ ref scope, s.scope? ref = some scope → scope.group ≠ some key := by
  rw [← Bool.not_eq_true, hasGroup_iff]
  simp

theorem changedKeys_pairwise (before after : Snapshot) :
    (changedKeys before after).Pairwise (· < ·) :=
  after.groupKeys_pairwise.filter _

/-- The scope around a scope of one of the groups carries the key, which is not one of theirs. -/
theorem mem_parentKeys_iff {keys : List GroupKey} :
    key ∈ s.parentKeys keys ↔
      key ∉ keys ∧ ∃ ref scope inner parent outer, s.scope? ref = some scope ∧
        scope.group = some inner ∧ inner ∈ keys ∧ scope.parent = some parent ∧
        s.scope? ⟨ref.tree, parent⟩ = some outer ∧ outer.group = some key := by
  simp only [mem_parentKeys, rightInside_iff]
  refine and_congr_right fun _ => ?_
  constructor
  · rintro ⟨inner, mem, ref, scope, parent, outer, here, group, rest⟩
    exact ⟨ref, scope, inner, parent, outer, here, group, mem, rest⟩
  · rintro ⟨ref, scope, inner, parent, outer, here, group, mem, rest⟩
    exact ⟨inner, mem, ref, scope, parent, outer, here, group, rest⟩

theorem parentKeys_pairwise (s : Snapshot) (keys : List GroupKey) :
    (s.parentKeys keys).Pairwise (· < ·) :=
  Ascending.pairwise_lt_ofList _

/-- The keys of a comparison without their reasons. -/
theorem map_key_diff (before after : Snapshot) :
    (before.diff after).map (·.key) =
      changedKeys before after ++ after.parentKeys (changedKeys before after) := by
  simp [diff, Function.comp_def]

/-- No key is listed twice, whatever the reasons. -/
theorem nodup_keys_diff (before after : Snapshot) : ((before.diff after).map (·.key)).Nodup := by
  rw [map_key_diff, List.nodup_append]
  refine ⟨(changedKeys_pairwise before after).imp Int32.ne_of_lt,
    (after.parentKeys_pairwise _).imp Int32.ne_of_lt, ?_⟩
  rintro key direct _ around rfl
  exact (mem_parentKeys.mp around).1 direct

/-- Only groups of the later snapshot are listed. -/
theorem mem_groupKeys_of_mem_diff {i : Invalidation} (h : i ∈ before.diff after) :
    i.key ∈ after.groupKeys := by
  have listed := List.mem_map_of_mem (f := Invalidation.key) h
  rw [map_key_diff] at listed
  rw [mem_groupKeys]
  rcases List.mem_append.mp listed with direct | around
  · exact (mem_changedKeys.mp direct).1
  · obtain ⟨-, inner, -, inside⟩ := mem_parentKeys.mp around
    exact hasGroup_of_rightInside inside

/-- **The list of a comparison.** First come, ascending, the keys that are direct, and then,
ascending, those of the groups around; no key comes twice and all are keys of the later snapshot. A
key is direct exactly if a scope of the later snapshot carries it and it is new or has another
fingerprint; it is listed for a group inside exactly if it is not direct and the scope around some
scope with a direct key carries it. -/
theorem diff_lists (before after : Snapshot) :
    ∃ direct around : List GroupKey,
      before.diff after = direct.map (⟨·, .direct⟩) ++ around.map (⟨·, .parentWidening⟩) ∧
        direct.Pairwise (· < ·) ∧ around.Pairwise (· < ·) ∧
        ((before.diff after).map (·.key)).Nodup ∧
        (∀ key, key ∈ direct ↔
          (∃ ref scope, after.scope? ref = some scope ∧ scope.group = some key) ∧
            ((∀ ref scope, before.scope? ref = some scope → scope.group ≠ some key) ∨
              before.resolve key ≠ after.resolve key)) ∧
        (∀ key, key ∈ around ↔
          key ∉ direct ∧ ∃ ref scope inner parent outer, after.scope? ref = some scope ∧
            scope.group = some inner ∧ inner ∈ direct ∧ scope.parent = some parent ∧
            after.scope? ⟨ref.tree, parent⟩ = some outer ∧ outer.group = some key) ∧
        ∀ i ∈ before.diff after, i.key ∈ after.groupKeys := by
  refine ⟨changedKeys before after, after.parentKeys (changedKeys before after), rfl,
    changedKeys_pairwise before after, after.parentKeys_pairwise _, nodup_keys_diff before after,
    fun key => ?direct, fun key => mem_parentKeys_iff, fun i mem => mem_groupKeys_of_mem_diff mem⟩
  case direct => rw [mem_changedKeys_iff, hasGroup_iff, hasGroup_eq_false_iff]

/-- A group inside another calls a method, and the method changes. -/
example :
    let caller : ScopeTree := ⟨⟨"A", "f", "()V"⟩, ⟨.methodRoot, none, 1, []⟩,
      .cons ⟨.restart, some 1, 2, []⟩
        (.cons ⟨.replace, some 2, 3, [⟨"A", "g", "()V"⟩]⟩ .nil .nil) .nil⟩
    let callee (hash : Hash) : ScopeTree := ⟨⟨"A", "g", "()V"⟩, ⟨.methodRoot, none, hash, []⟩, .nil⟩
    (⟨[caller, callee 4]⟩ : Snapshot).diff ⟨[caller, callee 5]⟩ =
      [⟨2, .direct⟩, ⟨1, .parentWidening⟩] := by
  decide +kernel

end Snapshot

end Recompose
