import Recompose.Proofs.Hash.Mix
import Recompose.Proofs.Snapshot.Merge
import Recompose.Proofs.Snapshot.Order

/-!
One scope gets another hash, because the only tree of its method is replaced by one that differs in
nothing else. Main result: the groups reported as changed are just those that reach the scope.
-/

namespace Recompose

/-- The other tree has a new hash for the scope of one number and is the same in all else. -/
structure ScopeTree.Rehashed (t t' : ScopeTree) (number : Nat) (hash : Hash) : Prop where
  method : t'.method = t.method
  placed : t'.placed = t.placed.modify number fun scope => { scope with hash }

/-- All that is known of a scope but its hash. -/
def PlacedScope.shape (scope : PlacedScope) : PlacedScope :=
  { scope with hash := 0 }

namespace Snapshot

variable {s s' : Snapshot} {key : GroupKey}

/-- What a group reaches: the least set of places that is closed for it. -/
def closure (s : Snapshot) (key : GroupKey) : Set ScopeRef :=
  ⋂₀ {places | s.Closed key places}

theorem closure_eq (s : Snapshot) (key : GroupKey) : s.closure key = ↑(s.coveredPlaces key) :=
  Set.Subset.antisymm (Set.sInter_subset_of_mem (s.closed_coveredPlaces key))
    (Set.subset_sInter fun _ closed => coveredPlaces_subset closed)

/-! ## Snapshots of one shape -/

/-- The same places with the same scopes, apart from the hashes. -/
structure SameShape (s s' : Snapshot) : Prop where
  methodAt : ∀ ref, s.methodAt ref = s'.methodAt ref
  shapes : ∀ ref, (s.scope? ref).map PlacedScope.shape = (s'.scope? ref).map PlacedScope.shape

namespace SameShape

theorem symm (h : s.SameShape s') : s'.SameShape s :=
  ⟨fun ref => (h.methodAt ref).symm, fun ref => (h.shapes ref).symm⟩

variable (h : s.SameShape s')
include h

theorem scope? {ref : ScopeRef} {scope : PlacedScope} (here : s.scope? ref = some scope) :
    ∃ scope', s'.scope? ref = some scope' ∧ scope'.shape = scope.shape := by
  have shapes := h.shapes ref
  rw [here] at shapes
  obtain ⟨scope', there, same⟩ := Option.map_eq_some_iff.mp shapes.symm
  exact ⟨scope', there, same⟩

/-- What does not look at hashes holds of the scope there as well. -/
theorem exists_scope {P : PlacedScope → Prop}
    (blind : ∀ scope scope', scope'.shape = scope.shape → P scope → P scope') :
    (∃ ref scope, s.scope? ref = some scope ∧ P scope) →
      ∃ ref scope, s'.scope? ref = some scope ∧ P scope := by
  rintro ⟨ref, scope, here, holds⟩
  obtain ⟨scope', there, same⟩ := h.scope? here
  exact ⟨ref, scope', there, blind scope scope' same holds⟩

theorem hasGroup (has : s.hasGroup key = true) : s'.hasGroup key = true := by
  refine hasGroup_iff.mpr (h.exists_scope ?_ (hasGroup_iff.mp has))
  intro scope scope' same group
  have groups : scope'.group = scope.group := congrArg (·.group) same
  exact groups.trans group

theorem closed {places : Set ScopeRef} (closed : s.Closed key places) : s'.Closed key places where
  tagged := by
    intro ref scope' there group
    obtain ⟨scope, here, same⟩ := h.symm.scope? there
    have groups : scope.group = scope'.group := congrArg (·.group) same
    exact closed.tagged ref scope here (groups.trans group)
  follow := by
    intro ref mem scope' there m depends next t inner' atTree method atScope'
    obtain ⟨scope, here, same⟩ := h.symm.scope? there
    obtain ⟨inner, atScope, -⟩ := h.symm.scope? atScope'
    have dependencies : scope.dependencies = scope'.dependencies := congrArg (·.dependencies) same
    have owner : s.methodAt next = some t.method :=
      (h.methodAt next).trans (congrArg (Option.map ScopeTree.method) atTree)
    obtain ⟨u, here', sameMethod⟩ := Option.map_eq_some_iff.mp owner
    exact closed.follow ref mem scope here m (dependencies ▸ depends) next u inner here'
      (sameMethod.trans method) atScope

theorem coveredPlaces_subset : s.coveredPlaces key ⊆ s'.coveredPlaces key :=
  Snapshot.coveredPlaces_subset (h.symm.closed (s'.closed_coveredPlaces key))

theorem coveredPlaces_eq : s.coveredPlaces key = s'.coveredPlaces key :=
  Finset.Subset.antisymm h.coveredPlaces_subset h.symm.coveredPlaces_subset

end SameShape

/-! ## Another hash at one place -/

/-- The same scopes everywhere, but for the hash at one place. -/
structure RehashedAt (s s' : Snapshot) (place : ScopeRef) (hash : Hash) : Prop
    extends SameShape s s' where
  hashAt : ∀ ref, s'.hashAt ref = if ref = place then hash else s.hashAt ref

theorem tree?_set {place ref : ScopeRef} {t t' : ScopeTree} (h : s.tree? place = some t) :
    (⟨s.trees.set place.tree t'⟩ : Snapshot).tree? ref =
      if ref.tree = place.tree then some t' else s.tree? ref := by
  have inside : place.tree < s.trees.length := (List.getElem?_eq_some_iff.mp h).1
  show (s.trees.set place.tree t')[ref.tree]? = _
  rw [List.getElem?_set]
  by_cases same : place.tree = ref.tree
  · rw [if_pos same, if_pos inside, if_pos same.symm]
  · rw [if_neg same, if_neg (Ne.symm same)]
    rfl

theorem scope?_of_tree? {ref : ScopeRef} {t : ScopeTree} (h : s.tree? ref = some t) :
    s.scope? ref = t.placed[ref.scope]? := by
  rw [scope?, h]
  rfl

/-- Where another hash was put in, a scope is found with the new one. -/
theorem scope?_set {t t' : ScopeTree} {place ref : ScopeRef} {hash : Hash}
    (atTree : s.tree? place = some t) (h : t.Rehashed t' place.scope hash) :
    (⟨s.trees.set place.tree t'⟩ : Snapshot).scope? ref =
      (s.scope? ref).map fun scope => if ref = place then { scope with hash } else scope := by
  by_cases inTree : ref.tree = place.tree
  · have old : s.tree? ref = some t := by
      rw [tree?, inTree]
      exact atTree
    have new : (⟨s.trees.set place.tree t'⟩ : Snapshot).tree? ref = some t' :=
      (tree?_set atTree).trans (if_pos inTree)
    have places : place.scope = ref.scope ↔ ref = place := by
      rw [ScopeRef.mk.injEq]
      simp [inTree, eq_comm]
    rw [scope?_of_tree? old, scope?_of_tree? new, h.placed, List.getElem?_modify]
    simp only [places]
    rfl
  · have other : ref ≠ place := fun same => inTree (congrArg ScopeRef.tree same)
    rw [scope?, tree?_set atTree, if_neg inTree]
    simp [other, scope?]

/-- Putting in a tree with another hash changes that hash alone. -/
theorem rehashedAt_set {t t' : ScopeTree} {place : ScopeRef} {hash : Hash} {x : PlacedScope}
    (atTree : s.tree? place = some t) (atScope : s.scope? place = some x)
    (h : t.Rehashed t' place.scope hash) :
    s.RehashedAt ⟨s.trees.set place.tree t'⟩ place hash where
  methodAt ref := by
    rw [methodAt, methodAt, tree?_set atTree]
    by_cases same : ref.tree = place.tree
    · have old : s.tree? ref = some t := by
        rw [tree?, same]
        exact atTree
      rw [if_pos same, old, Option.map_some, Option.map_some, h.method]
    · rw [if_neg same]
  shapes ref := by
    rw [scope?_set atTree h, Option.map_map]
    congr 1
    funext scope
    rw [Function.comp_apply]
    split <;> rfl
  hashAt ref := by
    rw [hashAt, hashAt, scope?_set atTree h]
    by_cases same : ref = place
    · subst same
      rw [atScope, if_pos rfl]
      simp
    · simp [same]

/-- The sum of the spread hashes at some places. -/
def sumAt (s : Snapshot) (places : Finset ScopeRef) : UInt64 :=
  UInt64.ofNat (∑ ref ∈ places, (Hash.avalanche (s.hashAt ref)).toNat)

theorem resolve_of_hasGroup (h : s.hasGroup key = true) :
    s.resolve key = some (s.sumAt (s.coveredPlaces key)) := by
  rw [resolve, if_pos h, sumOfHashes_eq, sumAt,
    sum_coveredPlaces s key fun hash => (Hash.avalanche hash).toNat]

/-- A group without scopes reaches nothing. -/
theorem hasGroup_of_mem_coveredPlaces {ref : ScopeRef} (h : ref ∈ s.coveredPlaces key) :
    s.hasGroup key = true := by
  by_contra hasNot
  have closed : s.Closed key ∅ :=
    ⟨fun ref scope here group => hasNot (hasGroup_iff.mpr ⟨ref, scope, here, group⟩), nofun⟩
  exact coveredPlaces_subset closed h

/-- A sum with one summand set apart. -/
theorem sumAt_eq_add {places : Finset ScopeRef} {place : ScopeRef} (mem : place ∈ places) :
    s.sumAt places = Hash.avalanche (s.hashAt place) + s.sumAt (places.erase place) := by
  rw [sumAt, sumAt, ← Finset.add_sum_erase _ _ mem, UInt64.ofNat_add, UInt64.ofNat_toNat]

namespace RehashedAt

variable {place : ScopeRef} {hash : Hash} (h : s.RehashedAt s' place hash)
include h

theorem sumAt_eq {places : Finset ScopeRef} (out : place ∉ places) :
    s'.sumAt places = s.sumAt places := by
  have same : ∀ ref ∈ places, s'.hashAt ref = s.hashAt ref := by
    intro ref mem
    rw [h.hashAt, if_neg (ne_of_mem_of_not_mem mem out)]
  rw [sumAt, sumAt, Finset.sum_congr rfl fun ref mem => by rw [same ref mem]]

/-- One other summand makes another sum, since spreading a hash loses nothing. -/
theorem sumAt_ne {places : Finset ScopeRef} (mem : place ∈ places)
    (differs : hash ≠ s.hashAt place) :
    s'.sumAt places ≠ s.sumAt places := by
  intro same
  rw [sumAt_eq_add mem, sumAt_eq_add mem, h.sumAt_eq (Finset.notMem_erase place places),
    UInt64.add_left_inj, h.hashAt, if_pos rfl] at same
  exact differs (Hash.avalanche_injective same)

/-- **A fingerprint shows a new hash exactly if the group reaches it.** -/
theorem resolve_ne_iff (differs : hash ≠ s.hashAt place) :
    s.resolve key ≠ s'.resolve key ↔ place ∈ s.coveredPlaces key := by
  have places : s.coveredPlaces key = s'.coveredPlaces key := h.toSameShape.coveredPlaces_eq
  constructor
  · intro other
    by_contra out
    apply other
    by_cases has : s.hasGroup key = true
    · rw [resolve_of_hasGroup has, resolve_of_hasGroup (h.toSameShape.hasGroup has), ← places,
        h.sumAt_eq out]
    · have hasNot : ¬s'.hasGroup key = true := fun has' => has (h.toSameShape.symm.hasGroup has')
      rw [resolve, resolve, if_neg has, if_neg hasNot]
  · intro mem
    have has := hasGroup_of_mem_coveredPlaces mem
    have has' := h.toSameShape.hasGroup has
    rw [resolve_of_hasGroup has, resolve_of_hasGroup has', ← places]
    exact fun same => h.sumAt_ne mem differs (Option.some.inj same).symm

end RehashedAt

/-! ## The only tree of a method is replaced -/

/-- A tree among those before it and those behind it; another one can be put in its place. -/
theorem exists_split {t : ScopeTree} {place : ScopeRef} (h : s.tree? place = some t) :
    ∃ before behind, s.trees = before ++ t :: behind ∧
      ∀ u, s.trees.set place.tree u = before ++ u :: behind := by
  obtain ⟨inside, here⟩ := List.getElem?_eq_some_iff.mp h
  have put (u : ScopeTree) : s.trees.set place.tree u =
      s.trees.take place.tree ++ u :: s.trees.drop (place.tree + 1) := by
    rw [List.set_eq_take_append_cons_drop, if_pos inside]
  refine ⟨_, _, ?_, put⟩
  rw [← put, ← here, List.set_getElem_self]

/-- Merging in a tree for a method with a single one replaces that, apart from the order. -/
theorem merge_perm_set {t t' : ScopeTree} {place : ScopeRef} (single : s.treesOf t.method = [t])
    (atTree : s.tree? place = some t) (same : t'.method = t.method) :
    (s.merge ⟨[t']⟩).trees.Perm (s.trees.set place.tree t') := by
  obtain ⟨before, behind, trees, put⟩ := exists_split atTree
  have alone : (before ++ behind).filter (·.method == t.method) = [] := by
    rw [treesOf, trees, List.filter_append, List.filter_cons, if_pos (beq_self_eq_true _)] at single
    have lengths := congrArg List.length single
    simp only [List.length_append, List.length_cons, List.length_nil] at lengths
    rw [List.filter_append, List.append_eq_nil_iff, ← List.length_eq_zero_iff,
      ← List.length_eq_zero_iff]
    omega
  -- The trees before and behind are of other methods, so the merge keeps them.
  have kept : (s.trees.filter fun u => !(⟨[t']⟩ : Snapshot).hasMethod u.method) =
      before ++ behind := by
    have known (u : ScopeTree) :
        (⟨[t']⟩ : Snapshot).hasMethod u.method = (u.method == t.method) := by
      simp [hasMethod, same, eq_comm]
    simp only [known]
    rw [trees, List.filter_append, List.filter_cons_of_neg (by simp), ← List.filter_append,
      List.filter_eq_self]
    intro u mem
    simpa using List.filter_eq_nil_iff.mp alone u mem
  rw [put]
  show (_ ++ [t']).Perm _
  rw [kept]
  exact (List.perm_append_singleton _ _).trans List.perm_middle.symm

section Replace

variable {t t' : ScopeTree} {place : ScopeRef} {x : PlacedScope} {hash : Hash}

/-- The groups whose fingerprints change are those that reach the scope. -/
theorem mem_changedKeys_replace (single : s.treesOf t.method = [t])
    (atTree : s.tree? place = some t) (atScope : s.scope? place = some x)
    (rehashed : t.Rehashed t' place.scope hash) (differs : hash ≠ x.hash) :
    key ∈ s.changedKeys (s.merge ⟨[t']⟩) ↔ place ∈ s.closure key := by
  have perm := merge_perm_set single atTree rehashed.method
  have changed := rehashedAt_set atTree atScope rehashed
  rw [mem_changedKeys, closure_eq, Finset.mem_coe, hasGroup_eq_of_perm perm,
    resolve_eq_of_perm perm, changed.resolve_ne_iff (by rwa [hashAt_of_scope atScope])]
  exact and_iff_right_of_imp fun mem =>
    changed.toSameShape.hasGroup (hasGroup_of_mem_coveredPlaces mem)

/-- **One new hash changes just the groups that reach it.** When the only tree of a method is
replaced by one that differs in the hash of a single scope, a group is invalidated directly exactly
if that scope belongs to what the group reaches. -/
theorem direct_iff_mem_closure (single : s.treesOf t.method = [t])
    (atTree : s.tree? place = some t) (atScope : s.scope? place = some x)
    (rehashed : t.Rehashed t' place.scope hash) (differs : hash ≠ x.hash) :
    ⟨key, .direct⟩ ∈ s.diff (s.merge ⟨[t']⟩) ↔ place ∈ s.closure key := by
  rw [mem_diff_direct]
  exact mem_changedKeys_replace single atTree atScope rehashed differs

end Replace

/-- A method with a scope inside that is in no group. -/
def helper (hash : Hash) : ScopeTree :=
  ⟨⟨"A", "g", "()V"⟩, ⟨.methodRoot, none, 6, []⟩, .cons ⟨.restart, none, hash, []⟩ .nil .nil⟩

/-- The method and one in a group that depends on it. -/
def withHelper : Snapshot :=
  ⟨[⟨⟨"A", "f", "()V"⟩, ⟨.methodRoot, some 3, 5, [⟨"A", "g", "()V"⟩]⟩, .nil⟩, helper 7]⟩

/-- The group reaches the scope inside. -/
theorem mem_closure_withHelper : ⟨1, 1⟩ ∈ withHelper.closure 3 := by
  intro places closed
  have start : ⟨0, 0⟩ ∈ places := closed.tagged ⟨0, 0⟩ _ rfl rfl
  exact closed.follow ⟨0, 0⟩ start _ rfl _ List.mem_cons_self ⟨1, 1⟩ _ _ rfl rfl rfl

theorem direct_of_withHelper :
    withHelper.treesOf (helper 7).method = [helper 7] ∧
      withHelper.tree? ⟨1, 1⟩ = some (helper 7) ∧
      (∃ x, withHelper.scope? ⟨1, 1⟩ = some x ∧ 8 ≠ x.hash) ∧
      (helper 7).Rehashed (helper 8) 1 8 ∧
      ⟨3, .direct⟩ ∈ withHelper.diff (withHelper.merge ⟨[helper 8]⟩) := by
  have single : withHelper.treesOf (helper 7).method = [helper 7] := rfl
  have atTree : withHelper.tree? ⟨1, 1⟩ = some (helper 7) := rfl
  have differs : (8 : Hash) ≠ 7 := by decide
  have rehashed : (helper 7).Rehashed (helper 8) 1 8 := ⟨rfl, rfl⟩
  refine ⟨single, atTree, ⟨_, rfl, differs⟩, rehashed, ?_⟩
  exact (direct_iff_mem_closure single atTree rfl rehashed differs).mpr mem_closure_withHelper

end Snapshot

end Recompose
