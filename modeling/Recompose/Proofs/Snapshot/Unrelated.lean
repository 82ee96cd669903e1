import Recompose.Proofs.Snapshot.Merge
import Recompose.Proofs.Snapshot.Rehash

/-!
A merge elsewhere. The incoming trees are of methods that a group neither reaches nor depends on, and
none of their scopes belongs to it. The merge drops trees, moves others to new places and adds some,
but the group reaches the same scopes in the same order, so its fingerprint stays.
-/

namespace Recompose

namespace Snapshot

variable {s incoming : Snapshot} {key : GroupKey}

/-- The incoming trees do not touch what a group reaches: they have no scope of the group, and their
methods neither own a scope that the group reaches nor are among the dependencies of one. -/
structure Unrelated (s incoming : Snapshot) (key : GroupKey) : Prop where
  untagged : ∀ ref scope, incoming.scope? ref = some scope → scope.group ≠ some key
  owner : ∀ t ∈ incoming.trees, ∀ ref ∈ s.closure key, s.methodAt ref ≠ some t.method
  dependency : ∀ t ∈ incoming.trees, ∀ ref ∈ s.closure key, ∀ scope, s.scope? ref = some scope →
    t.method ∉ scope.dependencies

/-! ## What a group reaches -/

/-- Every scope of a method that a group reaches belongs to its closure. -/
theorem mem_closure_of_reached {ref : ScopeRef} {t : ScopeTree} {scope : PlacedScope}
    (reached : t.method ∈ s.reached key) (atTree : s.tree? ref = some t)
    (here : s.scope? ref = some scope) : ref ∈ s.closure key := by
  rw [closure_eq, Finset.mem_coe]
  exact mem_coveredPlaces.mpr ⟨scope, here, covers_iff.mpr (.inl ⟨t, atTree, reached⟩)⟩

/-- Only methods with a tree are reached. -/
theorem mem_methods_of_reached : ∀ m ∈ s.reached key, m ∈ s.methods :=
  Closure.gather_sound (fun _ _ known => known) fun _ _ _ _ known => known

/-- What a reached method depends on is a dependency of some scope of the closure. -/
theorem exists_dependent_of_reached {m d : MethodId} (reached : m ∈ s.reached key)
    (depends : d ∈ s.dependenciesOf m) :
    ∃ ref ∈ s.closure key, ∃ scope, s.scope? ref = some scope ∧ d ∈ scope.dependencies := by
  obtain ⟨t, mem, rfl, scope, inside, depends⟩ := mem_dependenciesOf.mp depends
  obtain ⟨ref, placed, atTree, here, rfl⟩ := exists_place_of_mem mem inside
  exact ⟨ref, mem_closure_of_reached reached atTree here, placed, here, depends⟩

/-- What a tree adds to the scopes that a group reaches. -/
def share (s : Snapshot) (key : GroupKey) (t : ScopeTree) : List Scope :=
  if (s.reached key).contains t.method then t.scopes else t.scopes.filter (·.group == some key)

theorem members_eq_flatMap (s : Snapshot) (key : GroupKey) :
    s.members key = s.trees.flatMap (s.share key) := rfl

/-- A tree of a method that is not reached, without scopes of the group, adds nothing. -/
theorem share_eq_nil {t : ScopeTree} (unreached : t.method ∉ s.reached key)
    (untagged : ∀ scope ∈ t.scopes, scope.group ≠ some key) : s.share key t = [] := by
  rw [share, if_neg (by simpa using unreached), List.filter_eq_nil_iff]
  intro scope inside
  simpa using untagged scope inside

/-! ## The merge -/

/-- A tree of a merge is an incoming one or was there, of a method without an incoming tree. -/
theorem mem_trees_merge {t : ScopeTree} :
    t ∈ (s.merge incoming).trees ↔
      (t ∈ s.trees ∧ incoming.hasMethod t.method = false) ∨ t ∈ incoming.trees := by
  simp [merge]

/-- A method without an incoming tree has a tree in the merge if it had one. -/
theorem mem_methods_merge {m : MethodId} (kept : incoming.hasMethod m = false) :
    m ∈ (s.merge incoming).methods ↔ m ∈ s.methods := by
  simp only [mem_methods, mem_trees_merge]
  constructor
  · rintro ⟨t, ⟨mem, -⟩ | mem, rfl⟩
    · exact ⟨t, mem, rfl⟩
    · rw [hasMethod_of_mem mem] at kept
      cases kept
  · rintro ⟨t, mem, rfl⟩
    exact ⟨t, .inl ⟨mem, kept⟩, rfl⟩

/-- A method without an incoming tree depends on what it did. -/
theorem dependenciesOf_merge {m : MethodId} (kept : incoming.hasMethod m = false) :
    (s.merge incoming).dependenciesOf m = s.dependenciesOf m := by
  rw [dependenciesOf, treesOf_merge, kept]
  rfl

/-- Elements for which nothing is listed may be dropped before listing. -/
theorem flatMap_filter_of_nil {α β : Type} {l : List α} {p : α → Bool} {f : α → List β}
    (h : ∀ a ∈ l, p a = false → f a = []) : (l.filter p).flatMap f = l.flatMap f := by
  induction l with
  | nil => rfl
  | cons a l ih =>
    have rest := ih fun b mem => h b (List.mem_cons_of_mem _ mem)
    cases kept : p a with
    | true => rw [List.filter_cons_of_pos kept, List.flatMap_cons, List.flatMap_cons, rest]
    | false =>
      rw [List.filter_cons_of_neg (by simp [kept]), List.flatMap_cons,
        h a List.mem_cons_self kept, rest, List.nil_append]

namespace Unrelated

variable (h : s.Unrelated incoming key)
include h

/-- A method that owns a scope of the closure has no incoming tree. -/
theorem hasMethod_of_owner {ref : ScopeRef} {t : ScopeTree} (mem : ref ∈ s.closure key)
    (atTree : s.tree? ref = some t) : incoming.hasMethod t.method = false := by
  by_contra has
  obtain ⟨u, arrives, same⟩ := exists_tree_of_hasMethod (Bool.not_eq_false _ ▸ has)
  refine h.owner u arrives ref mem ?_
  rw [methodAt, atTree, same]
  rfl

/-- Neither has a method that such a scope depends on. -/
theorem hasMethod_of_dependency {ref : ScopeRef} {scope : PlacedScope} {m : MethodId}
    (mem : ref ∈ s.closure key) (here : s.scope? ref = some scope)
    (depends : m ∈ scope.dependencies) : incoming.hasMethod m = false := by
  by_contra has
  obtain ⟨t, arrives, rfl⟩ := exists_tree_of_hasMethod (Bool.not_eq_false _ ▸ has)
  exact h.dependency t arrives ref mem scope here depends

theorem hasMethod_of_reached {m : MethodId} (reached : m ∈ s.reached key) :
    incoming.hasMethod m = false := by
  obtain ⟨t, mem, rfl⟩ := mem_methods.mp (mem_methods_of_reached m reached)
  obtain ⟨ref, placed, atTree, here, -⟩ := exists_place_of_mem mem List.mem_cons_self
  exact h.hasMethod_of_owner (mem_closure_of_reached reached atTree here) atTree

/-- A method with a scope of the group has no incoming tree. -/
theorem hasMethod_of_group {t : ScopeTree} {scope : Scope} (mem : t ∈ s.trees)
    (inside : scope ∈ t.scopes) (group : scope.group = some key) :
    incoming.hasMethod t.method = false := by
  obtain ⟨ref, placed, atTree, here, rfl⟩ := exists_place_of_mem mem inside
  exact h.hasMethod_of_owner (fun _ closed => closed.tagged ref placed here group) atTree

/-- The merge has just the scopes of the group that there were. -/
theorem exists_scope_merge_iff {P : PlacedScope → Prop}
    (group : ∀ scope, P scope → scope.group = some key) :
    (∃ ref scope, (s.merge incoming).scope? ref = some scope ∧ P scope) ↔
      ∃ ref scope, s.scope? ref = some scope ∧ P scope := by
  rw [exists_scope_iff, exists_scope_iff]
  constructor
  · rintro ⟨t, mem, scope, inside, holds⟩
    rcases mem_trees_merge.mp mem with ⟨mem, -⟩ | mem
    · exact ⟨t, mem, scope, inside, holds⟩
    · obtain ⟨ref, found, here, tagged⟩ :=
        exists_scope_iff (P := (·.group = some key)).mpr
          ⟨t, mem, scope, inside, group scope holds⟩
      exact absurd tagged (h.untagged ref found here)
  · rintro ⟨t, mem, scope, inside, holds⟩
    have known : scope.toScope ∈ t.scopes := t.map_toScope_placed ▸ List.mem_map_of_mem inside
    have kept := h.hasMethod_of_group mem known (group scope holds)
    exact ⟨t, mem_trees_merge.mpr (.inl ⟨mem, kept⟩), scope, inside, holds⟩

theorem hasGroup_merge : (s.merge incoming).hasGroup key = s.hasGroup key := by
  rw [Bool.eq_iff_iff, hasGroup_iff, hasGroup_iff]
  exact h.exists_scope_merge_iff fun _ group => group

/-- The scopes of the group depend on what they did. -/
theorem mem_taggedDependencies_merge {m : MethodId} :
    m ∈ ((s.merge incoming).tagged key).flatMap (·.2.dependencies) ↔
      m ∈ (s.tagged key).flatMap (·.2.dependencies) := by
  rw [mem_taggedDependencies, mem_taggedDependencies]
  exact h.exists_scope_merge_iff fun _ holds => holds.1

/-- A dependency of a scope of the group has no incoming tree. -/
theorem hasMethod_of_taggedDependency {m : MethodId}
    (pending : m ∈ (s.tagged key).flatMap (·.2.dependencies)) :
    incoming.hasMethod m = false := by
  obtain ⟨ref, scope, here, group, depends⟩ := mem_taggedDependencies.mp pending
  exact h.hasMethod_of_dependency (fun _ closed => closed.tagged ref scope here group) here depends

/-- A dependency of a reached method has no incoming tree. -/
theorem hasMethod_of_reachedDependency {m d : MethodId} (reached : m ∈ s.reached key)
    (depends : d ∈ s.dependenciesOf m) : incoming.hasMethod d = false := by
  obtain ⟨ref, mem, scope, here, depends⟩ := exists_dependent_of_reached reached depends
  exact h.hasMethod_of_dependency mem here depends

/-- No new method comes to be reached: what the merge reaches was reached. -/
theorem reached_of_merge : ∀ m ∈ (s.merge incoming).reached key, m ∈ s.reached key := by
  obtain ⟨started, followed⟩ := Closure.gather_complete s.dependenciesOf s.methods
    ((s.tagged key).flatMap (·.2.dependencies))
  refine Closure.gather_sound ?_ ?_
  · intro m pending known
    have pending := h.mem_taggedDependencies_merge.mp pending
    have kept := h.hasMethod_of_taggedDependency pending
    exact started m pending ((mem_methods_merge kept).mp known)
  · intro m reached d depends known
    rw [dependenciesOf_merge (h.hasMethod_of_reached reached)] at depends
    have kept := h.hasMethod_of_reachedDependency reached depends
    exact followed m reached d depends ((mem_methods_merge kept).mp known)

/-- No method is lost: what was reached is reached in the merge. -/
theorem reached_merge : ∀ m ∈ s.reached key, m ∈ (s.merge incoming).reached key := by
  obtain ⟨started, followed⟩ := Closure.gather_complete (s.merge incoming).dependenciesOf
    (s.merge incoming).methods (((s.merge incoming).tagged key).flatMap (·.2.dependencies))
  refine Closure.gather_sound ?_ ?_
  · intro m pending known
    have kept := h.hasMethod_of_taggedDependency pending
    exact started m (h.mem_taggedDependencies_merge.mpr pending) ((mem_methods_merge kept).mpr known)
  · intro m found d depends known
    -- Whatever the merge reaches was reached before, so its dependencies have no incoming trees.
    have reached := h.reached_of_merge m found
    have kept := h.hasMethod_of_reachedDependency reached depends
    rw [← dependenciesOf_merge (h.hasMethod_of_reached reached)] at depends
    exact followed m found d depends ((mem_methods_merge kept).mpr known)

/-! ## The same scopes -/

/-- **The group reaches the scopes that it did**, in the order in which it did. -/
theorem members_merge : (s.merge incoming).members key = s.members key := by
  have same : (s.merge incoming).share key = s.share key := by
    funext t
    have reached : ((s.merge incoming).reached key).contains t.method =
        (s.reached key).contains t.method := by
      rw [Bool.eq_iff_iff, List.contains_iff_mem, List.contains_iff_mem]
      exact ⟨h.reached_of_merge _, h.reached_merge _⟩
    rw [share, share, reached]
  have dropped : ∀ t ∈ s.trees, (!incoming.hasMethod t.method) = false → s.share key t = [] := by
    intro t mem gone
    have has : incoming.hasMethod t.method ≠ false := by simpa using gone
    exact share_eq_nil (fun reached => has (h.hasMethod_of_reached reached))
      fun scope inside group => has (h.hasMethod_of_group mem inside group)
  have added : ∀ t ∈ incoming.trees, s.share key t = [] := by
    intro t mem
    refine share_eq_nil (fun reached => ?_) fun scope inside group => ?_
    · have := h.hasMethod_of_reached reached
      rw [hasMethod_of_mem mem] at this
      cases this
    · obtain ⟨ref, placed, -, here, rfl⟩ := exists_place_of_mem mem inside
      exact h.untagged ref placed here group
  rw [members_eq_flatMap, members_eq_flatMap, same, merge, List.flatMap_append,
    flatMap_filter_of_nil dropped, List.flatMap_eq_nil_iff.mpr added, List.append_nil]

end Unrelated

/-- **An unrelated change leaves a group alone**: its fingerprint stays, so it is not invalidated
directly. -/
theorem resolve_merge_of_unrelated (h : s.Unrelated incoming key) :
    (s.merge incoming).resolve key = s.resolve key ∧
      ⟨key, .direct⟩ ∉ s.diff (s.merge incoming) := by
  have same : (s.merge incoming).resolve key = s.resolve key := by
    rw [resolve, resolve, h.hasGroup_merge, h.members_merge]
  refine ⟨same, fun listed => ?_⟩
  obtain ⟨-, differs⟩ := mem_changedKeys.mp (mem_diff_direct.mp listed)
  exact differs same.symm

/-- A method of a group of its own, and two methods that call each other. One of these is in a group,
the other calls an unknown method from a scope inside. -/
def pairBeside : Snapshot :=
  ⟨[⟨⟨"C", "h", "()V"⟩, ⟨.methodRoot, some 9, 1, []⟩, .nil⟩,
    ⟨⟨"A", "f", "()V"⟩, ⟨.methodRoot, some 3, 5, [⟨"A", "g", "()V"⟩]⟩, .nil⟩,
    ⟨⟨"A", "g", "()V"⟩, ⟨.methodRoot, none, 6, [⟨"A", "f", "()V"⟩]⟩,
      .cons ⟨.restart, none, 7, [⟨"Z", "z", "()V"⟩]⟩ .nil .nil⟩]⟩

/-- A new version of the first method, and a new method that calls into the group. -/
def besideThem : Snapshot :=
  ⟨[⟨⟨"C", "h", "()V"⟩, ⟨.methodRoot, some 9, 2, [⟨"A", "f", "()V"⟩]⟩, .nil⟩,
    ⟨⟨"D", "k", "()V"⟩, ⟨.methodRoot, some 4, 8, [⟨"A", "f", "()V"⟩]⟩, .nil⟩]⟩

theorem unrelated_besideThem : pairBeside.Unrelated besideThem 3 where
  untagged := by
    intro ref scope here
    have others : ∀ p ∈ besideThem.placed, p.2.group ≠ some 3 := by decide
    exact others _ (mem_placed_iff.mpr here)
  owner := by
    rw [closure_eq]
    have others : ∀ t ∈ besideThem.trees, ∀ ref ∈ pairBeside.coveredPlaces 3,
        pairBeside.methodAt ref ≠ some t.method := by decide +kernel
    exact others
  dependency := by
    rw [closure_eq]
    intro t mem ref covered scope here
    have others : ∀ t ∈ besideThem.trees, ∀ p ∈ pairBeside.placed,
        t.method ∉ p.2.dependencies := by decide +kernel
    exact others t mem _ (mem_placed_iff.mpr here)

/-- The group is present, and the merge moves its places. -/
theorem resolve_merge_besideThem :
    pairBeside.hasGroup 3 = true ∧ pairBeside.group 3 = [⟨1, 0⟩] ∧
      (pairBeside.merge besideThem).group 3 = [⟨0, 0⟩] ∧
      pairBeside.Unrelated besideThem 3 ∧
      (pairBeside.merge besideThem).resolve 3 = pairBeside.resolve 3 ∧
      ⟨3, .direct⟩ ∉ pairBeside.diff (pairBeside.merge besideThem) :=
  ⟨by decide, by decide, by decide, unrelated_besideThem,
    resolve_merge_of_unrelated unrelated_besideThem⟩

end Snapshot

end Recompose
