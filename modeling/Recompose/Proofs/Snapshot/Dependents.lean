import Recompose.Proofs.Snapshot.Rehash
import Recompose.Scope.Build

/-!
What becomes of a scope that depends on a method when that method changes: is the nearest group
around it invalidated? Main results: it is if the scope belongs to what the group reaches, and so
whenever the scope carries a key itself; and it is not in general, since the dependencies of a scope
without a key are followed only once its method is reached.
-/

namespace Recompose

namespace Snapshot

variable {s : Snapshot} {key : GroupKey}

/-- The key of a scope or else of the nearest scope around it that has one. -/
inductive NearestKey (s : Snapshot) : ScopeRef → GroupKey → Prop where
  | own {ref : ScopeRef} {scope : PlacedScope} {key : GroupKey} (here : s.scope? ref = some scope)
    (group : scope.group = some key) : NearestKey s ref key
  | around {ref : ScopeRef} {scope : PlacedScope} {parent : Nat} {key : GroupKey}
    (here : s.scope? ref = some scope) (group : scope.group = none)
    (inside : scope.parent = some parent) (outer : NearestKey s ⟨ref.tree, parent⟩ key) :
    NearestKey s ref key

theorem NearestKey.eq_of_group {ref : ScopeRef} {scope : PlacedScope} {own : GroupKey}
    (h : s.NearestKey ref key) (here : s.scope? ref = some scope)
    (group : scope.group = some own) : own = key := by
  cases h with
  | own here' group' =>
    rw [here] at here'
    cases here'
    rw [group] at group'
    exact Option.some.inj group'
  | around here' none' =>
    rw [here] at here'
    cases here'
    rw [group] at none'
    cases none'

/-! ## Reaching a method -/

theorem mem_closure_of_group {ref : ScopeRef} {scope : PlacedScope}
    (here : s.scope? ref = some scope) (group : scope.group = some key) : ref ∈ s.closure key :=
  fun _ closed => closed.tagged ref scope here group

/-- With a scope a group reaches all scopes of the methods that it depends on. -/
theorem mem_closure_of_depends {ref next : ScopeRef} {scope inner : PlacedScope} {t : ScopeTree}
    (mem : ref ∈ s.closure key) (here : s.scope? ref = some scope)
    (depends : t.method ∈ scope.dependencies) (atTree : s.tree? next = some t)
    (atScope : s.scope? next = some inner) : next ∈ s.closure key :=
  fun places closed => closed.follow ref (mem places closed) scope here t.method depends next t inner
    atTree rfl atScope

/-! ## A method with a new root hash -/

section NewRoot

variable {t t' : ScopeTree} {place : ScopeRef} {x : PlacedScope} {hash : Hash}

/-- The merge has scopes inside others just where they were. -/
theorem rightInside_replace {inner : GroupKey} (single : s.treesOf t.method = [t])
    (atTree : s.tree? place = some t) (atScope : s.scope? place = some x)
    (rehashed : t.Rehashed t' place.scope hash) :
    (s.merge ⟨[t']⟩).RightInside key inner ↔ s.RightInside key inner := by
  have blind : ∀ scope scope' : PlacedScope, scope'.shape = scope.shape →
      scope.group = some inner ∧ scope.parentGroup = some key →
      scope'.group = some inner ∧ scope'.parentGroup = some key := by
    rintro scope scope' same ⟨group, around⟩
    have groups : scope'.group = scope.group := congrArg (·.group) same
    have parents : scope'.parentGroup = scope.parentGroup := congrArg (·.parentGroup) same
    exact ⟨groups.trans group, parents.trans around⟩
  have changed := (rehashedAt_set atTree atScope rehashed).toSameShape
  rw [RightInside, exists_scope_iff_of_perm (merge_perm_set single atTree rehashed.method)]
  exact ⟨changed.symm.exists_scope blind, changed.exists_scope blind⟩

/-- A group is invalidated, for either reason, exactly if it reaches the scope with the new hash or
a group right inside it does. -/
theorem reported_replace_iff (single : s.treesOf t.method = [t])
    (atTree : s.tree? place = some t) (atScope : s.scope? place = some x)
    (rehashed : t.Rehashed t' place.scope hash) (differs : hash ≠ x.hash) :
    (∃ reason, ⟨key, reason⟩ ∈ s.diff (s.merge ⟨[t']⟩)) ↔
      place ∈ s.closure key ∨ ∃ inner, s.RightInside key inner ∧ place ∈ s.closure inner := by
  have changed (k : GroupKey) : k ∈ s.changedKeys (s.merge ⟨[t']⟩) ↔ place ∈ s.closure k :=
    mem_changedKeys_replace single atTree atScope rehashed differs
  have widened : ⟨key, .parentWidening⟩ ∈ s.diff (s.merge ⟨[t']⟩) ↔
      place ∉ s.closure key ∧ ∃ inner, place ∈ s.closure inner ∧ s.RightInside key inner := by
    simp only [mem_diff_parentWidening, mem_parentKeys, changed,
      rightInside_replace single atTree atScope rehashed]
  constructor
  · rintro ⟨reason, listed⟩
    cases reason with
    | direct => exact .inl ((changed key).mp (mem_diff_direct.mp listed))
    | parentWidening =>
      obtain ⟨-, inner, reaches, inside⟩ := widened.mp listed
      exact .inr ⟨inner, inside, reaches⟩
  · intro reaches
    by_cases own : place ∈ s.closure key
    · exact ⟨.direct, mem_diff_direct.mpr ((changed key).mpr own)⟩
    · obtain ⟨inner, inside, reaches⟩ := reaches.resolve_left own
      exact ⟨.parentWidening, widened.mpr ⟨own, inner, reaches, inside⟩⟩

/-- **When a dependency changes.** The only tree of a method gets another root hash, and a scope
depends on the method; the nearest group with a key is looked at, from the scope outward. It is
invalidated directly if the scope has a key itself or at least belongs to what the group reaches.
All in all it is invalidated exactly if it reaches the method or a group right inside it does. -/
theorem nearest_reported_iff (single : s.treesOf t.method = [t]) (atTree : s.tree? place = some t)
    (root : place.scope = 0) (rehashed : t.Rehashed t' 0 hash) (differs : hash ≠ t.root.hash)
    {ref : ScopeRef} (here : s.scope? ref = some x) (depends : t.method ∈ x.dependencies)
    (nearest : s.NearestKey ref key) :
    (x.group.isSome ∨ ref ∈ s.closure key → ⟨key, .direct⟩ ∈ s.diff (s.merge ⟨[t']⟩)) ∧
      ((∃ reason, ⟨key, reason⟩ ∈ s.diff (s.merge ⟨[t']⟩)) ↔
        place ∈ s.closure key ∨ ∃ inner, s.RightInside key inner ∧ place ∈ s.closure inner) := by
  obtain ⟨r, atRoot, rootHash⟩ : ∃ r, s.scope? place = some r ∧ r.hash = t.root.hash := by
    refine ⟨_, (scope?_of_tree? atTree).trans (by rw [root]; rfl), rfl⟩
  rw [← root] at rehashed
  rw [← rootHash] at differs
  refine ⟨fun reaches => ?_, reported_replace_iff single atTree atRoot rehashed differs⟩
  have mem : ref ∈ s.closure key := by
    rcases reaches with own | mem
    · obtain ⟨k, group⟩ := Option.isSome_iff_exists.mp own
      exact mem_closure_of_group here (nearest.eq_of_group here group ▸ group)
    · exact mem
  refine mem_diff_direct.mpr ((mem_changedKeys_replace single atTree atRoot rehashed differs).mpr ?_)
  exact mem_closure_of_depends mem here depends atTree atRoot

end NewRoot

/-- A method without scopes inside. -/
def callee (hash : Hash) : ScopeTree :=
  ⟨⟨"App", "helper", "()V"⟩, ⟨.methodRoot, none, hash, []⟩, .nil⟩

/-- A method in a group that calls itself, and in it a scope without a key that calls another. -/
def selfCaller : Snapshot :=
  ⟨[⟨⟨"App", "run", "()V"⟩, ⟨.methodRoot, some 10, 1, [⟨"App", "run", "()V"⟩]⟩,
      .cons ⟨.replace, none, 2, [⟨"App", "helper", "()V"⟩]⟩ .nil .nil⟩,
    callee 3]⟩

/-- The group reaches the scope without a key by way of the method around it. -/
theorem direct_of_selfCaller :
    selfCaller.treesOf (callee 3).method = [callee 3] ∧
      selfCaller.tree? ⟨1, 0⟩ = some (callee 3) ∧ (callee 3).Rehashed (callee 4) 0 4 ∧
      (4 : Hash) ≠ (callee 3).root.hash ∧
      (∃ x, selfCaller.scope? ⟨0, 1⟩ = some x ∧ x.group = none ∧
        (callee 3).method ∈ x.dependencies) ∧
      selfCaller.NearestKey ⟨0, 1⟩ 10 ∧
      ⟨10, .direct⟩ ∈ selfCaller.diff (selfCaller.merge ⟨[callee 4]⟩) := by
  have single : selfCaller.treesOf (callee 3).method = [callee 3] := rfl
  have atTree : selfCaller.tree? ⟨1, 0⟩ = some (callee 3) := rfl
  have rehashed : (callee 3).Rehashed (callee 4) 0 4 := ⟨rfl, rfl⟩
  have differs : (4 : Hash) ≠ (callee 3).root.hash := by decide
  have depends : (callee 3).method ∈ [(callee 3).method] := List.mem_cons_self
  have nearest : selfCaller.NearestKey ⟨0, 1⟩ 10 := .around rfl rfl rfl (.own rfl rfl)
  have reaches : ⟨0, 1⟩ ∈ selfCaller.closure 10 := by
    have root : ⟨0, 0⟩ ∈ selfCaller.closure 10 := mem_closure_of_group rfl rfl
    exact mem_closure_of_depends root rfl List.mem_cons_self rfl rfl
  refine ⟨single, atTree, rehashed, differs, ⟨_, rfl, rfl, depends⟩, nearest, ?_⟩
  exact (nearest_reported_iff single atTree rfl rehashed differs rfl depends nearest).1
    (.inr reaches)

/-! ## A scope without a key -/

/-- The trees of a snapshot are what the scopes of methods were found to be. -/
def Built (s : Snapshot) : Prop :=
  ∀ t ∈ s.trees, ∃ profile method group instructions,
    ScopeTree.build profile method group instructions = .ok t

/-- A call inside a scope without a key, and that in the scope of a group. -/
def keylessCall : List Instruction :=
  [.immediate Opcode.bipush 10,
    .call Opcode.invokevirtual
      ⟨Profile.composer, "startRestartGroup", "(I)Landroidx/compose/runtime/Composer;", false⟩,
    .call Opcode.invokevirtual ⟨Profile.composer, "startReplaceGroup", "(I)V", false⟩,
    .call Opcode.invokestatic ⟨"App", "helper", "()V", false⟩,
    .call Opcode.invokevirtual ⟨Profile.composer, "endReplaceGroup", "()V", false⟩,
    .call Opcode.invokevirtual
      ⟨Profile.composer, "endRestartGroup", "()Landroidx/compose/runtime/ScopeUpdateScope;", false⟩,
    .plain 0xB1]

def keylessCaller : ScopeTree :=
  ⟨⟨"App", "run", "()V"⟩, ⟨.methodRoot, none, 12801283983288045992, []⟩,
    .cons ⟨.restart, some 10, 5033166512921359934, []⟩
      (.cons ⟨.replace, none, 3016749647913431228, [⟨"App", "helper", "()V"⟩]⟩ .nil .nil) .nil⟩

def keylessDependent : Snapshot :=
  ⟨[keylessCaller, callee 9361724014895839520]⟩

theorem built_keylessDependent : keylessDependent.Built := by
  intro t mem
  have caller : ScopeTree.build .composition ⟨"App", "run", "()V"⟩ none keylessCall =
      .ok keylessCaller := by decide +kernel
  have helper : ScopeTree.build .composition ⟨"App", "helper", "()V"⟩ none [.plain 0xB1] =
      .ok (callee 9361724014895839520) := by decide +kernel
  rcases List.mem_cons.mp mem with rfl | mem
  · exact ⟨_, _, _, _, caller⟩
  · cases List.mem_singleton.mp mem
    exact ⟨_, _, _, _, helper⟩

/-- The only group has one scope, which depends on nothing. -/
theorem closure_keylessDependent (key : GroupKey) :
    keylessDependent.closure key ⊆ {⟨0, 1⟩} := by
  refine Set.sInter_subset_of_mem ⟨?_, ?_⟩
  · intro ref scope here group
    have tagged : ∀ p ∈ keylessDependent.placed, p.2.group ≠ none → p.1 = ⟨0, 1⟩ := by decide
    exact tagged _ (mem_placed_iff.mpr here) (group ▸ Option.some_ne_none key)
  · rintro ref rfl scope here m depends
    cases here
    cases depends

/-- **A dependent scope without a key may go unreported**, although a scope around it has a key. -/
theorem keyless_dependent_unreported :
    ¬∀ (s : Snapshot) (t t' : ScopeTree) (hash : Hash) (place ref : ScopeRef) (x : PlacedScope)
      (key : GroupKey), s.Built → s.treesOf t.method = [t] → s.tree? place = some t →
      place.scope = 0 → t.Rehashed t' 0 hash → hash ≠ t.root.hash → s.scope? ref = some x →
      s.methodAt ref ≠ some t.method → t.method ∈ x.dependencies → s.NearestKey ref key →
      ∃ reason, ⟨key, reason⟩ ∈ s.diff (s.merge ⟨[t']⟩) := by
  intro claim
  have single : keylessDependent.treesOf (callee 9361724014895839520).method =
      [callee 9361724014895839520] := rfl
  have rehashed : (callee 9361724014895839520).Rehashed (callee 1) 0 1 := ⟨rfl, rfl⟩
  have differs : (1 : Hash) ≠ 9361724014895839520 := by decide
  have nearest : keylessDependent.NearestKey ⟨0, 2⟩ 10 := .around rfl rfl rfl (.own rfl rfl)
  have reported := claim keylessDependent _ _ 1 ⟨1, 0⟩ ⟨0, 2⟩ _ 10 built_keylessDependent single rfl
    rfl rehashed differs rfl (by decide) List.mem_cons_self nearest
  have unreached (k : GroupKey) : (⟨1, 0⟩ : ScopeRef) ∉ keylessDependent.closure k := by
    intro reaches
    have := closure_keylessDependent k reaches
    simp at this
  have atRoot : keylessDependent.scope? ⟨1, 0⟩ =
      some ⟨(callee 9361724014895839520).root, none, none, []⟩ := rfl
  rcases (reported_replace_iff single rfl atRoot rehashed differs).mp reported with
    own | ⟨k, -, inner⟩
  · exact unreached 10 own
  · exact unreached k inner

end Snapshot

end Recompose
