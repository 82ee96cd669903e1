import Mathlib
import Recompose.Proofs.Snapshot.Places
import Recompose.Snapshot.Closure

/-!
What a group reaches, as the least set of places closed under two rules: the scopes of the group
belong to it, and with a scope every scope of every tree of the methods that it depends on. Main
result: the fingerprint of a group sums the spread hashes over just this set, each place once.
-/

namespace Recompose

/-! ## Gathering -/

namespace Closure

variable {α : Type} [DecidableEq α] {next : α → List α}

variable (next) in
/-- What is pending and remains is gathered, and with an element all that comes next to it and
remains. -/
theorem gather_complete (remaining pending : List α) :
    (∀ a ∈ pending, a ∈ remaining → a ∈ gather next remaining pending) ∧
      ∀ a ∈ gather next remaining pending, ∀ b ∈ next a, b ∈ remaining →
        b ∈ gather next remaining pending := by
  fun_induction gather next remaining pending with
  | case1 remaining pending found =>
    have gone : ∀ a ∈ pending, a ∉ remaining := by
      simpa [List.dropWhile_eq_nil_iff] using found
    exact ⟨fun a mem has => absurd has (gone a mem), nofun⟩
  | case2 remaining pending a later found ih =>
    obtain ⟨started, followed⟩ := ih
    -- Whatever waits behind `a` and is not `a` itself is found by the recursive call.
    have rest : ∀ b, (b ∈ next a ∨ b ∈ later) → b ∈ remaining →
        b ∈ a :: gather next (remaining.erase a) (next a ++ later) := by
      intro b waits has
      by_cases same : b = a
      · exact same ▸ List.mem_cons_self
      · exact List.mem_cons_of_mem _
          (started b (List.mem_append.mpr waits) ((List.mem_erase_of_ne same).mpr has))
    constructor
    · intro b mem has
      rw [← List.takeWhile_append_dropWhile (p := (· ∉ remaining)) (l := pending), found,
        List.mem_append, List.mem_cons] at mem
      rcases mem with skipped | rfl | waits
      · have := List.mem_takeWhile_imp skipped
        simp [has] at this
      · exact List.mem_cons_self
      · exact rest b (.inr waits) has
    · intro b mem c comes has
      rcases List.mem_cons.mp mem with rfl | mem
      · exact rest c (.inl comes) has
      · by_cases same : c = a
        · exact same ▸ List.mem_cons_self
        · exact List.mem_cons_of_mem _
            (followed b mem c comes ((List.mem_erase_of_ne same).mpr has))

/-- Whatever holds of the pending elements and passes on to those next to an element holds of all
that is gathered. -/
theorem gather_sound {P : α → Prop} {remaining pending : List α}
    (start : ∀ a ∈ pending, a ∈ remaining → P a)
    (step : ∀ a, P a → ∀ b ∈ next a, b ∈ remaining → P b) :
    ∀ a ∈ gather next remaining pending, P a := by
  fun_induction gather next remaining pending with
  | case1 remaining pending found => nofun
  | case2 remaining pending a later found ih =>
    have split := List.takeWhile_append_dropWhile (p := (· ∉ remaining)) (l := pending)
    have waiting : ∀ b ∈ a :: later, b ∈ pending := by
      intro b mem
      rw [← split, found]
      exact List.mem_append_right _ mem
    have remains : a ∈ remaining := by
      have head := List.head?_dropWhile_not (· ∉ remaining) pending
      rw [found] at head
      simpa using head
    have here : P a := start a (waiting a List.mem_cons_self) remains
    intro b mem
    rcases List.mem_cons.mp mem with rfl | mem
    · exact here
    · refine ih ?_ ?_ b mem
      · intro c waits has
        rcases List.mem_append.mp waits with comes | waits
        · exact step a here c comes (List.mem_of_mem_erase has)
        · exact start c (waiting c (List.mem_cons_of_mem _ waits)) (List.mem_of_mem_erase has)
      · exact fun c holds d comes has => step c holds d comes (List.mem_of_mem_erase has)

end Closure

namespace Snapshot

/-! ## The closure of a group -/

/-- Closed for a group: all its scopes belong to the set, and with a scope every scope of every tree
of the methods that it depends on. -/
structure Closed (s : Snapshot) (key : GroupKey) (places : Set ScopeRef) : Prop where
  tagged : ∀ ref scope, s.scope? ref = some scope → scope.group = some key → ref ∈ places
  follow : ∀ ref ∈ places, ∀ scope, s.scope? ref = some scope → ∀ m ∈ scope.dependencies,
    ∀ next t inner, s.tree? next = some t → t.method = m → s.scope? next = some inner →
      next ∈ places

/-- The method that a place belongs to. -/
def methodAt (s : Snapshot) (ref : ScopeRef) : Option MethodId :=
  (s.tree? ref).map (·.method)

def hashAt (s : Snapshot) (ref : ScopeRef) : Hash :=
  ((s.scope? ref).map (·.hash)).getD 0

theorem hashAt_of_scope {s : Snapshot} {ref : ScopeRef} {scope : PlacedScope}
    (h : s.scope? ref = some scope) : s.hashAt ref = scope.hash := by
  rw [hashAt, h]
  rfl

/-- Whether a placed scope counts for a group: it belongs to it, or to a method that it reaches. -/
def covers (s : Snapshot) (key : GroupKey) (p : ScopeRef × PlacedScope) : Bool :=
  (s.methodAt p.1).any (s.reached key).contains || p.2.group == some key

/-- The places that count for a group. -/
def coveredPlaces (s : Snapshot) (key : GroupKey) : Finset ScopeRef :=
  ((s.placed.filter (s.covers key)).map (·.1)).toFinset

theorem mem_coveredPlaces {s : Snapshot} {key : GroupKey} {ref : ScopeRef} :
    ref ∈ s.coveredPlaces key ↔
      ∃ scope, s.scope? ref = some scope ∧ s.covers key (ref, scope) = true := by
  simp only [coveredPlaces, List.mem_toFinset, List.mem_map, List.mem_filter, Prod.exists]
  constructor
  · rintro ⟨ref, scope, ⟨mem, counts⟩, rfl⟩
    exact ⟨scope, mem_placed_iff.mp mem, counts⟩
  · rintro ⟨scope, here, counts⟩
    exact ⟨ref, scope, ⟨mem_placed_iff.mpr here, counts⟩, rfl⟩

theorem covers_iff {s : Snapshot} {key : GroupKey} {ref : ScopeRef} {scope : PlacedScope} :
    s.covers key (ref, scope) = true ↔
      (∃ t, s.tree? ref = some t ∧ t.method ∈ s.reached key) ∨ scope.group = some key := by
  simp [covers, methodAt, Option.any_eq_true]

theorem mem_methods {s : Snapshot} {m : MethodId} : m ∈ s.methods ↔ ∃ t ∈ s.trees, t.method = m := by
  simp [methods]

theorem mem_methods_of_tree {s : Snapshot} {ref : ScopeRef} {t : ScopeTree}
    (h : s.tree? ref = some t) : t.method ∈ s.methods :=
  mem_methods.mpr ⟨t, List.mem_of_getElem? h, rfl⟩

theorem mem_dependenciesOf {s : Snapshot} {m d : MethodId} :
    d ∈ s.dependenciesOf m ↔
      ∃ t ∈ s.trees, t.method = m ∧ ∃ scope ∈ t.scopes, d ∈ scope.dependencies := by
  simp [dependenciesOf, treesOf, and_assoc]

/-- The dependencies at a place are among those of its method. -/
theorem mem_dependenciesOf_of_place {s : Snapshot} {ref : ScopeRef} {t : ScopeTree}
    {scope : PlacedScope} {d : MethodId} (ht : s.tree? ref = some t) (hs : s.scope? ref = some scope)
    (hd : d ∈ scope.dependencies) : d ∈ s.dependenciesOf t.method := by
  have here : t.placed[ref.scope]? = some scope := by
    rw [scope?, ht] at hs
    exact hs
  refine mem_dependenciesOf.mpr ⟨t, List.mem_of_getElem? ht, rfl, scope.toScope, ?_, hd⟩
  rw [← t.map_toScope_placed]
  exact List.mem_map_of_mem (List.mem_of_getElem? here)

theorem mem_tagged {s : Snapshot} {key : GroupKey} {ref : ScopeRef} {scope : PlacedScope} :
    (ref, scope) ∈ s.tagged key ↔ s.scope? ref = some scope ∧ scope.group = some key := by
  simp [tagged, mem_placed_iff]

/-- The places that count for a group form a closed set. -/
theorem closed_coveredPlaces (s : Snapshot) (key : GroupKey) :
    s.Closed key (s.coveredPlaces key) := by
  obtain ⟨started, followed⟩ := Closure.gather_complete s.dependenciesOf s.methods
    ((s.tagged key).flatMap (·.2.dependencies))
  refine ⟨fun ref scope here group => ?_, ?_⟩
  · exact mem_coveredPlaces.mpr ⟨scope, here, covers_iff.mpr (.inr group)⟩
  · intro ref mem scope here d depends next t inner tree method there
    obtain ⟨scope', here', counts⟩ := mem_coveredPlaces.mp mem
    obtain rfl : scope = scope' := by rwa [here, Option.some_inj] at here'
    have known : d ∈ s.methods := method ▸ mem_methods_of_tree tree
    have reached : d ∈ s.reached key := by
      rcases covers_iff.mp counts with ⟨t', tree', reached⟩ | group
      · exact followed _ reached d (mem_dependenciesOf_of_place tree' here depends) known
      · exact started d
          (List.mem_flatMap.mpr ⟨(ref, scope), mem_tagged.mpr ⟨here, group⟩, depends⟩) known
    exact mem_coveredPlaces.mpr ⟨inner, there, covers_iff.mpr (.inl ⟨t, tree, method ▸ reached⟩)⟩

/-- Every closed set has the places that count for the group. -/
theorem coveredPlaces_subset {s : Snapshot} {key : GroupKey} {places : Set ScopeRef}
    (closed : s.Closed key places) : ↑(s.coveredPlaces key) ⊆ places := by
  -- Every scope of a reached method is in the set, whichever of its trees it belongs to.
  have inside : ∀ m ∈ s.reached key, ∀ ref t scope, s.tree? ref = some t → t.method = m →
      s.scope? ref = some scope → ref ∈ places := by
    refine Closure.gather_sound ?_ ?_
    · intro m mem _ ref t inner tree method there
      obtain ⟨⟨start, scope⟩, tagged, depends⟩ := List.mem_flatMap.mp mem
      obtain ⟨here, group⟩ := mem_tagged.mp tagged
      exact closed.follow start (closed.tagged start scope here group) scope here m depends ref t
        inner tree method there
    · intro m all d depends _ ref t inner tree method there
      obtain ⟨u, mem, same, scope, scopeMem, depends⟩ := mem_dependenciesOf.mp depends
      obtain ⟨place, placed, atTree, atScope, rfl⟩ := exists_place_of_mem mem scopeMem
      exact closed.follow place (all place u placed atTree same atScope) placed atScope d depends
        ref t inner tree method there
  intro ref mem
  obtain ⟨scope, here, counts⟩ := mem_coveredPlaces.mp mem
  rcases covers_iff.mp counts with ⟨t, tree, reached⟩ | group
  · exact inside t.method reached ref t scope tree rfl here
  · exact closed.tagged ref scope here group

/-! ## The fingerprint -/

/-- Adding up words is adding up numbers, up to the word size. -/
theorem sumOfHashes_eq (scopes : List Scope) :
    sumOfHashes scopes =
      UInt64.ofNat (scopes.map fun scope => (Hash.avalanche scope.hash).toNat).sum := by
  -- The sum so far is generalized, since the fold starts from it.
  have general : ∀ start : UInt64,
      scopes.foldl (fun sum scope => sum + Hash.avalanche scope.hash) start =
        start + UInt64.ofNat (scopes.map fun scope => (Hash.avalanche scope.hash).toNat).sum := by
    induction scopes with
    | nil =>
      intro start
      exact (UInt64.add_zero start).symm
    | cons scope scopes ih =>
      intro start
      rw [List.foldl_cons, ih, List.map_cons, List.sum_cons, UInt64.ofNat_add, UInt64.ofNat_toNat,
        UInt64.add_assoc]
  rw [sumOfHashes, general, UInt64.zero_add]

/-- The placed scopes of one tree, without their places. -/
theorem map_scope_filter (t : ScopeTree) (i : Nat) (counts : Scope → Bool) :
    ((t.placed.zipIdx.map fun (scope, n) => ((⟨i, n⟩ : ScopeRef), scope)).filter
        fun p => counts p.2.toScope).map (·.2.toScope) = t.scopes.filter counts := by
  have scopes : (t.placed.zipIdx.map fun (scope, n) => ((⟨i, n⟩ : ScopeRef), scope)).map
      (·.2.toScope) = t.scopes := by
    rw [List.map_map, ← t.map_toScope_placed, ← List.zipIdx_map_fst 0 t.placed, List.map_map]
    simp
  rw [← scopes]
  exact (List.filter_map (f := fun p : ScopeRef × PlacedScope => p.2.toScope)).symm

/-- The members of a group are the scopes at the places that count, in order. -/
theorem members_eq (s : Snapshot) (key : GroupKey) :
    s.members key = (s.placed.filter (s.covers key)).map (·.2.toScope) := by
  have trees : s.trees = s.trees.zipIdx.map (·.1) := (List.zipIdx_map_fst 0 s.trees).symm
  rw [members, placed, List.filter_flatMap, List.map_flatMap]
  conv_lhs => rw [trees, List.flatMap_map]
  refine List.flatMap_congr ?_
  rintro ⟨t, i⟩ mem
  have here : ∀ n, s.methodAt ⟨i, n⟩ = some t.method := by
    intro n
    rw [methodAt, tree?, List.mem_zipIdx_iff_getElem?.mp mem]
    rfl
  have counts : ∀ p ∈ t.placed.zipIdx.map fun (scope, n) => ((⟨i, n⟩ : ScopeRef), scope),
      s.covers key p =
        ((s.reached key).contains t.method || p.2.toScope.group == some key) := by
    intro p mem
    obtain ⟨⟨scope, n⟩, -, rfl⟩ := List.mem_map.mp mem
    rw [covers, here]
    rfl
  -- In a tree of a reached method all scopes count, and in any other those of the group.
  rw [List.filter_congr counts, map_scope_filter t i fun scope =>
    (s.reached key).contains t.method || scope.group == some key]
  cases (s.reached key).contains t.method with
  | true => simp
  | false => simp

/-- Summing over the places that count is summing over the scopes there. -/
theorem sum_coveredPlaces (s : Snapshot) (key : GroupKey) (weight : Hash → Nat) :
    ∑ ref ∈ s.coveredPlaces key, weight (s.hashAt ref) =
      ((s.members key).map fun scope => weight scope.hash).sum := by
  have places : ((s.placed.filter (s.covers key)).map (·.1)).Nodup :=
    s.nodup_places.sublist (List.filter_sublist.map _)
  have hashes : ∀ p ∈ s.placed.filter (s.covers key), weight (s.hashAt p.1) = weight p.2.hash := by
    intro p mem
    rw [hashAt_of_scope (mem_placed_iff.mp (List.mem_of_mem_filter mem))]
  rw [coveredPlaces, List.sum_toFinset _ places, members_eq, List.map_map, List.map_map]
  exact congrArg List.sum (List.map_congr_left hashes)

theorem hasGroup_iff {s : Snapshot} {key : GroupKey} :
    s.hasGroup key = true ↔ ∃ ref scope, s.scope? ref = some scope ∧ scope.group = some key := by
  simp [hasGroup, mem_placed_iff]

/-- **The fingerprint of a group.** There is none exactly if no scope carries the key; otherwise it
is the sum, modulo the word size, of the spread hashes over the least closed set of the group. -/
theorem resolve_eq_sum_over_least (s : Snapshot) (key : GroupKey) :
    (s.resolve key = none ↔
        ∀ ref scope, s.scope? ref = some scope → scope.group ≠ some key) ∧
      ∃ places : Finset ScopeRef, IsLeast {set | s.Closed key set} ↑places ∧
        ((∃ ref scope, s.scope? ref = some scope ∧ scope.group = some key) →
          s.resolve key =
            some (UInt64.ofNat (∑ ref ∈ places, (Hash.avalanche (s.hashAt ref)).toNat))) := by
  constructor
  · rw [resolve]
    split
    · next has =>
      obtain ⟨ref, scope, here, group⟩ := hasGroup_iff.mp has
      exact iff_of_false nofun fun none => none ref scope here group
    · next hasNot =>
      refine iff_of_true rfl fun ref scope here group => hasNot ?_
      exact hasGroup_iff.mpr ⟨ref, scope, here, group⟩
  · refine ⟨s.coveredPlaces key, ⟨s.closed_coveredPlaces key, ?_⟩, fun has => ?_⟩
    · intro set closed
      exact coveredPlaces_subset closed
    · rw [resolve, if_pos (hasGroup_iff.mpr has), sumOfHashes_eq,
        sum_coveredPlaces s key fun hash => (Hash.avalanche hash).toNat]

/-- A method that depends on itself, with a scope inside that is in no group. -/
def selfCalling : Snapshot :=
  ⟨[⟨⟨"A", "f", "()V"⟩, ⟨.methodRoot, some 3, 5, [⟨"A", "f", "()V"⟩]⟩,
    .cons ⟨.restart, none, 7, []⟩ .nil .nil⟩]⟩

theorem resolve_of_selfCalling :
    (∃ ref scope, selfCalling.scope? ref = some scope ∧ scope.group = some 3) ∧
      ∃ places : Finset ScopeRef, IsLeast {set | selfCalling.Closed 3 set} ↑places ∧
        selfCalling.resolve 3 =
          some (UInt64.ofNat (∑ ref ∈ places, (Hash.avalanche (selfCalling.hashAt ref)).toNat)) := by
  have has : ∃ ref scope, selfCalling.scope? ref = some scope ∧ scope.group = some 3 :=
    ⟨⟨0, 0⟩, _, rfl, rfl⟩
  obtain ⟨-, places, least, sum⟩ := resolve_eq_sum_over_least selfCalling 3
  exact ⟨has, places, least, sum has⟩

end Snapshot

end Recompose
