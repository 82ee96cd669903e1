import Recompose.Proofs.Scope.Closing
import Recompose.Proofs.Scope.Links

/-!
The limit on open scopes. A walk is stopped by the limit if and only if the scopes that it would
find without one nest deeper. Main result: under any limit the same tree is built as under a roomy
one, if every scope of that tree has few enough scopes around it, and none otherwise.
-/

namespace Recompose

/-! ## Scopes around a scope -/

namespace ScopeTree

/-- The scopes around a scope, innermost first, up to the root: the way that the links lead. -/
inductive Ancestry (t : ScopeTree) : Nat → List Nat → Prop
  | root {number : Nat} {s : PlacedScope} :
      t.scope? number = some s → s.parent = none → Ancestry t number []
  | inner {number parent : Nat} {s : PlacedScope} {above : List Nat} :
      t.scope? number = some s → s.parent = some parent → Ancestry t parent above →
        Ancestry t number (parent :: above)

/-- No scope has more than `limit` scopes around it, the root included. -/
def NestsWithin (t : ScopeTree) (limit : Nat) : Prop :=
  ∀ number above, t.Ancestry number above → above.length ≤ limit

variable {t : ScopeTree} {f : Forest} {first parent number : Nat} {parentGroup : Option GroupKey}
  {above : List Nat}

theorem Ancestry.unique (h : t.Ancestry number above) {above' : List Nat}
    (h' : t.Ancestry number above') : above' = above := by
  induction h generalizing above' with
  | root here none =>
    cases h' with
    | root => rfl
    | inner here' up =>
      obtain rfl := Option.some.inj (here.symm.trans here')
      rw [none] at up
      cases up
  | inner here up _ ih =>
    cases h' with
    | root here' none =>
      obtain rfl := Option.some.inj (here.symm.trans here')
      rw [none] at up
      cases up
    | inner here' up' rest =>
      obtain rfl := Option.some.inj (here.symm.trans here')
      obtain rfl := Option.some.inj (up.symm.trans up')
      rw [ih rest]

theorem ancestry_root (t : ScopeTree) : t.Ancestry 0 [] :=
  .root rfl rfl

namespace Stands

/-- A scope of the forest has no more scopes around it than the forest is deep, and those around the
forest. -/
theorem exists_ancestry (h : t.Stands f first parent parentGroup)
    (around : t.Ancestry parent above) :
    ∀ number, first ≤ number → number < first + f.size →
      ∃ inner, t.Ancestry number (inner ++ parent :: above) ∧ inner.length < f.depth := by
  induction f generalizing first parent parentGroup above with
  | nil =>
    intro number from' upto
    rw [Forest.size] at upto
    omega
  | cons scope nested rest nestedIh restIh =>
    obtain ⟨here, inside, behind⟩ := h.cons
    have own : t.Ancestry first (parent :: above) := .inner here rfl around
    intro number from' upto
    rw [Forest.depth]
    rcases Forest.number_cases from' upto with rfl | ⟨from', upto⟩ | ⟨from', upto⟩
    · exact ⟨[], own, by rw [List.length_nil]; omega⟩
    · obtain ⟨inner, up, few⟩ := nestedIh inside own number from' upto
      refine ⟨inner ++ [first], by simpa using up, ?_⟩
      rw [List.length_append, List.length_singleton]
      omega
    · obtain ⟨inner, up, few⟩ := restIh behind around number from' upto
      exact ⟨inner, up, by omega⟩

/-- One of its scopes has as many around it. -/
theorem exists_deepest (h : t.Stands f first parent parentGroup) (around : t.Ancestry parent above)
    (some : 0 < f.depth) :
    ∃ number inner, t.Ancestry number inner ∧ inner.length = above.length + f.depth := by
  induction f generalizing first parent parentGroup above with
  | nil => cases some
  | cons scope nested rest nestedIh restIh =>
    obtain ⟨here, inside, behind⟩ := h.cons
    have own : t.Ancestry first (parent :: above) := .inner here rfl around
    rw [Forest.depth]
    by_cases deeper : rest.depth ≤ nested.depth + 1
    · rw [Nat.max_eq_left deeper]
      rcases Nat.eq_zero_or_pos nested.depth with flat | deep
      · exact ⟨first, _, own, by rw [flat]; rfl⟩
      · obtain ⟨number, inner, up, length⟩ := nestedIh inside own deep
        refine ⟨number, inner, up, ?_⟩
        rw [List.length_cons] at length
        omega
    · rw [Nat.max_eq_right (by omega)]
      exact restIh behind around (by omega)

end Stands

/-- Every scope has its way up. -/
theorem exists_ancestry (t : ScopeTree) {number : Nat} (inside : number < t.size) :
    ∃ above, t.Ancestry number above ∧ above.length ≤ t.nested.depth := by
  rcases Nat.eq_zero_or_pos number with rfl | positive
  · exact ⟨[], t.ancestry_root, Nat.zero_le _⟩
  · obtain ⟨inner, up, few⟩ := (Stands.root t).exists_ancestry t.ancestry_root number positive
      (by rw [size] at inside; omega)
    refine ⟨_, up, ?_⟩
    rw [List.length_append, List.length_singleton]
    omega

theorem nestsWithin_iff {limit : Nat} : t.NestsWithin limit ↔ t.nested.depth ≤ limit := by
  constructor
  · intro within
    rcases Nat.eq_zero_or_pos t.nested.depth with flat | deep
    · omega
    · obtain ⟨number, inner, up, length⟩ := (Stands.root t).exists_deepest t.ancestry_root deep
      have := within number inner up
      rw [List.length_nil] at length
      omega
  · intro shallow number above up
    obtain ⟨s, here⟩ : ∃ s, t.scope? number = some s := by
      cases up with
      | root here => exact ⟨_, here⟩
      | inner here => exact ⟨_, here⟩
    obtain ⟨above', up', few⟩ := t.exists_ancestry ((t.exists_scope?_iff number).mp ⟨s, here⟩)
    rw [up'.unique up]
    omega

end ScopeTree

/-! ## Walks under different limits -/

namespace Walk

variable {profile : Profile} {w w' : Walk} {i : Instruction} {roomy : Nat}

theorem depth_le_of_step (h : w.step profile i = .ok w') : w.shape.depth ≤ w'.shape.depth := by
  rw [shape_of_step h]
  split
  · rw [Forest.depth_enclose_concat]
    exact Nat.le_max_left _ _
  · exact Nat.le_refl _

theorem depth_le_of_run {rest : List Instruction} (run : rest.foldlM (step profile) w = .ok w') :
    w.shape.depth ≤ w'.shape.depth := by
  induction rest generalizing w with
  | nil =>
    cases run
    exact Nat.le_refl _
  | cons i rest ih =>
    obtain ⟨next, first, run⟩ := exists_step_of_run run
    exact Nat.le_trans (depth_le_of_step first) (ih run)

/-- The limit counts only where a scope would be opened. -/
theorem step_withLimit (profile : Profile) (limit : Nat) (w : Walk) (i : Instruction) :
    w.step { profile with maxDepth := limit } i =
      match i.action? profile with
      | some (.enter kind) =>
        if limit ≤ w.inner.length then .error (w.take profile i)
        else .ok ((w.take profile i).enter kind).forgetKey
      | some (.exit kind) => .ok ((w.take profile i).exit kind).forgetKey
      | none => .ok { w.take profile i with key := i.keyBehind w.key } :=
  step_eq { profile with maxDepth := limit } w i

/-- A step under a limit is the step under another one, unless a scope too many would be open. -/
theorem step_limited (limit : Nat) (h : w.step { profile with maxDepth := roomy } i = .ok w')
    (fits : w.shape.depth ≤ limit + 1) :
    w.step { profile with maxDepth := limit } i =
      if w'.shape.depth ≤ limit + 1 then .ok w' else .error (w.take profile i) := by
  have same : i.action? { profile with maxDepth := roomy } = i.action? profile := rfl
  have shape := shape_of_step h
  rw [same] at shape
  rw [step_withLimit] at h ⊢
  cases action : i.action? profile with
  | none =>
    rw [action] at h shape
    rw [if_pos (by rw [shape]; exact fits)]
    exact h
  | some action' =>
    rw [action] at h shape
    cases action' with
    | exit kind =>
      rw [if_pos (by rw [shape]; exact fits)]
      exact h
    | enter kind =>
      have depth : w'.shape.depth = max w.shape.depth (w.inner.length + 2) := by
        rw [shape, Forest.depth_enclose_concat, List.length_reverse, length_outlines]
        rfl
      dsimp only at h ⊢
      split at h
      · cases h
      · by_cases full : limit ≤ w.inner.length
        · rw [if_pos full, if_neg (by omega)]
        · rw [if_neg full, if_pos (by omega)]
          exact h

/-- **A walk under a limit is the walk under another one, or it is stopped**, and which of the two
is told by the scopes that the other one finds. -/
theorem run_limited (limit : Nat) {rest : List Instruction}
    (run : rest.foldlM (step { profile with maxDepth := roomy }) w = .ok w')
    (fits : w.shape.depth ≤ limit + 1) :
    (w'.shape.depth ≤ limit + 1 →
        rest.foldlM (step { profile with maxDepth := limit }) w = .ok w') ∧
      (limit + 1 < w'.shape.depth →
        ∃ stuck, rest.foldlM (step { profile with maxDepth := limit }) w = .error stuck) := by
  induction rest generalizing w with
  | nil =>
    cases run
    exact ⟨fun _ => rfl, fun deep => absurd fits (Nat.not_le.mpr deep)⟩
  | cons i rest ih =>
    obtain ⟨next, first, run⟩ := exists_step_of_run run
    have same := step_limited limit first fits
    rw [List.foldlM_cons]
    by_cases fits' : next.shape.depth ≤ limit + 1
    · rw [same, if_pos fits']
      exact ih run fits'
    · rw [same, if_neg fits']
      have deep := depth_le_of_run run
      exact ⟨fun shallow => by omega, fun _ => ⟨_, rfl⟩⟩

/-- Where there is room for one more scope no instruction is refused. -/
theorem exists_step (room : w.inner.length < profile.maxDepth) (i : Instruction) :
    ∃ w', w.step profile i = .ok w' := by
  rw [step_eq]
  split
  · rw [if_neg (Nat.not_le.mpr room)]
    exact ⟨_, rfl⟩
  · exact ⟨_, rfl⟩
  · exact ⟨_, rfl⟩

theorem exists_run {rest : List Instruction}
    (room : w.inner.length + rest.length ≤ profile.maxDepth) :
    ∃ w', rest.foldlM (step profile) w = .ok w' := by
  induction rest generalizing w with
  | nil => exact ⟨w, rfl⟩
  | cons i rest ih =>
    rw [List.length_cons] at room
    obtain ⟨next, first⟩ : ∃ next, w.step profile i = .ok next := exists_step (by omega) i
    have one := length_inner_of_step first
    obtain ⟨w', later⟩ := ih (w := next) (by omega)
    exact ⟨w', (run_cons first).trans later⟩

end Walk

/-! ## Trees under different limits -/

namespace ScopeTree

/-- What fails in front fails in the whole. -/
theorem build_append_of_error {profile : Profile} {method : MethodId} {group : Option GroupKey}
    {first : List Instruction} {e : Error} (h : build profile method group first = .error e)
    (rest : List Instruction) : build profile method group (first ++ rest) = .error e := by
  rw [build] at h
  split at h
  · cases h
  · next stuck run =>
    have whole : walk profile group (first ++ rest) = .error stuck := by
      rw [walk, List.foldlM_append]
      rw [walk] at run
      rw [run]
      rfl
    rw [build, whole]
    exact h

/-- **The limit rejects and never alters.** Where there is room for every instruction a tree is
built. Under any limit this very tree is built if no scope of it has more scopes around it, the root
included, and the limit is reported otherwise; and what is rejected in front is rejected in the
whole. -/
theorem build_limited (profile : Profile) (method : MethodId) (group : Option GroupKey)
    {instructions : List Instruction} {roomy : Nat} (room : instructions.length ≤ roomy) :
    ∃ t, build { profile with maxDepth := roomy } method group instructions = .ok t ∧
      (∀ number < t.size, ∃! above, t.Ancestry number above) ∧
      ∀ limit,
        (t.NestsWithin limit →
            build { profile with maxDepth := limit } method group instructions = .ok t) ∧
          (¬t.NestsWithin limit →
            build { profile with maxDepth := limit } method group instructions =
              .error (.scopesTooDeep method limit)) ∧
          ∀ first rest e, instructions = first ++ rest →
            build { profile with maxDepth := limit } method group first = .error e →
              build { profile with maxDepth := limit } method group instructions = .error e := by
  obtain ⟨w, run⟩ : ∃ w, walk { profile with maxDepth := roomy } group instructions = .ok w :=
    Walk.exists_run (by simpa [Walk.start] using room)
  have built : build { profile with maxDepth := roomy } method group instructions =
      .ok (w.tree method) := by
    rw [build, run]
  have depth : w.shape.depth = (w.tree method).nested.depth + 1 := by
    rw [← Walk.outline_closed, Forest.depth_outline, Forest.depth, Forest.depth, Nat.max_zero]
    rfl
  refine ⟨w.tree method, built, fun number inside => ?_, fun limit => ⟨?_, ?_, ?_⟩⟩
  · obtain ⟨above, up, -⟩ := (w.tree method).exists_ancestry inside
    exact ⟨above, up, fun other up' => up.unique up'⟩
  · intro within
    have fits := (Walk.run_limited limit run (Nat.le_add_left 1 limit)).1
    rw [build, walk, fits (by rw [depth]; exact Nat.succ_le_succ (nestsWithin_iff.mp within))]
  · intro beyond
    have deep : limit < (w.tree method).nested.depth :=
      Nat.lt_of_not_le (mt nestsWithin_iff.mpr beyond)
    obtain ⟨stuck, stops⟩ := (Walk.run_limited limit run (Nat.le_add_left 1 limit)).2
      (by rw [depth]; exact Nat.succ_lt_succ deep)
    rw [build, walk, stops]
  · rintro first rest e rfl fails
    exact build_append_of_error fails rest

/-- Two scopes nested in each other fit a limit of two and not one of one. -/
theorem build_limited_forcedClose :
    forcedClose.length ≤ 6 ∧ ∃ t,
      build { Profile.composition with maxDepth := 6 } ⟨"A", "f", "()V"⟩ none forcedClose = .ok t ∧
        t.NestsWithin 2 ∧
        build { Profile.composition with maxDepth := 2 } ⟨"A", "f", "()V"⟩ none forcedClose = .ok t ∧
        ¬t.NestsWithin 1 ∧
        build { Profile.composition with maxDepth := 1 } ⟨"A", "f", "()V"⟩ none forcedClose =
          .error (.scopesTooDeep ⟨"A", "f", "()V"⟩ 1) := by
  have room : forcedClose.length ≤ 6 := by decide
  obtain ⟨t, built, -, limited⟩ := build_limited .composition ⟨"A", "f", "()V"⟩ none room
  have depth : t.nested.depth = 2 := by
    cases built
    rfl
  have two : t.NestsWithin 2 := nestsWithin_iff.mpr (Nat.le_of_eq depth)
  have one : ¬t.NestsWithin 1 := fun within => by
    have := nestsWithin_iff.mp within
    omega
  exact ⟨room, t, built, two, (limited 2).1 two, one, (limited 1).2.1 one⟩

end ScopeTree

end Recompose
