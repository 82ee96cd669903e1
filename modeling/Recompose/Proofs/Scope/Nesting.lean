import Recompose.Proofs.Scope.Build

/-!
Instructions that are written down as nested scopes. Main result: the scopes found in such a list are
those that it was written from, with their kinds, keys, order and enclosing scopes.
-/

namespace Recompose

/-- How a scope is written down around its body: an instruction that sets its key, the call that
opens it and the call that closes it. -/
structure Brackets where
  kind : ScopeKind
  key : Option GroupKey
  load : Instruction
  enter : Instruction
  exit : Instruction
deriving DecidableEq, Repr

/-- The body of a method or scope: instructions and scopes with bodies of their own, in order. -/
inductive Nesting where
  | nil
  | one (i : Instruction) (rest : Nesting)
  | scope (brackets : Brackets) (body rest : Nesting)
deriving DecidableEq, Repr

/-- In front of a call that opens a scope the instruction sets a key by loading it, and no key by
being neither a load nor a label. -/
def Instruction.SetsKey (profile : Profile) (i : Instruction) : Option GroupKey → Prop
  | some key => i.int? = some key
  | none => i.action? profile = none ∧ ¬i.isLabel ∧ ¬i.isConstantLoad

instance (profile : Profile) (i : Instruction) : (key : Option GroupKey) →
    Decidable (i.SetsKey profile key)
  | some key => inferInstanceAs (Decidable (i.int? = some key))
  | none => inferInstanceAs (Decidable (_ ∧ _ ∧ _))

/-- The first instruction sets the key, and the calls open and close scopes of the kind. -/
structure Brackets.Fits (profile : Profile) (b : Brackets) : Prop where
  load : b.load.SetsKey profile b.key
  enter : b.enter.action? profile = some (.enter b.kind)
  exit : b.exit.action? profile = some (.exit b.kind)

instance (profile : Profile) (b : Brackets) : Decidable (b.Fits profile) :=
  decidable_of_iff (b.load.SetsKey profile b.key ∧
      b.enter.action? profile = some (.enter b.kind) ∧ b.exit.action? profile = some (.exit b.kind))
    ⟨fun ⟨load, enter, exit⟩ => ⟨load, enter, exit⟩, fun h => ⟨h.load, h.enter, h.exit⟩⟩

/-- The key at hand behind an instruction that opens or closes no scope: labels keep it, a load puts
its integer in place if it has one, and anything else clears it. -/
def Instruction.keyBehind (key : Option GroupKey) (i : Instruction) : Option GroupKey :=
  if i.isLabel then key else if i.isConstantLoad then i.int? <|> key else none

/-- What loads an integer is a load. -/
theorem Instruction.isConstantLoad_of_int? {i : Instruction} {n : Int32} (h : i.int? = some n) :
    i.isConstantLoad = true := by
  cases i with
  | constant => rfl
  | immediate opcode value =>
    rw [int?] at h
    split at h
    · next is => rcases is with rfl | rfl <;> rfl
    · cases h
  | _ => cases h

/-- What sets a key opens and closes nothing and leaves that key at hand. -/
theorem Instruction.SetsKey.keyBehind {profile : Profile} {i : Instruction} {key : Option GroupKey}
    (sets : i.SetsKey profile key) :
    i.action? profile = none ∧ ∀ before, i.keyBehind before = key := by
  cases key with
  | some key =>
    have int : i.int? = some key := sets
    have load := isConstantLoad_of_int? int
    have label : ¬i.isLabel = true := by
      cases i <;> first | exact Bool.false_ne_true | cases load
    refine ⟨action?_of_isConstantLoad load, fun before => ?_⟩
    rw [Instruction.keyBehind, if_neg label, if_pos load, int]
    rfl
  | none =>
    obtain ⟨unmarked, label, load⟩ := sets
    exact ⟨unmarked, fun before => by rw [Instruction.keyBehind, if_neg label, if_neg load]⟩

namespace Nesting

/-- The instructions in order. -/
def flatten : Nesting → List Instruction
  | nil => []
  | one i rest => i :: rest.flatten
  | scope b body rest => b.load :: b.enter :: (body.flatten ++ b.exit :: rest.flatten)

/-- How many scopes lie around the innermost ones, these included. -/
def depth : Nesting → Nat
  | nil => 0
  | one _ rest => rest.depth
  | scope _ body rest => max (body.depth + 1) rest.depth

/-- The number of scopes. -/
def size : Nesting → Nat
  | nil => 0
  | one _ rest => rest.size
  | scope _ body rest => body.size + rest.size + 1

/-- No instruction outside the brackets opens or closes a scope. -/
def Fits (profile : Profile) : Nesting → Prop
  | nil => True
  | one i rest => i.action? profile = none ∧ rest.Fits profile
  | scope b body rest => b.Fits profile ∧ body.Fits profile ∧ rest.Fits profile

instance decidableFits (profile : Profile) : (n : Nesting) → Decidable (n.Fits profile)
  | nil => inferInstanceAs (Decidable True)
  | one _ rest =>
    have := decidableFits profile rest
    inferInstanceAs (Decidable (_ ∧ _))
  | scope _ body rest =>
    have := decidableFits profile body
    have := decidableFits profile rest
    inferInstanceAs (Decidable (_ ∧ _ ∧ _))

/-- The scopes of a tree under the numbers given are those of a nesting, in order: each has the kind
and key of its brackets, knows the scope around it and its key, and has the scopes of its body. -/
def Mirrors (t : ScopeTree) (parent : Nat) (parentKey : Option GroupKey) :
    Nesting → List Nat → Prop
  | nil, numbers => numbers = []
  | one _ rest, numbers => Mirrors t parent parentKey rest numbers
  | scope _ _ _, [] => False
  | scope b body rest, number :: numbers =>
    (∃ s, t.scope? number = some s ∧ s.kind = b.kind ∧ s.group = b.key ∧ s.parent = some parent ∧
      s.parentGroup = parentKey ∧ Mirrors t number b.key body s.children) ∧
    Mirrors t parent parentKey rest numbers

end Nesting

/-! ## What is left without hashes and dependencies -/

/-- The kind and the group of a scope. -/
def Scope.outline (s : Scope) : Scope :=
  { s with hash := 0, dependencies := [] }

namespace Forest

def outline : Forest → Forest
  | nil => nil
  | cons scope nested rest => cons scope.outline nested.outline rest.outline

theorem outline_append (f g : Forest) : (f.append g).outline = f.outline.append g.outline := by
  induction f with
  | nil => rfl
  | cons scope nested rest _ ih => simp only [append, outline, ih]

theorem append_nil (f : Forest) : f.append nil = f := by
  induction f with
  | nil => rfl
  | cons scope nested rest _ ih => rw [append, ih]

theorem size_outline (f : Forest) : f.outline.size = f.size := by
  induction f with
  | nil => rfl
  | cons scope nested rest nestedIh restIh => rw [outline, size, size, nestedIh, restIh]

end Forest

/-- The scopes of a nesting. -/
def Nesting.outline : Nesting → Forest
  | nil => .nil
  | one _ rest => rest.outline
  | scope b body rest => .cons ⟨b.kind, b.key, 0, []⟩ body.outline rest.outline

theorem Nesting.size_outline (n : Nesting) : n.outline.size = n.size := by
  induction n with
  | nil => rfl
  | one i rest ih => exact ih
  | scope b body rest bodyIh restIh => rw [outline, Forest.size, size, bodyIh, restIh]

namespace Frame

def outline (f : Frame) : Scope × Forest :=
  (f.scope.outline, f.nested.outline)

/-- An outline with more scopes behind those inside. -/
def grow (more : Forest) (o : Scope × Forest) : Scope × Forest :=
  (o.1, o.2.append more)

theorem grow_nil (o : Scope × Forest) : grow .nil o = o := by
  rw [grow, Forest.append_nil]

theorem grow_grow (first second : Forest) (o : Scope × Forest) :
    grow second (grow first o) = grow (first.append second) o := by
  rw [grow, grow, grow, Forest.append_assoc]

theorem outline_feed (words : List UInt64) (f : Frame) : (f.feed words).outline = f.outline := rfl

theorem outline_depend (m : MethodId) (f : Frame) : (f.depend m).outline = f.outline := by
  rw [depend]
  split <;> rfl

theorem outline_adopt (f inner : Frame) :
    (f.adopt inner).outline = grow (.cons inner.outline.1 inner.outline.2 .nil) f.outline := by
  rw [outline, nested_adopt, Forest.outline_append]
  rfl

end Frame

namespace Walk

def outlines (w : Walk) : List (Scope × Forest) :=
  w.frames.map Frame.outline

theorem length_outlines (w : Walk) : w.outlines.length = w.inner.length + 1 := by
  simp [outlines, frames]

/-! ## Single steps -/

theorem frames_exit {w : Walk} {kind : ScopeKind} {f : Frame} {inner : List Frame}
    (opened : w.inner = f :: inner) (same : f.kind = kind) :
    (w.exit kind).frames = (inner ++ [w.root]).modifyHead (·.adopt f) := by
  have span : w.inner.span (·.kind != kind) = ([], f :: inner) := by
    rw [opened, List.span_eq_takeWhile_dropWhile, List.takeWhile_cons_of_neg (by simp [same]),
      List.dropWhile_cons_of_neg (by simp [same])]
  rw [exit, span]
  exact frames_onInnermost _ _

section Step

variable {profile : Profile} {w : Walk} {i : Instruction} {kind : ScopeKind}

theorem key_take (profile : Profile) (w : Walk) (i : Instruction) :
    (w.take profile i).key = w.key := by
  rw [take]
  cases i.dependency? profile with
  | none => rfl
  | some m =>
    show ((w.feed i.words).onInnermost _).key = _
    rw [onInnermost]
    split <;> rfl

theorem outlines_take (profile : Profile) (w : Walk) (i : Instruction) :
    (w.take profile i).outlines = w.outlines := by
  rw [outlines, take, frames_depend, frames_feed, outlines]
  cases w.frames with
  | nil => rfl
  | cons f frames =>
    cases i.dependency? profile with
    | none => simp [Function.comp_def, Frame.outline_feed]
    | some m => simp [Function.comp_def, Frame.outline_feed, Frame.outline_depend]

theorem length_inner_take : (w.take profile i).inner.length = w.inner.length := by
  have lengths := congrArg List.length (outlines_take profile w i)
  rw [length_outlines, length_outlines] at lengths
  exact Nat.succ.inj lengths

/-- What a step does: the instruction is taken up, and then a call opens or closes scopes and any other
instruction changes the key at hand. -/
theorem step_eq (profile : Profile) (w : Walk) (i : Instruction) :
    w.step profile i =
      match i.action? profile with
      | some (.enter kind) =>
        if profile.maxDepth ≤ w.inner.length then .error (w.take profile i)
        else .ok ((w.take profile i).enter kind).forgetKey
      | some (.exit kind) => .ok ((w.take profile i).exit kind).forgetKey
      | none => .ok { w.take profile i with key := i.keyBehind w.key } := by
  have key : (w.take profile i).key = w.key := key_take profile w i
  have depth : (w.take profile i).inner.length = w.inner.length := length_inner_take
  rw [← key, ← depth]
  by_cases label : i.isLabel
  · rw [Instruction.action?_of_isLabel label, Instruction.keyBehind, if_pos label]
    exact if_pos label
  · by_cases load : i.isConstantLoad
    · rw [Instruction.action?_of_isConstantLoad load, Instruction.keyBehind, if_neg label,
        if_pos load]
      exact (if_neg label).trans (if_pos load)
    · refine (if_neg label).trans ((if_neg load).trans ?_)
      rw [Instruction.keyBehind, if_neg label, if_neg load]
      cases i.action? profile with
      | none => rfl
      | some action => cases action <;> rfl

theorem step_of_unmarked (unmarked : i.action? profile = none) :
    ∃ w', w.step profile i = .ok w' ∧ w'.outlines = w.outlines ∧ w'.key = i.keyBehind w.key := by
  refine ⟨{ w.take profile i with key := i.keyBehind w.key }, ?_, outlines_take profile w i, rfl⟩
  rw [step_eq, unmarked]

/-- A call that opens a scope puts a new outline in front, if there is room. -/
theorem step_of_enter (enter : i.action? profile = some (.enter kind))
    (room : w.inner.length < profile.maxDepth) :
    ∃ w', w.step profile i = .ok w' ∧ w'.outlines = (⟨kind, w.key, 0, []⟩, .nil) :: w.outlines := by
  refine ⟨((w.take profile i).enter kind).forgetKey, ?_, ?_⟩
  · rw [step_eq, enter]
    exact if_neg (Nat.not_le.mpr room)
  · rw [← outlines_take profile w i, ← key_take profile w i]
    rfl

/-- A walk with two outlines at least has an open frame that the first one is of. -/
theorem exists_inner_of_outlines {w : Walk} {first second : Scope × Forest}
    {others : List (Scope × Forest)} (stack : w.outlines = first :: second :: others) :
    ∃ f inner, w.inner = f :: inner ∧ f.outline = first ∧
      (inner ++ [w.root]).map Frame.outline = second :: others := by
  rw [outlines, frames] at stack
  cases inner : w.inner with
  | nil =>
    rw [inner] at stack
    cases stack
  | cons f frames =>
    rw [inner] at stack
    obtain ⟨head, tail⟩ := List.cons.inj stack
    exact ⟨f, frames, rfl, head, tail⟩

/-- A call that closes a scope of the innermost kind puts it behind those inside the next one. -/
theorem step_of_exit (exit : i.action? profile = some (.exit kind)) {inner outer : Scope × Forest}
    {others : List (Scope × Forest)} (stack : w.outlines = inner :: outer :: others)
    (same : inner.1.kind = kind) :
    ∃ w', w.step profile i = .ok w' ∧
      w'.outlines = Frame.grow (.cons inner.1 inner.2 .nil) outer :: others := by
  refine ⟨((w.take profile i).exit kind).forgetKey, by rw [step_eq, exit], ?_⟩
  rw [← outlines_take profile w i] at stack
  obtain ⟨f, others, opened, rfl, rest⟩ := exists_inner_of_outlines stack
  show ((w.take profile i).exit kind).outlines = _
  rw [outlines, frames_exit opened same]
  cases frames : others ++ [(w.take profile i).root] with
  | nil =>
    rw [frames] at rest
    cases rest
  | cons g frames' =>
    rw [frames] at rest
    obtain ⟨rfl, rfl⟩ := List.cons.inj rest
    rw [List.modifyHead_cons, List.map_cons, Frame.outline_adopt]

end Step

/-! ## Whole bodies -/

section Run

variable {profile : Profile} {w w' : Walk} {first rest : List Instruction} {i : Instruction}

theorem run_cons (h : w.step profile i = .ok w') :
    (i :: rest).foldlM (step profile) w = rest.foldlM (step profile) w' := by
  rw [List.foldlM_cons, h]
  rfl

theorem run_append (h : first.foldlM (step profile) w = .ok w') :
    (first ++ rest).foldlM (step profile) w = rest.foldlM (step profile) w' := by
  rw [List.foldlM_append, h]
  rfl

end Run

/-- **A body adds its scopes to the innermost outline**, and leaves the others as they are. -/
theorem run_flatten {profile : Profile} {n : Nesting} (fits : n.Fits profile) (w : Walk)
    {innermost : Scope × Forest} {others : List (Scope × Forest)}
    (stack : w.outlines = innermost :: others)
    (room : others.length + n.depth ≤ profile.maxDepth) :
    ∃ w', n.flatten.foldlM (step profile) w = .ok w' ∧
      w'.outlines = Frame.grow n.outline innermost :: others := by
  induction n generalizing w innermost others with
  | nil => exact ⟨w, rfl, by rw [stack, Nesting.outline, Frame.grow_nil]⟩
  | one i rest ih =>
    obtain ⟨unmarked, fits⟩ := fits
    obtain ⟨w₁, first, same, -⟩ := step_of_unmarked (w := w) unmarked
    obtain ⟨w', later, stack'⟩ := ih fits w₁ (same.trans stack) room
    exact ⟨w', (run_cons first).trans later, stack'⟩
  | scope b body rest bodyIh restIh =>
    obtain ⟨brackets, bodyFits, restFits⟩ := fits
    rw [Nesting.depth] at room
    obtain ⟨unmarked, sets⟩ := brackets.load.keyBehind
    obtain ⟨w₁, load, same, key⟩ := step_of_unmarked (w := w) unmarked
    rw [stack] at same
    have depth : w₁.inner.length = others.length := by
      have lengths := congrArg List.length same
      rw [length_outlines] at lengths
      exact Nat.succ.inj lengths
    obtain ⟨w₂, enter, opened⟩ := step_of_enter (w := w₁) brackets.enter (by omega)
    rw [key, sets, same] at opened
    obtain ⟨w₃, inside, filled⟩ := bodyIh bodyFits w₂ opened (by rw [List.length_cons]; omega)
    obtain ⟨w₄, exit, closed⟩ := step_of_exit brackets.exit filled rfl
    obtain ⟨w', later, stack'⟩ := restIh restFits w₄ closed (by omega)
    refine ⟨w', ?_, ?_⟩
    · rw [Nesting.flatten, run_cons load, run_cons enter, run_append inside, run_cons exit]
      exact later
    · rw [stack', Frame.grow_grow]
      rfl

end Walk

/-! ## Trees -/

namespace Nesting

/-- A forest with the outline of a nesting mirrors it, wherever its scopes stand in a tree. -/
theorem mirrors_of_outline {t : ScopeTree} {n : Nesting} {f : Forest}
    (same : f.outline = n.outline) {first parent : Nat} {parentKey : Option GroupKey}
    (found : ∀ k s, (f.placed first parent parentKey)[k]? = some s → t.scope? (first + k) = some s) :
    n.Mirrors t parent parentKey (f.roots first) := by
  induction n generalizing f first parent parentKey with
  | nil =>
    cases f with
    | nil => rfl
    | cons => cases same
  | one i rest ih => exact ih same found
  | scope b body rest bodyIh restIh =>
    cases f with
    | nil => cases same
    | cons scope nested rest' =>
      obtain ⟨own, inside, behind⟩ := Forest.cons.inj same
      have kind : scope.kind = b.kind := congrArg Scope.kind own
      have group : scope.group = b.key := congrArg Scope.group own
      -- The scope comes first, those inside it next, and then those behind it.
      have table : (Forest.cons scope nested rest').placed first parent parentKey =
          ⟨scope, some parent, parentKey, nested.roots (first + 1)⟩ ::
            (nested.placed (first + 1) first scope.group ++
              rest'.placed (first + nested.size + 1) parent parentKey) := rfl
      rw [table] at found
      refine ⟨⟨_, found 0 _ rfl, kind, group, rfl, rfl, ?_⟩, restIh behind fun k s here => ?_⟩
      · refine group ▸ bodyIh inside fun k s here => ?_
        have := found (k + 1) s
          (List.getElem?_append_left (List.getElem?_eq_some_iff.mp here).1 |>.trans here)
        rwa [Nat.add_comm k 1, ← Nat.add_assoc] at this
      · have := found (nested.size + k + 1) s (by
          rw [List.getElem?_cons_succ, List.getElem?_append_right (by simp), Forest.length_placed,
            Nat.add_sub_cancel_left]
          exact here)
        rwa [show first + (nested.size + k + 1) = first + nested.size + 1 + k by omega] at this

end Nesting

/-- **Building undoes flattening.** A nesting that is no deeper than allowed is found again: the tree
has a scope for each of its scopes and the root around them. -/
theorem ScopeTree.build_flatten {profile : Profile} {n : Nesting} (fits : n.Fits profile)
    (shallow : n.depth ≤ profile.maxDepth) (method : MethodId) (group : Option GroupKey) :
    ∃ t root, ScopeTree.build profile method group n.flatten = .ok t ∧ t.method = method ∧
      t.size = n.size + 1 ∧ t.scope? 0 = some root ∧ root.kind = .methodRoot ∧ root.group = group ∧
      root.parent = none ∧ n.Mirrors t 0 group root.children := by
  have start : (Walk.start group).outlines = [(⟨.methodRoot, group, 0, []⟩, .nil)] := rfl
  obtain ⟨w, run, stack⟩ := Walk.run_flatten fits (Walk.start group) start (by simpa using shallow)
  have root : w.root.outline = (⟨.methodRoot, group, 0, []⟩, n.outline) ∧ w.inner = [] := by
    have lengths := congrArg List.length stack
    rw [Walk.length_outlines, List.length_singleton] at lengths
    have closed : w.inner = [] := List.eq_nil_of_length_eq_zero (Nat.succ.inj lengths)
    rw [Walk.outlines, Walk.frames, closed] at stack
    exact ⟨(List.cons.inj stack).1, closed⟩
  obtain ⟨outline, closed⟩ := root
  obtain ⟨own, inside⟩ := Prod.mk.inj outline
  have built : ScopeTree.build profile method group n.flatten = .ok (w.tree method) := by
    rw [build, walk, run]
  have tree : w.tree method = ⟨method, w.root.scope, w.root.nested⟩ := by
    rw [Walk.tree, closed]
    rfl
  rw [tree] at built
  have rootGroup : w.root.scope.group = group := congrArg Scope.group own
  refine ⟨_, _, built, rfl, ?_, rfl, congrArg Scope.kind own, rootGroup, rfl, ?_⟩
  · rw [size, ← n.size_outline, ← inside, Forest.size_outline]
  · refine Nesting.mirrors_of_outline inside fun k s here => ?_
    rw [← here, Nat.add_comm, scope?, placed, List.getElem?_cons_succ, rootGroup]

/-- A scope that can be restarted, with the key seven. -/
def restartBrackets : Brackets where
  kind := .restart
  key := some 7
  load := .immediate Opcode.bipush 7
  enter := .call Opcode.invokeinterface
    ⟨Profile.composer, "startRestartGroup", "(I)Landroidx/compose/runtime/Composer;", true⟩
  exit := .call Opcode.invokeinterface
    ⟨Profile.composer, "endRestartGroup", "()Landroidx/compose/runtime/ScopeUpdateScope;", true⟩

/-- A scope without a key. -/
def replaceBrackets : Brackets where
  kind := .replace
  key := none
  load := .plain 0x00
  enter := .call Opcode.invokeinterface ⟨Profile.composer, "startReplaceGroup", "(I)V", true⟩
  exit := .call Opcode.invokeinterface ⟨Profile.composer, "endReplaceGroup", "()V", true⟩

/-- Scopes of one kind in each other and side by side; a label and a constant stand in front of the
one without a key. -/
def restartsNested : Nesting :=
  .scope restartBrackets
    (.scope restartBrackets .nil
      (.one (.constant Opcode.ldc (.int 5)) (.one (.label 0) (.scope replaceBrackets
        (.scope restartBrackets .nil .nil) .nil))))
    (.scope restartBrackets (.one (.plain 0x57) .nil) .nil)

theorem ScopeTree.build_restartsNested :
    restartsNested.Fits .composition ∧ restartsNested.depth ≤ Profile.composition.maxDepth ∧
      ∃ t root, ScopeTree.build .composition ⟨"A", "f", "()V"⟩ (some 1) restartsNested.flatten = .ok t ∧
        t.method = ⟨"A", "f", "()V"⟩ ∧ t.size = 6 ∧ t.scope? 0 = some root ∧
        root.kind = .methodRoot ∧ root.group = some 1 ∧ root.parent = none ∧
        restartsNested.Mirrors t 0 (some 1) root.children := by
  have fits : restartsNested.Fits .composition := by decide +kernel
  have shallow : restartsNested.depth ≤ Profile.composition.maxDepth := by decide
  exact ⟨fits, shallow, build_flatten fits shallow ⟨"A", "f", "()V"⟩ (some 1)⟩

end Recompose
