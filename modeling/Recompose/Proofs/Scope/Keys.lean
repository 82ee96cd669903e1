import Mathlib.Data.List.Forall2
import Mathlib.Data.List.Induction
import Recompose.Proofs.Scope.Closing
import Recompose.Proofs.Scope.Links

/-!
Where the groups of scopes come from. A walk carries one key along; behind any instructions it is
the last integer of the constants that were loaded just now. Main result: the group of a scope is the
last integer loaded in the run of loads and labels right before the call that opens it.
-/

namespace Recompose

namespace Instruction

/-- The instruction goes on with a run of loads: it loads a constant of any type, or is a label. The
creation of an array has an immediate operand too and is no load. -/
inductive Continues : Instruction → Prop
  | label (ordinal : Nat) : Continues (.label ordinal)
  | constant (opcode : UInt8) (value : Constant) : Continues (.constant opcode value)
  | immediate {opcode : UInt8} (value : Int32) (load : opcode ≠ Opcode.newarray) :
      Continues (.immediate opcode value)

theorem continues_iff {i : Instruction} :
    i.Continues ↔ i.isLabel = true ∨ i.isConstantLoad = true := by
  constructor
  · rintro (_ | _ | ⟨_, load⟩)
    · exact .inl rfl
    · exact .inr rfl
    · exact .inr (decide_eq_true load)
  · intro h
    cases i with
    | label ordinal => exact .label ordinal
    | constant opcode value => exact .constant opcode value
    | immediate opcode value =>
      exact .immediate value (of_decide_eq_true (h.resolve_left Bool.false_ne_true))
    | _ => exact absurd h (not_or.mpr ⟨Bool.false_ne_true, Bool.false_ne_true⟩)

instance (i : Instruction) : Decidable i.Continues :=
  decidable_of_iff _ continues_iff.symm

theorem keyBehind_of_continues {i : Instruction} (h : i.Continues) (key : Option GroupKey) :
    i.keyBehind key = (i.int? <|> key) := by
  cases h with
  | label => rfl
  | constant => rfl
  | immediate value load => exact (if_neg Bool.false_ne_true).trans (if_pos (decide_eq_true load))

theorem keyBehind_of_not_continues {i : Instruction} (h : ¬i.Continues) (key : Option GroupKey) :
    i.keyBehind key = none := by
  obtain ⟨label, load⟩ := not_or.mp (mt continues_iff.mpr h)
  rw [keyBehind, if_neg label, if_neg load]

/-- The key that a walk has at hand behind the instructions. -/
def keyAfter (instructions : List Instruction) : Option GroupKey :=
  instructions.foldl keyBehind none

end Instruction

open Instruction (Continues keyAfter keyBehind)

/-! ## Runs of loads -/

/-- The instructions in front of a position end in a run of loads and labels, which is the longest
one: what stands before it is neither. -/
structure LoadsBefore (instructions : List Instruction) (position : Nat)
    (before run : List Instruction) : Prop where
  split : instructions.take position = before ++ run
  continues : ∀ i ∈ run, i.Continues
  longest : ∀ i ∈ before.getLast?, ¬i.Continues

/-- Loads put their integers in the place of the key, one after another. -/
theorem foldl_keyBehind {run : List Instruction} (h : ∀ i ∈ run, i.Continues)
    (key : Option GroupKey) :
    run.foldl keyBehind key = ((run.filterMap (·.int?)).getLast? <|> key) := by
  induction run generalizing key with
  | nil => rfl
  | cons i run ih =>
    obtain ⟨first, later⟩ := List.forall_mem_cons.mp h
    rw [List.foldl_cons, ih later, Instruction.keyBehind_of_continues first]
    cases int : i.int? with
    | none => rw [List.filterMap_cons_none int]; rfl
    | some n =>
      rw [List.filterMap_cons_some int, List.getLast?_cons]
      cases (run.filterMap (·.int?)).getLast? <;> rfl

namespace LoadsBefore

variable {instructions before run : List Instruction} {position : Nat}

theorem exists_split (l : List Instruction) :
    ∃ before run, l = before ++ run ∧ (∀ i ∈ run, i.Continues) ∧
      ∀ i ∈ before.getLast?, ¬i.Continues := by
  induction l using List.reverseRecOn with
  | nil => exact ⟨[], [], rfl, List.forall_mem_nil _, nofun⟩
  | append_singleton l i ih =>
    by_cases continues : i.Continues
    · obtain ⟨before, run, rfl, all, longest⟩ := ih
      refine ⟨before, run ++ [i], List.append_assoc .., ?_, longest⟩
      exact List.forall_mem_append.mpr ⟨all, List.forall_mem_singleton.mpr continues⟩
    · refine ⟨l ++ [i], [], (List.append_nil _).symm, List.forall_mem_nil _, fun j last => ?_⟩
      rw [List.getLast?_concat] at last
      obtain rfl := Option.some.inj last
      exact continues

theorem exists_run (instructions : List Instruction) (position : Nat) :
    ∃ before run, LoadsBefore instructions position before run := by
  obtain ⟨before, run, split, continues, longest⟩ := exists_split (instructions.take position)
  exact ⟨before, run, split, continues, longest⟩

/-- **The key carried along is the last integer of the run.** -/
theorem keyAfter_eq (h : LoadsBefore instructions position before run) :
    keyAfter (instructions.take position) = (run.filterMap (·.int?)).getLast? := by
  have nothing : before.foldl keyBehind none = none := by
    -- What ends the run leaves no key, whatever was loaded before it.
    rcases before.eq_nil_or_concat with rfl | ⟨front, i, rfl⟩
    · rfl
    · rw [List.concat_eq_append, List.foldl_append]
      exact Instruction.keyBehind_of_not_continues (h.longest i (by simp)) _
  rw [keyAfter, h.split, List.foldl_append, nothing, foldl_keyBehind h.continues]
  cases (run.filterMap (·.int?)).getLast? <;> rfl

end LoadsBefore

/-! ## Scopes in the order of the calls that open them -/

section

variable {profile : Profile} {instructions : List Instruction}

/-- The scope has the kind of the call at a position and the key at hand there. -/
structure OpenedAt (profile : Profile) (instructions : List Instruction) (scope : Scope)
    (position : Nat) : Prop where
  call : actionAt profile instructions position = some (.enter scope.kind)
  group : scope.group = keyAfter (instructions.take position)

/-- What is known of a walk behind the first instructions: the key at hand, and which calls opened
the scopes, whose numbers are in the order of these calls. -/
structure Walk.Opens (profile : Profile) (instructions : List Instruction) (n : Nat) (w : Walk) :
    Prop where
  key : w.key = keyAfter (instructions.take n)
  scopes : ∃ root opened, w.shape.scopes = root :: opened ∧
    List.Forall₂ (OpenedAt profile instructions) opened (enterCalls profile instructions n)

namespace Walk.Opens

variable {n : Nat} {w w' : Walk} {i : Instruction}

theorem start (group : Option GroupKey) : Opens profile instructions 0 (.start group) :=
  ⟨rfl, _, [], rfl, .nil⟩

/-- A call that opens a scope gives it the next number. -/
theorem step (here : instructions[n]? = some i) (h : Opens profile instructions n w)
    (step : w.step profile i = .ok w') : Opens profile instructions (n + 1) w' := by
  have grown : instructions.take (n + 1) = instructions.take n ++ [i] := by
    rw [List.take_add_one, here]
    rfl
  have action : actionAt profile instructions n = i.action? profile := by
    rw [actionAt, here]
    rfl
  constructor
  case key =>
    rw [key_of_step step, h.key, grown, keyAfter, keyAfter, List.foldl_append]
    rfl
  case scopes =>
    obtain ⟨root, opened, scopes, calls⟩ := h.scopes
    by_cases enters : ∃ kind, i.action? profile = some (.enter kind)
    · obtain ⟨kind, enters⟩ := enters
      have behind : enterCalls profile instructions (n + 1) =
          enterCalls profile instructions n ++ [n] := by
        rw [enterCalls_succ, entersAt, action, enters]
        rfl
      have new : OpenedAt profile instructions ⟨kind, w.key, 0, []⟩ n :=
        ⟨action.trans enters, h.key⟩
      rw [behind, shape_of_step step, enters]
      refine ⟨root, opened ++ [⟨kind, w.key, 0, []⟩], ?_, List.rel_append calls (.cons new .nil)⟩
      have before : (Forest.enclose w.outlines.reverse).scopes = root :: opened := scopes
      rw [Forest.scopes_enclose_concat, before, List.cons_append]
    · have none : entersAt profile instructions n = false := by
        rw [entersAt, action]
        split
        · next kind here => exact absurd ⟨kind, here⟩ enters
        · rfl
      have same : w'.shape = w.shape := by
        rw [shape_of_step step]
        split
        · next kind here => exact absurd ⟨kind, here⟩ enters
        · rfl
      rw [enterCalls_succ, none, if_neg Bool.false_ne_true, List.append_nil, same]
      exact ⟨root, opened, scopes, calls⟩

end Walk.Opens

namespace ScopeTree

/-- The scope of a number in the order of the calls. -/
theorem exists_openedAt {method : MethodId} {group : Option GroupKey} {t : ScopeTree}
    (h : build profile method group instructions = .ok t) {number : Nat} {scope : PlacedScope}
    (found : t.scope? (number + 1) = some scope) :
    ∃ position, (enterCalls profile instructions instructions.length)[number]? = some position ∧
      OpenedAt profile instructions scope.toScope.outline position := by
  obtain ⟨w, run, rfl⟩ := exists_walk_of_build h
  obtain ⟨root, opened, scopes, calls⟩ := (Walk.run_induction Walk.Opens.step instructions _ rfl
    (Walk.Opens.start group) (Nat.zero_le _) run).scopes
  rw [← Walk.outline_closed, Forest.scopes_outline, Forest.scopes, Forest.scopes, List.append_nil,
    List.map_cons] at scopes
  obtain ⟨-, rfl⟩ := List.cons.inj scopes
  have here : w.closed.nested.scopes[number]? = some scope.toScope := by
    rw [← Forest.map_toScope_placed _ 1 0 w.closed.scope.group, List.getElem?_map]
    exact congrArg (Option.map _) found
  obtain ⟨inside, same⟩ := List.getElem?_eq_some_iff.mp here
  have counts := calls.length_eq
  rw [List.length_map] at counts
  have there : number < (enterCalls profile instructions instructions.length).length := by omega
  refine ⟨_, List.getElem?_eq_getElem there, ?_⟩
  have held := calls.get (by rwa [List.length_map]) there
  rwa [List.get_eq_getElem, List.getElem_map, same] at held

/-- **The group of a scope is the last integer loaded right before its call.** Scopes have their
numbers in the order of the calls that open them. In front of its call is a longest run of loads and
labels; the group is the last integer loaded in it, and none if no integer is. A scope knows the
group of the scope around it. -/
theorem groups_of_build {method : MethodId} {group : Option GroupKey} {t : ScopeTree}
    (h : build profile method group instructions = .ok t) :
    ∀ number scope, t.scope? (number + 1) = some scope →
      (∃ position before run,
        (enterCalls profile instructions instructions.length)[number]? = some position ∧
          actionAt profile instructions position = some (.enter scope.kind) ∧
          LoadsBefore instructions position before run ∧
          scope.group = (run.filterMap (·.int?)).getLast?) ∧
        ∃ parent outer, scope.parent = some parent ∧ t.scope? parent = some outer ∧
          scope.parentGroup = outer.group := by
  intro number scope found
  constructor
  · obtain ⟨position, call, opened⟩ := exists_openedAt h found
    obtain ⟨before, run, loads⟩ := LoadsBefore.exists_run instructions position
    exact ⟨position, before, run, call, opened.call, loads, opened.group.trans loads.keyAfter_eq⟩
  · obtain ⟨parent, outer, up, -, around, -, same⟩ :=
      exists_outer_of_scope? found (Nat.succ_pos number)
    exact ⟨parent, outer, up, around, same⟩

/-- Loads of several types, an array, and calls that open scopes with and without a key. -/
def keyedCalls : List Instruction :=
  [.immediate Opcode.sipush 7, .immediate Opcode.newarray 10, .immediate Opcode.bipush 5,
    .constant Opcode.ldc (.string "C(App)"), .label 0,
    .call Opcode.invokevirtual
      ⟨Profile.composer, "startRestartGroup", "(I)Landroidx/compose/runtime/Composer;", true⟩,
    .call Opcode.invokevirtual ⟨Profile.composer, "startReplaceGroup", "(I)V", true⟩,
    .constant Opcode.ldc (.int 3), .immediate Opcode.newarray 10, .label 1,
    .constant Opcode.ldc (.long 4),
    .call Opcode.invokevirtual ⟨Profile.composer, "startReplaceGroup", "(I)V", true⟩]

/-- A string and a label keep the five, an array and a call clear the key, and a long is none. -/
theorem groups_of_keyedCalls : ∃ t,
    build .composition ⟨"A", "f", "()V"⟩ (some 1) keyedCalls = .ok t ∧
      t.scopes.map (·.group) = [some 1, some 5, none, none] ∧
      LoadsBefore keyedCalls 5 (keyedCalls.take 2) ((keyedCalls.take 5).drop 2) ∧
      ∀ number scope, t.scope? (number + 1) = some scope →
        (∃ position before run,
          (enterCalls .composition keyedCalls keyedCalls.length)[number]? = some position ∧
            actionAt .composition keyedCalls position = some (.enter scope.kind) ∧
            LoadsBefore keyedCalls position before run ∧
            scope.group = (run.filterMap (·.int?)).getLast?) ∧
          ∃ parent outer, scope.parent = some parent ∧ t.scope? parent = some outer ∧
            scope.parentGroup = outer.group := by
  obtain ⟨t, built, groups⟩ : ∃ t,
      build .composition ⟨"A", "f", "()V"⟩ (some 1) keyedCalls = .ok t ∧
        t.scopes.map (·.group) = [some 1, some 5, none, none] := ⟨_, rfl, rfl⟩
  exact ⟨t, built, groups, ⟨rfl, by decide, by decide⟩, groups_of_build built⟩

end ScopeTree

end

end Recompose
