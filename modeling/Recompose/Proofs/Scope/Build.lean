import Mathlib.Data.List.TakeDrop
import Mathlib.Data.List.TakeWhile
import Recompose.Proofs.Scope.Segments
import Recompose.Scope.Build

/-!
What a walk builds is what the marker calls say. Behind every instruction each open frame has the
hash of the instructions since its call, the dependencies of those that no scope inside it owns, and
the segments of the scopes closed inside it; so at the end every scope holds what its segment says.
-/

namespace Recompose

namespace Frame

/-- Closing the innermost frame first changes nothing. -/
theorem closeAll_concat (f : Frame) (frames : List Frame) (outer inner : Frame) :
    f.closeAll (frames ++ [outer, inner]) = f.closeAll (frames ++ [outer.adopt inner]) := by
  induction frames generalizing f with
  | nil => rfl
  | cons g frames ih =>
    show f.adopt (g.closeAll (frames ++ _)) = f.adopt (g.closeAll (frames ++ _))
    rw [ih]

theorem nested_adopt (f inner : Frame) :
    (f.adopt inner).nested = f.nested.append (.cons inner.scope inner.nested .nil) :=
  Forest.ofReversed_cons _ _ _

/-- What is known of a frame that has taken the instructions from `start` to `count`: those up to
`upto` were its own unless a scope closed inside it owns them, and these scopes lie before
`reach`. -/
structure Tracks (profile : Profile) (instructions : List Instruction)
    (start reach upto count : Nat) (f : Frame) (l : Layout) : Prop where
  own : reach ≤ upto
  taken : upto ≤ count
  hash : f.hash = Hash.ofInstructions ((⟨start, count⟩ : Segment).slice instructions)
  dependencies : f.dependencies =
    dependenciesAt profile instructions ((⟨start, upto⟩ : Segment).ownPositions l.tops)
  spans : Spans profile instructions start reach f.nested l

namespace Tracks

variable {profile : Profile} {instructions : List Instruction} {low reach upto count n : Nat}
  {f : Frame} {l : Layout}

theorem low_le (h : Tracks profile instructions low reach upto count f l) : low ≤ upto :=
  Nat.le_trans h.spans.le h.own

theorem start (kind : ScopeKind) (group : Option GroupKey) :
    Tracks profile instructions n n n n (.start kind group) .nil where
  own := Nat.le_refl _
  taken := Nat.le_refl _
  hash := by
    rw [Segment.slice_self]
    rfl
  dependencies := by
    simp [Segment.ownPositions, Segment.positions, dependenciesAt, Frame.start]
  spans := .nil (Nat.le_refl _)

theorem feed {i : Instruction} (h : Tracks profile instructions low reach upto n f l)
    (here : instructions[n]? = some i) :
    Tracks profile instructions low reach upto (n + 1) (f.feed i.words) l where
  own := h.own
  taken := Nat.le_succ_of_le h.taken
  hash := by
    have le : low ≤ n := Nat.le_trans h.low_le h.taken
    rw [Segment.slice_succ le here, Hash.ofInstructions, List.flatMap_append,
      List.flatMap_singleton]
    show Hash.mixAll f.hash i.words = _
    rw [h.hash]
    exact (List.foldl_append ..).symm
  dependencies := h.dependencies
  spans := h.spans

/-- The innermost frame takes the dependency of a new instruction. -/
theorem depend {i : Instruction} (h : Tracks profile instructions low n n (n + 1) f l)
    (here : instructions[n]? = some i) :
    Tracks profile instructions low n (n + 1) (n + 1)
      (match i.dependency? profile with
        | some m => f.depend m
        | none => f) l := by
  have before : ∀ s ∈ l.tops, s.stop ≤ n := fun s mem => (h.spans.bounds_of_mem_tops s mem).2
  have positions := Segment.ownPositions_succ h.low_le before
  have grown := dependenciesAt_concat profile ((⟨low, n⟩ : Segment).ownPositions l.tops) here
  rw [← positions, ← h.dependencies] at grown
  cases depends : i.dependency? profile with
  | none =>
    rw [depends] at grown
    exact ⟨Nat.le_succ _, Nat.le_refl _, h.hash, grown.symm, h.spans⟩
  | some m =>
    rw [depends] at grown
    show Tracks profile instructions low n (n + 1) (n + 1) (f.depend m) l
    -- A method is listed where it comes up first, and not again.
    by_cases known : m ∈ f.dependencies
    · have same : f.depend m = f := if_pos (List.contains_iff_mem.mpr known)
      rw [same]
      exact ⟨Nat.le_succ _, Nat.le_refl _, h.hash, (grown.trans (if_pos known)).symm, h.spans⟩
    · have longer : f.depend m = { f with dependencies := f.dependencies ++ [m] } :=
        if_neg fun contains => known (List.contains_iff_mem.mp contains)
      rw [longer]
      exact ⟨Nat.le_succ _, Nat.le_refl _, h.hash, (grown.trans (if_neg known)).symm, h.spans⟩

theorem advance (h : Tracks profile instructions low reach n n f l) :
    Tracks profile instructions low n n n f l :=
  ⟨Nat.le_refl _, h.taken, h.hash, h.dependencies, h.spans.mono h.own⟩

/-- A frame adopts the one that was opened at its last own instruction. -/
theorem adopt {outer inner : Frame} {l inside : Layout} {cut : Nat}
    (h : Tracks profile instructions low cut (cut + 1) n outer l)
    (within : Tracks profile instructions (cut + 1) n n n inner inside)
    (opened : actionAt profile instructions cut = some (.enter inner.kind))
    (closes : ClosesAt profile instructions cut n) :
    Tracks profile instructions low n n n (outer.adopt inner)
      (l.append (.cons ⟨cut + 1, n⟩ inside .nil)) where
  own := Nat.le_refl _
  taken := Nat.le_refl _
  hash := h.hash
  dependencies := by
    rw [Layout.tops_append]
    show outer.dependencies = dependenciesAt profile instructions
      ((⟨low, n⟩ : Segment).ownPositions (l.tops ++ [⟨cut + 1, n⟩]))
    rw [Segment.ownPositions_close h.low_le h.taken, h.dependencies]
  spans := by
    rw [nested_adopt]
    exact h.spans.snoc ⟨opened, closes, within.hash, within.dependencies⟩ within.spans

end Tracks

end Frame

/-! ## The stack of open frames -/

/-- What is known of the open frames, innermost first: each but the last, the root, was opened by the
call that `opened` names, and the one around it has owned nothing since. The segments of all scopes,
open and closed, start at `starts`, in the order of their numbers. -/
inductive Stack (profile : Profile) (instructions : List Instruction) (count : Nat) :
    (reach upto : Nat) → List Frame → List Opening → (starts : List Nat) → Prop
  | root {reach upto : Nat} {f : Frame} {l : Layout} :
      f.Tracks profile instructions 0 reach upto count l →
      Stack profile instructions count reach upto [f] [] (l.list.map (·.start))
  | inner {reach upto : Nat} {f : Frame} {l : Layout} {o : Opening} {frames : List Frame}
      {opened : List Opening} {starts : List Nat} :
      Stack profile instructions count o.position (o.position + 1) frames opened starts →
      f.Tracks profile instructions (o.position + 1) reach upto count l →
      f.kind = o.kind → actionAt profile instructions o.position = some (.enter o.kind) →
      Stack profile instructions count reach upto (f :: frames) (o :: opened)
        (starts ++ (o.position + 1) :: l.list.map (·.start))

namespace Stack

variable {profile : Profile} {instructions : List Instruction} {count n : Nat} {reach upto : Nat}
  {frames : List Frame} {opened : List Opening} {starts : List Nat}

/-- The open frames have the kinds of the calls that opened them. -/
theorem kinds (h : Stack profile instructions count reach upto frames opened starts) :
    frames.dropLast.map (·.kind) = opened.map (·.kind) := by
  induction h with
  | root _ => rfl
  | inner outer _ kind _ ih =>
    cases outer with
    | root _ => simp [kind]
    | inner _ _ _ _ =>
      rw [List.dropLast_cons_cons, List.map_cons, List.map_cons, ih, kind]

theorem feed {i : Instruction} (here : instructions[n]? = some i)
    (h : Stack profile instructions n reach upto frames opened starts) :
    Stack profile instructions (n + 1) reach upto (frames.map (Frame.feed i.words)) opened
      starts := by
  induction h with
  | root tracks => exact .root (tracks.feed here)
  | inner _ tracks kind action ih => exact .inner ih (tracks.feed here) kind action

/-- Only the innermost frame changes, in what it is known by. -/
theorem onHead (change : Frame → Frame) {reach' upto' : Nat}
    (tracks : ∀ start f l, Frame.Tracks profile instructions start reach upto count f l →
      Frame.Tracks profile instructions start reach' upto' count (change f) l)
    (kind : ∀ f : Frame, (change f).kind = f.kind)
    (h : Stack profile instructions count reach upto frames opened starts) :
    Stack profile instructions count reach' upto' (frames.modifyHead change) opened starts := by
  cases h with
  | root known => exact .root (tracks _ _ _ known)
  | inner outer known same action =>
    exact .inner outer (tracks _ _ _ known) ((kind _).trans same) action

theorem advance (h : Stack profile instructions n reach n frames opened starts) :
    Stack profile instructions n n n frames opened starts := by
  have := h.onHead id (fun _ _ _ known => known.advance) (fun _ => rfl)
  rwa [List.modifyHead_id] at this

/-- The innermost frame closes into the one around it. -/
theorem close {f g : Frame} {o : Opening}
    (h : Stack profile instructions n n n (f :: g :: frames) (o :: opened) starts)
    (closes : ClosesAt profile instructions o.position n) :
    Stack profile instructions n n n (g.adopt f :: frames) opened starts := by
  cases h with
  | @inner _ _ _ inside _ _ _ outerStarts outer tracks kind action =>
    have opens : actionAt profile instructions o.position = some (.enter f.kind) := kind ▸ action
    cases outer with
    | @root _ _ _ l known =>
      have := Stack.root (known.adopt tracks opens closes)
      rw [Layout.list_append, List.map_append] at this
      simpa [Layout.list] using this
    | @inner _ _ _ l _ _ _ _ outer known kind' action' =>
      have := Stack.inner outer (known.adopt tracks opens closes) kind' action'
      rw [Layout.list_append, List.map_append] at this
      simpa [Layout.list] using this

/-- **All frames above one close, and it takes them up.** -/
theorem closeAbove (above : List Frame) (closed : List Opening) {g : Frame}
    (h : Stack profile instructions n n n (above ++ g :: frames) (closed ++ opened) starts)
    (same : above.length = closed.length)
    (closes : ∀ o ∈ closed, ClosesAt profile instructions o.position n) :
    Stack profile instructions n n n (g.closeAll above.reverse :: frames) opened starts := by
  induction closed generalizing above with
  | nil =>
    obtain rfl := List.eq_nil_of_length_eq_zero same
    exact h
  | cons o closed ih =>
    -- The innermost frame closes first, into the next one above or into `g` itself.
    match above with
    | [a] =>
      obtain rfl := List.eq_nil_of_length_eq_zero (Nat.succ.inj same).symm
      exact h.close (closes o List.mem_cons_self)
    | a :: b :: above =>
      have next := ih (b.adopt a :: above) (h.close (closes o List.mem_cons_self))
        (Nat.succ.inj same) fun o mem => closes o (List.mem_cons_of_mem _ mem)
      rw [List.reverse_cons, ← Frame.closeAll_concat] at next
      rw [List.reverse_cons, List.reverse_cons, List.append_assoc]
      exact next

end Stack

/-! ## Steps of a walk -/

namespace Instruction

theorem action?_of_isLabel {profile : Profile} {i : Instruction} (h : i.isLabel = true) :
    i.action? profile = none := by
  cases i <;> first | rfl | cases h

theorem action?_of_isConstantLoad {profile : Profile} {i : Instruction}
    (h : i.isConstantLoad = true) : i.action? profile = none := by
  cases i <;> first | rfl | cases h

end Instruction

namespace Walk

/-- All open frames, innermost first. -/
def frames (w : Walk) : List Frame :=
  w.inner ++ [w.root]

/-- The walk with an instruction taken up, before it opens or closes scopes. -/
def take (profile : Profile) (w : Walk) (i : Instruction) : Walk :=
  (w.feed i.words).depend (i.dependency? profile)

theorem frames_feed (w : Walk) (words : List UInt64) :
    (w.feed words).frames = w.frames.map (Frame.feed words) := by
  simp [frames, feed]

theorem frames_onInnermost (w : Walk) (change : Frame → Frame) :
    (w.onInnermost change).frames = w.frames.modifyHead change := by
  rw [onInnermost]
  split
  · next empty => simp [frames, empty]
  · next inner => simp [frames, inner]

theorem frames_depend (w : Walk) (dependency : Option MethodId) :
    (w.depend dependency).frames = w.frames.modifyHead fun f =>
      match dependency with
      | some m => f.depend m
      | none => f := by
  cases dependency with
  | none => exact (congrFun List.modifyHead_id _).symm
  | some m => exact frames_onInnermost w _

/-- An exit finds no open scope of its kind, or it closes the innermost one and all inside it. -/
theorem exit_cases (w : Walk) (kind : ScopeKind) :
    ((∀ f ∈ w.inner, f.kind ≠ kind) ∧ (w.exit kind).frames = w.frames) ∨
      ∃ above f inner g outer, w.inner = above ++ f :: inner ∧ inner ++ [w.root] = g :: outer ∧
        (∀ a ∈ above, a.kind ≠ kind) ∧ f.kind = kind ∧
        (w.exit kind).frames = g.closeAll (above ++ [f]).reverse :: outer := by
  have parts := List.takeWhile_append_dropWhile (p := fun f : Frame => f.kind != kind) (l := w.inner)
  rw [exit, List.span_eq_takeWhile_dropWhile]
  cases rest : w.inner.dropWhile (·.kind != kind) with
  | nil =>
    refine .inl ⟨fun f mem => ?_, rfl⟩
    have := List.dropWhile_eq_nil_iff.mp rest f mem
    exact bne_iff_ne.mp this
  | cons f inner =>
    -- What remains starts with the innermost frame of the kind; the root is always around it.
    obtain ⟨g, outer, tail⟩ := List.exists_cons_of_ne_nil
      (List.append_ne_nil_of_right_ne_nil inner (List.cons_ne_nil w.root []))
    refine .inr ⟨_, f, inner, g, outer, by rw [← rest, parts], tail, ?_, ?_, ?_⟩
    · intro a mem
      exact bne_iff_ne.mp (List.all_eq_true.mp (List.all_takeWhile) a mem)
    · have := List.head_dropWhile_not (fun f : Frame => f.kind != kind) (l := w.inner)
        (by rw [rest]; exact List.cons_ne_nil _ _)
      simpa [rest] using this
    · rw [frames_onInnermost, frames]
      show (inner ++ [w.root]).modifyHead _ = _
      rw [tail, List.reverse_append]
      rfl

/-- What a step does, by what its instruction does to the scopes. -/
theorem step_cases {profile : Profile} {w w' : Walk} {i : Instruction}
    (h : w.step profile i = .ok w') :
    (i.action? profile = none ∧ w'.frames = (w.take profile i).frames) ∨
      (∃ kind, i.action? profile = some (.enter kind) ∧
        w'.frames = .start kind (w.take profile i).key :: (w.take profile i).frames) ∨
      ∃ kind, i.action? profile = some (.exit kind) ∧
        w'.frames = ((w.take profile i).exit kind).frames := by
  rw [step] at h
  split at h
  · next label =>
    cases h
    exact .inl ⟨Instruction.action?_of_isLabel label, rfl⟩
  · split at h
    · next load =>
      cases h
      exact .inl ⟨Instruction.action?_of_isConstantLoad load, rfl⟩
    · split at h
      · next kind action =>
        split at h
        · cases h
        · cases h
          exact .inr (.inl ⟨kind, action, rfl⟩)
      · next kind action =>
        cases h
        exact .inr (.inr ⟨kind, action, rfl⟩)
      · next action =>
        cases h
        exact .inl ⟨action, rfl⟩

/-! ## The stack behind every instruction -/

section Behind

variable {profile : Profile} {instructions : List Instruction} {n : Nat} {starts : List Nat}

theorem take_stack {w : Walk} {i : Instruction} {opened : List Opening}
    (here : instructions[n]? = some i)
    (h : Stack profile instructions n n n w.frames opened starts) :
    Stack profile instructions (n + 1) n (n + 1) (w.take profile i).frames opened starts := by
  rw [take, frames_depend, frames_feed]
  refine (h.feed here).onHead _ (fun start f l known => known.depend here) fun f => ?_
  split
  · next m => exact apply_ite Frame.kind .. |>.trans (ite_self _)
  · rfl

/-- An exit closes the frames that are no longer open. -/
theorem exit_stack (position : Nat) (kind : ScopeKind) {w : Walk} {opened : List Opening}
    (h : Stack profile instructions n n n w.frames opened starts)
    (closes : ∀ o ∈ opened, o ∉ openBehind opened position (some (.exit kind)) →
      ClosesAt profile instructions o.position n)
    (descending : opened.Pairwise (·.position > ·.position)) :
    Stack profile instructions n n n (w.exit kind).frames
      (openBehind opened position (some (.exit kind))) starts := by
  have kinds : w.inner.map (·.kind) = opened.map (·.kind) := by
    simpa [frames] using h.kinds
  rcases exit_cases w kind with ⟨others, same⟩ | ⟨above, f, inner, g, outer, split, tail, others,
    own, closed⟩
  · have nothing : opened.dropWhile (·.kind != kind) = [] := by
      rw [List.dropWhile_eq_nil_iff]
      intro o mem
      obtain ⟨f, memInner, eq⟩ := List.mem_map.mp (kinds ▸ List.mem_map_of_mem mem)
      exact bne_iff_ne.mpr (eq ▸ others f memInner)
    rw [same, openBehind, nothing]
    exact h
  · -- The openings split where the frames do.
    rw [split, List.map_append, List.map_cons] at kinds
    obtain ⟨before, behind, rfl, beforeKinds, behindKinds⟩ := List.map_eq_append_iff.mp kinds.symm
    obtain ⟨o, outside, rfl, oKind, -⟩ := List.map_eq_cons_iff.mp behindKinds
    have drop : (before ++ o :: outside).dropWhile (·.kind != kind) = o :: outside := by
      rw [List.dropWhile_append_of_pos, List.dropWhile_cons_of_neg]
      · rw [oKind, own]
        simp
      · intro b mem
        obtain ⟨a, memAbove, eq⟩ := List.mem_map.mp (beforeKinds ▸ List.mem_map_of_mem mem)
        exact bne_iff_ne.mpr (eq ▸ others a memAbove)
    have behindExit : openBehind (before ++ o :: outside) position (some (.exit kind)) =
        outside := by
      rw [openBehind, drop]
    rw [behindExit] at closes ⊢
    rw [closed]
    refine Stack.closeAbove _ (before ++ [o]) ?_ ?_ ?_
    · rw [frames, split, List.append_assoc, List.cons_append, tail] at h
      simpa using h
    · have := congrArg List.length beforeKinds
      simpa using this.symm
    · intro b mem
      rw [List.append_cons] at descending closes
      refine closes b (List.mem_append_left _ mem) fun stillOpen => ?_
      have := (List.pairwise_append.mp descending).2.2 b mem b stillOpen
      omega

theorem enterCalls_succ (n : Nat) :
    enterCalls profile instructions (n + 1) = enterCalls profile instructions n ++
      if entersAt profile instructions n then [n] else [] := by
  rw [enterCalls, List.range_succ, List.filter_append, List.filter_cons, List.filter_nil]
  rfl

/-- **One step keeps the stack.** -/
theorem step_stack {w w' : Walk} {i : Instruction} (here : instructions[n]? = some i)
    (h : Stack profile instructions n n n w.frames (openAfter profile instructions n)
      ((enterCalls profile instructions n).map (· + 1)))
    (step : w.step profile i = .ok w') :
    Stack profile instructions (n + 1) (n + 1) (n + 1) w'.frames
      (openAfter profile instructions (n + 1))
      ((enterCalls profile instructions (n + 1)).map (· + 1)) := by
  have taken := take_stack here h
  have action : actionAt profile instructions n = i.action? profile := by
    rw [actionAt, here]
    rfl
  rw [openAfter, enterCalls_succ, entersAt]
  rcases step_cases step with ⟨none, same⟩ | ⟨kind, enters, pushed⟩ | ⟨kind, exits, popped⟩
  · rw [action, none, same]
    simpa [openBehind] using taken.advance
  · rw [action, enters, pushed]
    have new := Stack.inner (o := ⟨n, kind⟩) taken
      (Frame.Tracks.start kind (w.take profile i).key) rfl (action.trans enters)
    simpa [openBehind, Layout.list] using new
  · rw [action, exits, popped]
    have inside : n < instructions.length := (List.getElem?_eq_some_iff.mp here).1
    have stack := exit_stack n kind taken.advance
      (fun o mem gone => ?_) (openAfter_descending n)
    · simpa using stack
    -- A scope that was open and is not any more was closed by this very exit.
    · have later : o.position < n := position_lt_of_mem_openAfter mem
      refine ⟨by omega, inside, fun count behind before =>
        isOpen_of_mem_openAfter mem count behind (by omega), .inr ⟨⟨kind, ?_⟩, ?_⟩⟩
      · exact action.trans exits
      · rintro ⟨o', mem', same⟩
        rw [openAfter, action, exits] at mem'
        rcases mem_openBehind mem' with known | new
        · exact gone (eq_of_mem_openAfter mem known same.symm ▸ mem')
        · omega

end Behind

end Walk

/-! ## Whole walks -/

section Whole

variable {profile : Profile} {instructions : List Instruction}

/-- A run that comes to an end starts with a step. -/
theorem Walk.exists_step_of_run {w w' : Walk} {i : Instruction} {rest : List Instruction}
    (run : (i :: rest).foldlM (Walk.step profile) w = .ok w') :
    ∃ next, w.step profile i = .ok next ∧ rest.foldlM (Walk.step profile) next = .ok w' := by
  rw [List.foldlM_cons] at run
  cases first : w.step profile i with
  | error stuck =>
    rw [first] at run
    cases run
  | ok next =>
    rw [first] at run
    exact ⟨next, rfl, run⟩

/-- What every step keeps holds at the end, if it holds behind the instructions taken so far. -/
theorem Walk.run_induction {P : Nat → Walk → Prop}
    (keeps : ∀ {n i v v'}, instructions[n]? = some i → P n v → v.step profile i = .ok v' →
      P (n + 1) v')
    {w' : Walk} {n : Nat} (rest : List Instruction) (w : Walk) (ahead : instructions.drop n = rest)
    (h : P n w) (inside : n ≤ instructions.length)
    (run : rest.foldlM (Walk.step profile) w = .ok w') : P instructions.length w' := by
  -- The induction is on the instructions ahead.
  induction rest generalizing n w with
  | nil =>
    have done : instructions.length = n :=
      Nat.le_antisymm (List.drop_eq_nil_iff.mp ahead) inside
    cases run
    rw [done]
    exact h
  | cons i rest ih =>
    have here : instructions[n]? = some i := by
      rw [← List.head?_drop, ahead]
      rfl
    have behind : instructions.drop (n + 1) = rest := by
      rw [← List.tail_drop, ahead]
      rfl
    obtain ⟨next, step, run⟩ := exists_step_of_run run
    exact ih next behind (keeps here h step) (List.getElem?_eq_some_iff.mp here).1 run

theorem Walk.run_stack {w' : Walk} {n : Nat} (rest : List Instruction) (w : Walk)
    (ahead : instructions.drop n = rest)
    (h : Stack profile instructions n n n w.frames (openAfter profile instructions n)
      ((enterCalls profile instructions n).map (· + 1)))
    (inside : n ≤ instructions.length)
    (run : rest.foldlM (Walk.step profile) w = .ok w') :
    Stack profile instructions instructions.length instructions.length instructions.length
      w'.frames (openAfter profile instructions instructions.length)
      ((enterCalls profile instructions instructions.length).map (· + 1)) :=
  run_induction (P := fun n w => Stack profile instructions n n n w.frames
    (openAfter profile instructions n) ((enterCalls profile instructions n).map (· + 1)))
    Walk.step_stack rest w ahead h inside run

/-- At the end the root has taken up all frames that were still open. -/
theorem Walk.tree_tracks {w : Walk}
    (h : Stack profile instructions instructions.length instructions.length instructions.length
      w.frames (openAfter profile instructions instructions.length)
      ((enterCalls profile instructions instructions.length).map (· + 1))) :
    ∃ l : Layout, l.list.map (·.start) =
        (enterCalls profile instructions instructions.length).map (· + 1) ∧
      (w.root.closeAll w.inner.reverse).Tracks profile instructions 0 instructions.length
        instructions.length instructions.length l := by
  -- What is open at the end was never closed and reaches up to it.
  have closes : ∀ o ∈ openAfter profile instructions instructions.length,
      ClosesAt profile instructions o.position instructions.length := fun o mem =>
    ⟨position_lt_of_mem_openAfter mem, Nat.le_refl _,
      fun count behind before => isOpen_of_mem_openAfter mem count behind (by omega), .inl rfl⟩
  have same : w.inner.length = (openAfter profile instructions instructions.length).length := by
    have := congrArg List.length h.kinds
    simpa [frames] using this
  rw [← List.append_nil (openAfter profile instructions instructions.length), frames] at h
  have closed := h.closeAbove _ _ same closes
  generalize (enterCalls profile instructions instructions.length).map (· + 1) = starts at closed
  cases closed with
  | @root _ _ _ l tracks => exact ⟨l, rfl, tracks⟩

def forcedClose : List Instruction :=
  [.call Opcode.invokestatic ⟨"B", "g", "()V", false⟩,
    .call Opcode.invokevirtual
      ⟨Profile.composer, "startRestartGroup", "(I)Landroidx/compose/runtime/Composer;", true⟩,
    .plain 0,
    .call Opcode.invokevirtual ⟨Profile.composer, "startReplaceGroup", "(I)V", true⟩,
    .call Opcode.invokestatic ⟨"B", "h", "()V", false⟩,
    .call Opcode.invokevirtual
      ⟨Profile.composer, "endRestartGroup", "()Landroidx/compose/runtime/ScopeUpdateScope;", true⟩]

/-- **Every scope of a method is a segment of its instructions.** The root is all of it, and the
others start, in the order of their numbers, right behind the calls that open scopes. -/
theorem ScopeTree.segments_of_build {method : MethodId} {group : Option GroupKey} {t : ScopeTree}
    (h : ScopeTree.build profile method group instructions = .ok t) :
    ∃ seg : Nat → Segment, seg 0 = ⟨0, instructions.length⟩ ∧
      (List.range' 1 t.nested.size).map (fun number => (seg number).start) =
        (enterCalls profile instructions instructions.length).map (· + 1) ∧
      ∀ number scope, t.scope? number = some scope →
        Nests profile instructions seg number scope := by
  rw [ScopeTree.build] at h
  split at h
  · next w run =>
    cases h
    have start : Stack profile instructions 0 0 0 (Walk.start group).frames
        (openAfter profile instructions 0) ((enterCalls profile instructions 0).map (· + 1)) :=
      .root (Frame.Tracks.start .methodRoot group)
    obtain ⟨l, starts, tracks⟩ :=
      Walk.tree_tracks (Walk.run_stack instructions _ rfl start (Nat.zero_le _) run)
    have numbers := l.map_segment ⟨0, instructions.length⟩
    rw [tracks.spans.length_list] at numbers
    have children := tracks.spans.map_roots 1 numbers
    refine ⟨l.segment ⟨0, instructions.length⟩, rfl, ?_, ?_⟩
    · rw [← starts, ← numbers, List.map_map]
      rfl
    · intro number scope found
      -- Number zero is the root; every other scope lies in the forest below it.
      rcases number with _ | number
      · cases found
        refine ⟨nofun, ⟨tracks.hash, ?_⟩, nofun, fun child mem => ?_, ?_⟩
        · exact children ▸ tracks.dependencies
        · exact tracks.spans.bounds_of_mem_tops _ (children ▸ List.mem_map_of_mem mem)
        · have apart := tracks.spans.tops_pairwise
          rw [← children] at apart
          exact List.pairwise_map.mp apart
      · have placed : (scope, number + 1) ∈
            ((w.root.closeAll w.inner.reverse).nested.placed 1 0
              (w.root.closeAll w.inner.reverse).group).zipIdx 1 :=
          List.mem_zipIdx_iff_le_and_getElem?_sub.mpr ⟨Nat.le_add_left _ _, found⟩
        exact tracks.spans.nests 1 0 _ Nat.one_pos numbers (Nat.le_refl _) (Nat.le_refl _) _ placed
  · cases h

/-- Two nested scopes, of which the inner one has no call of its own that closes it. -/
theorem ScopeTree.segments_of_forced_close : ∃ t,
    ScopeTree.build .composition ⟨"A", "f", "()V"⟩ none forcedClose = .ok t ∧
      ∃ seg : Nat → Segment, seg 0 = ⟨0, 6⟩ ∧
        (List.range' 1 t.nested.size).map (fun number => (seg number).start) = [2, 4] ∧
        ∀ number scope, t.scope? number = some scope →
          Nests .composition forcedClose seg number scope := by
  obtain ⟨t, built⟩ : ∃ t, ScopeTree.build .composition ⟨"A", "f", "()V"⟩ none forcedClose = .ok t :=
    ⟨_, rfl⟩
  have calls : enterCalls .composition forcedClose 6 = [1, 3] := by rfl
  have found := ScopeTree.segments_of_build built
  rw [show forcedClose.length = 6 by rfl, calls] at found
  exact ⟨t, built, found⟩

end Whole

end Recompose
