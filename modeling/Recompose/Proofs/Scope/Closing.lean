import Recompose.Proofs.Scope.Nesting

/-!
The scopes of a walk as they would be if it ended now: all open ones closed, each in the one around
it. An exit only does what the end would do, so it changes nothing here; a call that opens a scope
adds it behind all others, inside the innermost one.
-/

namespace Recompose

namespace Forest

/-- How many scopes lie around the innermost ones, these included. -/
def depth : Forest → Nat
  | nil => 0
  | cons _ nested rest => max (nested.depth + 1) rest.depth

theorem scopes_append (f g : Forest) : (f.append g).scopes = f.scopes ++ g.scopes := by
  induction f with
  | nil => rfl
  | cons scope nested rest _ ih =>
    simp only [append, scopes, ih, List.cons_append, List.append_assoc]

theorem depth_append (f g : Forest) : (f.append g).depth = max f.depth g.depth := by
  induction f with
  | nil => exact (Nat.zero_max _).symm
  | cons scope nested rest _ ih => rw [append, depth, depth, ih, Nat.max_assoc]

theorem scopes_outline (f : Forest) : f.outline.scopes = f.scopes.map Scope.outline := by
  induction f with
  | nil => rfl
  | cons scope nested rest nestedIh restIh =>
    simp only [outline, scopes, List.cons_append, List.map_cons, List.map_append, nestedIh, restIh]

theorem depth_outline (f : Forest) : f.outline.depth = f.depth := by
  induction f with
  | nil => rfl
  | cons scope nested rest nestedIh restIh => rw [outline, depth, depth, nestedIh, restIh]

/-- Scopes given outermost first, each with the scopes closed inside it, and the next one last among
these. -/
def enclose : List (Scope × Forest) → Forest
  | [] => nil
  | o :: inner => cons o.1 (o.2.append (enclose inner)) nil

/-- A new innermost scope comes behind all others. -/
theorem scopes_enclose_concat (outer : List (Scope × Forest)) (scope : Scope) :
    (enclose (outer ++ [(scope, nil)])).scopes = (enclose outer).scopes ++ [scope] := by
  induction outer with
  | nil => rfl
  | cons o outer ih =>
    simp only [List.cons_append, enclose, scopes, scopes_append, ih, List.append_assoc,
      List.append_nil]

/-- A new innermost scope has all open ones around it. -/
theorem depth_enclose_concat (outer : List (Scope × Forest)) (scope : Scope) :
    (enclose (outer ++ [(scope, nil)])).depth = max (enclose outer).depth (outer.length + 1) := by
  induction outer with
  | nil => rfl
  | cons o outer ih =>
    simp only [List.cons_append, enclose, depth, depth_append, ih, List.length_cons]
    omega

end Forest

namespace Frame

/-- Closing the innermost frames first changes nothing. -/
theorem closeAll_append (f : Frame) (outer : List Frame) (g : Frame) (inner : List Frame) :
    f.closeAll (outer ++ g :: inner) = f.closeAll (outer ++ [g.closeAll inner]) := by
  induction outer generalizing f with
  | nil => rfl
  | cons o outer ih =>
    show f.adopt (o.closeAll (outer ++ _)) = f.adopt (o.closeAll (outer ++ _))
    rw [ih]

theorem outline_closeAll (f : Frame) (frames : List Frame) :
    (Forest.cons (f.closeAll frames).scope (f.closeAll frames).nested .nil).outline =
      Forest.enclose ((f :: frames).map outline) := by
  induction frames generalizing f with
  | nil =>
    show Forest.cons _ _ .nil = Forest.cons _ (f.nested.outline.append .nil) .nil
    rw [Forest.append_nil]
    rfl
  | cons g frames ih =>
    show (Forest.cons _ (f.adopt (g.closeAll frames)).nested .nil).outline =
      Forest.cons _ (f.nested.outline.append (Forest.enclose ((g :: frames).map outline))) .nil
    rw [nested_adopt, ← ih, ← Forest.outline_append]
    rfl

end Frame

namespace Walk

/-- The root, were the walk to end now. -/
def closed (w : Walk) : Frame :=
  w.root.closeAll w.inner.reverse

/-- The kinds, keys and order of all scopes of the walk, open or closed. -/
def shape (w : Walk) : Forest :=
  .enclose w.outlines.reverse

theorem outline_closed (w : Walk) :
    (Forest.cons w.closed.scope w.closed.nested .nil).outline = w.shape := by
  rw [closed, Frame.outline_closeAll, shape, outlines, frames, ← List.map_reverse,
    List.reverse_append, List.reverse_singleton, List.singleton_append]

/-- **An exit closes what the end would close as well.** -/
theorem closed_exit (w : Walk) (kind : ScopeKind) : (w.exit kind).closed = w.closed := by
  have parts :=
    List.takeWhile_append_dropWhile (p := fun f : Frame => f.kind != kind) (l := w.inner)
  rw [exit, List.span_eq_takeWhile_dropWhile]
  generalize w.inner.takeWhile (·.kind != kind) = above at parts ⊢
  cases rest : w.inner.dropWhile (·.kind != kind) with
  | nil => rfl
  | cons f inner =>
    rw [rest] at parts
    cases inner with
    | nil =>
      rw [closed, closed, ← parts, List.reverse_append]
      rfl
    | cons g inner =>
      rw [closed, closed, ← parts, List.reverse_append, List.reverse_cons, List.reverse_cons,
        List.append_assoc, List.append_assoc, List.singleton_append, List.singleton_append,
        Frame.closeAll_append]
      show w.root.closeAll (g.adopt _ :: inner).reverse = _
      rw [List.reverse_cons]
      rfl

theorem shape_take (profile : Profile) (w : Walk) (i : Instruction) :
    (w.take profile i).shape = w.shape := by
  rw [shape, shape, outlines_take]

theorem shape_exit (w : Walk) (kind : ScopeKind) : (w.exit kind).shape = w.shape := by
  rw [← outline_closed, ← outline_closed, closed_exit]

theorem length_inner_exit (w : Walk) (kind : ScopeKind) :
    (w.exit kind).inner.length ≤ w.inner.length := by
  have lengths (v : Walk) : v.frames.length = v.inner.length + 1 := by simp [frames]
  have before := lengths w
  have after := lengths (w.exit kind)
  rcases exit_cases w kind with ⟨-, same⟩ | ⟨above, f, inner, g, outer, split, tail, -, -, closed⟩
  · rw [same] at after
    omega
  · have total : w.frames = above ++ f :: g :: outer := by
      rw [frames, split, List.append_assoc, List.cons_append, tail]
    rw [closed, List.length_cons] at after
    rw [total, List.length_append, List.length_cons, List.length_cons] at before
    omega

end Walk

/-- A marker call leaves no key at hand. -/
theorem Instruction.keyBehind_of_action? {profile : Profile} {i : Instruction}
    {action : MarkerAction} (h : i.action? profile = some action) (key : Option GroupKey) :
    i.keyBehind key = none := by
  cases i with
  | call => rfl
  | _ => cases h

namespace Walk

/-! ## Single steps -/

variable {profile : Profile} {w w' : Walk} {i : Instruction}

/-- The key at hand depends on the instructions alone. -/
theorem key_of_step (h : w.step profile i = .ok w') : w'.key = i.keyBehind w.key := by
  rw [step_eq] at h
  split at h
  · next action =>
    split at h
    · cases h
    · cases h
      exact (Instruction.keyBehind_of_action? action _).symm
  · next action =>
    cases h
    exact (Instruction.keyBehind_of_action? action _).symm
  · cases h
    rfl

/-- Only a call that opens a scope changes the shape. -/
theorem shape_of_step (h : w.step profile i = .ok w') :
    w'.shape = match i.action? profile with
      | some (.enter kind) => .enclose (w.outlines.reverse ++ [(⟨kind, w.key, 0, []⟩, .nil)])
      | _ => w.shape := by
  rw [step_eq] at h
  cases action : i.action? profile with
  | none =>
    rw [action] at h
    cases h
    exact shape_take profile w i
  | some action' =>
    rw [action] at h
    cases action' with
    | exit kind =>
      cases h
      exact (shape_exit (w.take profile i) kind).trans (shape_take profile w i)
    | enter kind =>
      dsimp only at h
      split at h
      · cases h
      · cases h
        show Forest.enclose ((Frame.start kind (w.take profile i).key).outline ::
          (w.take profile i).outlines).reverse = _
        rw [outlines_take, key_take, List.reverse_cons]
        rfl

/-- A step opens one scope at most. -/
theorem length_inner_of_step (h : w.step profile i = .ok w') :
    w'.inner.length ≤ w.inner.length + 1 := by
  rw [step_eq] at h
  split at h
  · split at h
    · cases h
    · cases h
      exact Nat.le_of_eq (congrArg Nat.succ length_inner_take)
  · next kind _ =>
    cases h
    refine Nat.le_succ_of_le (Nat.le_trans (length_inner_exit (w.take profile i) kind) ?_)
    exact Nat.le_of_eq length_inner_take
  · cases h
    exact Nat.le_succ_of_le (Nat.le_of_eq length_inner_take)

end Walk

/-- A tree that is built is that of a walk. -/
theorem ScopeTree.exists_walk_of_build {profile : Profile} {method : MethodId}
    {group : Option GroupKey} {instructions : List Instruction} {t : ScopeTree}
    (h : build profile method group instructions = .ok t) :
    ∃ w, walk profile group instructions = .ok w ∧ t = w.tree method := by
  rw [build] at h
  split at h
  · next w run =>
    cases h
    exact ⟨w, run, rfl⟩
  · cases h

end Recompose
