import Mathlib.Logic.Function.Iterate
import Recompose.Proofs.Scope.Closing
import Recompose.Proofs.Scope.Descendants

/-!
Scopes numbered as they are opened. A scope gets the next number at the call that opens it and knows
the scope around it from then on; that one lists it when it closes, behind those it lists already. A
tree that is built has just the links that come about so. Main result: these links are those of the
tree, and they are well-formed.
-/

namespace Recompose

/-- The links that there are while scopes are opened and closed. -/
structure Arena where
  /-- In the order of the numbers. -/
  links : List Links
  /-- The numbers and kinds of the open scopes, innermost first. -/
  opened : List (Nat × ScopeKind)
deriving DecidableEq, Repr

namespace Arena

def start : Arena :=
  ⟨[⟨none, []⟩], [(0, .methodRoot)]⟩

/-- The number of the innermost open scope. -/
def top (a : Arena) : Nat :=
  a.opened.head?.elim 0 (·.1)

def enter (a : Arena) (kind : ScopeKind) : Arena :=
  ⟨a.links ++ [⟨some a.top, []⟩], (a.links.length, kind) :: a.opened⟩

/-- Closes the innermost open scope; only now the scope around it lists it. -/
def close (a : Arena) : Arena :=
  match a.opened with
  | [] => a
  | (number, _) :: outer =>
    match a.links[number]?.bind (·.parent) with
    | some parent =>
      ⟨a.links.modify parent fun l => { l with children := l.children ++ [number] }, outer⟩
    | none => ⟨a.links, outer⟩

/-- Closes the innermost open scope of a kind, the root apart, and all scopes open inside it. -/
def exit (a : Arena) (kind : ScopeKind) : Arena :=
  match a.opened.dropLast.findIdx? (·.2 == kind) with
  | some above => close^[above + 1] a
  | none => a

def act (a : Arena) : Option MarkerAction → Arena
  | some (.enter kind) => a.enter kind
  | some (.exit kind) => a.exit kind
  | none => a

/-- What the marker calls among the instructions open and close. -/
def run (profile : Profile) (instructions : List Instruction) : Arena :=
  instructions.foldl (fun a i => a.act (i.action? profile)) start

/-- Closes all scopes, the root included. -/
def finish (a : Arena) : Arena :=
  close^[a.opened.length] a

theorem run_concat (profile : Profile) (instructions : List Instruction) (i : Instruction) :
    run profile (instructions ++ [i]) = (run profile instructions).act (i.action? profile) :=
  List.foldl_append

end Arena

/-! ## The links of a forest -/

namespace Forest

/-- The links of the scopes, as they are placed. -/
def links (first parent : Nat) : Forest → List Links
  | nil => []
  | cons _ nested rest =>
    ⟨some parent, nested.roots (first + 1)⟩ :: nested.links (first + 1) first ++
      rest.links (first + nested.size + 1) parent

theorem map_links_placed (f : Forest) (first parent : Nat) (parentGroup : Option GroupKey) :
    (f.placed first parent parentGroup).map (·.links) = f.links first parent := by
  induction f generalizing first parent parentGroup with
  | nil => rfl
  | cons scope nested rest nestedIh restIh =>
    rw [placed, links, List.map_append, List.map_cons, nestedIh, restIh]
    rfl

theorem length_links (f : Forest) (first parent : Nat) :
    (f.links first parent).length = f.size := by
  rw [← map_links_placed f first parent none, List.length_map, length_placed]

theorem roots_append (f g : Forest) (first : Nat) :
    (f.append g).roots first = f.roots first ++ g.roots (first + f.size) := by
  induction f generalizing first with
  | nil => rfl
  | cons scope nested rest _ ih =>
    rw [append, roots, roots, size, ih, List.cons_append,
      show first + (nested.size + rest.size + 1) = first + nested.size + 1 + rest.size by omega]

theorem links_append (f g : Forest) (first parent : Nat) :
    (f.append g).links first parent = f.links first parent ++ g.links (first + f.size) parent := by
  induction f generalizing first with
  | nil => rfl
  | cons scope nested rest _ ih =>
    rw [append, links, links, size, ih, List.append_assoc,
      show first + (nested.size + rest.size + 1) = first + nested.size + 1 + rest.size by omega]

theorem roots_outline (f : Forest) (first : Nat) : f.outline.roots first = f.roots first := by
  induction f generalizing first with
  | nil => rfl
  | cons scope nested rest _ ih => rw [outline, roots, roots, ih, size_outline]

theorem links_outline (f : Forest) (first parent : Nat) :
    f.outline.links first parent = f.links first parent := by
  induction f generalizing first parent with
  | nil => rfl
  | cons scope nested rest nestedIh restIh =>
    rw [outline, links, links, nestedIh, restIh, roots_outline, size_outline]

end Forest

/-! ## Open scopes -/

namespace Arena

/-- The links of an open scope, which lists those closed inside it, and of these right behind it. -/
def openLinks (parent : Option Nat) (number : Nat) (o : Scope × Forest) : List Links :=
  ⟨parent, o.2.roots (number + 1)⟩ :: o.2.links (number + 1) number

theorem length_openLinks (parent : Option Nat) (number : Nat) (o : Scope × Forest) :
    (openLinks parent number o).length = o.2.size + 1 := by
  rw [openLinks, List.length_cons, Forest.length_links]

/-- A scope that closes goes with all links inside it to those of the scope around it, which lists
it. -/
theorem openLinks_grow (parent : Option Nat) (number : Nat) (o inner : Scope × Forest) :
    openLinks parent number (Frame.grow (.cons inner.1 inner.2 .nil) o) =
      ⟨parent, o.2.roots (number + 1) ++ [number + (o.2.size + 1)]⟩ ::
        (o.2.links (number + 1) number ++
          openLinks (some number) (number + (o.2.size + 1)) inner) := by
  rw [openLinks, Frame.grow, Forest.roots_append, Forest.links_append,
    show number + 1 + o.2.size = number + (o.2.size + 1) by omega]
  show _ :: (_ ++ (_ ++ [])) = _
  rw [List.append_nil]
  rfl

/-- The item behind the first part of a list is changed. -/
theorem modify_length_append {α : Type} (before : List α) (item : α) (behind : List α)
    (change : α → α) :
    (before ++ item :: behind).modify before.length change = before ++ change item :: behind := by
  induction before with
  | nil => rfl
  | cons b before ih => simp [ih]

/-- The arena has the scopes of a walk, which are given innermost first, each with those closed
inside it: an open scope comes behind all that is closed inside the scopes around it. -/
inductive Mirrors : List (Scope × Forest) → Arena → Prop
  | root (o : Scope × Forest) : Mirrors [o] ⟨openLinks none 0 o, [(0, o.1.kind)]⟩
  | inner {outer : List (Scope × Forest)} {a : Arena} (o : Scope × Forest) : Mirrors outer a →
      Mirrors (o :: outer) ⟨a.links ++ openLinks (some a.top) a.links.length o,
        (a.links.length, o.1.kind) :: a.opened⟩

namespace Mirrors

variable {o inner : Scope × Forest} {outer : List (Scope × Forest)} {a : Arena}

theorem kinds (h : Mirrors outer a) : a.opened.map (·.2) = outer.map (·.1.kind) := by
  induction h with
  | root => rfl
  | inner o _ ih => rw [List.map_cons, List.map_cons, ih]

theorem length_opened (h : Mirrors outer a) : a.opened.length = outer.length := by
  rw [← List.length_map (·.2), h.kinds, List.length_map]

/-- The links of the innermost open scope and of those inside it come last. -/
theorem exists_links (h : Mirrors (o :: outer) a) :
    ∃ before parent, a.links = before ++ openLinks parent before.length o ∧
      a.top = before.length ∧
      ∀ o' : Scope × Forest, o'.1.kind = o.1.kind →
        Mirrors (o' :: outer) ⟨before ++ openLinks parent before.length o', a.opened⟩ := by
  cases h with
  | root =>
    refine ⟨[], none, rfl, rfl, fun o' same => ?_⟩
    rw [← same]
    exact .root o'
  | inner _ h =>
    refine ⟨_, _, rfl, rfl, fun o' same => ?_⟩
    rw [← same]
    exact .inner o' h

/-- The innermost scope closes into the one around it. -/
theorem close (h : Mirrors (inner :: o :: outer) a) :
    Mirrors (Frame.grow (.cons inner.1 inner.2 .nil) o :: outer) a.close := by
  cases h with
  | @inner _ a _ h =>
    obtain ⟨before, parent, links, top, others⟩ := h.exists_links
    have known : (a.links ++ openLinks (some a.top) a.links.length inner)[a.links.length]?.bind
        (·.parent) = some a.top := by
      rw [List.getElem?_append_right (Nat.le_refl _), Nat.sub_self]
      rfl
    have listed : (a.links ++ openLinks (some a.top) a.links.length inner).modify a.top
          (fun l => { l with children := l.children ++ [a.links.length] }) =
        before ++ openLinks parent before.length (Frame.grow (.cons inner.1 inner.2 .nil) o) := by
      rw [openLinks_grow, links, top, List.length_append, length_openLinks, List.append_assoc]
      exact modify_length_append ..
    rw [Arena.close]
    dsimp only
    rw [known]
    dsimp only
    rw [listed]
    exact others _ rfl

/-- All scopes above one close, and it takes them up. -/
theorem closeAbove (above : List Frame) {g : Frame} {frames : List Frame}
    (h : Mirrors ((above ++ g :: frames).map Frame.outline) a) :
    Mirrors ((g.closeAll above.reverse :: frames).map Frame.outline)
      (Arena.close^[above.length] a) := by
  -- The induction is on how many there are: closing the innermost one changes the next.
  induction count : above.length generalizing above a with
  | zero =>
    obtain rfl := List.eq_nil_of_length_eq_zero count
    exact h
  | succ n ih =>
    rw [Function.iterate_succ_apply]
    match above with
    | [f] =>
      obtain rfl := Nat.succ.inj count
      have := h.close
      rwa [← Frame.outline_adopt] at this
    | f :: f' :: above =>
      have closed := h.close
      rw [← Frame.outline_adopt] at closed
      have next := ih (f'.adopt f :: above) closed (Nat.succ.inj count)
      rw [List.reverse_cons, ← Frame.closeAll_concat] at next
      rw [List.reverse_cons, List.reverse_cons, List.append_assoc]
      exact next

/-! ## Steps of a walk -/

/-- An exit closes as many scopes here as there. -/
theorem exit {w : Walk} (h : Mirrors w.outlines a) (kind : ScopeKind) :
    Mirrors (w.exit kind).outlines (a.exit kind) := by
  have kinds : a.opened.dropLast.map (·.2) = w.inner.map (·.kind) := by
    rw [List.map_dropLast, h.kinds, Walk.outlines, Walk.frames, List.map_append, List.map_append]
    simp [Frame.outline, Frame.scope, Scope.outline]
  have search : a.opened.dropLast.findIdx? (·.2 == kind) =
      (w.inner.map (·.kind)).findIdx? (· == kind) := by
    rw [← kinds, List.findIdx?_map]
    rfl
  rcases w.exit_cases kind with ⟨others, same⟩ | ⟨above, f, inner, g, outer, split, tail, others,
    own, closed⟩
  · have missing : (w.inner.map (·.kind)).findIdx? (· == kind) = none := by
      simpa [List.findIdx?_eq_none_iff] using others
    rw [Arena.exit, search, missing, Walk.outlines, same]
    exact h
  · have found : (w.inner.map (·.kind)).findIdx? (· == kind) = some above.length := by
      have before : (above.map (·.kind)).findIdx? (· == kind) = none := by
        simpa [List.findIdx?_eq_none_iff] using others
      rw [split, List.map_append, List.findIdx?_append, before, List.map_cons, List.findIdx?_cons,
        own]
      simp
    have stack : w.outlines = (above ++ [f] ++ g :: outer).map Frame.outline := by
      rw [Walk.outlines, Walk.frames, split, ← tail]
      simp
    rw [stack] at h
    have next := closeAbove (above ++ [f]) h
    rw [List.length_append] at next
    rw [Arena.exit, search, found, Walk.outlines, closed]
    exact next

/-- **One step opens and closes the same scopes.** -/
theorem step {profile : Profile} {w w' : Walk} {i : Instruction} (h : Mirrors w.outlines a)
    (step : w.step profile i = .ok w') : Mirrors w'.outlines (a.act (i.action? profile)) := by
  rw [← Walk.outlines_take profile w i] at h
  rcases Walk.step_cases step with ⟨action, same⟩ | ⟨kind, action, same⟩ | ⟨kind, action, same⟩
  · rw [action, Walk.outlines, same]
    exact h
  · rw [action, Walk.outlines, same]
    exact .inner (Frame.start kind (w.take profile i).key).outline h
  · rw [action, Walk.outlines, same]
    exact h.exit kind

/-- At the end there are the links of the tree. -/
theorem links_finish {w : Walk} (h : Mirrors w.outlines a) (method : MethodId) :
    a.finish.links = (w.tree method).placed.map (·.links) := by
  have opened : a.opened.length = w.inner.length + 1 := by
    rw [h.length_opened, Walk.length_outlines]
  have closed : Mirrors [w.closed.outline] (Arena.close^[w.inner.length] a) :=
    closeAbove w.inner h
  rw [Arena.finish, opened, Function.iterate_succ_apply']
  generalize Arena.close^[w.inner.length] a = b at closed
  have links (t : ScopeTree) :
      t.placed.map (·.links) = ⟨none, t.nested.roots 1⟩ :: t.nested.links 1 0 := by
    rw [ScopeTree.placed, List.map_cons, Forest.map_links_placed]
    rfl
  rw [links]
  cases closed with
  | root =>
    show openLinks none 0 _ = _
    rw [openLinks, Frame.outline, Forest.roots_outline, Forest.links_outline]
    rfl
  | inner _ outer => cases outer

end Mirrors

end Arena

/-! ## The links of a tree -/

namespace ScopeTree

/-- Numbers and links that say the same: every scope but the first has one scope around it, and the
numbers of the scopes inside a scope come right behind its own. -/
structure WellFormed (t : ScopeTree) : Prop where
  /-- The numbers are those below the size. -/
  numbers : ∀ number, (∃ s, t.scope? number = some s) ↔ number < t.size
  root : ∀ number s, t.scope? number = some s → (s.parent = none ↔ number = 0)
  /-- The scope around a scope comes before it and lists it once. -/
  parent : ∀ number s p, t.scope? number = some s → s.parent = some p →
    p < number ∧ ∃ outer, t.scope? p = some outer ∧ outer.children.count number = 1
  /-- What a scope lists is a scope that has no other scope around it. -/
  child : ∀ number s child, t.scope? number = some s → child ∈ s.children →
    ∃ inner, t.scope? child = some inner ∧ inner.parent = some number
  ascending : ∀ number s, t.scope? number = some s → s.children.Pairwise (· < ·)
  /-- Following the links down comes to an end, with the descendants. -/
  visits : ∀ number found, t.Visits [number] found ↔ found = t.descendants number
  /-- The descendants are a scope and all scopes below it. -/
  below : ∀ number, number < t.size → ∀ other, other ∈ t.descendants number ↔ t.Below number other
  consecutive : ∀ number, number < t.size → ∃ k, t.descendants number = List.range' number (k + 1)
  all : t.descendants 0 = List.range t.size

theorem wellFormed (t : ScopeTree) : t.WellFormed where
  numbers := t.exists_scope?_iff
  root number s here := by
    constructor
    · intro none
      refine Nat.eq_zero_of_not_pos fun positive => ?_
      obtain ⟨p, outer, up, -⟩ := exists_outer_of_scope? here positive
      rw [none] at up
      cases up
    · rintro rfl
      cases here
      rfl
  parent number s p here up := by
    obtain ⟨before, outer, around, listed⟩ := exists_outer_of_parent here up
    obtain ⟨inner, children, -⟩ := exists_nested_of_scope? around
    have once : outer.children.Nodup := by
      rw [children]
      exact (inner.roots_pairwise _).imp Nat.ne_of_lt
    exact ⟨before, outer, around, List.count_eq_one_of_mem once listed⟩
  child number s child here listed := by
    obtain ⟨inner, children, stands, -⟩ := exists_nested_of_scope? here
    rw [children] at listed
    exact stands.exists_of_mem_roots child listed
  ascending number s here := by
    obtain ⟨inner, children, -⟩ := exists_nested_of_scope? here
    rw [children]
    exact inner.roots_pairwise _
  visits number found := by
    have visited := t.visits_descendants number
    exact ⟨fun found => visited.unique found, fun same => same ▸ visited⟩
  below _ inside other := mem_descendants_iff inside other
  consecutive number inside := by
    obtain ⟨s, here⟩ := (t.exists_scope?_iff number).mpr inside
    obtain ⟨inner, -, -, numbers⟩ := exists_nested_of_scope? here
    exact ⟨inner.size, numbers⟩
  all := t.descendants_root

/-- **The scopes of a tree have the numbers and links that they get while they are opened and
closed**, and these are well-formed. -/
theorem links_of_build {profile : Profile} {method : MethodId} {group : Option GroupKey}
    {instructions : List Instruction} {t : ScopeTree}
    (h : build profile method group instructions = .ok t) :
    t.placed.map (·.links) = (Arena.run profile instructions).finish.links ∧ t.WellFormed := by
  obtain ⟨w, run, rfl⟩ := exists_walk_of_build h
  refine ⟨?_, wellFormed _⟩
  have start : Arena.Mirrors (Walk.start group).outlines
      (Arena.run profile (instructions.take 0)) :=
    .root (Frame.start .methodRoot group).outline
  have finished := Walk.run_induction
    (P := fun n w => Arena.Mirrors w.outlines (Arena.run profile (instructions.take n)))
    (fun {n i v v'} here mirrors step => by
      rw [List.take_add_one, here, Option.toList_some, Arena.run_concat]
      exact mirrors.step step)
    instructions _ rfl start (Nat.zero_le _) run
  rw [List.take_length] at finished
  exact (finished.links_finish method).symm

/-- The outer one of two scopes is left before the inner one is closed. -/
theorem links_of_forcedClose : ∃ t,
    build .composition ⟨"A", "f", "()V"⟩ none forcedClose = .ok t ∧
      t.placed.map (·.links) = [⟨none, [1]⟩, ⟨some 0, [2]⟩, ⟨some 1, []⟩] ∧ t.WellFormed := by
  obtain ⟨t, built⟩ : ∃ t, build .composition ⟨"A", "f", "()V"⟩ none forcedClose = .ok t := ⟨_, rfl⟩
  have closed : (Arena.run .composition forcedClose).finish.links =
      [⟨none, [1]⟩, ⟨some 0, [2]⟩, ⟨some 1, []⟩] := by rfl
  have found := links_of_build built
  rw [closed] at found
  exact ⟨t, built, found⟩

end ScopeTree

end Recompose
