import Mathlib.Data.List.Induction
import Mathlib.Logic.Function.Basic
import Recompose.Cell

/-!
A cell that many use at once. What is done under its lock is one step. An update takes several: one
in which it starts, and one at the end of each call of its function; the steps of others come in
between in any order. Objects are compared by identity, and as no identity is given away twice that
comes to the same as comparing the objects.
-/

namespace Recompose

/-- An update under way: its function, the object that this is being applied to, and how many calls
are over. -/
structure Updating (α : Type) where
  f : α → α
  previous : Stamped α
  calls : Nat

/-- What is done with a cell in one step. A call that loses drops its result. -/
inductive Deed (α : Type) where
  | made (object : Stamped α)
  | loaded (object : Stamped α)
  | compared (current new : Stamped α) (result : Except (Stamped α) Unit)
  | swapped (previous new : Stamped α)
  | started (number : Nat) (f : α → α)
  | lost (number : Nat) (previous actual : Stamped α) (dropped : α)
  | updated (number : Nat) (f : α → α) (update : Cell.Update α)

/-- A cell among its users: the values of all objects that have been made, by identity, and the
updates under way, by numbers of their own. -/
structure Shared (α : Type) where
  cell : Cell α
  made : List α
  updating : Nat → Option (Updating α)

variable {α : Type}

namespace Cell

variable {c : Cell α}

theorem compareAndSwap_held {current : Stamped α} (new : Stamped α)
    (same : c.held.id = current.id) :
    c.compareAndSwap current new = (.ok (), { c with held := new }) :=
  if_pos same

theorem finish_held {f : α → α} {previous : Stamped α} {calls : Nat}
    (same : c.held.id = previous.id) :
    c.finish f previous calls =
      let new : Stamped α := ⟨c.fresh, f previous.value⟩
      (.ok ⟨previous, new, calls + 1⟩, ⟨new, c.fresh + 1⟩) := by
  simp [finish, stamp, compareAndSwap, same]

theorem finish_other {f : α → α} {previous : Stamped α} {calls : Nat}
    (apart : c.held.id ≠ previous.id) :
    c.finish f previous calls = (.error c.held, { c with fresh := c.fresh + 1 }) := by
  simp [finish, stamp, compareAndSwap, apart]

end Cell

namespace Shared

/-- What is known by a number after one of the updates has changed. -/
theorem update_eq_some_iff {updating : Nat → Option (Updating α)} {number n : Nat}
    {changed : Option (Updating α)} {u : Updating α} :
    Function.update updating number changed n = some u ↔
      n = number ∧ changed = some u ∨ n ≠ number ∧ updating n = some u := by
  by_cases same : n = number
  · subst same
    simp
  · simp [same]

def new (value : α) : Shared α :=
  ⟨.new value, [value], fun _ => none⟩

/-- The object has been made. -/
def Has (s : Shared α) (o : Stamped α) : Prop :=
  s.made[o.id]? = some o.value

/-- The end of a call: the update is over or goes on with another one. -/
def finish (s : Shared α) (number : Nat) (u : Updating α) : Deed α × Shared α :=
  let value := u.f u.previous.value
  let made := s.made ++ [value]
  match s.cell.finish u.f u.previous u.calls with
  | (.ok update, cell) =>
    (.updated number u.f update, ⟨cell, made, Function.update s.updating number none⟩)
  | (.error actual, cell) =>
    let next := { u with previous := actual, calls := u.calls + 1 }
    (.lost number u.previous actual value,
      ⟨cell, made, Function.update s.updating number (some next)⟩)

/-- What anyone can do in one step. Only objects that have been made are passed around. -/
inductive Step (s : Shared α) : Deed α → Shared α → Prop where
  | make (value : α) :
    s.Step (.made (s.cell.stamp value).1)
      { s with cell := (s.cell.stamp value).2, made := s.made ++ [value] }
  | load : s.Step (.loaded s.cell.held) s
  | compareAndSwap (current new : Stamped α) : s.Has current → s.Has new →
    s.Step (.compared current new (s.cell.compareAndSwap current new).1)
      { s with cell := (s.cell.compareAndSwap current new).2 }
  | swap (new : Stamped α) : s.Has new →
    s.Step (.swapped (s.cell.swap new).1 new) { s with cell := (s.cell.swap new).2 }
  | start (number : Nat) (f : α → α) : s.updating number = none →
    s.Step (.started number f)
      { s with updating := Function.update s.updating number (some ⟨f, s.cell.held, 0⟩) }
  | finish (number : Nat) {u : Updating α} : s.updating number = some u →
    s.Step (s.finish number u).1 (s.finish number u).2

/-- The deeds may have been done one after another with a new cell, and have led to the state. -/
inductive Ran (value : α) : List (Deed α) → Shared α → Prop where
  | new : Ran value [] (.new value)
  | step {deeds : List (Deed α)} {s t : Shared α} {d : Deed α} :
    Ran value deeds s → s.Step d t → Ran value (deeds ++ [d]) t

namespace Ran

variable {value : α} {s : Shared α}

theorem exists_of_concat {deeds : List (Deed α)} {d : Deed α} (ran : Ran value (deeds ++ [d]) s) :
    ∃ t, Ran value deeds t ∧ t.Step d s := by
  generalize whole : deeds ++ [d] = all at ran
  cases ran with
  | new => simp at whole
  | step before last =>
    obtain ⟨rfl, same⟩ := List.append_inj' whole rfl
    cases same
    exact ⟨_, before, last⟩

/-- Every deed of a run is a step from a state that the deeds before it have led to. -/
theorem exists_step {front back : List (Deed α)} {d : Deed α}
    (ran : Ran value (front ++ d :: back) s) : ∃ t t', Ran value front t ∧ t.Step d t' := by
  induction back using List.reverseRecOn generalizing s with
  | nil =>
    obtain ⟨t, before, last⟩ := ran.exists_of_concat
    exact ⟨t, s, before, last⟩
  | append_singleton back last ih =>
    rw [← List.cons_append, ← List.append_assoc] at ran
    obtain ⟨t, before, -⟩ := ran.exists_of_concat
    exact ih before

end Ran

/-! ## Identities -/

/-- Identities are the places of the values, and no object is held or worked on that has not been
made. -/
structure Sound (s : Shared α) : Prop where
  fresh_eq : s.cell.fresh = s.made.length
  held : s.Has s.cell.held
  previous : ∀ {number u}, s.updating number = some u → s.Has u.previous

/-- An identity has one object. -/
theorem Has.eq_of_id {s : Shared α} {o o' : Stamped α} (h : s.Has o) (h' : s.Has o')
    (same : o.id = o'.id) : o = o' := by
  rw [Has, same] at h
  exact Stamped.ext same (Option.some.inj (h.symm.trans h'))

/-- Objects stay when others are made. -/
theorem Has.append {s t : Shared α} {o : Stamped α} {values : List α}
    (made : t.made = s.made ++ values) (h : s.Has o) : t.Has o := by
  rw [Has, made]
  exact List.getElem?_append_left (List.getElem?_eq_some_iff.mp h).1 ▸ h

namespace Sound

variable {s t : Shared α}

theorem new (value : α) : (Shared.new value).Sound :=
  ⟨rfl, rfl, nofun⟩

/-- A new object has the first identity that is free. -/
theorem has_fresh (sound : s.Sound) {value : α} (made : t.made = s.made ++ [value]) :
    t.Has ⟨s.cell.fresh, value⟩ := by
  rw [Has, made, sound.fresh_eq]
  exact List.getElem?_concat_length

theorem fresh_succ (sound : s.Sound) (value : α) :
    s.cell.fresh + 1 = (s.made ++ [value]).length := by
  rw [sound.fresh_eq, List.length_append, List.length_singleton]

/-! ## Comparing -/

theorem apart (sound : s.Sound) {number : Nat} {u : Updating α} (under : s.updating number = some u)
    (other : s.cell.held ≠ u.previous) : s.cell.held.id ≠ u.previous.id :=
  fun same => other (sound.held.eq_of_id (sound.previous under) same)

theorem compareAndSwap_other (sound : s.Sound) {current : Stamped α} (new : Stamped α)
    (has : s.Has current) (other : s.cell.held ≠ current) :
    s.cell.compareAndSwap current new = (.error s.cell.held, s.cell) :=
  if_neg fun same => other (sound.held.eq_of_id has same)

/-- What a call computes goes in where what it was computed from is still held. -/
theorem finish_held {u : Updating α} (number : Nat) (same : s.cell.held = u.previous) :
    s.finish number u =
      let new : Stamped α := ⟨s.cell.fresh, u.f u.previous.value⟩
      (.updated number u.f ⟨u.previous, new, u.calls + 1⟩,
        ⟨⟨new, s.cell.fresh + 1⟩, s.made ++ [new.value],
          Function.update s.updating number none⟩) := by
  rw [finish, Cell.finish_held (congrArg Stamped.id same)]

/-- Where something else is held, the call is lost and the next one starts from that. -/
theorem finish_other (sound : s.Sound) {number : Nat} {u : Updating α}
    (under : s.updating number = some u) (other : s.cell.held ≠ u.previous) :
    s.finish number u =
      (.lost number u.previous s.cell.held (u.f u.previous.value),
        ⟨{ s.cell with fresh := s.cell.fresh + 1 }, s.made ++ [u.f u.previous.value],
          Function.update s.updating number (some ⟨u.f, s.cell.held, u.calls + 1⟩)⟩) := by
  rw [finish, Cell.finish_other (sound.apart under other)]

end Sound

/-! ## All ends of a step -/

/-- What a step has come to. -/
inductive Outcome (s : Shared α) : Deed α → Shared α → Prop where
  | made (value : α) :
    s.Outcome (.made ⟨s.cell.fresh, value⟩)
      { s with cell := { s.cell with fresh := s.cell.fresh + 1 }, made := s.made ++ [value] }
  | loaded : s.Outcome (.loaded s.cell.held) s
  | replaced {new : Stamped α} : s.Has new →
    s.Outcome (.compared s.cell.held new (.ok ()))
      { s with cell := { s.cell with held := new } }
  | refused {current : Stamped α} (new : Stamped α) : s.cell.held ≠ current →
    s.Outcome (.compared current new (.error s.cell.held)) s
  | swapped {new : Stamped α} : s.Has new →
    s.Outcome (.swapped s.cell.held new) { s with cell := { s.cell with held := new } }
  | started {number : Nat} (f : α → α) : s.updating number = none →
    s.Outcome (.started number f)
      { s with updating := Function.update s.updating number (some ⟨f, s.cell.held, 0⟩) }
  | updated {number : Nat} {u : Updating α} {new : Stamped α} :
    s.updating number = some u → s.cell.held = u.previous →
    new = ⟨s.cell.fresh, u.f u.previous.value⟩ →
    s.Outcome (.updated number u.f ⟨u.previous, new, u.calls + 1⟩)
      ⟨⟨new, s.cell.fresh + 1⟩, s.made ++ [new.value], Function.update s.updating number none⟩
  | lost {number : Nat} {u : Updating α} : s.updating number = some u → s.cell.held ≠ u.previous →
    s.Outcome (.lost number u.previous s.cell.held (u.f u.previous.value))
      ⟨{ s.cell with fresh := s.cell.fresh + 1 }, s.made ++ [u.f u.previous.value],
        Function.update s.updating number (some ⟨u.f, s.cell.held, u.calls + 1⟩)⟩

namespace Sound

variable {s t : Shared α} {d : Deed α}

theorem outcome (sound : s.Sound) (done : s.Step d t) : s.Outcome d t := by
  cases done with
  | make value => exact .made value
  | load => exact .loaded
  | compareAndSwap current new has has' =>
    by_cases same : s.cell.held = current
    · rw [Cell.compareAndSwap_held new (congrArg Stamped.id same), ← same]
      exact .replaced has'
    · rw [sound.compareAndSwap_other new has same]
      exact .refused new same
  | swap new has => exact .swapped has
  | start number f idle => exact .started f idle
  | @finish number u under =>
    by_cases same : s.cell.held = u.previous
    · rw [finish_held number same]
      exact .updated under same rfl
    · rw [sound.finish_other under same]
      exact .lost under same

/-- The updates under way, one of which is changed. -/
theorem previous_update (sound : s.Sound) {n : Nat} {v : Updating α}
    (under : t.updating n = some v) {number : Nat} {u : Option (Updating α)}
    (changed : t.updating = Function.update s.updating number u)
    (made : ∀ {o}, s.Has o → t.Has o) (has : ∀ v, u = some v → t.Has v.previous) :
    t.Has v.previous := by
  rw [changed] at under
  obtain ⟨-, here⟩ | ⟨-, there⟩ := update_eq_some_iff.mp under
  · exact has v here
  · exact made (sound.previous there)

/-- A step keeps identities apart. -/
theorem step (sound : s.Sound) (done : s.Step d t) : t.Sound := by
  cases sound.outcome done with
  | made value =>
    refine ⟨?_, sound.held.append rfl, fun under => (sound.previous under).append rfl⟩
    exact sound.fresh_succ value
  | loaded | refused => exact sound
  | replaced has | swapped has => exact ⟨sound.fresh_eq, has, sound.previous⟩
  | started f idle =>
    refine ⟨sound.fresh_eq, sound.held, fun under => ?_⟩
    refine sound.previous_update under rfl id ?_
    rintro v ⟨⟩
    exact sound.held
  | updated _ _ new =>
    subst new
    refine ⟨sound.fresh_succ _, sound.has_fresh rfl, fun under => ?_⟩
    exact sound.previous_update under rfl (fun has => has.append rfl) nofun
  | lost =>
    refine ⟨sound.fresh_succ _, sound.held.append rfl, fun under => ?_⟩
    refine sound.previous_update under rfl (fun has => has.append rfl) ?_
    rintro v ⟨⟩
    exact sound.held.append rfl

end Sound

theorem Ran.sound {value : α} {deeds : List (Deed α)} {s : Shared α} (ran : Ran value deeds s) :
    s.Sound := by
  induction ran with
  | new => exact .new value
  | step _ done ih => exact ih.step done

end Shared

end Recompose
