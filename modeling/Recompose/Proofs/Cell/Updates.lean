import Recompose.Proofs.Cell.Sharing

/-!
No update of a shared cell is lost. Everything that is put into the cell takes the place of what was
put in before, and an update puts in what its function makes of just that. In between it does what an
update against a script of writes does, which has the writes of all others during each of its calls.
-/

namespace Recompose

variable {α : Type}

/-! ## Scripts -/

namespace Cell

variable {f : α → α} {previous : Stamped α} {calls : Nat} {c : Cell α}
  {script : List (List (Write α))}

/-- What is written at the beginning of a call may have been written before it. -/
theorem attempt_interfere (writes : List (Write α)) (left : script ≠ []) :
    attempt f previous calls c (script.modifyHead (writes ++ ·)) =
      attempt f previous calls (c.interfere writes) script := by
  obtain ⟨first, later, rfl⟩ := List.exists_cons_of_ne_nil left
  rw [List.modifyHead_cons, attempt, attempt, interfere, List.foldl_append]
  rfl

theorem attempt_won (same : c.held.id = previous.id) :
    attempt f previous calls c ([] :: script) =
      let new : Stamped α := ⟨c.fresh, f previous.value⟩
      (⟨previous, new, calls + 1⟩, ⟨new, c.fresh + 1⟩) := by
  rw [attempt, interfere, List.foldl_nil, finish_held same]

theorem attempt_lost (apart : c.held.id ≠ previous.id) :
    attempt f previous calls c ([] :: script) =
      attempt f c.held (calls + 1) { c with fresh := c.fresh + 1 } script := by
  rw [attempt, interfere, List.foldl_nil, finish_other apart]

theorem attempt_concat_nil (start : script = [] → c.held = previous) :
    attempt f previous calls c (script ++ [[]]) = attempt f previous calls c script := by
  induction script generalizing previous calls c with
  | nil =>
    have same : c.held.id = previous.id := congrArg Stamped.id (start rfl)
    have wins (new : Stamped α) : compareAndSwap ⟨c.held, c.fresh + 1⟩ previous new =
        (.ok (), ⟨new, c.fresh + 1⟩) := compareAndSwap_held new same
    rw [List.nil_append, attempt_won same, attempt]
    simp only [stamp, wins]
  | cons writes script ih =>
    rw [List.cons_append, attempt, attempt]
    by_cases same : (c.interfere writes).held.id = previous.id
    · rw [finish_held same]
    · rw [finish_other same]
      exact ih fun _ => rfl

/-- Nobody writes any more when the script is used up. -/
theorem update_concat_nil (f : α → α) (c : Cell α) (script : List (List (Write α))) :
    c.update f (script ++ [[]]) = c.update f script :=
  attempt_concat_nil fun _ => rfl

end Cell

/-! ## What a deed does to the cell -/

namespace Deed

/-- The call of the update is over, and has lost. -/
def isLossOf (number : Nat) : Deed α → Bool
  | lost n _ _ _ => n == number
  | _ => false

/-- What others see of a deed. -/
def writes : Deed α → List (Cell.Write α)
  | made object => [.spare object.value]
  | compared _ new (.ok _) | swapped _ new => [.object new]
  | lost _ _ _ dropped => [.spare dropped]
  | updated _ _ update => [.value update.updated.value]
  | compared _ _ (.error _) | loaded _ | started _ _ => []

/-- The object that is taken out and the one that is put in its place, if any. -/
def replaced : Deed α → List (Stamped α × Stamped α)
  | compared current new (.ok _) => [(current, new)]
  | swapped previous new => [(previous, new)]
  | updated _ _ update => [(update.previous, update.updated)]
  | compared _ _ (.error _) | made _ | loaded _ | started _ _ | lost _ _ _ _ => []

/-- What becomes of the value in the cell. -/
def effect : Deed α → α → α
  | compared _ new (.ok _), _ | swapped _ new, _ => new.value
  | updated _ f _, value => f value
  | compared _ _ (.error _), value | made _, value | loaded _, value | started _ _, value
  | lost _ _ _ _, value => value

/-- What others do during the calls of an update, call by call. -/
def script (number : Nat) : List (Deed α) → List (List (Cell.Write α))
  | [] => [[]]
  | d :: deeds =>
    if d.isLossOf number then [] :: script number deeds
    else (script number deeds).modifyHead (d.writes ++ ·)

theorem script_ne_nil (number : Nat) (deeds : List (Deed α)) : script number deeds ≠ [] := by
  induction deeds with
  | nil => simp [script]
  | cons d deeds ih =>
    rw [script]
    split
    · simp
    · simpa using ih

end Deed

/-- Each object takes the place of the one before it, from the first to the last. -/
def Linked (first : Stamped α) : List (Stamped α × Stamped α) → Stamped α → Prop
  | [], last => first = last
  | (previous, new) :: later, last => first = previous ∧ Linked new later last

theorem Linked.append {first middle last : Stamped α} {before later : List (Stamped α × Stamped α)}
    (h : Linked first before middle) (h' : Linked middle later last) :
    Linked first (before ++ later) last := by
  induction before generalizing first with
  | nil =>
    obtain rfl : first = middle := h
    exact h'
  | cons replacement before ih => exact ⟨h.1, ih h.2⟩

namespace Shared

variable {value : α} {deeds : List (Deed α)} {s t : Shared α} {d : Deed α}

namespace Outcome

theorem cell_eq (h : s.Outcome d t) : t.cell = s.cell.interfere d.writes := by
  cases h with
  | updated _ _ new =>
    subst new
    rfl
  | _ => rfl

/-- Whatever is put in takes the place of what is held. -/
theorem linked (h : s.Outcome d t) : Linked s.cell.held d.replaced t.cell.held := by
  cases h with
  | replaced | swapped => exact ⟨rfl, rfl⟩
  | updated _ same _ => exact ⟨same, rfl⟩
  | made | loaded | refused | started | lost => rfl

theorem value_eq (h : s.Outcome d t) : t.cell.held.value = d.effect s.cell.held.value := by
  cases h with
  | @updated number u _ _ same new =>
    subst new
    exact congrArg (fun o => u.f o.value) same.symm
  | _ => rfl

end Outcome

theorem Ran.linked (ran : Ran value deeds s) :
    Linked ⟨0, value⟩ (deeds.flatMap Deed.replaced) s.cell.held := by
  induction ran with
  | new => rfl
  | step ran done ih =>
    rw [List.flatMap_append, List.flatMap_singleton]
    exact ih.append (ran.sound.outcome done).linked

theorem Ran.value_eq (ran : Ran value deeds s) :
    s.cell.held.value = deeds.foldl (fun v d => d.effect v) value := by
  induction ran with
  | new => rfl
  | step ran done ih =>
    rw [List.foldl_append, ← ih, (ran.sound.outcome done).value_eq]
    rfl

/-! ## Updates under way -/

/-- The update was started after some of the deeds, and as often as it has lost since, its function
has been applied in vain. Whatever is still to come, it ends as an update does against a script of
what others have done meanwhile and will do. -/
def Underway (value : α) (deeds : List (Deed α)) (s : Shared α) (number : Nat)
    (u : Updating α) : Prop :=
  ∃ before during t, deeds = before ++ .started number u.f :: during ∧ Ran value before t ∧
    (∀ f, .started number f ∉ during) ∧ during.countP (·.isLossOf number) = u.calls ∧
    ∀ later, t.cell.update u.f (Deed.script number (during ++ later)) =
      Cell.attempt u.f u.previous u.calls s.cell (Deed.script number later)

namespace Underway

variable {number : Nat} {u : Updating α}

theorem start (ran : Ran value deeds s) (f : α → α) (same : t.cell = s.cell) :
    Underway value (deeds ++ [.started number f]) t number ⟨f, s.cell.held, 0⟩ := by
  refine ⟨deeds, [], s, rfl, ran, fun f => List.not_mem_nil, rfl, fun later => ?_⟩
  rw [same]
  rfl

/-- What others do goes into the script of the call that is being made. -/
theorem other (h : Underway value deeds s number u) (wrote : t.cell = s.cell.interfere d.writes)
    (noLoss : d.isLossOf number = false) (noStart : ∀ f, d ≠ .started number f) :
    Underway value (deeds ++ [d]) t number u := by
  obtain ⟨before, during, first, rfl, ran, once, count, goesOn⟩ := h
  refine ⟨before, during ++ [d], first, by simp, ran, fun f mem => ?_, by simp [count, noLoss],
    fun later => ?_⟩
  · obtain mem | same := List.mem_append.mp mem
    · exact once f mem
    · exact noStart f (List.mem_singleton.mp same).symm
  · have script : Deed.script number (d :: later) =
        (Deed.script number later).modifyHead (d.writes ++ ·) := if_neg (by simp [noLoss])
    rw [List.append_assoc, List.singleton_append, goesOn, script,
      Cell.attempt_interfere _ (Deed.script_ne_nil number later), wrote]

/-- A loss ends the script of a call. -/
theorem lost (h : Underway value deeds s number u) (apart : s.cell.held.id ≠ u.previous.id)
    (dropped : α) (same : t.cell = { s.cell with fresh := s.cell.fresh + 1 }) :
    Underway value (deeds ++ [.lost number u.previous s.cell.held dropped]) t number
      ⟨u.f, s.cell.held, u.calls + 1⟩ := by
  obtain ⟨before, during, first, rfl, ran, once, count, goesOn⟩ := h
  let loss : Deed α := .lost number u.previous s.cell.held dropped
  have counts : loss.isLossOf number = true := by simp [loss, Deed.isLossOf]
  refine ⟨before, during ++ [loss], first, by simp [loss], ran, fun f mem => ?_, ?_,
    fun later => ?_⟩
  · obtain mem | same := List.mem_append.mp mem
    · exact once f mem
    · simp [loss] at same
  · rw [List.countP_append, count, List.countP_singleton, if_pos counts]
  · have script : Deed.script number (loss :: later) = [] :: Deed.script number later :=
      if_pos counts
    rw [List.append_assoc, List.singleton_append, goesOn, script, Cell.attempt_lost apart, same]

end Underway

theorem Ran.underway (ran : Ran value deeds s) {number : Nat} {u : Updating α}
    (under : s.updating number = some u) : Underway value deeds s number u := by
  induction ran generalizing number u with
  | new => cases under
  | step ran done ih =>
    have outcome := ran.sound.outcome done
    have wrote := outcome.cell_eq
    cases outcome with
    | made | loaded | replaced | refused | swapped => exact (ih under).other wrote rfl nofun
    | started f idle =>
      obtain ⟨rfl, here⟩ | ⟨apart, there⟩ := update_eq_some_iff.mp under
      · cases here
        exact .start ran f rfl
      · exact (ih there).other wrote rfl (by rintro _ ⟨⟩; exact apart rfl)
    | updated =>
      obtain ⟨-, here⟩ | ⟨-, there⟩ := update_eq_some_iff.mp under
      · cases here
      · exact (ih there).other wrote rfl nofun
    | @lost n v was others =>
      obtain ⟨rfl, here⟩ | ⟨apart, there⟩ := update_eq_some_iff.mp under
      · cases here
        exact (ih was).lost (ran.sound.apart was others) _ rfl
      · exact (ih there).other wrote (by simp [Deed.isLossOf, Ne.symm apart]) nofun

/-! ## Whole runs -/

/-- How an update comes to its end behind the deeds in front of it. -/
structure Completes (value : α) (front : List (Deed α)) (number : Nat) (f : α → α)
    (update : Cell.Update α) : Prop where
  /-- The object that it puts in has what its function makes of the object that is held until then. -/
  computed : update.updated.value = f update.previous.value
  replaces : ∃ s t, Ran value front s ∧ s.Step (.updated number f update) t ∧
    s.cell.held = update.previous ∧ t.cell.held = update.updated
  /-- It has done what an update does against a script of what others have done since its start, and
  has called its function once more than it has lost. -/
  scripted : ∃ before during s t, front = before ++ .started number f :: during ∧
    (∀ g, .started number g ∉ during) ∧ Ran value before s ∧
    Ran value (front ++ [.updated number f update]) t ∧
    s.cell.update f (Deed.script number during) = (update, t.cell) ∧
    update.calls = during.countP (·.isLossOf number) + 1

/-- What holds when the deeds have been done with a cell that first held a new object of the value. -/
structure KeepsUpdates (value : α) (deeds : List (Deed α)) (s : Shared α) : Prop where
  /-- Comparing goes by the very object, and one of an equal value does not do. -/
  compare_held : ∀ current new, s.Has current → s.cell.held = current →
    s.cell.compareAndSwap current new = (.ok (), { s.cell with held := new })
  compare_other : ∀ current new, s.Has current → s.cell.held ≠ current →
    s.cell.compareAndSwap current new = (.error s.cell.held, s.cell)
  /-- A call that is over now is the last one if what the function was applied to is held, -/
  finish_held : ∀ number u, s.updating number = some u → s.cell.held = u.previous →
    ∃ new, (s.finish number u).1 = .updated number u.f ⟨u.previous, new, u.calls + 1⟩ ∧
      (s.finish number u).2.cell.held = new ∧ (s.finish number u).2.updating number = none
  /-- and otherwise the function is applied once more, to what is held. -/
  finish_other : ∀ number u, s.updating number = some u → s.cell.held ≠ u.previous →
    ∃ dropped, (s.finish number u).1 = .lost number u.previous s.cell.held dropped ∧
      (s.finish number u).2.cell.held = s.cell.held ∧
      (s.finish number u).2.updating number = some ⟨u.f, s.cell.held, u.calls + 1⟩
  completes : ∀ front number f update back, deeds = front ++ .updated number f update :: back →
    Completes value front number f update
  /-- All that has been put in forms a chain up to the object held now, -/
  linked : Linked ⟨0, value⟩ (deeds.flatMap Deed.replaced) s.cell.held
  /-- so that its value is the one to which the same deeds lead if each is done at once. -/
  value_eq : s.cell.held.value = deeds.foldl (fun v d => d.effect v) value
  /-- An update against a script is alone when the script is used up. -/
  update_concat_nil : ∀ f script, s.cell.update f (script ++ [[]]) = s.cell.update f script

theorem Ran.completes {front back : List (Deed α)} {number : Nat} {f : α → α}
    {update : Cell.Update α} (ran : Ran value (front ++ .updated number f update :: back) s) :
    Completes value front number f update := by
  obtain ⟨t, t', before, last⟩ := ran.exists_step
  cases before.sound.outcome last with
  | @updated _ u new under held eq =>
    refine ⟨congrArg Stamped.value eq, ⟨t, _, before, last, held, rfl⟩, ?_⟩
    obtain ⟨first, during, origin, split, ran, once, count, goesOn⟩ := before.underway under
    refine ⟨first, during, origin, _, split, once, ran, before.step last, ?_, by rw [count]⟩
    have whole := goesOn []
    rw [List.append_nil] at whole
    rw [whole, Deed.script, Cell.attempt_won (congrArg Stamped.id held), eq]

/-- **No update of a shared cell is lost**, whoever does what with the cell in between. -/
theorem keepsUpdates_of_ran (ran : Ran value deeds s) : KeepsUpdates value deeds s where
  compare_held current new _ same := Cell.compareAndSwap_held new (congrArg Stamped.id same)
  compare_other current new has other := ran.sound.compareAndSwap_other new has other
  finish_held number u under same := by
    rw [Sound.finish_held number same]
    exact ⟨_, rfl, rfl, Function.update_self ..⟩
  finish_other number u under other := by
    rw [ran.sound.finish_other under other]
    exact ⟨_, rfl, rfl, Function.update_self ..⟩
  completes front number f update back split := (split ▸ ran).completes
  linked := ran.linked
  value_eq := ran.value_eq
  update_concat_nil f script := s.cell.update_concat_nil f script

/-- Two updates and someone who swaps objects, one of an equal value among them. The first update
loses its first call to that one. It does not lose the second one, before which the object has been
taken out and put back; the second update loses to it. -/
def racing : List (Deed Nat) :=
  [.made ⟨1, 1⟩, .started 0 (· + 1), .swapped ⟨0, 1⟩ ⟨1, 1⟩, .lost 0 ⟨0, 1⟩ ⟨1, 1⟩ 2,
    .started 1 (10 * ·), .swapped ⟨1, 1⟩ ⟨0, 1⟩, .compared ⟨1, 1⟩ ⟨0, 1⟩ (.error ⟨0, 1⟩),
    .compared ⟨0, 1⟩ ⟨1, 1⟩ (.ok ()), .updated 0 (· + 1) ⟨⟨1, 1⟩, ⟨3, 2⟩, 2⟩,
    .lost 1 ⟨1, 1⟩ ⟨3, 2⟩ 10, .updated 1 (10 * ·) ⟨⟨3, 2⟩, ⟨5, 20⟩, 2⟩]

theorem keepsUpdates_racing :
    ∃ s, Ran 1 racing s ∧ s.cell.held = ⟨5, 20⟩ ∧ KeepsUpdates 1 racing s := by
  have start : Ran 1 [] (new 1) := .new
  have ran := (((start.step (.make 1)).step (.start 0 (· + 1) rfl)).step
    (.swap ⟨1, 1⟩ rfl)).step (.finish 0 rfl)
  have ran := ((ran.step (.start 1 (10 * ·) rfl)).step (.swap ⟨0, 1⟩ rfl)).step
    (.compareAndSwap ⟨1, 1⟩ ⟨0, 1⟩ rfl rfl)
  have ran := (((ran.step (.compareAndSwap ⟨0, 1⟩ ⟨1, 1⟩ rfl rfl)).step (.finish 0 rfl)).step
    (.finish 1 rfl)).step (.finish 1 rfl)
  exact ⟨_, ran, rfl, keepsUpdates_of_ran ran⟩

end Shared

end Recompose
