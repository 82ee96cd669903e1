import Recompose.Proofs.Reload.Changes
import Recompose.Proofs.Snapshot.Merge

/-!
Two ways for classes to come in: through a batch, which gathers them until it succeeds, and as first
loads, one by one. Main result: both ways lead to the same committed snapshot, to the order of its
trees, however often a class is named and whichever classes are turned away.
-/

namespace Recompose

namespace Tracker

variable {t u : Tracker} {id : BatchId}

/-- What a batch has gathered so far; nothing if it is not the pending one. -/
def held (t : Tracker) (id : BatchId) : Snapshot :=
  match t.pending with
  | some batch => if batch.id = id then batch.snapshot else {}
  | none => {}

theorem held_of_other (other : t.pendingId ≠ some id) : t.held id = {} := by
  unfold held
  cases pending : t.pending with
  | none => rfl
  | some batch =>
    have different : batch.id ≠ id := by
      intro same
      exact other (same ▸ pendingId_of_pending pending)
    exact if_neg different

/-- A batch gathers behind what it holds, and anew if another one was pending. -/
theorem gather_eq (t : Tracker) (id : BatchId) (incoming : Snapshot) :
    gather t.pending id incoming = ⟨id, (t.held id).merge incoming⟩ := by
  unfold gather held
  cases t.pending with
  | none => rfl
  | some batch =>
    by_cases same : batch.id = id
    · simp [same]
    · simp [same, Snapshot.empty_merge]

theorem held_takeIn (t : Tracker) (id : BatchId) (incoming : Snapshot) :
    (t.takeIn (.redefinition id) (some incoming)).held id = (t.held id).merge incoming := by
  simp [takeIn, contribute, held, gather_eq]

/-- A success commits what the batch holds, behind what there is. -/
theorem committed_settle_success (t : Tracker) (id : BatchId) :
    (t.settle id .success).tracker.committed = t.committed.merge (t.held id) := by
  by_cases same : t.pendingId = some id
  · obtain ⟨snapshot, pending⟩ := exists_of_pendingId same
    have all : t.held id = snapshot := by simp [held, pending]
    rw [settle_success pending, all]
    rfl
  · rw [settle_of_other same, held_of_other same, Snapshot.merge_empty]

/-! ## Both ways at once -/

/-- The second tracker has committed all that the first one has committed and holds for a batch. -/
structure Ahead (id : BatchId) (t u : Tracker) : Prop where
  profile : t.profile = u.profile
  committed : u.committed = t.committed.merge (t.held id)

namespace Ahead

theorem of_other (other : t.pendingId ≠ some id) : Ahead id t t where
  profile := rfl
  committed := by rw [held_of_other other, Snapshot.merge_empty]

/-- **One class through the batch here, and as a first load there.** -/
theorem submit (h : Ahead id t u) (bytes : List UInt8) :
    Ahead id (t.after (.submit bytes (.redefinition id))) (u.after (.submit bytes .initial)) := by
  obtain ⟨statuses, buffered⟩ := t.after_submit bytes (.redefinition id)
  obtain ⟨statuses', direct⟩ := u.after_submit bytes .initial
  rw [buffered, direct, h.profile]
  cases contribution? u.profile bytes with
  | none => exact ⟨h.profile, h.committed⟩
  | some incoming =>
    refine ⟨h.profile, ?_⟩
    calc
      u.committed.merge incoming = (t.committed.merge (t.held id)).merge incoming := by
        rw [h.committed]
      _ = t.committed.merge ((t.held id).merge incoming) := Snapshot.merge_assoc ..
      _ = t.committed.merge ((t.takeIn (.redefinition id) (some incoming)).held id) := by
        rw [held_takeIn]

theorem run (h : Ahead id t u) (classes : List (List UInt8)) :
    Ahead id (t.run (Call.submissions (.redefinition id) classes))
      (u.run (Call.submissions .initial classes)) := by
  induction classes generalizing t u with
  | nil => exact h
  | cons bytes classes ih => exact ih (h.submit bytes)

/-- The classes are answered alike on both ways. -/
theorem answers (h : Ahead id t u) (classes : List (List UInt8)) :
    t.answers (Call.submissions (.redefinition id) classes) =
      u.answers (Call.submissions .initial classes) := by
  induction classes generalizing t u with
  | nil => rfl
  | cons bytes classes ih =>
    have first : (t.submit bytes (.redefinition id)).result = (u.submit bytes .initial).result := by
      rw [result_submit, result_submit, h.profile]
    show Answer.submission _ :: _ = Answer.submission _ :: _
    rw [first]
    exact congrArg _ (ih (h.submit bytes))

end Ahead

/-- **Through a batch or at once.** Classes that are submitted to a batch, which was not pending, are
committed when the batch succeeds just as if each had been loaded first at its turn: the same trees
in the same order. On both ways each class gets the same answer. -/
theorem committed_buffered_eq_direct (t : Tracker) (id : BatchId) (classes : List (List UInt8))
    (other : t.pendingId ≠ some id) :
    (t.run (Call.submissions (.redefinition id) classes ++ [.settle id .success])).committed =
        (t.run (Call.submissions .initial classes)).committed ∧
      t.answers (Call.submissions (.redefinition id) classes) =
        t.answers (Call.submissions .initial classes) := by
  have start := Ahead.of_other other
  refine ⟨?_, start.answers classes⟩
  rw [run_append]
  show ((t.run _).settle id .success).tracker.committed = _
  rw [committed_settle_success, (start.run classes).committed]

/-- A class that is named twice, with bytes between that are no class. -/
theorem committed_buffered_keyedClass :
    let classes := [keyedClass.assemble, [], keyedClass.assemble]
    let buffered := Call.submissions (.redefinition 1) classes
    ({ profile := .composition } : Tracker).pendingId ≠ some 1 ∧
      (run { profile := .composition } (buffered ++ [.settle 1 .success])).committed.hasGroup 7 =
        true ∧
      (run { profile := .composition } (buffered ++ [.settle 1 .success])).committed =
        (run { profile := .composition } (Call.submissions .initial classes)).committed ∧
      answers { profile := .composition } buffered =
        answers { profile := .composition } (Call.submissions .initial classes) := by
  intro classes buffered
  have other : ({ profile := .composition } : Tracker).pendingId ≠ some 1 := nofun
  have agree := committed_buffered_eq_direct _ 1 classes other
  have grouped : (run { profile := .composition }
      (Call.submissions .initial classes)).committed.hasGroup 7 = true := by decide +kernel
  rw [← agree.1] at grouped
  exact ⟨other, grouped, agree⟩

end Tracker

end Recompose
