import Recompose.Proofs.Reload.Buffered
import Recompose.Proofs.Reload.Effective

/-!
What a tracker keeps and passes on of the outcomes that it is told. Main result: over every run the
history has one record for each outcome of a batch that was pending, and nothing else; what has been
delivered is what the records say; and between calls nothing is being committed.
-/

namespace Recompose

namespace BatchRecord

/-- The groups that the batch invalidated, in order; none if it was discarded. -/
def keys (r : BatchRecord) : List GroupKey :=
  (r.invalidations.getD []).map (·.key)

end BatchRecord

namespace Moment

/-- The record that is due for a call. Only an outcome of the pending batch has one: with what the
call answers if it is a success, and with nothing if it is a failure. -/
def record? (m : Moment) : Option BatchRecord :=
  match m.call with
  | .submit .. => none
  | .settle id outcome =>
    if m.before.pendingId = some id then
      match outcome with
      | .success => some ⟨id, some (m.before.settle id .success).result⟩
      | .failure _ => some ⟨id, none⟩
    else
      none

theorem record?_of_other {t : Tracker} {id : BatchId} (other : t.pendingId ≠ some id)
    (outcome : Outcome) : (⟨t, .settle id outcome⟩ : Moment).record? = none :=
  if_neg other

theorem record?_of_success {t : Tracker} {id : BatchId} (same : t.pendingId = some id) :
    (⟨t, .settle id .success⟩ : Moment).record? = some ⟨id, some (t.settle id .success).result⟩ :=
  if_pos same

theorem record?_of_failure {t : Tracker} {id : BatchId} (same : t.pendingId = some id)
    (reason : String) : (⟨t, .settle id (.failure reason)⟩ : Moment).record? = some ⟨id, none⟩ :=
  if_pos same

end Moment

namespace Tracker

open Moment

variable {t : Tracker} {id : BatchId}

/-! ## One call -/

/-- **What a call leaves behind**: the record that is due for it is added to the history, the groups
of this record are delivered, and nothing is being committed any more. -/
theorem accounted_call (t : Tracker) (c : Call) :
    (t.after c).history = t.history ++ (⟨t, c⟩ : Moment).record?.toList ∧
      (t.call c).deliveries.map (·.key) =
        (⟨t, c⟩ : Moment).record?.toList.flatMap BatchRecord.keys ∧
      (t.committing = none → (t.after c).committing = none) := by
  cases c with
  | submit bytes load =>
    refine ⟨?_, ?_, fun idle => ?_⟩
    · exact (t.history_submit bytes load).trans (List.append_nil _).symm
    · exact congrArg (List.map _) (t.deliveries_submit bytes load)
    · rw [committing_submit, idle]
  | settle id outcome =>
    show (t.settle id outcome).tracker.history = _ ∧ (t.settle id outcome).deliveries.map _ = _ ∧
      (t.committing = none → (t.settle id outcome).tracker.committing = none)
    by_cases same : t.pendingId = some id
    · obtain ⟨snapshot, pending⟩ := exists_of_pendingId same
      cases outcome with
      | success =>
        rw [record?_of_success same, settle_success pending]
        refine ⟨rfl, ?_, fun _ => rfl⟩
        simp [commit, BatchRecord.keys]
      | failure reason =>
        rw [record?_of_failure same, settle_failure pending]
        exact ⟨rfl, rfl, fun idle => idle⟩
    · rw [record?_of_other same, settle_of_other same]
      exact ⟨(List.append_nil _).symm, rfl, fun idle => idle⟩

/-- A batch is not pending once it has an outcome. -/
theorem pendingId_settle (t : Tracker) (id : BatchId) (outcome : Outcome) :
    (t.after (.settle id outcome)).pendingId ≠ some id := by
  show (t.settle id outcome).tracker.pendingId ≠ some id
  rcases t.settle_cases id outcome with ⟨other, same⟩ | ⟨_, _, _, gone, _⟩
  · rw [same]
    exact other
  · simp [pendingId, gone]

/-- No batch becomes the pending one unless something is contributed to it. -/
theorem pendingId_after (other : t.pendingId ≠ some id) {c : Call}
    (none : (⟨t, c⟩ : Moment).contributions (.redefinition id) = []) :
    (t.after c).pendingId ≠ some id := by
  cases c with
  | submit bytes load =>
    show (t.submit bytes load).tracker.pendingId ≠ some id
    rcases t.submit_cases bytes load with
      ⟨⟨n, taken⟩, className, status, step⟩ | ⟨_, statuses, same⟩
    · rw [step]
      cases load with
      | initial => exact other
      | redefinition batch =>
        rw [contributions_of_contributed taken] at none
        have different : batch ≠ id := by
          rintro rfl
          simp at none
        show (some (gather t.pending batch _)).map (·.id) ≠ some id
        simpa [gather_eq] using different
    · rw [same]
      exact other
  | settle batch outcome =>
    show (t.settle batch outcome).tracker.pendingId ≠ some id
    rcases t.settle_cases batch outcome with ⟨_, same⟩ | ⟨_, _, _, gone, _⟩
    · rw [same]
      exact other
    · simp [pendingId, gone]

/-! ## Runs -/

/-- **What a run leaves behind**: the records that are due for its calls, in their order. -/
theorem accounted_run (t : Tracker) (calls : List Call) :
    (t.run calls).history = t.history ++ (t.moments calls).filterMap record? ∧
      (t.deliveries calls).map (·.key) =
        ((t.moments calls).filterMap record?).flatMap BatchRecord.keys ∧
      (t.committing = none → (t.run calls).committing = none) := by
  induction calls generalizing t with
  | nil => exact ⟨(List.append_nil _).symm, rfl, id⟩
  | cons c calls ih =>
    obtain ⟨history, keys, idle⟩ := t.accounted_call c
    obtain ⟨history', keys', idle'⟩ := ih (t.after c)
    have due : (t.moments (c :: calls)).filterMap record? =
        (⟨t, c⟩ : Moment).record?.toList ++ ((t.after c).moments calls).filterMap record? := by
      show (⟨t, c⟩ :: (t.after c).moments calls).filterMap record? = _
      rw [List.filterMap_cons]
      cases (⟨t, c⟩ : Moment).record? <;> rfl
    refine ⟨?_, ?_, fun none => idle' (idle none)⟩
    · show ((t.after c).run calls).history = _
      rw [history', history, due, List.append_assoc]
    · show ((t.call c).deliveries ++ (t.after c).deliveries calls).map _ = _
      rw [List.map_append, keys, keys', due, List.flatMap_append]

theorem pendingId_run (other : t.pendingId ≠ some id) {calls : List Call}
    (none : ∀ m ∈ t.moments calls, m.contributions (.redefinition id) = []) :
    (t.run calls).pendingId ≠ some id := by
  induction calls generalizing t with
  | nil => exact other
  | cons c calls ih =>
    obtain ⟨first, rest⟩ := List.forall_mem_cons.mp none
    exact ih (pendingId_after other first) rest

/-- Where nothing is being committed, the pending batch is all that shows. -/
theorem state_of_idle (idle : t.committing = none) :
    t.state = match t.pending with
      | some batch => .accumulating batch.id
      | none => .idle := by
  cases pending : t.pending <;> simp [state, idle, pending]

/-- **Every outcome is accounted for.** After any run of a fresh tracker the history is made of the
records due for the calls, oldest first. An outcome of a batch that has had one adds none, unless
something was contributed to the batch in between. The groups that were delivered are those of the
records, in their order. The state shown is that of the pending batch: nothing is being committed. -/
theorem outcomes_accounted (profile : Profile) (calls : List Call) :
    let t := run { profile } calls
    t.history = (moments { profile } calls).filterMap record? ∧
      (∀ id outcome between repeated,
        (∀ m ∈ (t.after (.settle id outcome)).moments between,
          m.contributions (.redefinition id) = []) →
        let later := (t.after (.settle id outcome)).run between
        (later.after (.settle id repeated)).history = later.history) ∧
      (deliveries { profile } calls).map (·.key) = t.history.flatMap BatchRecord.keys ∧
      (t.state = match t.pending with
        | some batch => .accumulating batch.id
        | none => .idle) ∧
      ∀ id, t.state ≠ .committing id := by
  intro t
  obtain ⟨history, keys, idle⟩ := accounted_run { profile } calls
  have state := state_of_idle (t := t) (idle rfl)
  refine ⟨history, ?_, ?_, state, ?_⟩
  · intro id outcome between repeated none later
    have other : later.pendingId ≠ some id := pendingId_run (t.pendingId_settle id outcome) none
    rw [(later.accounted_call _).1, record?_of_other other]
    exact List.append_nil _
  · rw [keys]
    exact congrArg (List.flatMap _) history.symm
  · intro id
    rw [state]
    cases t.pending <;> simp

/-- A batch that succeeds once and is reported a second time, with bytes between that are no class
and a class that is loaded first. -/
theorem outcomes_accounted_keyed :
    let t := run { profile := .composition } [.submit keyedClass.assemble (.redefinition 1)]
    let between := [.submit [] (.redefinition 1), .submit otherKeyedClass.assemble .initial]
    let later := (t.after (.settle 1 .success)).run between
    (∀ m ∈ (t.after (.settle 1 .success)).moments between,
        m.contributions (.redefinition 1) = []) ∧
      later.history = [⟨1, some [⟨7, .direct⟩]⟩] ∧
      (later.after (.settle 1 .success)).history = later.history := by
  intro t between later
  have none : ∀ m ∈ (t.after (.settle 1 .success)).moments between,
      m.contributions (.redefinition 1) = [] := by decide +kernel
  have recorded : later.history = [⟨1, some [⟨7, .direct⟩]⟩] := by decide +kernel
  have accounted := outcomes_accounted .composition [.submit keyedClass.assemble (.redefinition 1)]
  exact ⟨none, recorded, accounted.2.1 1 .success between .success none⟩

end Tracker

end Recompose
