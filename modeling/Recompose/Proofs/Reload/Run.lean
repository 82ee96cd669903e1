import Recompose.Reload.Tracker

/-!
Runs of a tracker: sequences of calls, and the moments that they are made of. What one call can do
is said once for each kind of call, by a lemma that lists all its ends.
-/

namespace Recompose

/-- A call to a tracker. -/
inductive Call where
  | submit (bytes : List UInt8) (load : Load)
  | settle (batch : BatchId) (outcome : Outcome)
deriving DecidableEq, Repr

namespace Call

/-- Submissions of classes, one after another and for the same reason. -/
def submissions (load : Load) (classes : List (List UInt8)) : List Call :=
  classes.map fun bytes => .submit bytes load

end Call

/-- What a call answers. -/
inductive Answer where
  | submission (submission : Submission)
  | invalidations (invalidations : List Invalidation)
deriving DecidableEq, Repr

namespace Tracker

/-- One step of a run. -/
def call (t : Tracker) : Call → Step Answer
  | .submit bytes load =>
    let step := t.submit bytes load
    { step with result := .submission step.result }
  | .settle batch outcome =>
    let step := t.settle batch outcome
    { step with result := .invalidations step.result }

/-- The state after a call. -/
def after (t : Tracker) (c : Call) : Tracker :=
  (t.call c).tracker

/-- The state after a run. -/
def run (t : Tracker) (calls : List Call) : Tracker :=
  calls.foldl after t

/-- The number of the pending batch. -/
def pendingId (t : Tracker) : Option BatchId :=
  t.pending.map (·.id)

theorem pendingId_of_pending {t : Tracker} {batch : Batch} (h : t.pending = some batch) :
    t.pendingId = some batch.id := by
  rw [pendingId, h]
  rfl

theorem run_append (t : Tracker) (calls later : List Call) :
    t.run (calls ++ later) = (t.run calls).run later :=
  List.foldl_append

theorem run_concat (t : Tracker) (calls : List Call) (c : Call) :
    t.run (calls ++ [c]) = (t.run calls).after c := by
  simp [run]

end Tracker

/-- A call together with the state in which it is made. -/
structure Moment where
  before : Tracker
  call : Call

namespace Tracker

/-- The moments of a run, in order. -/
def moments (t : Tracker) : List Call → List Moment
  | [] => []
  | c :: calls => ⟨t, c⟩ :: (t.after c).moments calls

/-- The answers to the calls of a run, in order. -/
def answers (t : Tracker) (calls : List Call) : List Answer :=
  (t.moments calls).map fun m => (m.before.call m.call).result

/-- The moments of a run, the latest first. -/
def past (t : Tracker) (calls : List Call) : List Moment :=
  (t.moments calls).reverse

/-- Later calls are made from the state that the calls before them lead to. -/
theorem moments_append (t : Tracker) (calls later : List Call) :
    t.moments (calls ++ later) = t.moments calls ++ (t.run calls).moments later := by
  induction calls generalizing t with
  | nil => rfl
  | cons c calls ih =>
    show _ :: (t.after c).moments (calls ++ later) = _
    rw [ih]
    rfl

theorem moments_concat (t : Tracker) (calls : List Call) (c : Call) :
    t.moments (calls ++ [c]) = t.moments calls ++ [⟨t.run calls, c⟩] :=
  t.moments_append calls [c]

theorem past_concat (t : Tracker) (calls : List Call) (c : Call) :
    t.past (calls ++ [c]) = ⟨t.run calls, c⟩ :: t.past calls := by
  rw [past, moments_concat, List.reverse_append]
  rfl

/-! ## What a call does -/

/-- The trees that an analysis of the bytes of a class finds; none if the bytes are refused. -/
def treesBuilt (profile : Profile) (bytes : List UInt8) : Snapshot :=
  match ClassFile.parse bytes with
  | .ok file => ⟨(ClassScopes.ofClass profile file).trees⟩
  | .error _ => {}

/-- **All ends of a submission**: either it contributes, and the trees found go where the load says;
or it does not, and nothing but statuses changes. -/
theorem submit_cases (t : Tracker) (bytes : List UInt8) (load : Load) :
    ((∃ n, (t.submit bytes load).result = .contributed n) ∧
        ∃ className status, (t.submit bytes load).tracker =
          (t.contribute load (treesBuilt t.profile bytes)).setStatus className status) ∨
      ((∀ n, (t.submit bytes load).result ≠ .contributed n) ∧
        ∃ statuses, (t.submit bytes load).tracker = { t with statuses }) := by
  cases named : ClassFile.peekName bytes with
  | error e =>
    have refused : t.submit bytes load = ⟨t, .failed e, [], [.unnamedClassRefused e]⟩ := by
      rw [submit, named]
    rw [refused]
    exact .inr ⟨nofun, _, rfl⟩
  | ok className =>
    by_cases excluded : t.profile.excludesClass className = true
    · have rejected : t.submit bytes load = ⟨t, .rejected, [], []⟩ := by
        rw [submit, named]
        exact if_pos excluded
      rw [rejected]
      exact .inr ⟨nofun, _, rfl⟩
    · cases parsed : ClassFile.parse bytes with
      | error e =>
        have refused : t.submit bytes load =
            ⟨t.setStatus className (.failed load e.display), .failed e, [],
              [.classRefused className e]⟩ := by
          rw [submit, named, parsed]
          exact if_neg excluded
        rw [refused]
        exact .inr ⟨nofun, _, rfl⟩
      | ok file =>
        have taken : t.submit bytes load = t.submitClass load className file := by
          rw [submit, named, parsed]
          exact if_neg excluded
        rw [taken, treesBuilt, parsed]
        exact .inl ⟨⟨_, rfl⟩, className, _, rfl⟩

/-- A submission delivers nothing: what it changes is delivered when its batch succeeds, if ever. -/
theorem deliveries_submit (t : Tracker) (bytes : List UInt8) (load : Load) :
    (t.submit bytes load).deliveries = [] := by
  unfold submit
  split
  · rfl
  · split
    · rfl
    · split <;> rfl

/-- The answer to a submission, which takes no more than the profile and the bytes. -/
def verdict (profile : Profile) (bytes : List UInt8) : Submission :=
  (({ profile } : Tracker).submit bytes .initial).result

theorem result_submit (t : Tracker) (bytes : List UInt8) (load : Load) :
    (t.submit bytes load).result = verdict t.profile bytes := by
  unfold verdict submit
  split
  · rfl
  · dsimp only
    split
    · rfl
    · split <;> rfl

/-- What a submission contributes, unless it is turned away. -/
def contribution? (profile : Profile) (bytes : List UInt8) : Option Snapshot :=
  match verdict profile bytes with
  | .contributed _ => some (treesBuilt profile bytes)
  | _ => none

/-- Takes in what a submission contributes, if it does. -/
def takeIn (t : Tracker) (load : Load) : Option Snapshot → Tracker
  | some incoming => t.contribute load incoming
  | none => t

theorem eq_treesBuilt_of_contribution? {profile : Profile} {bytes : List UInt8} {s : Snapshot}
    (h : contribution? profile bytes = some s) : s = treesBuilt profile bytes := by
  unfold contribution? at h
  split at h
  · exact (Option.some.inj h).symm
  · cases h

/-- **What a submission does**, the status of its class apart: it takes in what the bytes have to
contribute. -/
theorem after_submit (t : Tracker) (bytes : List UInt8) (load : Load) :
    ∃ statuses, t.after (.submit bytes load) =
      { t.takeIn load (contribution? t.profile bytes) with statuses } := by
  have answered := t.result_submit bytes load
  rcases t.submit_cases bytes load with
    ⟨⟨n, taken⟩, className, status, step⟩ | ⟨refused, statuses, kept⟩
  · have contributes : contribution? t.profile bytes = some (treesBuilt t.profile bytes) := by
      rw [contribution?, ← answered, taken]
    rw [contributes]
    exact ⟨_, step⟩
  · have nothing : contribution? t.profile bytes = none := by
      unfold contribution?
      split
      · next n taken => exact absurd (answered.trans taken) (refused n)
      · rfl
    rw [nothing]
    exact ⟨statuses, kept⟩

/-- A submission keeps all but the snapshots and the statuses of classes. -/
theorem exists_after_submit (t : Tracker) (bytes : List UInt8) (load : Load) :
    ∃ committed pending statuses,
      t.after (.submit bytes load) = { t with committed, pending, statuses } := by
  obtain ⟨statuses, step⟩ := t.after_submit bytes load
  rw [step]
  cases contribution? t.profile bytes with
  | none => exact ⟨_, _, _, rfl⟩
  | some incoming => cases load <;> exact ⟨_, _, _, rfl⟩

theorem profile_submit (t : Tracker) (bytes : List UInt8) (load : Load) :
    (t.after (.submit bytes load)).profile = t.profile := by
  obtain ⟨_, _, _, step⟩ := t.exists_after_submit bytes load
  rw [step]

/-- A submission settles nothing. -/
theorem history_submit (t : Tracker) (bytes : List UInt8) (load : Load) :
    (t.after (.submit bytes load)).history = t.history := by
  obtain ⟨_, _, _, step⟩ := t.exists_after_submit bytes load
  rw [step]

theorem committing_submit (t : Tracker) (bytes : List UInt8) (load : Load) :
    (t.after (.submit bytes load)).committing = t.committing := by
  obtain ⟨_, _, _, step⟩ := t.exists_after_submit bytes load
  rw [step]

/-- The outcome of a batch that is not pending is passed over. -/
theorem settle_of_other {t : Tracker} {id : BatchId} (other : t.pendingId ≠ some id)
    (outcome : Outcome) : t.settle id outcome = ⟨t, [], [], [.batchUnknown id]⟩ := by
  have none : t.pending.filter (·.id == id) = none := by
    cases pending : t.pending with
    | none => rfl
    | some batch =>
      have different : batch.id ≠ id := by
        intro same
        exact other (same ▸ pendingId_of_pending pending)
      rw [Option.filter_some, if_neg (by simpa using different)]
  rw [settle, none]

theorem settle_success {t : Tracker} {id : BatchId} {snapshot : Snapshot}
    (pending : t.pending = some ⟨id, snapshot⟩) :
    t.settle id .success = { t with pending := none }.commit ⟨id, snapshot⟩ := by
  simp [settle, pending, Option.filter_some]

theorem settle_failure {t : Tracker} {id : BatchId} {snapshot : Snapshot}
    (pending : t.pending = some ⟨id, snapshot⟩) (reason : String) :
    t.settle id (.failure reason) =
      ⟨{ t with pending := none }.record id none, [], [], [.batchDiscarded id reason]⟩ := by
  simp [settle, pending, Option.filter_some]

theorem exists_of_pendingId {t : Tracker} {id : BatchId} (h : t.pendingId = some id) :
    ∃ snapshot, t.pending = some ⟨id, snapshot⟩ := by
  obtain ⟨batch, pending, rfl⟩ := Option.map_eq_some_iff.mp h
  exact ⟨batch.snapshot, pending⟩

/-- **All ends of an outcome**: the batch is not the pending one, and nothing happens; or it is, and
it is dropped if it failed and merged if it succeeded. -/
theorem settle_cases (t : Tracker) (id : BatchId) (outcome : Outcome) :
    (t.pendingId ≠ some id ∧ (t.settle id outcome).tracker = t) ∨
      ∃ snapshot, t.pending = some ⟨id, snapshot⟩ ∧
        (t.settle id outcome).tracker.profile = t.profile ∧
        (t.settle id outcome).tracker.pending = none ∧
        (t.settle id outcome).tracker.committed =
          match outcome with
          | .success => t.committed.merge snapshot
          | .failure _ => t.committed := by
  by_cases same : t.pendingId = some id
  · obtain ⟨snapshot, pending⟩ := exists_of_pendingId same
    refine .inr ⟨snapshot, pending, ?_⟩
    cases outcome with
    | success =>
      rw [settle_success pending]
      exact ⟨rfl, rfl, rfl⟩
    | failure reason =>
      rw [settle_failure pending]
      exact ⟨rfl, rfl, rfl⟩
  · rw [settle_of_other same]
    exact .inl ⟨same, rfl⟩

end Tracker

end Recompose
