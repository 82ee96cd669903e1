import Recompose.Proofs.Reload.Buffered

/-!
Batches that fail. What is submitted to such a batch goes into the pending snapshot, the statuses of
classes and in the end the history, and from none of these into anything else. Main result: a run is
answered alike, delivers the same and commits the same whether or not the batch was ever there.
-/

namespace Recompose

namespace Call

/-- A redefinition for the batch. -/
def feeds (id : BatchId) : Call → Bool
  | .submit _ load => load == .redefinition id
  | .settle .. => false

/-- The calls of a run, but for the redefinitions for the batch. -/
def without (id : BatchId) (calls : List Call) : List Call :=
  calls.filter fun c => !c.feeds id

/-- A call that neither feeds another batch nor settles this one. -/
def Beside (id : BatchId) : Call → Prop
  | .submit _ load => load = .initial ∨ load = .redefinition id
  | .settle batch _ => batch ≠ id

instance (id : BatchId) (c : Call) : Decidable (c.Beside id) :=
  match c with
  | .submit _ _ => inferInstanceAs (Decidable (_ ∨ _))
  | .settle _ _ => inferInstanceAs (Decidable (_ ≠ _))

end Call

namespace Tracker

variable {t u : Tracker} {id : BatchId}

/-- The answers to the calls of a run, but for the redefinitions for the batch. -/
def answersWithout (t : Tracker) (id : BatchId) (calls : List Call) : List Answer :=
  ((t.moments calls).filter fun m => !m.call.feeds id).map fun m => (m.before.call m.call).result

theorem answers_append (t : Tracker) (calls later : List Call) :
    t.answers (calls ++ later) = t.answers calls ++ (t.run calls).answers later := by
  rw [answers, moments_append, List.map_append]
  rfl

theorem deliveries_append (t : Tracker) (calls later : List Call) :
    t.deliveries (calls ++ later) = t.deliveries calls ++ (t.run calls).deliveries later := by
  rw [deliveries, moments_append, List.flatMap_append]
  rfl

/-- What a submission answers and delivers takes no more than the profile. -/
theorem call_submit_congr (same : t.profile = u.profile) (bytes : List UInt8) (load : Load) :
    (t.call (.submit bytes load)).result = (u.call (.submit bytes load)).result ∧
      (t.call (.submit bytes load)).deliveries = (u.call (.submit bytes load)).deliveries := by
  show Answer.submission (t.submit bytes load).result = .submission (u.submit bytes load).result ∧
    (t.submit bytes load).deliveries = (u.submit bytes load).deliveries
  rw [result_submit, result_submit, deliveries_submit, deliveries_submit, same]
  exact ⟨rfl, rfl⟩

/-! ## Trackers that differ in their notes -/

/-- The trackers agree in all but the statuses of classes and the history. -/
structure Agree (t u : Tracker) : Prop where
  profile : t.profile = u.profile
  committed : t.committed = u.committed
  pending : t.pending = u.pending
  committing : t.committing = u.committing

namespace Agree

theorem state (h : Agree t u) : t.state = u.state := by
  rw [Tracker.state, Tracker.state, h.committing, h.pending]

theorem takeIn (h : Agree t u) (load : Load) (incoming : Option Snapshot) :
    Agree (t.takeIn load incoming) (u.takeIn load incoming) := by
  cases incoming with
  | none => exact h
  | some incoming =>
    cases load with
    | initial => exact { h with committed := congrArg (·.merge incoming) h.committed }
    | redefinition id =>
      exact { h with pending := congrArg (fun p => some (gather p id incoming)) h.pending }

/-- **Notes do not count for what a call does.** -/
theorem call (h : Agree t u) (c : Call) :
    (t.call c).result = (u.call c).result ∧ (t.call c).deliveries = (u.call c).deliveries ∧
      Agree (t.after c) (u.after c) := by
  cases c with
  | submit bytes load =>
    obtain ⟨answer, delivered⟩ := call_submit_congr h.profile bytes load
    obtain ⟨statuses, left⟩ := t.after_submit bytes load
    obtain ⟨statuses', right⟩ := u.after_submit bytes load
    have taken := h.takeIn load (contribution? u.profile bytes)
    rw [left, right, h.profile]
    exact ⟨answer, delivered, { taken with }⟩
  | settle id outcome =>
    show Answer.invalidations (t.settle id outcome).result =
        .invalidations (u.settle id outcome).result ∧
      (t.settle id outcome).deliveries = (u.settle id outcome).deliveries ∧
      Agree (t.settle id outcome).tracker (u.settle id outcome).tracker
    have ids : t.pendingId = u.pendingId := by rw [pendingId, pendingId, h.pending]
    by_cases same : t.pendingId = some id
    · obtain ⟨snapshot, pending⟩ := exists_of_pendingId same
      have pending' : u.pending = some ⟨id, snapshot⟩ := h.pending ▸ pending
      cases outcome with
      | success =>
        have changes : t.committed.diff (t.committed.merge snapshot) =
            u.committed.diff (u.committed.merge snapshot) := by rw [h.committed]
        rw [settle_success pending, settle_success pending']
        refine ⟨congrArg Answer.invalidations changes, congrArg (List.map _) changes, ?_⟩
        exact ⟨h.profile, congrArg (·.merge snapshot) h.committed, rfl, rfl⟩
      | failure reason =>
        rw [settle_failure pending, settle_failure pending']
        exact ⟨rfl, rfl, h.profile, h.committed, rfl, h.committing⟩
    · rw [settle_of_other same, settle_of_other (ids ▸ same)]
      exact ⟨rfl, rfl, h⟩

/-- **Notes do not count for a run.** -/
theorem run (h : Agree t u) (calls : List Call) :
    t.answers calls = u.answers calls ∧ t.deliveries calls = u.deliveries calls ∧
      Agree (t.run calls) (u.run calls) := by
  induction calls generalizing t u with
  | nil => exact ⟨rfl, rfl, h⟩
  | cons c calls ih =>
    obtain ⟨answer, delivered, after⟩ := h.call c
    obtain ⟨answers, deliveries, ends⟩ := ih after
    exact ⟨congrArg₂ List.cons answer answers, congrArg₂ (· ++ ·) delivered deliveries, ends⟩

end Agree

/-! ## A batch on one side -/

/-- The first tracker may hold the batch, and nothing is pending in the second one. -/
structure Apart (id : BatchId) (t u : Tracker) : Prop where
  profile : t.profile = u.profile
  committed : t.committed = u.committed
  own : ∀ batch, t.pending = some batch → batch.id = id
  idle : u.pending = none
  committing : t.committing = u.committing

namespace Apart

theorem of_idle (idle : t.pending = none) : Apart id t t where
  profile := rfl
  committed := rfl
  own := fun _ some => absurd (idle.symm.trans some) nofun
  idle := idle
  committing := rfl

/-- What is submitted to the batch stays on the first side. -/
theorem feed (h : Apart id t u) (bytes : List UInt8) :
    Apart id (t.after (.submit bytes (.redefinition id))) u := by
  obtain ⟨statuses, step⟩ := t.after_submit bytes (.redefinition id)
  rw [step]
  cases contribution? t.profile bytes with
  | none => exact { h with }
  | some incoming =>
    refine { h with own := ?_ }
    intro batch (holds : some (gather t.pending id incoming) = some batch)
    rw [gather_eq] at holds
    cases holds
    rfl

/-- A first load comes in on both sides. -/
theorem load (h : Apart id t u) (bytes : List UInt8) :
    Apart id (t.after (.submit bytes .initial)) (u.after (.submit bytes .initial)) := by
  obtain ⟨statuses, left⟩ := t.after_submit bytes .initial
  obtain ⟨statuses', right⟩ := u.after_submit bytes .initial
  rw [left, right, h.profile]
  cases contribution? u.profile bytes with
  | none => exact { h with }
  | some incoming => exact { h with committed := congrArg (·.merge incoming) h.committed }

/-- On neither side is another batch pending. -/
theorem pendingId_ne (h : Apart id t u) {batch : BatchId} (other : batch ≠ id) :
    t.pendingId ≠ some batch ∧ u.pendingId ≠ some batch := by
  refine ⟨fun same => ?_, fun same => ?_⟩
  · obtain ⟨snapshot, pending⟩ := exists_of_pendingId same
    exact other (h.own _ pending)
  · obtain ⟨snapshot, pending⟩ := exists_of_pendingId same
    exact absurd (h.idle.symm.trans pending) nofun

/-- **Every other call does the same on both sides.** -/
theorem call (h : Apart id t u) {c : Call} (beside : c.Beside id) (stays : c.feeds id = false) :
    (t.call c).result = (u.call c).result ∧ (t.call c).deliveries = (u.call c).deliveries ∧
      Apart id (t.after c) (u.after c) := by
  cases c with
  | submit bytes load =>
    have first : load = .initial := by
      rcases beside with first | own
      · exact first
      · simp [Call.feeds, own] at stays
    subst first
    obtain ⟨answer, delivered⟩ := call_submit_congr h.profile bytes .initial
    exact ⟨answer, delivered, h.load bytes⟩
  | settle batch outcome =>
    obtain ⟨left, right⟩ := h.pendingId_ne beside
    show Answer.invalidations (t.settle batch outcome).result =
        .invalidations (u.settle batch outcome).result ∧
      (t.settle batch outcome).deliveries = (u.settle batch outcome).deliveries ∧
      Apart id (t.settle batch outcome).tracker (u.settle batch outcome).tracker
    rw [settle_of_other left, settle_of_other right]
    exact ⟨rfl, rfl, h⟩

/-- **A run with the batch beside one without it.** -/
theorem run (h : Apart id t u) {calls : List Call} (beside : ∀ c ∈ calls, c.Beside id) :
    t.answersWithout id calls = u.answers (Call.without id calls) ∧
      t.deliveries calls = u.deliveries (Call.without id calls) ∧
      Apart id (t.run calls) (u.run (Call.without id calls)) := by
  induction calls generalizing t u with
  | nil => exact ⟨rfl, rfl, h⟩
  | cons c calls ih =>
    obtain ⟨first, rest⟩ := List.forall_mem_cons.mp beside
    cases feeds : c.feeds id with
    | true =>
      -- The call is left out, so the second side stays where it is.
      have left : Call.without id (c :: calls) = Call.without id calls :=
        List.filter_cons_of_neg (by simp [feeds])
      have answers : t.answersWithout id (c :: calls) = (t.after c).answersWithout id calls :=
        congrArg (List.map _) (List.filter_cons_of_neg (by simp [feeds]))
      cases c with
      | submit bytes load =>
        obtain rfl : load = .redefinition id := eq_of_beq feeds
        have silent : t.deliveries (.submit bytes (.redefinition id) :: calls) =
            (t.after (.submit bytes (.redefinition id))).deliveries calls :=
          congrArg (· ++ _) (t.deliveries_submit bytes _)
        rw [left, answers, silent]
        exact ih (h.feed bytes) rest
      | settle batch outcome => cases feeds
    | false =>
      have kept : Call.without id (c :: calls) = c :: Call.without id calls :=
        List.filter_cons_of_pos (by simp [feeds])
      have answers : t.answersWithout id (c :: calls) =
          (t.call c).result :: (t.after c).answersWithout id calls :=
        congrArg (List.map _) (List.filter_cons_of_pos (by simp [feeds]))
      obtain ⟨answer, delivered, after⟩ := h.call first feeds
      obtain ⟨answers', deliveries, ends⟩ := ih after rest
      rw [kept, answers, answer, answers']
      exact ⟨rfl, congrArg₂ (· ++ ·) delivered deliveries, ends⟩

/-- **The failure of the batch leaves nothing of it but notes.** -/
theorem failure (h : Apart id t u) (reason : String) :
    (t.settle id (.failure reason)).deliveries = [] ∧
      Agree (t.after (.settle id (.failure reason))) u := by
  show _ ∧ Agree (t.settle id (.failure reason)).tracker u
  by_cases same : t.pendingId = some id
  · obtain ⟨snapshot, pending⟩ := exists_of_pendingId same
    rw [settle_failure pending]
    exact ⟨rfl, h.profile, h.committed, h.idle.symm, h.committing⟩
  · have none : t.pending = none := by
      cases pending : t.pending with
      | none => rfl
      | some batch => exact absurd (h.own batch pending ▸ pendingId_of_pending pending) same
    rw [settle_of_other same]
    exact ⟨rfl, h.profile, h.committed, none.trans h.idle.symm, h.committing⟩

end Apart

/-- **A batch that fails leaves no trace.** From a tracker with nothing pending, let a batch be fed
among first loads and outcomes of other batches, and then fail. Without the redefinitions for it and
without its failure, all other calls are answered alike and the same is delivered; the committed
snapshot is the same at every moment; and from the failure on, however the run goes on, so are the
pending batch and the state shown. -/
theorem failure_leaves_no_trace (t : Tracker) (id : BatchId) {during : List Call} (reason : String)
    (idle : t.pending = none) (beside : ∀ c ∈ during, c.Beside id) :
    (∀ earlier, earlier <+: during →
      (t.run earlier).committed = (t.run (Call.without id earlier)).committed) ∧
    ∀ later,
      let whole := during ++ .settle id (.failure reason) :: later
      let rest := Call.without id during ++ later
      let failed := t.run (during ++ [.settle id (.failure reason)])
      t.answersWithout id during ++ failed.answers later = t.answers rest ∧
        t.deliveries whole = t.deliveries rest ∧
        (t.run whole).committed = (t.run rest).committed ∧
        (t.run whole).pending = (t.run rest).pending ∧
        (t.run whole).state = (t.run rest).state := by
  have start : Apart id t t := .of_idle idle
  refine ⟨fun earlier before => ?_, fun later => ?_⟩
  · obtain ⟨-, -, apart⟩ := start.run fun c mem => beside c (before.subset mem)
    exact apart.committed
  · intro whole rest failed
    obtain ⟨answers, delivered, apart⟩ := start.run beside
    obtain ⟨silent, agree⟩ := apart.failure reason
    have reached : failed = (t.run during).after (.settle id (.failure reason)) :=
      t.run_concat during _
    rw [← reached] at agree
    obtain ⟨answers', delivered', ends⟩ := agree.run later
    have split : whole = during ++ [.settle id (.failure reason)] ++ later := by
      simp [whole]
    have left : t.run whole = failed.run later := by rw [split, run_append]
    have right : t.run rest = (t.run (Call.without id during)).run later := t.run_append _ _
    refine ⟨?_, ?_, ?_⟩
    · rw [answers_append, answers, answers']
    · have nothing : (t.run during).deliveries [.settle id (.failure reason)] = [] :=
        congrArg (· ++ []) silent
      rw [split, deliveries_append, deliveries_append, deliveries_append, delivered, nothing,
        List.append_nil, delivered']
    · rw [left, right]
      exact ⟨ends.committed, ends.pending, ends.state⟩

/-- A batch is fed while a class is loaded first and an outcome of another batch comes in. -/
def failingRun : List Call :=
  [.submit otherKeyedClass.assemble (.redefinition 1), .submit keyedClass.assemble .initial,
    .settle 2 .success, .submit keyedClass.assemble (.redefinition 1)]

theorem failure_leaves_no_trace_keyed :
    let t : Tracker := { profile := .composition }
    let later := [.submit otherKeyedClass.assemble (.redefinition 1), .settle 1 .success]
    let whole := failingRun ++ .settle 1 (.failure "refused") :: later
    let rest := Call.without 1 failingRun ++ later
    t.pending = none ∧ (∀ c ∈ failingRun, c.Beside 1) ∧ (t.run failingRun).pending ≠ none ∧
      t.deliveries whole = [⟨9, .committing 1⟩] ∧ t.deliveries whole = t.deliveries rest ∧
      (t.run whole).committed = (t.run rest).committed ∧
      (t.run whole).history ≠ (t.run rest).history := by
  intro t later whole rest
  have beside : ∀ c ∈ failingRun, c.Beside 1 := by decide
  have held : (t.run failingRun).pending ≠ none := by decide +kernel
  have delivered : t.deliveries whole = [⟨9, .committing 1⟩] := by decide +kernel
  have noted : (t.run whole).history ≠ (t.run rest).history := by decide +kernel
  obtain ⟨-, same, committed, -⟩ := (failure_leaves_no_trace t 1 "refused" rfl beside).2 later
  exact ⟨rfl, beside, held, delivered, same, committed, noted⟩

end Tracker

end Recompose
