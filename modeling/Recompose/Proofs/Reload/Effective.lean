import Mathlib.Data.List.Induction
import Recompose.Proofs.Reload.Run
import Recompose.Proofs.Snapshot.Merge

/-!
Which contributions a run puts into effect, told from the past alone: first loads when they are
made, and the redefinitions of a batch when the batch succeeds, back to the moment at which it
became the pending one. Main result: the committed snapshot has, for each method, the trees of the
latest effective contribution that has any.
-/

namespace Recompose

/-! ## Contributions -/

namespace Moment

/-- What a submission for the given reason contributes, unless it was turned away. -/
def contributions (m : Moment) (load : Load) : List Snapshot :=
  match m.call with
  | .submit bytes given =>
    match (m.before.submit bytes given).result with
    | .contributed _ => if given = load then [Tracker.treesBuilt m.before.profile bytes] else []
    | _ => []
  | .settle .. => []

/-- What was contributed to a batch, oldest first, since it last became the pending one; `past`
ends with the batch pending, latest moment first. -/
def gathered (id : BatchId) : (past : List Moment) → List Snapshot
  | [] => []
  | m :: past =>
    (if m.before.pendingId = some id then gathered id past else []) ++
      m.contributions (.redefinition id)

/-- The contributions that a call puts into effect after the given past. -/
def effect (past : List Moment) (m : Moment) : List Snapshot :=
  match m.call with
  | .submit .. => m.contributions .initial
  | .settle id .success => if m.before.pendingId = some id then gathered id past else []
  | .settle _ (.failure _) => []

/-- All contributions put into effect, oldest first. -/
def effective : (past : List Moment) → List Snapshot
  | [] => []
  | m :: past => effective past ++ m.effect past

end Moment

/-- The trees of a method in the latest contribution that has any. -/
def latest (method : MethodId) (contributions : List Snapshot) : List ScopeTree :=
  match contributions.reverse.find? (·.hasMethod method) with
  | some contribution => contribution.treesOf method
  | none => []

/-! ## Snapshots made of contributions -/

/-- A later contribution counts if it has trees of the method. -/
theorem latest_append (m : MethodId) (cs ds : List Snapshot) :
    latest m (cs ++ ds) = if latest m ds = [] then latest m cs else latest m ds := by
  unfold latest
  rw [List.reverse_append, List.find?_append]
  cases found : ds.reverse.find? (·.hasMethod m) with
  | none => simp
  | some d =>
    have has : d.hasMethod m = true := by simpa using List.find?_some found
    have trees : d.treesOf m ≠ [] := by
      intro empty
      rw [Snapshot.hasMethod_eq_false_iff.mpr empty] at has
      cases has
    simp [trees]

theorem latest_singleton (m : MethodId) (s : Snapshot) : latest m [s] = s.treesOf m := by
  unfold latest
  cases has : s.hasMethod m with
  | true => simp [has]
  | false => simp [has, Snapshot.hasMethod_eq_false_iff.mp has]

/-- The snapshot has exactly the latest trees of the contributions. -/
def Snapshot.Shows (s : Snapshot) (contributions : List Snapshot) : Prop :=
  ∀ m, s.treesOf m = latest m contributions

namespace Snapshot.Shows

theorem empty : ({} : Snapshot).Shows [] := fun _ => rfl

theorem single (s : Snapshot) : s.Shows [s] := fun m => (latest_singleton m s).symm

/-- What is merged in comes later. -/
theorem merge {s incoming : Snapshot} {cs ds : List Snapshot} (old : s.Shows cs)
    (new : incoming.Shows ds) : (s.merge incoming).Shows (cs ++ ds) := by
  intro m
  rw [treesOf_merge, latest_append, ← old m, ← new m]
  cases has : incoming.hasMethod m with
  | true =>
    have some : incoming.treesOf m ≠ [] := by
      intro none
      rw [hasMethod_eq_false_iff.mpr none] at has
      cases has
    rw [if_pos rfl, if_neg some]
  | false => simp [hasMethod_eq_false_iff.mp has]

end Snapshot.Shows

/-! ## Runs -/

namespace Tracker

open Moment

/-- What both snapshots of a tracker are made of after the given past. -/
structure Accounts (t : Tracker) (past : List Moment) : Prop where
  committed : t.committed.Shows (effective past)
  pending : ∀ batch, t.pending = some batch → batch.snapshot.Shows (gathered batch.id past)
  /-- A batch is pending because something was contributed to it. -/
  started : ∀ batch, t.pending = some batch → gathered batch.id past ≠ []

theorem Accounts.fresh (profile : Profile) : Accounts { profile } [] where
  committed := .empty
  pending := nofun
  started := nofun

/-- A call that contributes nothing to a batch leaves what was gathered for the pending one. -/
theorem gathered_cons_of_pending {t : Tracker} {past : List Moment} {c : Call} {batch : Batch}
    (h : t.pending = some batch)
    (none : (⟨t, c⟩ : Moment).contributions (.redefinition batch.id) = []) :
    gathered batch.id (⟨t, c⟩ :: past) = gathered batch.id past := by
  rw [gathered, none, if_pos (pendingId_of_pending h), List.append_nil]

/-- Nothing changes after a call that contributes nothing and settles nothing. -/
theorem Accounts.idle {t t' : Tracker} {past : List Moment} {c : Call} (h : t.Accounts past)
    (committed : t'.committed = t.committed) (pending : t'.pending = t.pending)
    (noEffect : (⟨t, c⟩ : Moment).effect past = [])
    (noContribution : ∀ id, (⟨t, c⟩ : Moment).contributions (.redefinition id) = []) :
    t'.Accounts (⟨t, c⟩ :: past) where
  committed := by
    rw [committed, effective, noEffect, List.append_nil]
    exact h.committed
  pending := by
    intro batch hb
    rw [pending] at hb
    rw [gathered_cons_of_pending hb (noContribution batch.id)]
    exact h.pending batch hb
  started := by
    intro batch hb
    rw [pending] at hb
    rw [gathered_cons_of_pending hb (noContribution batch.id)]
    exact h.started batch hb

/-- A submission that is turned away contributes nothing. -/
theorem contributions_of_refused {t : Tracker} {bytes : List UInt8} {load : Load}
    (h : ∀ n, (t.submit bytes load).result ≠ .contributed n) (given : Load) :
    (⟨t, .submit bytes load⟩ : Moment).contributions given = [] := by
  cases result : (t.submit bytes load).result with
  | contributed n => exact absurd result (h n)
  | rejected => simp only [contributions, result]
  | failed e => simp only [contributions, result]

theorem contributions_of_contributed {t : Tracker} {bytes : List UInt8} {load : Load} {n : Nat}
    (h : (t.submit bytes load).result = .contributed n) (given : Load) :
    (⟨t, .submit bytes load⟩ : Moment).contributions given =
      if load = given then [treesBuilt t.profile bytes] else [] := by
  simp only [contributions, h]

/-- The batch that takes up a redefinition holds it, behind the earlier ones if it was pending. -/
theorem Accounts.gather {t : Tracker} {past : List Moment} (h : t.Accounts past)
    {bytes : List UInt8} {id : BatchId} {n : Nat}
    (taken : (t.submit bytes (.redefinition id)).result = .contributed n) {batch : Batch}
    (is : batch = Tracker.gather t.pending id (treesBuilt t.profile bytes)) :
    batch.snapshot.Shows (gathered batch.id (⟨t, .submit bytes (.redefinition id)⟩ :: past)) ∧
      gathered batch.id (⟨t, .submit bytes (.redefinition id)⟩ :: past) ≠ [] := by
  subst is
  have own : (⟨t, .submit bytes (.redefinition id)⟩ : Moment).contributions (.redefinition id) =
      [treesBuilt t.profile bytes] := by
    rw [contributions_of_contributed taken, if_pos rfl]
  -- Nothing was pending, or this batch was, or another one that is superseded now.
  cases pending : t.pending with
  | none =>
    have other : t.pendingId ≠ some id := by simp [pendingId, pending]
    show (treesBuilt t.profile bytes).Shows (gathered id _) ∧ gathered id _ ≠ []
    rw [gathered, own, if_neg other]
    exact ⟨.single _, by simp⟩
  | some batch =>
    by_cases same : batch.id = id
    · subst same
      rw [Tracker.gather, if_pos rfl]
      show (batch.snapshot.merge _).Shows (gathered batch.id _) ∧ gathered batch.id _ ≠ []
      rw [gathered, own, if_pos (pendingId_of_pending pending)]
      exact ⟨(h.pending batch pending).merge (.single _), by simp⟩
    · have other : t.pendingId ≠ some id := by
        rw [pendingId_of_pending pending]
        simpa using same
      rw [Tracker.gather, if_neg same]
      show (treesBuilt t.profile bytes).Shows (gathered id _) ∧ gathered id _ ≠ []
      rw [gathered, own, if_neg other]
      exact ⟨.single _, by simp⟩

/-- **A submission keeps the accounts.** -/
theorem Accounts.submit {t : Tracker} {past : List Moment} (h : t.Accounts past)
    (bytes : List UInt8) (load : Load) :
    (t.submit bytes load).tracker.Accounts (⟨t, .submit bytes load⟩ :: past) := by
  rcases t.submit_cases bytes load with
    ⟨⟨n, taken⟩, className, status, step⟩ | ⟨refused, statuses, same⟩
  · have contributed := contributions_of_contributed taken
    rw [step]
    cases load with
    | initial =>
      have effect : (⟨t, .submit bytes .initial⟩ : Moment).effect past =
          [treesBuilt t.profile bytes] := contributed .initial
      refine ⟨?_, ?_, ?_⟩
      · rw [effective, effect]
        exact h.committed.merge (.single _)
      · intro batch (hb : t.pending = some batch)
        rw [gathered_cons_of_pending hb (contributed _)]
        exact h.pending batch hb
      · intro batch (hb : t.pending = some batch)
        rw [gathered_cons_of_pending hb (contributed _)]
        exact h.started batch hb
    | redefinition id =>
      have effect : (⟨t, .submit bytes (.redefinition id)⟩ : Moment).effect past = [] :=
        contributed .initial
      refine ⟨?_, ?_, ?_⟩
      · rw [effective, effect, List.append_nil]
        exact h.committed
      · intro batch hb
        exact (h.gather taken (Option.some.inj hb).symm).1
      · intro batch hb
        exact (h.gather taken (Option.some.inj hb).symm).2
  · rw [same]
    exact h.idle rfl rfl (contributions_of_refused refused .initial) fun id =>
      contributions_of_refused refused _

theorem effect_of_success {t : Tracker} {past : List Moment} {id : BatchId} {snapshot : Snapshot}
    (h : t.pending = some ⟨id, snapshot⟩) :
    (⟨t, .settle id .success⟩ : Moment).effect past = gathered id past :=
  if_pos (pendingId_of_pending h)

/-- **An outcome keeps the accounts.** -/
theorem Accounts.settle {t : Tracker} {past : List Moment} (h : t.Accounts past) (id : BatchId)
    (outcome : Outcome) :
    (t.settle id outcome).tracker.Accounts (⟨t, .settle id outcome⟩ :: past) := by
  rcases t.settle_cases id outcome with ⟨other, same⟩ | ⟨snapshot, pending, -, gone, committed⟩
  · rw [same]
    refine h.idle rfl rfl ?_ fun _ => rfl
    cases outcome with
    | success => exact if_neg other
    | failure reason => rfl
  · refine ⟨?_, fun batch hb => ?_, fun batch hb => ?_⟩
    · cases outcome with
      | success =>
        rw [committed, effective, effect_of_success pending]
        exact h.committed.merge (h.pending _ pending)
      | failure reason =>
        have effect : (⟨t, .settle id (.failure reason)⟩ : Moment).effect past = [] := rfl
        rw [committed, effective, effect, List.append_nil]
        exact h.committed
    · rw [gone] at hb
      cases hb
    · rw [gone] at hb
      cases hb

theorem Accounts.after {t : Tracker} {past : List Moment} (h : t.Accounts past) (c : Call) :
    (t.after c).Accounts (⟨t, c⟩ :: past) := by
  cases c with
  | submit bytes load => exact h.submit bytes load
  | settle id outcome => exact h.settle id outcome

/-- The accounts are kept along every run of a fresh tracker. -/
theorem accounts_run (profile : Profile) (calls : List Call) :
    (run { profile } calls).Accounts (past { profile } calls) := by
  -- The past grows by its latest moment, so the induction takes off the last call.
  induction calls using List.reverseRecOn with
  | nil => exact .fresh profile
  | append_singleton calls c ih =>
    rw [run_concat, past_concat]
    exact ih.after c

/-- A call that puts nothing into effect leaves the committed snapshot as it is. -/
theorem Accounts.committed_of_no_effect {t : Tracker} {past : List Moment} (h : t.Accounts past)
    {c : Call} (none : (⟨t, c⟩ : Moment).effect past = []) :
    (t.after c).committed = t.committed := by
  cases c with
  | submit bytes load =>
    rcases t.submit_cases bytes load with
      ⟨⟨n, taken⟩, className, status, step⟩ | ⟨-, statuses, same⟩
    · cases load with
      | initial =>
        rw [effect, contributions_of_contributed taken, if_pos rfl] at none
        cases none
      | redefinition id =>
        show (t.submit bytes _).tracker.committed = _
        rw [step]
        rfl
    · show (t.submit bytes load).tracker.committed = _
      rw [same]
  | settle id outcome =>
    rcases t.settle_cases id outcome with ⟨-, same⟩ | ⟨snapshot, pending, -, -, committed⟩
    · exact congrArg Tracker.committed same
    · cases outcome with
      | success =>
        -- The effect of a success is never empty, since something made the batch pending.
        rw [effect_of_success pending] at none
        exact absurd none (h.started _ pending)
      | failure reason => exact committed

/-- **Only effective contributions count.** After any run of a fresh tracker, the committed snapshot
has for each method the trees of the latest effective contribution that has any, in their order; and
a further call that puts nothing into effect leaves that snapshot as it is. -/
theorem committed_treesOf_eq_latest (profile : Profile) (calls : List Call) :
    (∀ m, (run { profile } calls).committed.treesOf m =
        latest m (effective (past { profile } calls))) ∧
      ∀ c, (⟨run { profile } calls, c⟩ : Moment).effect (past { profile } calls) = [] →
        ((run { profile } calls).after c).committed = (run { profile } calls).committed :=
  ⟨(accounts_run profile calls).committed,
    fun _ none => (accounts_run profile calls).committed_of_no_effect none⟩

/-- Outcomes of two batches of which neither is pending. -/
theorem committed_of_stray_outcomes :
    effect (past { profile := .composition } [.settle 1 .success])
        ⟨run { profile := .composition } [.settle 1 .success], .settle 2 .success⟩ = [] ∧
      ((run { profile := .composition } [.settle 1 .success]).after
        (.settle 2 .success)).committed =
          (run { profile := .composition } [.settle 1 .success]).committed :=
  ⟨rfl, (committed_treesOf_eq_latest .composition [.settle 1 .success]).2 _ rfl⟩

end Tracker

end Recompose
