import Recompose.Proofs.ClassFile.Owner
import Recompose.Proofs.Reload.Buffered

/-!
Trackers that differ at most in the order of their trees. No call tells them apart, neither by its
answer nor by what it delivers; only the log may name the owners of a group in another order. Main
result: classes of different names may be submitted for the same reason in either order, and nothing
that follows depends on which came first.
-/

namespace Recompose

/-- Batches of one number with the same trees for each method. -/
structure Batch.Alike (b b' : Batch) : Prop where
  id : b.id = b'.id
  snapshot : b.snapshot.SameTrees b'.snapshot

/-- Trackers that have committed the same trees for each method and hold the same ones for the same
batch; they may know another status of a class. -/
structure Tracker.Alike (t u : Tracker) : Prop where
  profile : t.profile = u.profile
  committed : t.committed.SameTrees u.committed
  pending : Option.Rel Batch.Alike t.pending u.pending
  history : t.history = u.history

/-- Steps with the same answer and deliveries, to trackers alike. -/
structure Step.Alike {α : Type} (s s' : Step α) : Prop where
  tracker : s.tracker.Alike s'.tracker
  result : s.result = s'.result
  deliveries : s.deliveries = s'.deliveries

namespace Tracker

variable {t u : Tracker} {id : BatchId}

/-! ## One call -/

namespace Alike

theorem refl (t : Tracker) : Alike t t where
  profile := rfl
  committed := .refl t.committed
  pending := by
    cases t.pending with
    | none => exact .none
    | some batch => exact .some ⟨rfl, .refl batch.snapshot⟩
  history := rfl

theorem pending_cases (h : Alike t u) :
    (t.pending = none ∧ u.pending = none) ∨
      ∃ b b', t.pending = some b ∧ u.pending = some b' ∧ b.Alike b' := by
  have rel := h.pending
  generalize t.pending = p, u.pending = p' at rel ⊢
  cases rel with
  | none => exact .inl ⟨rfl, rfl⟩
  | some batches => exact .inr ⟨_, _, rfl, rfl, batches⟩

theorem pendingId (h : Alike t u) : t.pendingId = u.pendingId := by
  rcases h.pending_cases with ⟨none, none'⟩ | ⟨b, b', some, some', batches⟩
  · rw [Tracker.pendingId, Tracker.pendingId, none, none']
  · rw [pendingId_of_pending some, pendingId_of_pending some', batches.id]

theorem held (h : Alike t u) (id : BatchId) : (t.held id).SameTrees (u.held id) := by
  unfold Tracker.held
  rcases h.pending_cases with ⟨none, none'⟩ | ⟨b, b', some, some', batches⟩
  · rw [none, none']
    exact .refl _
  · rw [some, some']
    show Snapshot.SameTrees (if b.id = id then _ else _) (if b'.id = id then _ else _)
    rw [batches.id]
    split
    · exact batches.snapshot
    · exact .refl _

theorem takeIn (h : Alike t u) (load : Load) (incoming : Option Snapshot) :
    Alike (t.takeIn load incoming) (u.takeIn load incoming) := by
  cases incoming with
  | none => exact h
  | some incoming =>
    cases load with
    | initial => exact { h with committed := h.committed.merge (.refl incoming) }
    | redefinition id =>
      refine { h with pending := ?_ }
      show Option.Rel _ (some (gather t.pending id incoming)) (some (gather u.pending id incoming))
      rw [gather_eq, gather_eq]
      exact .some ⟨rfl, (h.held id).merge (.refl incoming)⟩

theorem submit (h : Alike t u) (bytes : List UInt8) (load : Load) :
    (t.submit bytes load).Alike (u.submit bytes load) where
  tracker := by
    obtain ⟨statuses, left⟩ := t.after_submit bytes load
    obtain ⟨statuses', right⟩ := u.after_submit bytes load
    show Alike (t.after (.submit bytes load)) (u.after (.submit bytes load))
    rw [left, right, h.profile]
    obtain ⟨profile, committed, pending, history⟩ :=
      h.takeIn load (contribution? u.profile bytes)
    exact ⟨profile, committed, pending, history⟩
  result := by rw [result_submit, result_submit, h.profile]
  deliveries := by rw [deliveries_submit, deliveries_submit]

theorem settle (h : Alike t u) (id : BatchId) (outcome : Outcome) :
    (t.settle id outcome).Alike (u.settle id outcome) := by
  by_cases same : t.pendingId = some id
  · obtain ⟨snapshot, pending⟩ := exists_of_pendingId same
    obtain ⟨snapshot', pending'⟩ := exists_of_pendingId (h.pendingId ▸ same)
    have held : snapshot.SameTrees snapshot' := by
      have batches := h.pending
      rw [pending, pending'] at batches
      cases batches with
      | some batches => exact batches.snapshot
    cases outcome with
    | success =>
      have committed := h.committed.merge held
      have diff := h.committed.diff committed
      rw [settle_success pending, settle_success pending']
      refine ⟨⟨h.profile, committed, .none, ?_⟩, diff, ?_⟩
      · show t.history ++ [⟨id, some _⟩] = u.history ++ [⟨id, some _⟩]
        rw [h.history, diff]
      · exact congrArg (List.map _) diff
    | failure reason =>
      rw [settle_failure pending, settle_failure pending']
      refine ⟨⟨h.profile, h.committed, .none, ?_⟩, rfl, rfl⟩
      exact congrArg (· ++ [_]) h.history
  · rw [settle_of_other same, settle_of_other (h.pendingId ▸ same)]
    exact ⟨h, rfl, rfl⟩

/-- **No call tells trackers alike apart**, and it leaves them alike. -/
theorem call (h : Alike t u) (c : Call) : (t.call c).Alike (u.call c) := by
  cases c with
  | submit bytes load =>
    obtain ⟨tracker, result, deliveries⟩ := h.submit bytes load
    exact ⟨tracker, congrArg Answer.submission result, deliveries⟩
  | settle id outcome =>
    obtain ⟨tracker, result, deliveries⟩ := h.settle id outcome
    exact ⟨tracker, congrArg Answer.invalidations result, deliveries⟩

/-! ## Runs -/

/-- **No run tells trackers alike apart.** -/
theorem run (h : Alike t u) (calls : List Call) :
    t.answers calls = u.answers calls ∧ t.deliveries calls = u.deliveries calls := by
  induction calls generalizing t u with
  | nil => exact ⟨rfl, rfl⟩
  | cons c calls ih =>
    obtain ⟨after, answer, delivered⟩ := h.call c
    obtain ⟨answers, deliveries⟩ := ih after
    exact ⟨congrArg₂ List.cons answer answers, congrArg₂ (· ++ ·) delivered deliveries⟩

/-- Pending groups have the same fingerprints as well. -/
theorem resolve_pending (h : Alike t u) :
    Option.Rel (fun b b' => ∀ key, b.snapshot.resolve key = b'.snapshot.resolve key)
      t.pending u.pending := by
  rcases h.pending_cases with ⟨none, none'⟩ | ⟨b, b', some, some', batches⟩
  · rw [none, none']
    exact .none
  · rw [some, some']
    exact .some batches.snapshot.resolve

end Alike

/-! ## Two classes -/

/-- The trees that are found belong to the class whose name the bytes start with. -/
theorem peekName_of_hasMethod {profile : Profile} {bytes : List UInt8} {m : MethodId}
    (h : (treesBuilt profile bytes).hasMethod m = true) :
    ClassFile.peekName bytes = .ok m.className := by
  obtain ⟨tree, mem, rfl⟩ := Snapshot.exists_tree_of_hasMethod h
  unfold treesBuilt at mem
  split at mem
  · next file accepted =>
    obtain ⟨method, own, same⟩ := ClassScopes.exists_method_of_mem_trees mem
    rw [same, ClassFile.className_of_mem_methods accepted method own]
    exact ClassFile.peekName_of_parse accepted
  · cases mem

/-- What has no method in common may be taken in in either order. -/
theorem takeIn_swap (t : Tracker) (load : Load) {first second : Option Snapshot}
    (apart : ∀ s ∈ first, ∀ s' ∈ second, ∀ m, s.hasMethod m = true → s'.hasMethod m = false) :
    Alike ((t.takeIn load first).takeIn load second) ((t.takeIn load second).takeIn load first) := by
  cases first with
  | none => exact .refl _
  | some s =>
    cases second with
    | none => exact .refl _
    | some s' =>
      have swap (base : Snapshot) := Snapshot.SameTrees.merge_swap (s := base) (apart s rfl s' rfl)
      cases load with
      | initial => exact { Alike.refl t with committed := swap t.committed }
      | redefinition id =>
        refine { Alike.refl t with pending := ?_ }
        show Option.Rel _
          (some (gather (t.takeIn (.redefinition id) (some s)).pending id s'))
          (some (gather (t.takeIn (.redefinition id) (some s')).pending id s))
        rw [gather_eq, gather_eq, held_takeIn, held_takeIn]
        exact .some ⟨rfl, swap (t.held id)⟩

/-- Two submissions one after the other take in what both have to contribute. -/
theorem run_pair (t : Tracker) (load : Load) (a b : List UInt8) :
    ∃ statuses, t.run (Call.submissions load [a, b]) =
      { (t.takeIn load (contribution? t.profile a)).takeIn load (contribution? t.profile b) with
        statuses } := by
  obtain ⟨statuses, first⟩ := t.after_submit a load
  obtain ⟨statuses', second⟩ := (t.after (.submit a load)).after_submit b load
  rw [profile_submit] at second
  refine ⟨statuses', ?_⟩
  show (t.after (.submit a load)).after (.submit b load) = _
  rw [second, first]
  cases contribution? t.profile b with
  | none => rfl
  | some incoming => cases load <;> rfl

theorem answers_pair (t : Tracker) (load : Load) (a b : List UInt8) :
    t.answers (Call.submissions load [a, b]) =
      [.submission (verdict t.profile a), .submission (verdict t.profile b)] := by
  show [Answer.submission (t.submit a load).result,
    .submission ((t.after (.submit a load)).submit b load).result] = _
  rw [result_submit, result_submit, profile_submit]

/-- **Classes of different names commute.** Two submissions for the same reason, of bytes that do not
start with the same class name, get the same answers in either order. The trackers that they lead to
have committed the same trees for each method and hold the same ones, every group has the same
fingerprint in both, and whatever is called then is answered alike and delivers the same. -/
theorem submissions_commute (t : Tracker) (load : Load) {a b : List UInt8}
    (different : ∀ className, ClassFile.peekName a = .ok className →
      ClassFile.peekName b ≠ .ok className) :
    let left := t.run (Call.submissions load [a, b])
    let right := t.run (Call.submissions load [b, a])
    t.answers (Call.submissions load [a, b]) =
        (t.answers (Call.submissions load [b, a])).reverse ∧
      left.Alike right ∧
      (∀ key, left.committed.resolve key = right.committed.resolve key) ∧
      Option.Rel (fun batch batch' => ∀ key,
        batch.snapshot.resolve key = batch'.snapshot.resolve key) left.pending right.pending ∧
      ∀ calls, left.answers calls = right.answers calls ∧
        left.deliveries calls = right.deliveries calls := by
  intro left right
  have alike : left.Alike right := by
    obtain ⟨statuses, leftEnds⟩ := t.run_pair load a b
    obtain ⟨statuses', rightEnds⟩ := t.run_pair load b a
    -- A method of both contributions would be of a class that both names are the name of.
    have apart : ∀ s ∈ contribution? t.profile a, ∀ s' ∈ contribution? t.profile b, ∀ m,
        s.hasMethod m = true → s'.hasMethod m = false := by
      rintro s first s' second m has
      rw [eq_treesBuilt_of_contribution? first] at has
      rw [eq_treesBuilt_of_contribution? second]
      by_contra both
      exact different m.className (peekName_of_hasMethod has)
        (peekName_of_hasMethod (Bool.not_eq_false _ ▸ both))
    obtain ⟨profile, committed, pending, history⟩ := t.takeIn_swap load apart
    show Alike (t.run _) (t.run _)
    rw [leftEnds, rightEnds]
    exact ⟨profile, committed, pending, history⟩
  refine ⟨?_, alike, alike.committed.resolve, alike.resolve_pending, alike.run⟩
  rw [answers_pair, answers_pair]
  rfl

/-- Two classes for one batch: their trees are held in another order, and that is all. -/
theorem submissions_commute_keyed :
    let left := run { profile := .composition }
      (Call.submissions (.redefinition 1) [keyedClass.assemble, otherKeyedClass.assemble])
    let right := run { profile := .composition }
      (Call.submissions (.redefinition 1) [otherKeyedClass.assemble, keyedClass.assemble])
    (∀ className, ClassFile.peekName keyedClass.assemble = .ok className →
      ClassFile.peekName otherKeyedClass.assemble ≠ .ok className) ∧
      left.pending ≠ right.pending ∧ left.Alike right ∧
      (∀ key, left.committed.resolve key = right.committed.resolve key) ∧
      Option.Rel (fun batch batch' => ∀ key,
        batch.snapshot.resolve key = batch'.snapshot.resolve key) left.pending right.pending ∧
      ∀ calls, left.answers calls = right.answers calls ∧
        left.deliveries calls = right.deliveries calls := by
  intro left right
  have named : ClassFile.peekName keyedClass.assemble = .ok "A" := by decide +kernel
  have named' : ClassFile.peekName otherKeyedClass.assemble = .ok "B" := by decide +kernel
  have different : ∀ className, ClassFile.peekName keyedClass.assemble = .ok className →
      ClassFile.peekName otherKeyedClass.assemble ≠ .ok className := by
    intro className first second
    rw [named] at first
    rw [named'] at second
    cases first
    exact absurd second (by decide)
  have order : left.pending ≠ right.pending := by decide +kernel
  obtain ⟨-, alike, committed, pending, later⟩ :=
    submissions_commute { profile := .composition } (.redefinition 1) different
  exact ⟨different, order, alike, committed, pending, later⟩

end Tracker

end Recompose
