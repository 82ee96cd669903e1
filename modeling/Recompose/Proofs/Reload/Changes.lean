import Recompose.Assembly.Class
import Recompose.Proofs.Reload.Run
import Recompose.Proofs.Snapshot.SameTrees

/-!
What a run of redefinitions delivers for invalidation and enters in the history. Main results: no
change is lost along the way, and nothing is made up. A group whose fingerprint at the end is not the
one from the start has been delivered, and the record of a batch that succeeded says that it was
affected directly; a batch that brings nothing new invalidates no group.
-/

namespace Recompose

namespace Tracker

/-- What a run delivers, in order. -/
def deliveries (t : Tracker) (calls : List Call) : List Delivery :=
  (t.moments calls).flatMap fun m => (m.before.call m.call).deliveries

/-- The records that a run adds to the history. -/
def settled (t : Tracker) (calls : List Call) : List BatchRecord :=
  (t.run calls).history.drop t.history.length

/-- A batch that succeeds during the run affects the group directly: the group is delivered, and the
record of the batch says so. -/
def Invalidates (t : Tracker) (calls : List Call) (key : GroupKey) : Prop :=
  ∃ id invalidations, .settle id .success ∈ calls ∧
    ⟨key, .committing id⟩ ∈ t.deliveries calls ∧
    ⟨id, some invalidations⟩ ∈ t.settled calls ∧ ⟨key, .direct⟩ ∈ invalidations

variable {t : Tracker} {id : BatchId} {snapshot : Snapshot} {key : GroupKey}

/-! ## One call -/

/-- **All ends of a call that is no first load**, for the committed snapshot: it stays, unless a
pending batch succeeds. -/
theorem committed_cases (t : Tracker) {c : Call}
    (redefining : ∀ bytes, c ≠ .submit bytes .initial) :
    (t.after c).committed = t.committed ∨
      ∃ id snapshot, c = .settle id .success ∧ t.pending = some ⟨id, snapshot⟩ := by
  cases c with
  | submit bytes load =>
    left
    obtain ⟨statuses, step⟩ := t.after_submit bytes load
    rw [step]
    cases contribution? t.profile bytes with
    | none => rfl
    | some incoming =>
      cases load with
      | initial => exact absurd rfl (redefining bytes)
      | redefinition id => rfl
  | settle id outcome =>
    rcases t.settle_cases id outcome with ⟨-, same⟩ | ⟨snapshot, pending, -, -, committed⟩
    · exact .inl (congrArg Tracker.committed same)
    · cases outcome with
      | success => exact .inr ⟨id, snapshot, rfl, pending⟩
      | failure reason => exact .inl committed

/-- Records are only ever added behind the earlier ones. -/
theorem history_prefix_after (t : Tracker) (c : Call) : t.history <+: (t.after c).history := by
  cases c with
  | submit bytes load => rw [history_submit]
  | settle id outcome =>
    show _ <+: (t.settle id outcome).tracker.history
    unfold settle
    cases t.pending.filter (·.id == id) with
    | none => exact List.prefix_rfl
    | some batch => cases outcome <;> exact List.prefix_append _ _

theorem history_prefix_run (t : Tracker) (calls : List Call) :
    t.history <+: (t.run calls).history := by
  induction calls generalizing t with
  | nil => exact List.prefix_rfl
  | cons c calls ih => exact (t.history_prefix_after c).trans (ih (t.after c))

/-! ## Runs -/

/-- What the calls behind the first one invalidate, the whole run does. -/
theorem Invalidates.cons {c : Call} {calls : List Call} (h : (t.after c).Invalidates calls key) :
    t.Invalidates (c :: calls) key := by
  obtain ⟨id, invalidations, success, delivered, recorded, direct⟩ := h
  refine ⟨id, invalidations, List.mem_cons_of_mem c success, List.mem_append_right _ delivered, ?_,
    direct⟩
  have fewer := (t.history_prefix_after c).length_le
  rw [settled, ← Nat.add_sub_of_le fewer, ← List.drop_drop] at recorded
  exact List.mem_of_mem_drop recorded

/-- A success invalidates the groups whose fingerprints it changes, whatever follows. -/
theorem invalidates_of_success {calls : List Call} (pending : t.pending = some ⟨id, snapshot⟩)
    (changed : key ∈ t.committed.changedKeys (t.after (.settle id .success)).committed) :
    t.Invalidates (.settle id .success :: calls) key := by
  let step := { t with pending := none }.commit ⟨id, snapshot⟩
  have settles : t.settle id .success = step := settle_success pending
  have reached : t.after (.settle id .success) = step.tracker := congrArg Step.tracker settles
  have direct : ⟨key, .direct⟩ ∈ step.result := by
    rw [reached] at changed
    exact Snapshot.mem_diff_direct.mpr changed
  refine ⟨id, step.result, List.mem_cons_self, ?_, ?_, direct⟩
  · apply List.mem_append_left
    show _ ∈ (t.settle id .success).deliveries
    rw [settles]
    exact List.mem_map.mpr ⟨_, direct, rfl⟩
  · -- The record of this batch comes first among those that the run adds.
    obtain ⟨records, later⟩ := (t.after (.settle id .success)).history_prefix_run calls
    have added : (t.after (.settle id .success)).history =
        t.history ++ [⟨id, some step.result⟩] := by
      rw [reached]
      rfl
    show _ ∈ ((t.after (.settle id .success)).run calls).history.drop _
    rw [← later, added, List.append_assoc, List.drop_left]
    exact List.mem_append_left _ List.mem_cons_self

/-- Fingerprints that differ between the ends of a run were changed by some success on the way. -/
theorem invalidates_of_resolve_ne (t : Tracker) {calls : List Call}
    (redefining : ∀ bytes, .submit bytes .initial ∉ calls)
    (present : (t.run calls).committed.hasGroup key = true)
    (changed : t.committed.resolve key ≠ (t.run calls).committed.resolve key) :
    t.Invalidates calls key := by
  induction calls generalizing t with
  | nil => exact absurd rfl changed
  | cons c calls ih =>
    have first : ∀ bytes, c ≠ .submit bytes .initial := fun bytes is =>
      redefining bytes (is ▸ List.mem_cons_self)
    have behind : ∀ bytes, .submit bytes .initial ∉ calls := fun bytes mem =>
      redefining bytes (List.mem_cons_of_mem c mem)
    -- The group may go and come back, so only the latest change counts.
    by_cases last : (t.after c).committed.resolve key = (t.run (c :: calls)).committed.resolve key
    · have there : (t.after c).committed.hasGroup key = true := by
        rw [← Snapshot.isSome_resolve, last, Snapshot.isSome_resolve]
        exact present
      rcases t.committed_cases first with same | ⟨id, snapshot, rfl, pending⟩
      · rw [same] at last
        exact absurd last changed
      · apply invalidates_of_success pending
        rw [Snapshot.mem_changedKeys, last]
        exact ⟨there, changed⟩
    · exact (ih (t.after c) behind present last).cons

/-- **No change is lost along a run of redefinitions.** A group of the last committed snapshot that
the first one lacks, or whose fingerprint was another one there, is delivered during the run, and it
is affected directly by the record of a batch that succeeds. -/
theorem invalidates_of_changed (t : Tracker) {calls : List Call}
    (redefining : ∀ bytes, .submit bytes .initial ∉ calls)
    (present : (t.run calls).committed.hasGroup key = true)
    (changed : t.committed.hasGroup key = false ∨
      t.committed.resolve key ≠ (t.run calls).committed.resolve key) :
    t.Invalidates calls key := by
  apply invalidates_of_resolve_ne t redefining present
  rcases changed with lacks | changed
  · intro same
    rw [← Snapshot.isSome_resolve, same, Snapshot.isSome_resolve, present] at lacks
    cases lacks
  · exact changed

/-- A class with one method, which is in a group. -/
def keyedClass : ClassSpec where
  name := "A"
  methods := [
    { name := "f"
      descriptor := "()V"
      keys := [(Profile.composition.keyAnnotation, 7)]
      body := some { ops := [.plain 0xB1] } }]

/-- The class is redefined for a fresh tracker, and the batch succeeds. -/
def keyedRun : List Call :=
  [.submit keyedClass.assemble (.redefinition 1), .settle 1 .success]

theorem invalidates_of_keyedRun :
    (∀ bytes, .submit bytes .initial ∉ keyedRun) ∧
      (run { profile := .composition } keyedRun).committed.hasGroup 7 = true ∧
      ({ profile := .composition } : Tracker).committed.hasGroup 7 = false ∧
      ({ profile := .composition } : Tracker).Invalidates keyedRun 7 := by
  have redefining : ∀ bytes, .submit bytes .initial ∉ keyedRun := by simp [keyedRun]
  have present : (run { profile := .composition } keyedRun).committed.hasGroup 7 = true := by
    decide +kernel
  exact ⟨redefining, present, rfl, invalidates_of_changed _ redefining present (.inl rfl)⟩

/-! ## Nothing new -/

/-- **Redefining classes to what they are invalidates nothing.** If a batch succeeds of which each
method has the trees that are committed for it, no group is reported or delivered. Every fingerprint
stays, and so do the trees of every method, though they may move behind those of others. -/
theorem settle_of_unchanged (pending : t.pending = some ⟨id, snapshot⟩)
    (unchanged : ∀ m ∈ snapshot.methods, t.committed.treesOf m = snapshot.treesOf m) :
    (t.settle id .success).result = [] ∧ (t.settle id .success).deliveries = [] ∧
      (∀ key, (t.settle id .success).tracker.committed.resolve key = t.committed.resolve key) ∧
      ∀ m, (t.settle id .success).tracker.committed.treesOf m = t.committed.treesOf m := by
  have same : (t.committed.merge snapshot).SameTrees t.committed := .merge_of_unchanged unchanged
  have none : t.committed.diff (t.committed.merge snapshot) = [] := by
    rw [(Snapshot.SameTrees.refl t.committed).diff same, Snapshot.diff_self]
  rw [settle_success pending]
  refine ⟨none, ?_, same.resolve, same⟩
  show (t.committed.diff (t.committed.merge snapshot)).map _ = []
  rw [none, List.map_nil]

/-- Another class, whose only method is in a group of its own. -/
def otherKeyedClass : ClassSpec where
  name := "B"
  methods := [
    { name := "g"
      descriptor := "()V"
      keys := [(Profile.composition.keyAnnotation, 9)]
      body := some { ops := [.plain 0xB1] } }]

/-- Both classes are loaded, and the first one is redefined to what it is. -/
def repeatedRun : List Call :=
  [.submit keyedClass.assemble .initial, .submit otherKeyedClass.assemble .initial,
    .submit keyedClass.assemble (.redefinition 1)]

/-- The success moves the trees of the first class behind those of the other, and that is all. -/
theorem settle_of_repeatedRun :
    ∃ t snapshot, t = run { profile := .composition } repeatedRun ∧
      t.pending = some ⟨1, snapshot⟩ ∧ t.committed.group 7 = [⟨0, 0⟩] ∧
      (t.settle 1 .success).tracker.committed.group 7 = [⟨1, 0⟩] ∧
      (∀ m ∈ snapshot.methods, t.committed.treesOf m = snapshot.treesOf m) ∧
      (t.settle 1 .success).result = [] ∧ (t.settle 1 .success).deliveries = [] ∧
      (∀ key, (t.settle 1 .success).tracker.committed.resolve key = t.committed.resolve key) ∧
      ∀ m, (t.settle 1 .success).tracker.committed.treesOf m = t.committed.treesOf m := by
  have pending : (run { profile := .composition } repeatedRun).pending =
      some ⟨1, treesBuilt .composition keyedClass.assemble⟩ := by decide +kernel
  have before : (run { profile := .composition } repeatedRun).committed.group 7 = [⟨0, 0⟩] := by
    decide +kernel
  have behind : ((run { profile := .composition } repeatedRun).settle 1
      .success).tracker.committed.group 7 = [⟨1, 0⟩] := by decide +kernel
  have unchanged : ∀ m ∈ (treesBuilt .composition keyedClass.assemble).methods,
      (run { profile := .composition } repeatedRun).committed.treesOf m =
        (treesBuilt .composition keyedClass.assemble).treesOf m := by decide +kernel
  exact ⟨_, _, rfl, pending, before, behind, unchanged, settle_of_unchanged pending unchanged⟩

end Tracker

end Recompose
