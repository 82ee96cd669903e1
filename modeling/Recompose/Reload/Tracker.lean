import Recompose.Reload.Batch
import Recompose.Scope.Analysis

/-!
Following class loads and redefinitions. First loads go into the committed snapshot at once;
redefinitions are gathered in the pending batch until their outcome is known. A failed batch is
dropped; a successful one is merged, and every group it affects is delivered.
-/

namespace Recompose

structure Tracker where
  profile : Profile
  committed : Snapshot := {}
  pending : Option Batch := none
  /-- The batch whose groups are being delivered; none between calls. -/
  committing : Option BatchId := none
  /-- The status of every class by name, in the order of their first submissions. -/
  statuses : List (String × ClassStatus) := []
  /-- Batches whose outcome is known, oldest first. -/
  history : List BatchRecord := []
deriving Repr

/-- A step of a tracker: its state afterwards, the answer, what was delivered, and the log. -/
structure Step (α : Type) where
  tracker : Tracker
  result : α
  deliveries : List Delivery := []
  events : List Event := []

namespace Tracker

/-! ## What can be seen -/

/-- The batch that is being committed, or else the pending one. -/
def state (t : Tracker) : TrackerState :=
  match t.committing with
  | some id => .committing id
  | none =>
    match t.pending with
    | some batch => .accumulating batch.id
    | none => .idle

def status? (t : Tracker) (className : String) : Option ClassStatus :=
  t.statuses.lookup className

/-- A summary on one line. -/
def summary (t : Tracker) : String :=
  "ReloadTracker \x7b state: " ++ t.state.summary ++
    s!", committed: {t.committed.size}, classes: {t.statuses.length}" ++
    s!", batches: {t.history.length}, .. \x7d"

/-! ## Submitting a class -/

/-- Sets the status of a class in place of an earlier one. -/
def withStatus (className : String) (status : ClassStatus) :
    List (String × ClassStatus) → List (String × ClassStatus)
  | [] => [(className, status)]
  | entry :: entries =>
    if entry.1 = className then
      (className, status) :: entries
    else
      entry :: withStatus className status entries

def setStatus (t : Tracker) (className : String) (status : ClassStatus) : Tracker :=
  { t with statuses := withStatus className status t.statuses }

/-- The batch with more trees: they join a pending batch of the same number and replace any other. -/
def gather (pending : Option Batch) (id : BatchId) (incoming : Snapshot) : Batch :=
  match pending with
  | some batch => if batch.id = id then ⟨id, batch.snapshot.merge incoming⟩ else ⟨id, incoming⟩
  | none => ⟨id, incoming⟩

/-- The pending batch that gives way to another one. -/
def supersededBy (pending : Option Batch) (id : BatchId) : List Event :=
  match pending with
  | some batch => if batch.id = id then [] else [.batchSuperseded batch.id id]
  | none => []

/-- Takes in the trees of a class. -/
def contribute (t : Tracker) (load : Load) (incoming : Snapshot) : Tracker :=
  match load with
  | .initial => { t with committed := t.committed.merge incoming }
  | .redefinition id => { t with pending := some (gather t.pending id incoming) }

def contributionEvents (t : Tracker) (load : Load) (className : String) : List Event :=
  match load with
  | .initial => [.classAnalyzed className false]
  | .redefinition id => .classAnalyzed className true :: supersededBy t.pending id

/-- Takes in a class whose bytes are in order. -/
def submitClass (t : Tracker) (load : Load) (className : String) (file : ClassFile) :
    Step Submission :=
  let scopes := ClassScopes.ofClass t.profile file
  let status := .analyzed load scopes.trees.length scopes.failures.length
  { tracker := (t.contribute load ⟨scopes.trees⟩).setStatus className status
    result := .contributed scopes.trees.length
    events := scopes.events ++ t.contributionEvents load className }

/-- Submits the bytes of a class. A class left out is judged by its name alone. -/
def submit (t : Tracker) (bytes : List UInt8) (load : Load) : Step Submission :=
  match ClassFile.peekName bytes with
  | .error e => { tracker := t, result := .failed e, events := [.unnamedClassRefused e] }
  | .ok className =>
    if t.profile.excludesClass className then
      { tracker := t, result := .rejected }
    else
      match ClassFile.parse bytes with
      | .error e =>
        { tracker := t.setStatus className (.failed load e.display)
          result := .failed e
          events := [.classRefused className e] }
      | .ok file => t.submitClass load className file

/-! ## The outcome of a redefinition -/

def record (t : Tracker) (batch : BatchId) (invalidations : Option (List Invalidation)) : Tracker :=
  { t with history := t.history ++ [⟨batch, invalidations⟩] }

/-- The methods that own a group's scopes, each once. -/
def owners (s : Snapshot) (key : GroupKey) : List String :=
  ((s.group key).filterMap fun ref => (s.tree? ref).map (·.method.shortText)).eraseDups

/-- What a merge is reported to have invalidated. -/
def report (s : Snapshot) (invalidations : List Invalidation) : List Event :=
  let direct := (invalidations.filter (·.reason == .direct)).map (·.key)
  let parents := (invalidations.filter (·.reason == .parentWidening)).map (·.key)
  if invalidations.isEmpty then
    [.nothingInvalidated]
  else
    direct.map (fun key => .groupInvalidated key (owners s key)) ++
      (if parents.isEmpty then [] else [.parentsInvalidated parents])

/-- Merges a batch that is no longer pending and delivers what it invalidates. -/
def commit (t : Tracker) (batch : Batch) : Step (List Invalidation) :=
  let updated := t.committed.merge batch.snapshot
  let invalidations := t.committed.diff updated
  -- The groups are delivered before the batch is recorded.
  let delivering := { t with committed := updated, committing := some batch.id }
  let recorded := delivering.record batch.id (some invalidations)
  { tracker := { recorded with committing := none }
    result := invalidations
    deliveries := invalidations.map fun i => ⟨i.key, delivering.state⟩
    events := report updated invalidations }

/-- Settles a batch; nothing happens unless it is the pending one. -/
def settle (t : Tracker) (id : BatchId) (outcome : Outcome) : Step (List Invalidation) :=
  match t.pending.filter (·.id == id) with
  | none => { tracker := t, result := [], events := [.batchUnknown id] }
  | some batch =>
    let t := { t with pending := none }
    match outcome with
    | .failure reason =>
      { tracker := t.record id none, result := [], events := [.batchDiscarded id reason] }
    | .success => t.commit batch

end Tracker

end Recompose
