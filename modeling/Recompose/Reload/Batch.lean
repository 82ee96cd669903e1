import Recompose.Snapshot.Diff

/-!
What the outside world tells a tracker of reloads and what it answers.
-/

namespace Recompose

/-- Why a class is loaded. -/
inductive Load where
  | initial
  /-- New bytes for a class already there, as part of a batch. -/
  | redefinition (batch : BatchId)
deriving DecidableEq, Repr

namespace Load

def batch? : Load → Option BatchId
  | initial => none
  | redefinition batch => some batch

end Load

/-- What became of a class that was submitted. -/
inductive Submission where
  /-- The class is left out of the analysis. -/
  | rejected
  | failed (error : Error)
  /-- The scopes of so many methods were taken in. -/
  | contributed (methods : Nat)
deriving DecidableEq, Repr

/-- How a redefinition ended. -/
inductive Outcome where
  | success
  | failure (reason : String)
deriving DecidableEq, Repr

/-- The last result of submitting a class. -/
inductive ClassStatus where
  | analyzed (load : Load) (methods failures : Nat)
  | failed (load : Load) (message : String)
deriving DecidableEq, Repr

/-- The trees of a redefinition whose outcome is awaited. -/
structure Batch where
  id : BatchId
  snapshot : Snapshot
deriving DecidableEq, Repr

/-- A batch whose outcome is known, with what it invalidated unless it was discarded. -/
structure BatchRecord where
  batch : BatchId
  invalidations : Option (List Invalidation)
deriving DecidableEq, Repr

inductive TrackerState where
  | idle
  | accumulating (batch : BatchId)
  | committing (batch : BatchId)
deriving DecidableEq, Repr

namespace TrackerState

/-- The word for a state, with the number of its batch. -/
def text : TrackerState → String
  | idle => "Idle"
  | accumulating batch => "Accumulating " ++ BatchId.text batch
  | committing batch => "Committing " ++ BatchId.text batch

/-- A state inside the summary of a tracker. -/
def summary : TrackerState → String
  | idle => "Idle"
  | accumulating batch => "Accumulating(BatchId(" ++ toString batch ++ "))"
  | committing batch => "Committing(BatchId(" ++ toString batch ++ "))"

end TrackerState

/-- A group handed over for invalidation, and the state that the tracker shows meanwhile. -/
structure Delivery where
  key : GroupKey
  state : TrackerState
deriving DecidableEq, Repr

end Recompose
