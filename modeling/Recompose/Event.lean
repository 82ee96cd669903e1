import Recompose.Error
import Recompose.Profile

/-!
What is worth a line in the log.
-/

namespace Recompose

/-- The key of a group. Keys are not unique: scopes of one key are invalidated together. -/
abbrev GroupKey : Type := Int32

abbrev BatchId : Type := UInt64

namespace BatchId

def text (id : BatchId) : String :=
  "#" ++ toString id

end BatchId

inductive Level where
  | debug
  | info
  | warn
  | error
deriving DecidableEq, Repr

namespace Level

def name : Level → String
  | debug => "DEBUG"
  | info => "INFO"
  | warn => "WARN"
  | error => "ERROR"

end Level

inductive Event where
  /-- A marker call left a kind of scope of which none was open. -/
  | unmatchedExit (kind : ScopeKind) (method : MethodId)
  | methodSkipped (method : MethodId) (error : Error)
  | unnamedClassRefused (error : Error)
  | classRefused (className : String) (error : Error)
  | classAnalyzed (className : String) (redefined : Bool)
  /-- A pending batch gave way to another one. -/
  | batchSuperseded (stale current : BatchId)
  | batchUnknown (batch : BatchId)
  | batchDiscarded (batch : BatchId) (reason : String)
  | nothingInvalidated
  | groupInvalidated (key : GroupKey) (methods : List String)
  | parentsInvalidated (keys : List GroupKey)
deriving DecidableEq, Repr

namespace Event

def level : Event → Level
  | unmatchedExit .. => .debug
  | methodSkipped .. => .warn
  | unnamedClassRefused .. => .error
  | classRefused .. => .error
  | classAnalyzed .. => .debug
  | batchSuperseded .. => .warn
  | batchUnknown .. => .debug
  | batchDiscarded .. => .info
  | nothingInvalidated => .info
  | groupInvalidated .. => .info
  | parentsInvalidated .. => .info

def message : Event → String
  | unmatchedExit kind method =>
    "Ignoring end of " ++ kind.name ++ " without an open start in '" ++ method.text ++ "'"
  | methodSkipped method error =>
    "Skipping scopes of '" ++ method.text ++ "': " ++ error.display
  | unnamedClassRefused error => "Failed parsing scopes of unnamed class: " ++ error.display
  | classRefused className error =>
    "Failed parsing scopes for '" ++ className ++ "': " ++ error.display
  | classAnalyzed className redefined =>
    "Parsed scopes for '" ++ className ++ "'" ++ (if redefined then " (redefined)" else "")
  | batchSuperseded stale current =>
    "Discarding scopes of batch " ++ BatchId.text stale ++ " without outcome, superseded by " ++
      BatchId.text current
  | batchUnknown batch => "No pending scopes for batch " ++ BatchId.text batch
  | batchDiscarded batch reason =>
    "Discarding scopes of failed batch " ++ BatchId.text batch ++ ": " ++ reason
  | nothingInvalidated => "All groups retained"
  | groupInvalidated key methods =>
    s!"Invalidating group '{key}' (" ++ ", ".intercalate methods ++ ")"
  | parentsInvalidated keys =>
    "Invalidating parent groups '" ++ ", ".intercalate (keys.map toString) ++ "'"

/-- A line of the log. -/
def line (e : Event) : String :=
  e.level.name ++ " " ++ e.message

end Event

end Recompose
