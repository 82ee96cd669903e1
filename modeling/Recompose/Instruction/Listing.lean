import Recompose.Ascending
import Recompose.ClassFile
import Recompose.Instruction.Decode

/-!
The instructions of a body with labels where control can enter: in front of every instruction that a
jump leads to or that starts a guarded range, a range's end or a handler, and at the end of the code
if a range ends there. Labels are numbered in the order of their places.
-/

namespace Recompose

namespace Guard

/-- The three places that a guard refers to. -/
def places (g : Guard) : List Nat :=
  [g.start.toNat, g.stop.toNat, g.handler.toNat]

end Guard

namespace Located

/-- The places that need a label, ascending. -/
def entryPoints (code : List Located) (guards : List Guard) : List Nat :=
  Ascending.ofList (code.flatMap (·.targets) ++ guards.flatMap Guard.places)

/-- The label at a place, if it needs one. -/
def labelAt (points : List Nat) (offset : Nat) : List Instruction :=
  match points.idxOf? offset with
  | some ordinal => [.label ordinal]
  | none => []

/-- Whether a place is the start of an instruction or the end of the code. -/
def isBoundary (code : List Located) (length offset : Nat) : Bool :=
  offset == length || code.any (·.offset == offset)

/-- Puts the labels in; the first place inside an instruction is an error. -/
def withLabels (code : List Located) (guards : List Guard) (length : Nat) :
    Except Error (List Instruction) :=
  let points := entryPoints code guards
  match points.find? fun offset => !isBoundary code length offset with
  | some offset => .error (.malformed (.labelInside offset))
  | none =>
    .ok (code.flatMap (fun l => labelAt points l.offset ++ [l.instruction]) ++
      labelAt points length)

end Located

namespace Code

/-- The instructions and labels of a body. -/
def instructions (pool : Pool) (bootstraps : List Bootstrap) (code : Code) :
    Except Error (List Instruction) := do
  let located ← Instruction.readAll pool bootstraps code.bytes
  Located.withLabels located code.guards code.bytes.length

end Code

namespace Method

/-- The instructions and labels of a method of a class; a method without a body has none. -/
def instructions (c : ClassFile) (m : Method) : Except Error (List Instruction) :=
  match m.code with
  | some code => code.instructions c.pool c.bootstraps
  | none => .ok []

end Method

end Recompose
