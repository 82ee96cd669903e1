import Recompose.Assembly.Op

/-!
Bodies of methods: operations, guarded ranges between labels, and names of local variables. A label
that is never placed stands for the end of the code.
-/

namespace Recompose

/-- A guarded range and its handler by labels, with the class caught, or all if there is none. -/
structure LabeledGuard where
  start : Nat
  stop : Nat
  handler : Nat
  catchType : Option String
deriving DecidableEq, Repr

/-- The name of a local variable throughout a body. -/
structure LocalVariable where
  name : String
  descriptor : String
  slot : UInt16
deriving DecidableEq, Repr

structure Body where
  ops : List Op := []
  guards : List LabeledGuard := []
  locals : List LocalVariable := []
deriving DecidableEq, Repr

/-! ## Places -/

/-- Where things are in the code: the offset reached, labels and line numbers with theirs, last one
first. -/
structure Survey where
  offset : Nat := 0
  labels : List (Nat × Nat) := []
  lines : List (Nat × UInt16) := []
deriving DecidableEq, Repr

namespace Survey

def add (s : Survey) (p : Piece) : Survey :=
  match p with
  | .place label => { s with labels := (label, s.offset) :: s.labels }
  | .line number => { s with lines := (s.offset, number) :: s.lines }
  | p => { s with offset := s.offset + p.size }

def ofPieces (pieces : List Piece) : Survey :=
  pieces.foldl add {}

/-- The offset of a label, as it was placed last. -/
def offsetOf (s : Survey) (label : Nat) : Nat :=
  (s.labels.lookup label).getD s.offset

end Survey

namespace Piece

/-- The bytes of pieces from an offset on, behind `done`, which has those so far, last one first. -/
def emitOnto (offsetOf : Nat → Nat) (done : List (List UInt8)) (offset : Nat) :
    List Piece → List UInt8
  | [] => done.reverse.flatten
  | p :: pieces => emitOnto offsetOf (p.emit offsetOf offset :: done) (offset + p.size) pieces

end Piece

namespace Body

open Bytes BigEndian Draft

/-- The depth of the operand stack and the number of local variables that every body claims. -/
def room : UInt16 := 16

def guardRow (s : Survey) (g : LabeledGuard) : Assemble (List UInt8) := do
  let catchType ← match g.catchType with
    | some name => classRef name
    | none => pure 0
  return u16 (UInt16.ofNat (s.offsetOf g.start)) ++ u16 (UInt16.ofNat (s.offsetOf g.stop)) ++
    u16 (UInt16.ofNat (s.offsetOf g.handler)) ++ u16 catchType

def lineTable (s : Survey) : List Attribute :=
  if s.lines.isEmpty then
    []
  else
    let rows := s.lines.reverse.map fun (offset, number) => u16 (UInt16.ofNat offset) ++ u16 number
    [⟨"LineNumberTable", table rows⟩]

def localRow (length : Nat) (v : LocalVariable) : Assemble (List UInt8) := do
  let name ← utf8 v.name
  let descriptor ← utf8 v.descriptor
  return u16 0 ++ u16 (UInt16.ofNat length) ++ u16 name ++ u16 descriptor ++ u16 v.slot

def localTable (length : Nat) (locals : List LocalVariable) : Assemble (List Attribute) := do
  if locals.isEmpty then
    return []
  else
    return [⟨"LocalVariableTable", table (← locals.mapM (localRow length))⟩]

/-- The payload of the code attribute. -/
def assemble (b : Body) : Assemble (List UInt8) := do
  let pieces ← b.ops.mapM Op.assemble
  let survey := Survey.ofPieces pieces
  let code := Piece.emitOnto survey.offsetOf [] 0 pieces
  let guards ← b.guards.mapM (guardRow survey)
  let locals ← localTable survey.offset b.locals
  let attributes ← attributeTable (lineTable survey ++ locals)
  return u16 room ++ u16 room ++ u32 (UInt32.ofNat code.length) ++ code ++ table guards ++ attributes

end Body

end Recompose
