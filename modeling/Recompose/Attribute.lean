import Recompose.Pool.Lookup

/-!
Attributes of classes, methods and code: a name and a payload whose meaning the name gives. The
payloads of code and of the bootstrap table are read here; bytes behind them are ignored.
-/

namespace Recompose

open Bytes

structure Attribute where
  name : String
  data : List UInt8
deriving DecidableEq, Repr

namespace Attribute

def codeName : String := "Code"

def bootstrapName : String := "BootstrapMethods"

def annotationsName : String := "RuntimeVisibleAnnotations"

def read (pool : Pool) : Read Attribute := do
  let name ← Read.u16
  let name ← pool.utf8 name
  let length ← Read.u32
  let data ← Read.bytes length.toNat
  return ⟨name, data⟩

def readTable (pool : Pool) : Read (List Attribute) :=
  Read.counted (read pool)

end Attribute

/-- A row of an exception table: the code from `start` up to `stop` is guarded by the one at
`handler`, for throwables of the class at slot `catchType`, or all if that is zero. -/
structure Guard where
  start : UInt16
  stop : UInt16
  handler : UInt16
  catchType : UInt16
deriving DecidableEq, Repr

namespace Guard

/-- The guarded range is not empty, ends in the code, and the handler starts in it. -/
def Fits (g : Guard) (codeLength : Nat) : Prop :=
  g.start < g.stop ∧ g.stop.toNat ≤ codeLength ∧ g.handler.toNat < codeLength

instance (g : Guard) (codeLength : Nat) : Decidable (g.Fits codeLength) :=
  inferInstanceAs (Decidable (_ ∧ _))

def read (codeLength : Nat) : Read Guard := do
  let g : Guard := ⟨← Read.u16, ← Read.u16, ← Read.u16, ← Read.u16⟩
  if g.Fits codeLength then
    return g
  else
    throw (.malformed (.guardOutside g.start g.stop g.handler codeLength))

end Guard

/-- The body of a method, not yet decoded. -/
structure Code where
  maxStack : UInt16
  maxLocals : UInt16
  bytes : List UInt8
  guards : List Guard
  attributes : List Attribute
deriving DecidableEq, Repr

namespace Code

def read (pool : Pool) : Read Code := do
  let maxStack ← Read.u16
  let maxLocals ← Read.u16
  let length ← Read.u32
  if length = 0 then
    throw (.malformed .emptyCode)
  else
    let bytes ← Read.bytes length.toNat
    let guards ← Read.counted (Guard.read length.toNat)
    let attributes ← Attribute.readTable pool
    return ⟨maxStack, maxLocals, bytes, guards, attributes⟩

/-- The body in the payload of a code attribute. -/
def parse (pool : Pool) (data : List UInt8) : Except Error Code :=
  (read pool).parse data

end Code

namespace Bootstrap

def read : Read Bootstrap := do
  let method ← Read.u16
  let arguments ← Read.counted Read.u16
  return ⟨method, arguments⟩

/-- The rows in the payload of a bootstrap attribute. -/
def parseTable (data : List UInt8) : Except Error (List Bootstrap) :=
  (Read.counted read).parse data

end Bootstrap

end Recompose
