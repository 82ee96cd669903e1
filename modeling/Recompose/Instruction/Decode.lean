import Recompose.Instruction
import Recompose.Pool.Lookup

/-!
Reading instructions from code. Short forms with an implied operand are reported with that operand,
and wide forms with the opcode of the short one. Each instruction keeps where it stands and where
it may jump to; jump targets lie in the code.
-/

namespace Recompose

open Bytes

/-- An instruction in its place: where it starts, how many bytes it takes, where it may jump to. -/
structure Located where
  offset : Nat
  size : Nat
  targets : List Nat
  instruction : Instruction
deriving DecidableEq, Repr

/-- What decoding needs besides the bytes: the names behind slots, and the length of the code. -/
structure CodeContext where
  pool : Pool
  bootstraps : List Bootstrap
  length : Nat

namespace Instruction

/-! ## Operands in the opcode -/

/-- The instruction of an opcode without operands; many of them imply one. -/
def implied (opcode : UInt8) : Instruction :=
  let n := opcode.toNat
  if n = 0x01 then constant opcode .null
  else if 0x02 ≤ n ∧ n ≤ 0x08 then constant opcode (.int (Int32.ofInt (n - 3)))
  else if n = 0x09 then constant opcode (.long 0)
  else if n = 0x0A then constant opcode (.long 1)
  else if n = 0x0B then constant opcode (.float 0x00000000)
  else if n = 0x0C then constant opcode (.float 0x3F800000)
  else if n = 0x0D then constant opcode (.float 0x40000000)
  else if n = 0x0E then constant opcode (.double 0x0000000000000000)
  else if n = 0x0F then constant opcode (.double 0x3FF0000000000000)
  else if 0x1A ≤ n ∧ n ≤ 0x2D then
    slot (Opcode.iload + UInt8.ofNat ((n - 0x1A) / 4)) (UInt16.ofNat ((n - 0x1A) % 4)) none
  else if 0x3B ≤ n ∧ n ≤ 0x4E then
    slot (Opcode.istore + UInt8.ofNat ((n - 0x3B) / 4)) (UInt16.ofNat ((n - 0x3B) % 4)) none
  else plain opcode

/-! ## Jumps -/

/-- The place a distance from `offset` away, if it lies in the code. -/
def target (c : CodeContext) (offset : Nat) (distance : Int) : Except Error Nat :=
  let place : Int := offset + distance
  if 0 ≤ place ∧ place < c.length then
    .ok place.toNat
  else
    .error (.malformed (.branchOutside offset place c.length))

def readTarget (c : CodeContext) (offset : Nat) : Read Nat := do
  let distance ← Read.i32
  target c offset distance.toInt

/-- Skips the padding, takes the default's distance and a count of more targets, and reads those. -/
def readTable (c : CodeContext) (offset : Nat) : Read (List Nat) := do
  Read.align 4
  let fallback ← Read.i32
  let low ← Read.i32
  let high ← Read.i32
  if high < low then
    throw (.malformed (.tableRange offset low high))
  else
    let first ← target c offset fallback.toInt
    let others ← Read.times (high.toInt - low.toInt + 1).toNat (readTarget c offset)
    return first :: others

/-- One row of a switch by value; the value itself is not kept. -/
def readPair (c : CodeContext) (offset : Nat) : Read Nat := do
  let _ ← Read.i32
  readTarget c offset

def readPairs (c : CodeContext) (offset : Nat) : Read (List Nat) := do
  Read.align 4
  let fallback ← Read.i32
  let pairs ← Read.i32
  if pairs < 0 then
    throw (.malformed (.pairCount offset pairs))
  else
    let first ← target c offset fallback.toInt
    let others ← Read.times pairs.toInt.toNat (readPair c offset)
    return first :: others

/-! ## Call sites -/

/-- The call site at a slot; its arguments are looked up before its bootstrap method. -/
def callSite (c : CodeContext) (index : UInt16) : Except Error Instruction := do
  match ← c.pool.get index with
  | .callSite bootstrap signature =>
    match c.bootstraps[bootstrap.toNat]? with
    | none => throw (.malformed (.callSiteBootstrap index bootstrap))
    | some row => do
      let (name, descriptor) ← c.pool.nameAndType signature
      let arguments ← row.arguments.mapM (c.pool.loadable c.bootstraps)
      return dynamic name descriptor (← c.pool.methodHandle row.method) arguments
  | _ => throw (.poolEntry index .callSite)

/-! ## Wide forms -/

/-- The opcodes that have a wide form with a two-byte slot alone. -/
def HasWideSlot (opcode : UInt8) : Prop :=
  (Opcode.iload ≤ opcode ∧ opcode ≤ Opcode.aload) ∨
    (Opcode.istore ≤ opcode ∧ opcode ≤ Opcode.astore) ∨ opcode = Opcode.ret

instance (opcode : UInt8) : Decidable (HasWideSlot opcode) :=
  inferInstanceAs (Decidable (_ ∨ _ ∨ _))

def readWide (offset : Nat) : Read Instruction := do
  let opcode ← Read.u8
  if opcode = Opcode.iinc then
    return slot opcode (← Read.u16) (some (← Read.i16))
  else if HasWideSlot opcode then
    return slot opcode (← Read.u16) none
  else
    throw (.malformed (.wideOpcode offset opcode))

/-! ## One instruction -/

/-- The operands of an opcode at `offset`: the instruction, and where it may jump to. -/
def readOperand (c : CodeContext) (offset : Nat) (opcode : UInt8) :
    Operand → Read (Instruction × List Nat)
  | .none => return (implied opcode, [])
  | .byte => return (immediate opcode (← Read.i8).toInt32, [])
  | .short => return (immediate opcode (← Read.i16).toInt32, [])
  | .arrayType => return (immediate opcode (Int32.ofNat (← Read.u8).toNat), [])
  | .constantByte => do
    let index ← Read.u8
    let value ← c.pool.loadable c.bootstraps index.toUInt16
    return (constant Opcode.ldc value, [])
  | .constant => do
    let index ← Read.u16
    let value ← c.pool.loadable c.bootstraps index
    return (constant Opcode.ldc value, [])
  | .slot => return (slot opcode (← Read.u8).toUInt16 none, [])
  | .increment => return (slot opcode (← Read.u8).toUInt16 (some (← Read.i8).toInt16), [])
  | .branch => do
    let distance ← Read.i16
    let place ← target c offset distance.toInt
    return (plain opcode, [place])
  | .branchWide => do
    let place ← readTarget c offset
    return (plain (if opcode = Opcode.gotoW then Opcode.goto else Opcode.jsr), [place])
  | .tableSwitch => return (plain opcode, ← readTable c offset)
  | .lookupSwitch => return (plain opcode, ← readPairs c offset)
  | .field => do
    let index ← Read.u16
    return (field opcode (← c.pool.member index), [])
  | .method => do
    let index ← Read.u16
    return (call opcode (← c.pool.member index), [])
  | .interfaceMethod => do
    let index ← Read.u16
    Read.skip 2
    return (call opcode (← c.pool.member index), [])
  | .dynamic => do
    let index ← Read.u16
    Read.skip 2
    return (← callSite c index, [])
  | .classRef => do
    Read.skip 2
    return (plain opcode, [])
  | .multiArray => do
    Read.skip 3
    return (plain opcode, [])
  | .wide => return (← readWide offset, [])

/-- What follows an opcode at `offset`. -/
def readBehind (c : CodeContext) (offset : Nat) (opcode : UInt8) : Read Located :=
  match Opcode.info? opcode with
  | none => throw (.invalidOpcode opcode offset)
  | some (_, operand) => do
    let (instruction, targets) ← readOperand c offset opcode operand
    let stop ← Read.position
    return ⟨offset, stop - offset, targets, instruction⟩

def read (c : CodeContext) : Read Located := do
  let offset ← Read.position
  let opcode ← Read.u8
  readBehind c offset opcode

/-! ## All instructions -/

namespace Forward

open Read (Forward)

theorem readTarget (c : CodeContext) (offset : Nat) : Forward (Instruction.readTarget c offset) :=
  .bind .i32 fun _ => .lift _

theorem readTable (c : CodeContext) (offset : Nat) : Forward (Instruction.readTable c offset) := by
  refine .bind (.align 4) fun _ => .bind .i32 fun _ => .bind .i32 fun low => .bind .i32 fun high => ?_
  split
  · exact .throw _
  · exact .bind (.lift _) fun _ => .bind (.times (readTarget c offset) _) fun _ => .pure _

theorem readPairs (c : CodeContext) (offset : Nat) : Forward (Instruction.readPairs c offset) := by
  refine .bind (.align 4) fun _ => .bind .i32 fun _ => .bind .i32 fun pairs => ?_
  split
  · exact .throw _
  · exact .bind (.lift _) fun _ =>
      .bind (.times (.bind .i32 fun _ => readTarget c offset) _) fun _ => .pure _

theorem readWide (offset : Nat) : Forward (Instruction.readWide offset) := by
  refine .bind .u8 fun opcode => ?_
  split
  · exact .bind .u16 fun _ => .bind .i16 fun _ => .pure _
  · split
    · exact .bind .u16 fun _ => .pure _
    · exact .throw _

theorem readOperand (c : CodeContext) (offset : Nat) (opcode : UInt8) (operand : Operand) :
    Forward (Instruction.readOperand c offset opcode operand) := by
  cases operand with
  | none => exact .pure _
  | byte => exact .bind .i8 fun _ => .pure _
  | short => exact .bind .i16 fun _ => .pure _
  | arrayType => exact .bind .u8 fun _ => .pure _
  | constantByte => exact .bind .u8 fun _ => .bind (.lift _) fun _ => .pure _
  | constant => exact .bind .u16 fun _ => .bind (.lift _) fun _ => .pure _
  | slot => exact .bind .u8 fun _ => .pure _
  | increment => exact .bind .u8 fun _ => .bind .i8 fun _ => .pure _
  | branch => exact .bind .i16 fun _ => .bind (.lift _) fun _ => .pure _
  | branchWide => exact .bind (readTarget c offset) fun _ => .pure _
  | tableSwitch => exact .bind (readTable c offset) fun _ => .pure _
  | lookupSwitch => exact .bind (readPairs c offset) fun _ => .pure _
  | field => exact .bind .u16 fun _ => .bind (.lift _) fun _ => .pure _
  | method => exact .bind .u16 fun _ => .bind (.lift _) fun _ => .pure _
  | interfaceMethod =>
    exact .bind .u16 fun _ => .bind (.skip 2) fun _ => .bind (.lift _) fun _ => .pure _
  | dynamic => exact .bind .u16 fun _ => .bind (.skip 2) fun _ => .bind (.lift _) fun _ => .pure _
  | classRef => exact .bind (.skip 2) fun _ => .pure _
  | multiArray => exact .bind (.skip 3) fun _ => .pure _
  | wide => exact .bind (readWide offset) fun _ => .pure _

theorem readBehind (c : CodeContext) (offset : Nat) (opcode : UInt8) :
    Forward (Instruction.readBehind c offset opcode) := by
  unfold Instruction.readBehind
  split
  · exact .throw _
  · exact .bind (readOperand c offset opcode _) fun _ => .bind .position fun _ => .pure _

end Forward

/-- An instruction that was read is gone from the rest. -/
theorem length_rest_lt_of_read {c : CodeContext} {k k' : Cursor} {l : Located}
    (h : read c k = .ok l k') : k'.rest.length < k.rest.length := by
  change EStateM.bind Read.u8 (readBehind c k.pos) k = .ok l k' at h
  unfold EStateM.bind at h
  split at h
  · next opcode k₁ h₁ =>
    have := Read.length_rest_of_u8 h₁
    have := ((Forward.readBehind c k.pos opcode).suffix h).length_le
    omega
  · cases h

/-- Reads up to the end of the bytes, behind `done`, which holds what was read, last one first. -/
def readAllOnto (c : CodeContext) (done : List Located) (k : Cursor) : Except Error (List Located) :=
  if k.hasMore then
    match _h : read c k with
    | .ok l k' => readAllOnto c (l :: done) k'
    | .error e _ => .error e
  else
    .ok done.reverse
termination_by k.rest.length
decreasing_by exact length_rest_lt_of_read _h

/-- Every instruction of a method's code, in order. -/
def readAll (pool : Pool) (bootstraps : List Bootstrap) (bytes : List UInt8) :
    Except Error (List Located) :=
  readAllOnto ⟨pool, bootstraps, bytes.length⟩ [] (.ofBytes bytes)

end Instruction

end Recompose
