import Recompose.Assembly.Draft
import Recompose.Opcode

/-!
Symbolic operations and the bytes they stand for. An operation takes the shortest form that its
operand allows; the distance of a jump is left open until all places are known.
-/

namespace Recompose

inductive SlotAccess where
  | iload
  | aload
  | istore
  | astore
deriving DecidableEq, Repr

inductive InvokeKind where
  | virtualMethod
  | specialMethod
  | staticMethod
  | interfaceMethod
deriving DecidableEq, Repr

inductive FieldAccess where
  | getstatic
  | putstatic
  | getfield
deriving DecidableEq, Repr

inductive JumpKind where
  | goto
  | ifeq
  | ifne
  | ifnull
deriving DecidableEq, Repr

/-- The call site of a lambda: `factory` is the method of the lambda factory that makes it, `body`
the method it runs, and `erased` the descriptor of the method it implements. -/
structure Lambda where
  name : String
  descriptor : String
  factory : String
  body : MethodId
  erased : String
deriving DecidableEq, Repr

/-- What a body is described by. Labels are numbers. -/
inductive Op where
  /-- An opcode without operands. -/
  | plain (opcode : UInt8)
  /-- Loads an integer. -/
  | int (value : Int32)
  /-- Loads an integer by way of the pool, however small. -/
  | poolInt (value : Int32)
  | poolLong (value : Int64)
  | poolString (value : String)
  | slot (access : SlotAccess) (index : UInt16)
  | increment (index : UInt16) (step : Int16)
  | invoke (kind : InvokeKind) (target : MethodId)
  | field (access : FieldAccess) (owner name descriptor : String)
  | lambda (site : Lambda)
  | jump (kind : JumpKind) (label : Nat)
  /-- Binds a label to the next instruction. -/
  | place (label : Nat)
  /-- Gives the next instruction a line number. -/
  | line (number : UInt16)
deriving DecidableEq, Repr

namespace SlotAccess

def opcode : SlotAccess → UInt8
  | iload => Opcode.iload
  | aload => Opcode.aload
  | istore => Opcode.istore
  | astore => Opcode.astore

/-- The opcode of the form that implies slot zero. -/
def opcode0 : SlotAccess → UInt8
  | iload => Opcode.iload0
  | aload => Opcode.iload0 + 16
  | istore => Opcode.istore0
  | astore => Opcode.istore0 + 16

end SlotAccess

namespace InvokeKind

def opcode : InvokeKind → UInt8
  | virtualMethod => Opcode.invokevirtual
  | specialMethod => Opcode.invokespecial
  | staticMethod => Opcode.invokestatic
  | interfaceMethod => Opcode.invokeinterface

def memberKind : InvokeKind → MemberKind
  | interfaceMethod => .interfaceMethod
  | _ => .method

/-- The two bytes behind the slot of an interface method. -/
def filler : InvokeKind → List UInt8
  | interfaceMethod => [1, 0]
  | _ => []

end InvokeKind

namespace FieldAccess

def opcode : FieldAccess → UInt8
  | getstatic => Opcode.getstatic
  | putstatic => Opcode.putstatic
  | getfield => Opcode.getfield

end FieldAccess

namespace JumpKind

def opcode : JumpKind → UInt8
  | goto => Opcode.goto
  | ifeq => Opcode.ifeq
  | ifne => Opcode.ifne
  | ifnull => Opcode.ifnull

end JumpKind

namespace Lambda

open Draft

/-- The handle kind of static methods. -/
def invokeStatic : UInt8 := 6

def factoryOwner : String := "java/lang/invoke/LambdaMetafactory"

def factoryDescriptor : String :=
  "(Ljava/lang/invoke/MethodHandles$Lookup;Ljava/lang/String;" ++
    "Ljava/lang/invoke/MethodType;Ljava/lang/invoke/MethodType;Ljava/lang/invoke/MethodHandle;" ++
    "Ljava/lang/invoke/MethodType;)Ljava/lang/invoke/CallSite;"

/-- The slot of the call site. -/
def callSite (site : Lambda) : Assemble UInt16 := do
  let factory ← member .method factoryOwner site.factory factoryDescriptor
  let factory ← intern (.methodHandle invokeStatic factory)
  let body ← member .method site.body.className site.body.name site.body.descriptor
  let erased ← methodType site.erased
  let body ← intern (.methodHandle invokeStatic body)
  let row ← bootstrap ⟨factory, [erased, body, erased]⟩
  let signature ← nameAndType site.name site.descriptor
  intern (.callSite row signature)

end Lambda

/-- An operation in the code: bytes, a jump, or a mark that takes no bytes. -/
inductive Piece where
  | code (bytes : List UInt8)
  | jump (opcode : UInt8) (label : Nat)
  | place (label : Nat)
  | line (number : UInt16)
deriving DecidableEq, Repr

namespace Piece

open Bytes BigEndian

def size : Piece → Nat
  | code bytes => bytes.length
  | jump .. => 3
  | place _ => 0
  | line _ => 0

/-- The load of the pool entry at a slot, short if the slot allows. -/
def load (slot : UInt16) : Piece :=
  if slot.toNat ≤ 255 then
    code [Opcode.ldc, slot.toUInt8]
  else
    code (Opcode.ldcW :: u16 slot)

/-- The bytes of the piece at an offset, where `offsetOf` says where labels are. -/
def emit (offsetOf : Nat → Nat) (offset : Nat) : Piece → List UInt8
  | code bytes => bytes
  | jump opcode label =>
    opcode :: u16 (Int16.ofInt ((offsetOf label : Int) - (offset : Int))).toUInt16
  | place _ => []
  | line _ => []

end Piece

namespace Op

open Bytes BigEndian Draft

/-- An integer that fits two bytes in the code, if it does. -/
def immediate? (value : Int32) : Option (List UInt8) :=
  let n := value.toInt
  if -1 ≤ n ∧ n ≤ 5 then
    some [UInt8.ofNat (Opcode.iconst0.toNat + n).toNat]
  else if -128 ≤ n ∧ n ≤ 127 then
    some [Opcode.bipush, value.toUInt32.toUInt8]
  else if -32768 ≤ n ∧ n ≤ 32767 then
    some (Opcode.sipush :: u16 value.toUInt32.toUInt16)
  else
    none

def slotBytes (access : SlotAccess) (index : UInt16) : List UInt8 :=
  if index.toNat ≤ 3 then
    [access.opcode0 + index.toUInt8]
  else if index.toNat ≤ 255 then
    [access.opcode, index.toUInt8]
  else
    Opcode.wide :: access.opcode :: u16 index

def incrementBytes (index : UInt16) (step : Int16) : List UInt8 :=
  if index.toNat ≤ 255 ∧ -128 ≤ step.toInt ∧ step.toInt ≤ 127 then
    [Opcode.iinc, index.toUInt8, step.toUInt16.toUInt8]
  else
    Opcode.wide :: Opcode.iinc :: (u16 index ++ u16 step.toUInt16)

/-- Turns an operation into a piece of code, with the pool entries that it needs. -/
def assemble : Op → Assemble Piece
  | plain opcode => return .code [opcode]
  | int value =>
    match immediate? value with
    | some bytes => return .code bytes
    | none => return .load (← intern (.integer value))
  | poolInt value => return .load (← intern (.integer value))
  | poolLong value => return .code (Opcode.ldc2W :: u16 (← intern (.long value)))
  | poolString value => return .load (← string value)
  | slot access index => return .code (slotBytes access index)
  | increment index step => return .code (incrementBytes index step)
  | invoke kind target => do
    let index ← member kind.memberKind target.className target.name target.descriptor
    return .code (kind.opcode :: (u16 index ++ kind.filler))
  | field access owner name descriptor => do
    let index ← member .field owner name descriptor
    return .code (access.opcode :: u16 index)
  | lambda site => do
    let index ← site.callSite
    return .code (Opcode.invokedynamic :: (u16 index ++ [0, 0]))
  | jump kind label => return .jump kind.opcode label
  | place label => return .place label
  | line number => return .line number

end Op

end Recompose
