import Recompose.Constant
import Recompose.Opcode

/-!
Instructions, classified by what their operands refer to. Neither code offsets nor pool slots occur
in them: jumps are opcodes alone, and the places they lead to are labels.
-/

namespace Recompose

inductive Instruction where
  | call (opcode : UInt8) (target : Member)
  | constant (opcode : UInt8) (value : Constant)
  /-- A call site that `bootstrap` links when it is first reached. -/
  | dynamic (name descriptor : String) (bootstrap : Handle) (arguments : List Constant)
  | field (opcode : UInt8) (target : Member)
  | immediate (opcode : UInt8) (value : Int32)
  /-- An access to a local variable, with the step of an increment. -/
  | slot (opcode : UInt8) (index : UInt16) (increment : Option Int16)
  /-- The place that a jump or a guard refers to; a method's labels are numbered as they appear. -/
  | label (ordinal : Nat)
  /-- Any other instruction. -/
  | plain (opcode : UInt8)
deriving DecidableEq, Repr

namespace Instruction

/-- The opcode, which a label has not. -/
def opcode? : Instruction → Option UInt8
  | call opcode _ => some opcode
  | constant opcode _ => some opcode
  | dynamic .. => some Opcode.invokedynamic
  | field opcode _ => some opcode
  | immediate opcode _ => some opcode
  | slot opcode _ _ => some opcode
  | label _ => none
  | plain opcode => some opcode

def mnemonic (i : Instruction) : String :=
  match i.opcode? with
  | some opcode => Opcode.mnemonic opcode
  | none => "label"

def isLabel : Instruction → Bool
  | label _ => true
  | _ => false

/-- The integer that the instruction loads. -/
def int? : Instruction → Option Int32
  | constant _ value => value.int?
  | immediate opcode value =>
    if opcode = Opcode.bipush ∨ opcode = Opcode.sipush then some value else none
  | _ => none

/-- Whether the instruction only loads a constant. -/
def isConstantLoad : Instruction → Bool
  | constant .. => true
  | immediate opcode _ => opcode ≠ Opcode.newarray
  | _ => false

/-- The line of the instruction in a listing. -/
def text (i : Instruction) : String :=
  match i with
  | call _ target => i.mnemonic ++ " " ++ target.owner ++ "." ++ target.name ++ target.descriptor
  | constant _ value => i.mnemonic ++ " " ++ value.text
  | dynamic name descriptor bootstrap _ =>
    "invokedynamic " ++ name ++ descriptor ++ " [" ++ bootstrap.text ++ "]"
  | field _ target =>
    i.mnemonic ++ " " ++ target.owner ++ "." ++ target.name ++ ":" ++ target.descriptor
  | immediate _ value => i.mnemonic ++ s!" {value}"
  | slot _ index (some increment) => i.mnemonic ++ s!" {index} {increment}"
  | slot _ index none => i.mnemonic ++ s!" {index}"
  | label ordinal => s!"L{ordinal}:"
  | plain _ => i.mnemonic

end Instruction

end Recompose
