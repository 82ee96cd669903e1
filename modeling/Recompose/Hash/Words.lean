import Recompose.Hash.Mix
import Recompose.Instruction

/-!
The words that stand for instructions in a hash: the opcode, or minus one for a label, and then the
operands. A text is its length in bytes and its bytes, eight to a word; a constant is led by a
number for its type.
-/

namespace Recompose

namespace Hash

/-- Eight bytes as a word, least significant byte first; missing bytes are zero. -/
def littleEndian (bytes : List UInt8) : UInt64 :=
  bytes.foldr (fun b w => w * 256 + b.toUInt64) 0

/-- Eight bytes to a word, the last ones filled up with zeros. -/
def chunks : List UInt8 → List UInt64
  | a :: b :: c :: d :: e :: f :: g :: h :: rest =>
    littleEndian [a, b, c, d, e, f, g, h] :: chunks rest
  | [] => []
  | rest => [littleEndian rest]

def ofInt64 (n : Int64) : List UInt64 := [n.toUInt64]

def ofBool (b : Bool) : List UInt64 := [if b then 1 else 0]

def ofText (s : String) : List UInt64 :=
  UInt64.ofNat s.utf8ByteSize :: chunks s.toUTF8.data.toList

end Hash

namespace Handle

/-- All parts of a handle but whether its owner is an interface. -/
def words (h : Handle) : List UInt64 :=
  Hash.ofText h.name ++ Hash.ofText h.owner ++ [h.kind.toUInt64] ++ Hash.ofText h.descriptor

end Handle

namespace Constant

def words : Constant → List UInt64
  | null => [0]
  | int value => 1 :: Hash.ofInt64 value.toInt64
  | float bits => [2, bits.toUInt64]
  | long value => 3 :: Hash.ofInt64 value
  | double bits => [4, bits]
  | string value => 5 :: Hash.ofText value
  | classRef name => 6 :: Hash.ofText name
  | methodType descriptor => 7 :: Hash.ofText descriptor
  | methodHandle handle => 8 :: handle.words ++ Hash.ofBool handle.isInterface
  | dynamic name descriptor bootstrap =>
    9 :: Hash.ofText name ++ Hash.ofText descriptor ++ bootstrap.words

end Constant

namespace Instruction

/-- The word of an opcode; a label has minus one. -/
def opcodeWord (i : Instruction) : UInt64 :=
  match i.opcode? with
  | some opcode => opcode.toUInt64
  | none => 0xFFFFFFFFFFFFFFFF

def operandWords : Instruction → List UInt64
  | call _ target =>
    Hash.ofText target.owner ++ Hash.ofText target.name ++ Hash.ofText target.descriptor ++
      Hash.ofBool target.isInterface
  | constant _ value => value.words
  | dynamic name descriptor bootstrap arguments =>
    Hash.ofText name ++ Hash.ofText descriptor ++ bootstrap.words ++
      arguments.flatMap Constant.words
  | field _ target =>
    Hash.ofText target.owner ++ Hash.ofText target.name ++ Hash.ofText target.descriptor
  | immediate _ value => Hash.ofInt64 value.toInt64
  | slot _ index none => [index.toUInt64]
  | slot _ index (some increment) => index.toUInt64 :: Hash.ofInt64 increment.toInt64
  | label ordinal => [UInt64.ofNat ordinal]
  | plain _ => []

def words (i : Instruction) : List UInt64 :=
  i.opcodeWord :: i.operandWords

end Instruction

namespace Hash

/-- The hash of a sequence of instructions. -/
def ofInstructions (instructions : List Instruction) : Hash :=
  ofWords (instructions.flatMap Instruction.words)

end Hash

end Recompose
