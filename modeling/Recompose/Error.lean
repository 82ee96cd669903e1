import Recompose.MethodId
import Recompose.Text.Hex

/-!
Why a class file, its code or its groups are refused. A constructor is a cause; the wording stands
in `message` alone.
-/

namespace Recompose

/-- What a reader of the symbol pool expected to find at an index. -/
inductive Expected where
  | entry
  | utf8
  | className
  | nameAndType
  | member
  | methodHandle
  | loadable
  | callSite
deriving DecidableEq, Repr

namespace Expected

def noun : Expected → String
  | entry => "entry"
  | utf8 => "Utf8"
  | className => "Class"
  | nameAndType => "NameAndType"
  | member => "member reference"
  | methodHandle => "MethodHandle"
  | loadable => "loadable constant"
  | callSite => "InvokeDynamic"

end Expected

/-- The number an annotation's element tag asks for. -/
inductive NumberKind where
  | int
  | long
  | float
  | double
deriving DecidableEq, Repr

namespace NumberKind

def noun : NumberKind → String
  | int => "an int"
  | long => "a long"
  | float => "a float"
  | double => "a double"

end NumberKind

/-- A defect in the structure of a class file. -/
inductive Defect where
  /-- A body of no bytes. -/
  | emptyCode
  /-- A guarded range that is empty or leaves the code, or a handler outside it. -/
  | guardOutside (start stop handler : UInt16) (codeLength : Nat)
  /-- A second body for one method. -/
  | secondCode (method : MethodId)
  /-- Bytes after the last attribute of the class. -/
  | trailingBytes (count : Nat) (className : String)
  /-- An annotation number of another kind than its tag. -/
  | elementKind (index : UInt16) (kind : NumberKind)
  | elementTag (tag : UInt8)
  | poolTag (tag : UInt8) (slot : Nat)
  /-- A two-slot entry that starts in the last declared slot, or no slot declared. -/
  | poolOverrun (declared : Nat)
  | truncatedText
  | leadByte (byte : UInt8)
  /-- A jump target or guard boundary between two instruction starts. -/
  | labelInside (offset : Nat)
  | tableRange (offset : Nat) (low high : Int32)
  | pairCount (offset : Nat) (pairs : Int32)
  | wideOpcode (offset : Nat) (opcode : UInt8)
  | branchOutside (offset : Nat) (target : Int) (codeLength : Nat)
  | callSiteBootstrap (index bootstrap : UInt16)
  | missingBootstrap (bootstrap : UInt16)
deriving DecidableEq, Repr

namespace Defect

def message : Defect → String
  | emptyCode => "Code attribute with empty bytecode"
  | guardOutside start stop handler codeLength =>
    s!"Exception handler {start}..{stop} -> {handler} outside of {codeLength} bytes of code"
  | secondCode method => method.text ++ " has more than one Code attribute"
  | trailingBytes count className => s!"{count} trailing bytes after class {className}"
  | elementKind index kind => s!"Annotation value #{index} is not " ++ kind.noun
  | elementTag tag =>
    "Unknown annotation element tag '" ++ String.singleton (Char.ofNat tag.toNat) ++ "'"
  | poolTag tag slot => s!"Unknown constant pool tag {tag} at entry #{slot}"
  | poolOverrun declared =>
    s!"Wide constant overruns the constant pool ({declared} slots declared)"
  | truncatedText => "Truncated modified UTF-8 sequence"
  | leadByte byte => "Invalid modified UTF-8 lead byte 0x" ++ Text.Hex.byte byte
  | labelInside offset => s!"Label at offset {offset} is not on an instruction boundary"
  | tableRange offset low high =>
    s!"tableswitch at {offset} has high {high} below low {low}"
  | pairCount offset pairs => s!"lookupswitch at {offset} has {pairs} pairs"
  | wideOpcode offset opcode =>
    s!"wide at {offset} cannot prefix opcode 0x" ++ Text.Hex.byte opcode
  | branchOutside offset target codeLength =>
    s!"Branch at {offset} targets {target} outside of {codeLength} bytes of code"
  | callSiteBootstrap index bootstrap =>
    s!"Call site #{index} refers to missing bootstrap method #{bootstrap}"
  | missingBootstrap bootstrap => s!"Bootstrap method #{bootstrap} does not exist"

end Defect

inductive Error where
  | malformed (defect : Defect)
  /-- More bytes are needed than are left. -/
  | outOfBounds
  /-- The bytes do not start like a class file. -/
  | notSupported
  | empty
  | fileNotFound
  /-- The pool entry at `index` is missing or is not what was `expected` there. -/
  | poolEntry (index : UInt16) (expected : Expected)
  | invalidOpcode (opcode : UInt8) (offset : Nat)
  /-- More scopes than `limit` are open at once, the method's own not counted. -/
  | scopesTooDeep (method : MethodId) (limit : Nat)
deriving DecidableEq, Repr

namespace Error

/-- The text of an error; a defect's text stands alone. -/
def message : Error → String
  | malformed defect => defect.message
  | outOfBounds => "Out of Bound read would have occurred!"
  | notSupported => "This file type is not supported"
  | empty => "Provided input was empty"
  | fileNotFound => "NotFound"
  | poolEntry index expected =>
    s!"Constant pool entry #{index} is not a valid " ++ expected.noun
  | invalidOpcode opcode offset =>
    "Invalid opcode 0x" ++ Text.Hex.byte opcode ++ s!" at offset {offset}"
  | scopesTooDeep method limit =>
    "Malformed scopes in " ++ method.text ++ s!": more than {limit} nested scopes"

/-- The text in logs and stored statuses, where a defect is announced as such. -/
def display : Error → String
  | malformed defect => "Malformed - " ++ defect.message
  | error => error.message

end Error

end Recompose
