import Recompose.Bytes.Cursor
import Recompose.Text.ModifiedUtf8

/-!
Entries of the symbol pool of a class file, with references kept as slot numbers. `layout` writes an
entry as its tag and fields and `read` reads it back; the long and the double take two slots.
-/

namespace Recompose

inductive MemberKind where
  | field
  | method
  | interfaceMethod
deriving DecidableEq, Repr

/-- One entry; every `UInt16` is a slot number, but for the rows of computed ones. A `signature` is
the slot of a name and descriptor. -/
inductive Entry where
  | utf8 (text : String)
  | integer (value : Int32)
  | float (bits : UInt32)
  | long (value : Int64)
  | double (bits : UInt64)
  | classRef (name : UInt16)
  | string (text : UInt16)
  | member (kind : MemberKind) (owner signature : UInt16)
  | nameAndType (name descriptor : UInt16)
  | methodHandle (kind : UInt8) (reference : UInt16)
  | methodType (descriptor : UInt16)
  /-- A computed constant; `bootstrap` is a row of the class's bootstrap table. -/
  | dynamic (bootstrap signature : UInt16)
  /-- A computed call site; `bootstrap` is a row of the class's bootstrap table. -/
  | callSite (bootstrap signature : UInt16)
  | moduleRef (name : UInt16)
  | packageRef (name : UInt16)
deriving DecidableEq, Repr

namespace MemberKind

def tag : MemberKind → UInt8
  | field => 9
  | method => 10
  | interfaceMethod => 11

end MemberKind

namespace Entry

/-- Whether the entry takes two slots. -/
def isWide : Entry → Bool
  | long _ => true
  | double _ => true
  | _ => false

/-! ## Writing -/

open Bytes BigEndian

/-- A text behind its two-byte length. -/
def textLayout (encoded : List UInt8) : List UInt8 :=
  u16 (UInt16.ofNat encoded.length) ++ encoded

def layout : Entry → List UInt8
  | utf8 text => 1 :: textLayout (Text.ModifiedUtf8.encode text)
  | integer value => 3 :: u32 value.toUInt32
  | float bits => 4 :: u32 bits
  | long value => 5 :: u64 value.toUInt64
  | double bits => 6 :: u64 bits
  | classRef name => 7 :: u16 name
  | string text => 8 :: u16 text
  | member kind owner signature => kind.tag :: (u16 owner ++ u16 signature)
  | nameAndType name descriptor => 12 :: (u16 name ++ u16 descriptor)
  | methodHandle kind reference => 15 :: kind :: u16 reference
  | methodType descriptor => 16 :: u16 descriptor
  | dynamic bootstrap signature => 17 :: (u16 bootstrap ++ u16 signature)
  | callSite bootstrap signature => 18 :: (u16 bootstrap ++ u16 signature)
  | moduleRef name => 19 :: u16 name
  | packageRef name => 20 :: u16 name

/-! ## Reading -/

/-- A text behind its two-byte length. -/
def readText : Read String := do
  let length ← Read.u16
  let encoded ← Read.bytes length.toNat
  Text.ModifiedUtf8.decode encoded

/-- The fields of an entry whose tag has been read; `slot` is where the entry will stand. -/
def readFields (slot : Nat) (tag : UInt8) : Read Entry :=
  match tag with
  | 1 => do return utf8 (← readText)
  | 3 => do return integer (← Read.i32)
  | 4 => do return float (← Read.u32)
  | 5 => do return long (← Read.i64)
  | 6 => do return double (← Read.u64)
  | 7 => do return classRef (← Read.u16)
  | 8 => do return string (← Read.u16)
  | 9 => do return member .field (← Read.u16) (← Read.u16)
  | 10 => do return member .method (← Read.u16) (← Read.u16)
  | 11 => do return member .interfaceMethod (← Read.u16) (← Read.u16)
  | 12 => do return nameAndType (← Read.u16) (← Read.u16)
  | 15 => do return methodHandle (← Read.u8) (← Read.u16)
  | 16 => do return methodType (← Read.u16)
  | 17 => do return dynamic (← Read.u16) (← Read.u16)
  | 18 => do return callSite (← Read.u16) (← Read.u16)
  | 19 => do return moduleRef (← Read.u16)
  | 20 => do return packageRef (← Read.u16)
  | tag => throw (.malformed (.poolTag tag slot))

def read (slot : Nat) : Read Entry := do
  readFields slot (← Read.u8)

end Entry

end Recompose
