import Recompose.Attribute

/-!
Annotations and their element values, which nest without bound. Every nested value takes at least
one byte for its tag, so the bytes at hand bound the nesting.
-/

namespace Recompose

open Bytes

mutual

/-- The value of an annotation's element. -/
inductive ElementValue where
  | int (value : Int32)
  | long (value : Int64)
  | float (bits : UInt32)
  | double (bits : UInt64)
  | string (value : String)
  | enumConstant (type name : String)
  | classRef (descriptor : String)
  | nested (value : Annotation)
  | array (values : List ElementValue)

/-- The descriptor of an annotation's type and its elements in order. -/
inductive Annotation where
  | mk (descriptor : String) (elements : List (String × ElementValue))

end

deriving instance Repr, BEq for ElementValue, Annotation

namespace ElementValue

def int? : ElementValue → Option Int32
  | int value => some value
  | _ => none

end ElementValue

namespace Annotation

def descriptor : Annotation → String
  | mk descriptor _ => descriptor

def elements : Annotation → List (String × ElementValue)
  | mk _ elements => elements

/-- The value of the first element of a name. -/
def element? (a : Annotation) (name : String) : Option ElementValue :=
  a.elements.lookup name

end Annotation

/-! ## Reading -/

namespace ElementValue

/-- What the tag of an element value announces. -/
inductive Form where
  | number (kind : NumberKind)
  | string
  | enumConstant
  | classRef
  | nested
  | array
deriving DecidableEq, Repr

namespace Form

/-- The form of a tag, a letter or bracket of the basic Latin alphabet. -/
def ofTag? (tag : UInt8) : Option Form :=
  match Char.ofNat tag.toNat with
  | 'B' | 'C' | 'I' | 'S' | 'Z' => some (number .int)
  | 'J' => some (number .long)
  | 'F' => some (number .float)
  | 'D' => some (number .double)
  | 's' => some string
  | 'e' => some enumConstant
  | 'c' => some classRef
  | '@' => some nested
  | '[' => some array
  | _ => none

end Form

/-- The number at a slot, which must be of the kind asked for. -/
def number (pool : Pool) (kind : NumberKind) (index : UInt16) : Except Error ElementValue := do
  match kind, ← pool.get index with
  | .int, .integer value => return int value
  | .long, .long value => return long value
  | .float, .float bits => return float bits
  | .double, .double bits => return double bits
  | _, _ => throw (.malformed (.elementKind index kind))

/-- The text at the slot that is read next. -/
def readUtf8 (pool : Pool) : Read String := do
  let index ← Read.u16
  pool.utf8 index

end ElementValue

namespace Annotation

/-- Reads an annotation whose values are read by `value`. -/
def readWith (pool : Pool) (value : Read ElementValue) : Read Annotation := do
  let descriptor ← ElementValue.readUtf8 pool
  let elements ← Read.counted do
    let name ← ElementValue.readUtf8 pool
    let value ← value
    return (name, value)
  return mk descriptor elements

end Annotation

namespace ElementValue

/-- Reads a value that nests at most `depth` values in one another; with as many bytes left, a value
beyond that depth would start behind the last of them. -/
def read (pool : Pool) : (depth : Nat) → Read ElementValue
  | 0 => throw .outOfBounds
  | depth + 1 => do
    let tag ← Read.u8
    match Form.ofTag? tag with
    | some (.number kind) => do
      let index ← Read.u16
      number pool kind index
    | some .string => return string (← readUtf8 pool)
    | some .enumConstant => return enumConstant (← readUtf8 pool) (← readUtf8 pool)
    | some .classRef => return classRef (← readUtf8 pool)
    | some .nested => return nested (← Annotation.readWith pool (read pool depth))
    | some .array => return array (← Read.counted (read pool depth))
    | none => throw (.malformed (.elementTag tag))

end ElementValue

namespace Annotation

/-- The annotations in the payload of an annotations attribute; bytes behind them are ignored. -/
def parseAll (pool : Pool) (data : List UInt8) : Except Error (List Annotation) :=
  (Read.counted (readWith pool (ElementValue.read pool data.length))).parse data

/-- The integer `key` of the first annotation of a type that has one. -/
def key? (annotations : List Annotation) (type : String) : Option Int32 :=
  (annotations.filter (·.descriptor == type)).findSome? fun a =>
    (a.element? "key").bind ElementValue.int?

end Annotation

end Recompose
