import Recompose.Attribute

/-!
The tables of a class that is being assembled. An entry is put into the pool when it is first asked
for, behind the entries it refers to, and every later demand for it gets the same slot.
-/

namespace Recompose

/-- The pool and the bootstrap table so far. -/
structure Draft where
  pool : Pool := .start
  bootstraps : List Bootstrap := []
deriving Repr

/-- A step of an assembly. -/
abbrev Assemble (α : Type) : Type :=
  StateM Draft α

namespace Draft

open Bytes BigEndian

/-- The slot of an entry, which is appended unless it is there. -/
def intern (entry : Entry) : Assemble UInt16 :=
  fun d =>
    match d.pool.slots.idxOf? (some entry) with
    | some slot => (UInt16.ofNat slot, d)
    | none => (UInt16.ofNat d.pool.size, { d with pool := d.pool.push entry })

def utf8 (text : String) : Assemble UInt16 :=
  intern (.utf8 text)

def classRef (name : String) : Assemble UInt16 := do
  intern (.classRef (← utf8 name))

def string (text : String) : Assemble UInt16 := do
  intern (.string (← utf8 text))

def nameAndType (name descriptor : String) : Assemble UInt16 := do
  intern (.nameAndType (← utf8 name) (← utf8 descriptor))

def member (kind : MemberKind) (owner name descriptor : String) : Assemble UInt16 := do
  intern (.member kind (← classRef owner) (← nameAndType name descriptor))

def methodType (descriptor : String) : Assemble UInt16 := do
  intern (.methodType (← utf8 descriptor))

/-- The row of the bootstrap table with a method and arguments, appended unless it is there. -/
def bootstrap (row : Bootstrap) : Assemble UInt16 :=
  fun d =>
    match d.bootstraps.idxOf? row with
    | some n => (UInt16.ofNat n, d)
    | none => (UInt16.ofNat d.bootstraps.length, { d with bootstraps := d.bootstraps ++ [row] })

/-- A two-byte count and the bytes of the items. -/
def table (items : List (List UInt8)) : List UInt8 :=
  u16 (UInt16.ofNat items.length) ++ items.flatten

def attributeRow (a : Attribute) : Assemble (List UInt8) := do
  let name ← utf8 a.name
  return u16 name ++ u32 (UInt32.ofNat a.data.length) ++ a.data

def attributeTable (as : List Attribute) : Assemble (List UInt8) := do
  return table (← as.mapM attributeRow)

/-- The payload of the bootstrap attribute. -/
def bootstrapTable (rows : List Bootstrap) : List UInt8 :=
  table (rows.map fun row => u16 row.method ++ table (row.arguments.map u16))

end Draft

end Recompose
