import Recompose.Constant
import Recompose.Pool

/-!
Following the references of a pool. A failed look-up names the slot where it failed and what was
expected there; a member is named before its class is looked up.
-/

namespace Recompose

/-- A row of the bootstrap table: a method handle and loadable arguments, by slot. -/
structure Bootstrap where
  method : UInt16
  arguments : List UInt16
deriving DecidableEq, Repr

namespace Pool

def utf8 (p : Pool) (index : UInt16) : Except Error String :=
  match p.get? index with
  | some (.utf8 text) => .ok text
  | _ => .error (.poolEntry index .utf8)

def className (p : Pool) (index : UInt16) : Except Error String :=
  match p.get? index with
  | some (.classRef name) => p.utf8 name
  | _ => .error (.poolEntry index .className)

/-- A name and a descriptor. -/
def nameAndType (p : Pool) (index : UInt16) : Except Error (String × String) :=
  match p.get? index with
  | some (.nameAndType name descriptor) => do
    let name ← p.utf8 name
    let descriptor ← p.utf8 descriptor
    return (name, descriptor)
  | _ => .error (.poolEntry index .nameAndType)

def member (p : Pool) (index : UInt16) : Except Error Member :=
  match p.get? index with
  | some (.member kind owner signature) => do
    let (name, descriptor) ← p.nameAndType signature
    let owner ← p.className owner
    return ⟨owner, name, descriptor, kind = .interfaceMethod⟩
  | _ => .error (.poolEntry index .member)

def methodHandle (p : Pool) (index : UInt16) : Except Error Handle :=
  match p.get? index with
  | some (.methodHandle kind reference) => do
    return .ofMember kind (← p.member reference)
  | _ => .error (.poolEntry index .methodHandle)

/-- A constant; a computed one needs the bootstrap table. -/
def loadable (p : Pool) (table : List Bootstrap) (index : UInt16) : Except Error Constant := do
  match ← p.get index with
  | .integer value => return .int value
  | .float bits => return .float bits
  | .long value => return .long value
  | .double bits => return .double bits
  | .string text => return .string (← p.utf8 text)
  | .classRef name => return .classRef (← p.utf8 name)
  | .methodType descriptor => return .methodType (← p.utf8 descriptor)
  | .methodHandle .. => return .methodHandle (← p.methodHandle index)
  | .dynamic bootstrap signature => do
    let (name, descriptor) ← p.nameAndType signature
    match table[bootstrap.toNat]? with
    | none => throw (.malformed (.missingBootstrap bootstrap))
    | some row => return .dynamic name descriptor (← p.methodHandle row.method)
  | _ => throw (.poolEntry index .loadable)

end Pool

end Recompose
