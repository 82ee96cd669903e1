import Recompose.Decimal.Binary
import Recompose.Text.Quoted

/-!
What code refers to by name: members of classes, handles on members and loadable constants, with
their text in instruction listings.
-/

namespace Recompose

/-- A field or method of a class; `isInterface` if it was named as a method of an interface. -/
structure Member where
  owner : String
  name : String
  descriptor : String
  isInterface : Bool
deriving DecidableEq, Repr

/-- A handle on a member; `kind` says how the member is used. -/
structure Handle where
  kind : UInt8
  owner : String
  name : String
  descriptor : String
  isInterface : Bool
deriving DecidableEq, Repr

namespace Handle

def ofMember (kind : UInt8) (m : Member) : Handle :=
  ⟨kind, m.owner, m.name, m.descriptor, m.isInterface⟩

def text (h : Handle) : String :=
  h.owner ++ "." ++ h.name ++ h.descriptor ++ s!" ({h.kind})"

end Handle

/-- A value that code can load. Floating-point numbers are kept as their bits. -/
inductive Constant where
  | null
  | int (value : Int32)
  | float (bits : UInt32)
  | long (value : Int64)
  | double (bits : UInt64)
  | string (value : String)
  | classRef (name : String)
  | methodType (descriptor : String)
  | methodHandle (handle : Handle)
  /-- A constant that `bootstrap` computes when it is first used. -/
  | dynamic (name descriptor : String) (bootstrap : Handle)
deriving DecidableEq, Repr

namespace Constant

def int? : Constant → Option Int32
  | int value => some value
  | _ => none

def text : Constant → String
  | null => "null"
  | int value => toString value
  | float bits => Decimal.singleText bits ++ "f"
  | long value => toString value ++ "L"
  | double bits => Decimal.doubleText bits ++ "d"
  | string value => Text.Quoted.quote value
  | classRef name => name ++ ".class"
  | methodType descriptor => descriptor
  | methodHandle handle => handle.text
  | dynamic name descriptor _ => "condy " ++ name ++ descriptor

end Constant

end Recompose
