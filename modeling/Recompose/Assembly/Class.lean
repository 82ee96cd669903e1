import Recompose.Access
import Recompose.Assembly.Body
import Recompose.ClassFile

/-!
Whole classes from a description: the bytes of a class file without fields or interfaces, whose pool
holds what the description needs, in the order in which it is needed first.
-/

namespace Recompose

structure MethodSpec where
  name : String
  descriptor : String
  flags : List MethodFlag := [.accPublic, .accStatic]
  /-- Annotation types, each with the integer `key` that an annotation of that type carries. -/
  keys : List (String × Int32) := []
  body : Option Body := none
deriving Repr

structure ClassSpec where
  name : String
  superName : String := "java/lang/Object"
  sourceFile : Option String := none
  /-- Texts that stand in the pool before all others. -/
  reserved : List String := []
  methods : List MethodSpec := []
deriving Repr

open Bytes BigEndian Draft

namespace MethodSpec

def keyRow (key : String × Int32) : Assemble (List UInt8) := do
  let type ← utf8 key.1
  let name ← utf8 "key"
  let value ← intern (.integer key.2)
  return u16 type ++ u16 1 ++ u16 name ++ (UInt8.ofNat 'I'.toNat :: u16 value)

def codeAttribute : Option Body → Assemble (List Attribute)
  | none => return []
  | some body => return [⟨Attribute.codeName, ← body.assemble⟩]

def keyAttribute (keys : List (String × Int32)) : Assemble (List Attribute) := do
  if keys.isEmpty then
    return []
  else
    return [⟨Attribute.annotationsName, table (← keys.mapM keyRow)⟩]

def assemble (m : MethodSpec) : Assemble (List UInt8) := do
  let name ← utf8 m.name
  let descriptor ← utf8 m.descriptor
  let code ← codeAttribute m.body
  let keys ← keyAttribute m.keys
  let attributes ← attributeTable (code ++ keys)
  return u16 (MethodFlag.toBits m.flags) ++ u16 name ++ u16 descriptor ++ attributes

end MethodSpec

namespace ClassSpec

/-- The flags of every class assembled. -/
def flags : List ClassFlag := [.accPublic, .accSuper]

/-- The major version of every class assembled. -/
def majorVersion : UInt16 := 52

def sourceAttribute : Option String → Assemble (List Attribute)
  | none => return []
  | some name => return [⟨"SourceFile", u16 (← utf8 name)⟩]

def bootstrapAttribute : Assemble (List Attribute) := do
  let d ← get
  if d.bootstraps.isEmpty then
    return []
  else
    return [⟨Attribute.bootstrapName, bootstrapTable d.bootstraps⟩]

/-- What follows the pool. -/
def assembleBody (c : ClassSpec) : Assemble (List UInt8) := do
  let _ ← c.reserved.mapM utf8
  let thisClass ← classRef c.name
  let superClass ← classRef c.superName
  let methods ← c.methods.mapM MethodSpec.assemble
  let source ← sourceAttribute c.sourceFile
  let bootstraps ← bootstrapAttribute
  let attributes ← attributeTable (source ++ bootstraps)
  return u16 (ClassFlag.toBits flags) ++ u16 thisClass ++ u16 superClass ++ u16 0 ++ u16 0 ++
    table methods ++ attributes

/-- The bytes of the class. -/
def assemble (c : ClassSpec) : List UInt8 :=
  let (body, draft) := c.assembleBody.run {}
  u32 ClassFile.magic ++ u16 0 ++ u16 majorVersion ++ u16 (UInt16.ofNat draft.pool.size) ++
    draft.pool.layout ++ body

end ClassSpec

end Recompose
