import Recompose.Access
import Recompose.Annotation

/-!
Methods of a class file. The code of a body is kept undecoded, so that broken code costs its own
method alone; a payload that is no body refuses the whole class.
-/

namespace Recompose

open Bytes

structure Method where
  id : MethodId
  flags : List MethodFlag
  code : Option Code
  annotations : List Annotation
  /-- The attributes that are neither a body nor annotations. -/
  attributes : List Attribute
deriving Repr

namespace Method

/-- Adds the next attribute of a method: the first body, more annotations, or any other. -/
def addAttribute (pool : Pool) (m : Method) (a : Attribute) : Except Error Method :=
  if a.name = Attribute.codeName then
    if m.code.isSome then
      throw (.malformed (.secondCode m.id))
    else do
      let code ← Code.parse pool a.data
      return { m with code := some code }
  else if a.name = Attribute.annotationsName then do
    let annotations ← Annotation.parseAll pool a.data
    return { m with annotations := m.annotations ++ annotations }
  else
    return { m with attributes := m.attributes ++ [a] }

def addAttributes (pool : Pool) (m : Method) (attributes : List Attribute) : Except Error Method :=
  attributes.foldlM (addAttribute pool) m

def read (pool : Pool) (className : String) : Read Method := do
  let flags := MethodFlag.ofBits (← Read.u16)
  let name ← Read.u16
  let name ← pool.utf8 name
  let descriptor ← Read.u16
  let descriptor ← pool.utf8 descriptor
  let attributes ← Attribute.readTable pool
  addAttributes pool ⟨⟨className, name, descriptor⟩, flags, none, [], []⟩ attributes

/-- The group key that an annotation of a type gives the method. -/
def key? (m : Method) (annotationType : String) : Option Int32 :=
  Annotation.key? m.annotations annotationType

end Method

end Recompose
