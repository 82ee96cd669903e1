import Recompose.Method

/-!
Class files. The header holds the pool and the name, so the name of a class can be had from the
start of its bytes; a whole class is accepted only if no byte follows it.
-/

namespace Recompose

open Bytes

structure ClassFile where
  minorVersion : UInt16
  majorVersion : UInt16
  pool : Pool
  flags : List ClassFlag
  name : String
  superName : Option String
  interfaces : List String
  methods : List Method
  /-- The rows of the last bootstrap attribute. -/
  bootstraps : List Bootstrap
  /-- The attributes that are no bootstrap table. -/
  attributes : List Attribute
deriving Repr

namespace ClassFile

def magic : UInt32 := 0xCAFEBABE

/-- The fewest bytes that a class file starts with: magic number, versions and the pool's size. -/
def preambleLength : Nat := 10

/-- What a class file says up to its own name. -/
structure Header where
  minorVersion : UInt16
  majorVersion : UInt16
  pool : Pool
  flags : List ClassFlag
  name : String
deriving Repr

namespace Header

/-- Reads the header behind the magic number. -/
def read : Read Header := do
  let minorVersion ← Read.u16
  let majorVersion ← Read.u16
  let count ← Read.u16
  let pool ← Pool.read count
  let flags ← Read.u16
  let name ← Read.u16
  let name ← pool.className name
  return ⟨minorVersion, majorVersion, pool, ClassFlag.ofBits flags, name⟩

end Header

/-- A class at a slot, or none at slot zero. -/
def readSuper (pool : Pool) : Read (Option String) := do
  let index ← Read.u16
  if index = 0 then
    return none
  else
    return some (← pool.className index)

def readInterface (pool : Pool) : Read String := do
  let index ← Read.u16
  pool.className index

/-- Fields are passed over: their flags, name and descriptor unread, their attributes unused. -/
def readField (pool : Pool) : Read Unit := do
  Read.skip 6
  let _ ← Attribute.readTable pool

/-- Adds the next attribute of a class: a bootstrap table or any other. -/
def addAttribute (c : ClassFile) (a : Attribute) : Except Error ClassFile :=
  if a.name = Attribute.bootstrapName then do
    let bootstraps ← Bootstrap.parseTable a.data
    return { c with bootstraps }
  else
    return { c with attributes := c.attributes ++ [a] }

def addAttributes (c : ClassFile) (attributes : List Attribute) : Except Error ClassFile :=
  attributes.foldlM addAttribute c

/-- Reads what follows a header, up to the end of the bytes. -/
def readBody (h : Header) : Read ClassFile := do
  let superName ← readSuper h.pool
  let interfaces ← Read.counted (readInterface h.pool)
  let _ ← Read.counted (readField h.pool)
  let methods ← Read.counted (Method.read h.pool h.name)
  let attributes ← Attribute.readTable h.pool
  let bare : ClassFile :=
    ⟨h.minorVersion, h.majorVersion, h.pool, h.flags, h.name, superName, interfaces, methods, [], []⟩
  let file ← bare.addAttributes attributes
  let left ← Read.remaining
  if left = 0 then
    return file
  else
    throw (.malformed (.trailingBytes left h.name))

/-- Reads the bytes of a class file from the magic number on. -/
def parseWith {α : Type} (p : Read α) (bytes : List UInt8) : Except Error α :=
  if bytes.isEmpty then
    .error .empty
  else if bytes.length < preambleLength then
    .error .notSupported
  else
    Read.parse (do
      if (← Read.u32) = magic then p else throw .notSupported) bytes

theorem parseWith_of_long {α : Type} {p : Read α} {bytes : List UInt8}
    (long : preambleLength ≤ bytes.length) :
    parseWith p bytes =
      Read.parse (do
        if (← Read.u32) = magic then p else throw .notSupported) bytes := by
  have some : ¬bytes.isEmpty = true := by
    rw [List.isEmpty_iff]
    rintro rfl
    exact absurd long (by decide)
  rw [parseWith, if_neg some, if_neg (Nat.not_lt.mpr long)]

def parse (bytes : List UInt8) : Except Error ClassFile :=
  parseWith (do readBody (← Header.read)) bytes

/-- The name of the class whose header the bytes start with. -/
def peekName (bytes : List UInt8) : Except Error String :=
  parseWith (do return (← Header.read).name) bytes

/-! ## Files -/

/-- The contents of a file, if there is such a file; an empty one is refused. -/
def contents (file : Option (List UInt8)) : Except Error (List UInt8) :=
  match file with
  | none => .error .fileNotFound
  | some [] => .error .empty
  | some bytes => .ok bytes

def load (file : Option (List UInt8)) : Except Error ClassFile := do
  parse (← contents file)

end ClassFile

end Recompose
