import Recompose.Pool.Entry

/-!
The symbol pool of a class file: numbered slots from zero on, of which slot zero and the second slot
of every wide entry hold nothing. Reading consumes exactly the declared number of slots.
-/

namespace Recompose

structure Pool where
  slots : Array (Option Entry) := #[]
deriving DecidableEq, Repr, Inhabited

namespace Pool

open Bytes

/-- A pool of one slot, the unusable slot zero. -/
def start : Pool := ⟨#[none]⟩

/-- The number of slots, the unusable ones included. -/
def size (p : Pool) : Nat := p.slots.size

def isEmpty (p : Pool) : Bool := p.size ≤ 1

def get? (p : Pool) (index : UInt16) : Option Entry :=
  p.slots[index.toNat]?.join

def get (p : Pool) (index : UInt16) : Except Error Entry :=
  match p.get? index with
  | some entry => .ok entry
  | none => .error (.poolEntry index .entry)

/-- Appends an entry and, behind a wide one, its unusable slot. -/
def push (p : Pool) (entry : Entry) : Pool :=
  if entry.isWide then
    ⟨(p.slots.push (some entry)).push none⟩
  else
    ⟨p.slots.push (some entry)⟩

/-! ## Writing -/

/-- The entries in slot order. -/
def entries (p : Pool) : List Entry :=
  p.slots.toList.filterMap id

def layout (p : Pool) : List UInt8 :=
  p.entries.flatMap Entry.layout

/-! ## Reading -/

/-- Reads entries until `room` more slots are filled. -/
def readInto (p : Pool) : (room : Nat) → Read Pool
  | 0 => pure p
  | room + 1 => do
    let entry ← Entry.read p.size
    if entry.isWide then
      match room with
      | 0 => throw (.malformed (.poolOverrun (p.size + 1)))
      | room + 1 => readInto (p.push entry) room
    else
      readInto (p.push entry) room

/-- Reads a pool of `count` slots, of which the first takes no bytes. -/
def read (count : UInt16) : Read Pool :=
  match count.toNat with
  | 0 => throw (.malformed (.poolOverrun 0))
  | room + 1 => readInto start room

end Pool

end Recompose
