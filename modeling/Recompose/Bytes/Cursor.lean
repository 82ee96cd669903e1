import Recompose.Error
import Recompose.Bytes.BigEndian

/-!
A cursor over bytes and the readers that move it. A reader either returns a value with the cursor
behind what it used, or fails and leaves the cursor where it stopped; a single read that fails has
not moved it. No reader gives bytes back (`Forward`), which is what ends the loops over whole
inputs.
-/

namespace Recompose.Bytes

/-- A place in a buffer: how many bytes lie before it, and the bytes that follow. -/
structure Cursor where
  pos : Nat
  rest : List UInt8
deriving DecidableEq, Repr

namespace Cursor

def ofBytes (bytes : List UInt8) : Cursor :=
  ⟨0, bytes⟩

def hasMore (c : Cursor) : Bool :=
  !c.rest.isEmpty

end Cursor

/-- A reader of the bytes at a cursor. -/
abbrev Read (α : Type) : Type :=
  EStateM Error Cursor α

namespace Read

instance : MonadLift (Except Error) Read where
  monadLift
    | .ok a => pure a
    | .error e => throw e

/-- Reads from the start of a buffer of its own. -/
def parse {α : Type} (p : Read α) (bytes : List UInt8) : Except Error α :=
  match p (.ofBytes bytes) with
  | .ok a _ => .ok a
  | .error e _ => .error e

/-! ## Single reads -/

def position : Read Nat :=
  fun c => .ok c.pos c

/-- How many bytes are left. -/
def remaining : Read Nat :=
  fun c => .ok c.rest.length c

/-- The next `n` bytes. -/
def bytes (n : Nat) : Read (List UInt8) :=
  fun c =>
    let taken := c.rest.take n
    if taken.length = n then
      .ok taken ⟨c.pos + n, c.rest.drop n⟩
    else
      .error .outOfBounds c

def skip (n : Nat) : Read Unit := do
  let _ ← bytes n

/-- Skips to the next multiple of `n`, counted from the start of the buffer. -/
def align (n : Nat) : Read Unit := do
  let pos ← position
  skip ((n - pos % n) % n)

/-- An unsigned number of `n` bytes. -/
def number (n : Nat) : Read Nat := do
  return BigEndian.value (← bytes n)

def u8 : Read UInt8 := do return UInt8.ofNat (← number 1)

def i8 : Read Int8 := do return (← u8).toInt8

def u16 : Read UInt16 := do return UInt16.ofNat (← number 2)

def i16 : Read Int16 := do return (← u16).toInt16

def u32 : Read UInt32 := do return UInt32.ofNat (← number 4)

def i32 : Read Int32 := do return (← u32).toInt32

def u64 : Read UInt64 := do return UInt64.ofNat (← number 8)

def i64 : Read Int64 := do return (← u64).toInt64

/-! ## Repetition -/

/-- Reads `n` more values behind `done`, which holds the values so far, last one first. -/
def timesOnto {α : Type} (p : Read α) (done : List α) : Nat → Read (List α)
  | 0 => pure done.reverse
  | n + 1 => do
    let a ← p
    timesOnto p (a :: done) n

/-- Reads `n` values one after another. -/
def times {α : Type} (n : Nat) (p : Read α) : Read (List α) :=
  timesOnto p [] n

/-- Reads a two-byte count and that many values. -/
def counted {α : Type} (p : Read α) : Read (List α) := do
  times (← u16).toNat p

/-! ## Readers move forward only -/

/-- A reader that succeeds leaves a suffix of what it was given. -/
structure Forward {α : Type} (p : Read α) : Prop where
  suffix : ∀ {c : Cursor} {a : α} {c' : Cursor}, p c = .ok a c' → c'.rest <:+ c.rest

namespace Forward

variable {α β : Type}

theorem pure (a : α) : Forward (Pure.pure a : Read α) := by
  refine ⟨fun h => ?_⟩
  cases h
  exact List.suffix_rfl

theorem throw (e : Error) : Forward (MonadExcept.throw e : Read α) := by
  refine ⟨fun h => ?_⟩
  cases h

theorem bind {p : Read α} {f : α → Read β} (hp : Forward p) (hf : ∀ a, Forward (f a)) :
    Forward (p >>= f) := by
  refine ⟨fun {c b c'} h => ?_⟩
  change EStateM.bind p f c = .ok b c' at h
  unfold EStateM.bind at h
  split at h
  · next a c₁ h₁ => exact ((hf a).suffix h).trans (hp.suffix h₁)
  · cases h

theorem map {p : Read α} (hp : Forward p) (f : α → β) : Forward (f <$> p) :=
  bind hp fun a => pure (f a)

theorem lift (e : Except Error α) : Forward (liftM e : Read α) := by
  cases e with
  | ok a => exact pure a
  | error e => exact throw e

theorem position : Forward Read.position := by
  refine ⟨fun h => ?_⟩
  cases h
  exact List.suffix_rfl

theorem bytes (n : Nat) : Forward (Read.bytes n) := by
  refine ⟨fun {c b c'} h => ?_⟩
  dsimp only [Read.bytes] at h
  split at h
  · cases h
    exact List.drop_suffix n c.rest
  · cases h

theorem skip (n : Nat) : Forward (Read.skip n) :=
  bind (bytes n) fun _ => pure ()

theorem align (n : Nat) : Forward (Read.align n) :=
  bind position fun _ => skip _

theorem number (n : Nat) : Forward (Read.number n) :=
  bind (bytes n) fun _ => pure _

theorem u8 : Forward Read.u8 := bind (number 1) fun _ => pure _

theorem i8 : Forward Read.i8 := bind u8 fun _ => pure _

theorem u16 : Forward Read.u16 := bind (number 2) fun _ => pure _

theorem i16 : Forward Read.i16 := bind u16 fun _ => pure _

theorem u32 : Forward Read.u32 := bind (number 4) fun _ => pure _

theorem i32 : Forward Read.i32 := bind u32 fun _ => pure _

theorem timesOnto {p : Read α} (hp : Forward p) (n : Nat) (done : List α) :
    Forward (Read.timesOnto p done n) := by
  induction n generalizing done with
  | zero => exact pure _
  | succ n ih => exact bind hp fun a => ih (a :: done)

theorem times {p : Read α} (hp : Forward p) (n : Nat) : Forward (Read.times n p) :=
  timesOnto hp n []

end Forward

/-- A byte that was read is gone from the rest. -/
theorem length_rest_of_u8 {c c' : Cursor} {b : UInt8} (h : u8 c = .ok b c') :
    c.rest.length = c'.rest.length + 1 := by
  have h : (u8 : Read UInt8) c = .ok b c' := h
  obtain ⟨pos, rest⟩ := c
  cases rest with
  | nil => cases h
  | cons x rest =>
    change EStateM.Result.ok _ (⟨pos + 1, rest⟩ : Cursor) = _ at h
    cases h
    rfl

end Read

end Recompose.Bytes
