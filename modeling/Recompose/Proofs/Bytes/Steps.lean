import Mathlib.Data.Nat.Digits.Defs
import Mathlib.Order.Bounds.Defs
import Recompose.Proofs.Bytes.Splits

/-!
Sequences of steps at a cursor, where whoever reads goes on after a failure. What one step does at a
place in a buffer is said once: it leads to another place, takes the bytes up to there if the buffer
has them, and stays where it is otherwise. By induction a sequence never leaves the buffer and never
goes back.
-/

namespace Recompose.Bytes

/-! ## Numbers -/

/-- The numbers that are read as a whole: unsigned ones, signed ones, and floating-point ones as the
bits they have. -/
inductive Word where
  | u8 | i8 | u16 | i16 | u32 | i32 | u64 | i64 | f32 | f64
deriving DecidableEq, Repr

namespace Word

def size : Word → Nat
  | u8 | i8 => 1
  | u16 | i16 => 2
  | u32 | i32 | f32 => 4
  | u64 | i64 | f64 => 8

def isSigned : Word → Bool
  | i8 | i16 | i32 | i64 => true
  | u8 | u16 | u32 | u64 | f32 | f64 => false

def read : Word → Read Int
  | u8 => do return (← Read.u8).toNat
  | i8 => do return (← Read.i8).toInt
  | u16 => do return (← Read.u16).toNat
  | i16 => do return (← Read.i16).toInt
  | u32 => do return (← Read.u32).toNat
  | i32 => do return (← Read.i32).toInt
  | u64 => do return (← Read.u64).toNat
  | i64 => do return (← Read.i64).toInt
  | f32 => do return (← Read.u32).toNat
  | f64 => do return (← Read.u64).toNat

/-- The number that bytes stand for: the last one is the lowest digit in base 256, and of a signed
number the upper half of the range is below zero. -/
def value (w : Word) (bytes : List UInt8) : Int :=
  let n : Nat := Nat.ofDigits 256 (bytes.reverse.map UInt8.toNat)
  if w.isSigned then Int.bmod n (256 ^ w.size) else n

end Word

theorem BigEndian.value_eq_ofDigits (bytes : List UInt8) :
    value bytes = Nat.ofDigits 256 (bytes.reverse.map UInt8.toNat) := by
  induction bytes using List.reverseRecOn with
  | nil => rfl
  | append_singleton bytes b ih =>
    rw [value_concat, ih, List.reverse_concat, List.map_cons, Nat.ofDigits_cons]
    ring

namespace Read

/-- What is made of a value counts only for the values that the reader gives. -/
theorem map_congr {α β : Type} {P : α → Prop} {p : Read α} (hp : Gives p P) {f g : α → β}
    (same : ∀ a, P a → f a = g a) : (do return f (← p)) = (do return g (← p) : Read β) := by
  funext c
  cases ends : p c with
  | ok a k =>
    rw [bind_of_ok ends, bind_of_ok ends, same a (hp.of_ok ends)]
  | error e k => rw [bind_of_error ends, bind_of_error ends]

end Read

namespace Word

/-- What a word of the size makes of an unsigned number. -/
def convert : Word → Nat → Int
  | u8, n => (UInt8.ofNat n).toNat
  | i8, n => (UInt8.ofNat n).toInt8.toInt
  | u16, n => (UInt16.ofNat n).toNat
  | i16, n => (UInt16.ofNat n).toInt16.toInt
  | u32, n | f32, n => (UInt32.ofNat n).toNat
  | i32, n => (UInt32.ofNat n).toInt32.toInt
  | u64, n | f64, n => (UInt64.ofNat n).toNat
  | i64, n => (UInt64.ofNat n).toInt64.toInt

theorem read_eq_convert (w : Word) : w.read = do return w.convert (← Read.number w.size) := by
  cases w <;>
    simp only [read, Read.u8, Read.i8, Read.u16, Read.i16, Read.u32, Read.i32, Read.u64, Read.i64,
      bind_assoc, pure_bind] <;>
    rfl

theorem convert_of_lt (w : Word) {n : Nat} (small : n < 256 ^ w.size) :
    w.convert n = if w.isSigned then Int.bmod n (256 ^ w.size) else n := by
  cases w with
  | u8 => exact congrArg Int.ofNat (UInt8.toNat_ofNat_of_lt' small)
  | i8 => exact Int8.toInt_ofNat'.trans (if_pos rfl).symm
  | u16 => exact congrArg Int.ofNat (UInt16.toNat_ofNat_of_lt' small)
  | i16 => exact Int16.toInt_ofNat'.trans (if_pos rfl).symm
  | u32 | f32 => exact congrArg Int.ofNat (UInt32.toNat_ofNat_of_lt' small)
  | i32 => exact Int32.toInt_ofNat'.trans (if_pos rfl).symm
  | u64 | f64 => exact congrArg Int.ofNat (UInt64.toNat_ofNat_of_lt' small)
  | i64 => exact Int64.toInt_ofNat'.trans (if_pos rfl).symm

/-- A number is read as its bytes are. -/
theorem read_eq (w : Word) : w.read = do return w.value (← Read.bytes w.size) := by
  rw [read_eq_convert, Read.number, bind_assoc]
  simp only [pure_bind]
  refine Read.map_congr (Read.Gives.length_bytes _) fun taken length => ?_
  have small := BigEndian.value_lt taken
  rw [length] at small
  rw [convert_of_lt w small, BigEndian.value_eq_ofDigits, value]

end Word

/-! ## Single steps -/

/-- What can be done at a cursor: a number or some bytes are read, bytes are passed over, or the
cursor moves to a multiple of a number. -/
inductive Step where
  | number (w : Word)
  | bytes (n : Nat)
  | skip (n : Nat)
  | align (n : Nat) (positive : 0 < n)
deriving DecidableEq, Repr

/-- What a step gives. -/
inductive Value where
  | number (n : Int)
  | bytes (bytes : List UInt8)
  | nothing
deriving DecidableEq, Repr

namespace Step

def read : Step → Read Value
  | number w => do return .number (← w.read)
  | bytes n => do return .bytes (← Read.bytes n)
  | skip n => do Read.skip n; return .nothing
  | align n _ => do Read.align n; return .nothing

/-- To pass over bytes is to take them and to give nothing. -/
theorem read_skip (n : Nat) : (skip n).read = do let _ ← Read.bytes n; return .nothing := by
  rw [read, Read.skip, bind_assoc]
  simp only [pure_bind]

/-- Where a step leads from a place. -/
def LeadsTo (pos stop : Nat) : Step → Prop
  | number w => stop = pos + w.size
  | bytes n | skip n => stop = pos + n
  | align n _ => IsLeast {m | n ∣ m ∧ pos ≤ m} stop

/-- What a step gives for the bytes that it takes. -/
def value (taken : List UInt8) : Step → Value
  | number w => .number (w.value taken)
  | bytes _ => .bytes taken
  | skip _ | align _ _ => .nothing

/-- The step takes the bytes up to where it leads, and gives what they stand for. If the buffer does
not have them it runs out of bytes and stays where it is. -/
def Exact (buffer : List UInt8) (c : Cursor) (s : Step) : Prop :=
  ∃ stop, s.LeadsTo c.pos stop ∧
    s.read c = if stop ≤ buffer.length then
        .ok (s.value (buffer.extract c.pos stop)) ⟨stop, buffer.drop stop⟩
      else .error .outOfBounds c

end Step

/-- The cursor is at a place in the buffer. -/
structure Cursor.Inside (c : Cursor) (buffer : List UInt8) : Prop where
  pos_le : c.pos ≤ buffer.length
  rest_eq : c.rest = buffer.drop c.pos

/-- Padding leads to the next multiple. -/
theorem isLeast_align {n : Nat} (positive : 0 < n) (pos : Nat) :
    IsLeast {m | n ∣ m ∧ pos ≤ m} (pos + (n - pos % n) % n) := by
  have rest := Nat.mod_lt pos positive
  have short := Nat.mod_lt (n - pos % n) positive
  have whole : n ∣ pos + (n - pos % n) % n := by
    apply Nat.dvd_of_mod_eq_zero
    have split := Nat.div_add_mod pos n
    have exact : pos + (n - pos % n) = n * (pos / n + 1) := by
      rw [Nat.mul_succ]
      omega
    rw [Nat.add_mod_mod, exact, Nat.mul_mod_right]
  refine ⟨⟨whole, Nat.le_add_right _ _⟩, ?_⟩
  rintro m ⟨multiple, behind⟩
  by_contra before
  -- Two multiples lie less than `n` apart.
  have near := Nat.le_of_dvd (by omega) (Nat.dvd_sub whole multiple)
  omega

namespace Cursor.Inside

variable {c : Cursor} {buffer : List UInt8}

theorem bytes (inside : c.Inside buffer) (n : Nat) :
    Read.bytes n c = if c.pos + n ≤ buffer.length then
        .ok (buffer.extract c.pos (c.pos + n)) ⟨c.pos + n, buffer.drop (c.pos + n)⟩
      else .error .outOfBounds c := by
  have pos_le := inside.pos_le
  have enough : (c.rest.take n).length = n ↔ c.pos + n ≤ buffer.length := by
    rw [inside.rest_eq, List.length_take, List.length_drop]
    omega
  simp only [Read.bytes, enough]
  rw [inside.rest_eq, List.drop_drop, List.extract_eq_take_drop, Nat.add_sub_cancel_left]

/-- A step is exact if it takes as many bytes as lie before the place that it leads to. -/
theorem exact (inside : c.Inside buffer) {s : Step} {n : Nat}
    (taken : s.read c = (do return s.value (← Read.bytes n) : Read Value) c)
    (leads : s.LeadsTo c.pos (c.pos + n)) : s.Exact buffer c := by
  refine ⟨c.pos + n, leads, ?_⟩
  have read := inside.bytes n
  rw [taken]
  by_cases enough : c.pos + n ≤ buffer.length
  · rw [if_pos enough] at read ⊢
    rw [Read.bind_of_ok read]
    rfl
  · rw [if_neg enough] at read ⊢
    rw [Read.bind_of_error read]

/-- **Every step is exact**, wherever in the buffer it is made. -/
theorem step_exact (inside : c.Inside buffer) (s : Step) : s.Exact buffer c := by
  cases s with
  | number w =>
    refine inside.exact (n := w.size) ?_ rfl
    rw [Step.read, Word.read_eq, bind_assoc]
    simp only [pure_bind]
    rfl
  | bytes n => exact inside.exact rfl rfl
  | skip n => exact inside.exact (congrFun (Step.read_skip n) c) rfl
  | align n positive =>
    -- At this place it is passing over the padding.
    exact inside.exact (congrFun (Step.read_skip _) c) (isLeast_align positive c.pos)

end Cursor.Inside

/-! ## Sequences of steps -/

namespace Step

/-- The cursor behind a step, or where the step failed. -/
def after (s : Step) (c : Cursor) : Cursor :=
  match s.read c with
  | .ok _ c' | .error _ c' => c'

theorem LeadsTo.le {s : Step} {pos stop : Nat} (h : s.LeadsTo pos stop) : pos ≤ stop := by
  cases s with
  | number | bytes | skip => exact h ▸ Nat.le_add_right _ _
  | align => exact h.1.2

/-- A step stays in the buffer and does not go back. -/
theorem Exact.after {buffer : List UInt8} {c : Cursor} {s : Step} (h : s.Exact buffer c)
    (inside : c.Inside buffer) : (s.after c).Inside buffer ∧ c.pos ≤ (s.after c).pos := by
  obtain ⟨stop, leads, read⟩ := h
  rw [Step.after, read]
  by_cases enough : stop ≤ buffer.length
  · rw [if_pos enough]
    exact ⟨⟨enough, rfl⟩, leads.le⟩
  · rw [if_neg enough]
    exact ⟨inside, Nat.le_refl _⟩

end Step

namespace Cursor

/-- The cursors that a sequence of steps goes through, from the first one to the last. A step that
fails does not keep the next one from being made. -/
def visited (c : Cursor) : List Step → List Cursor
  | [] => [c]
  | s :: steps => c :: (s.after c).visited steps

theorem Inside.visited {c : Cursor} {buffer : List UInt8} (inside : c.Inside buffer)
    (steps : List Step) :
    (c.visited steps).Pairwise (·.pos ≤ ·.pos) ∧
      ∀ c' ∈ c.visited steps, c'.Inside buffer ∧ c.pos ≤ c'.pos := by
  induction steps generalizing c with
  | nil =>
    refine ⟨List.pairwise_singleton .., fun c' mem => ?_⟩
    obtain rfl := List.mem_singleton.mp mem
    exact ⟨inside, Nat.le_refl _⟩
  | cons s steps ih =>
    obtain ⟨inside', forward⟩ := (inside.step_exact s).after inside
    obtain ⟨ascending, later⟩ := ih inside'
    have behind : ∀ c' ∈ (s.after c).visited steps, c'.Inside buffer ∧ c.pos ≤ c'.pos :=
      fun c' mem => ⟨(later c' mem).1, forward.trans (later c' mem).2⟩
    refine ⟨List.pairwise_cons.mpr ⟨fun c' mem => (behind c' mem).2, ascending⟩, ?_⟩
    exact List.forall_mem_cons.mpr ⟨⟨inside, Nat.le_refl _⟩, behind⟩

end Cursor

end Recompose.Bytes
