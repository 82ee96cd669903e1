import Mathlib.Data.List.Forall2
import Mathlib.Tactic.Ring
import Recompose.Assembly.Draft

/-!
Readers against the bytes that are laid out for them: numbers, texts of a known length, and tables
that are led by a count.
-/

namespace Recompose.Bytes

/-! ## Numbers -/

namespace BigEndian

@[simp] theorem length_digits (width n : Nat) : (digits width n).length = width := by
  induction width with
  | zero => rfl
  | succ width ih => rw [digits, List.length_cons, ih]

@[simp] theorem length_u16 (w : UInt16) : (u16 w).length = 2 := length_digits 2 _

@[simp] theorem length_u32 (w : UInt32) : (u32 w).length = 4 := length_digits 4 _

/-- Digits behind a number are its low bytes. -/
theorem foldl_digits (width n start : Nat) :
    (digits width n).foldl (fun n b => n * 256 + b.toNat) start =
      start * 256 ^ width + n % 256 ^ width := by
  induction width generalizing start with
  | zero => simp [digits, Nat.mod_one]
  | succ width ih =>
    have first : digits (width + 1) n = UInt8.ofNat (n / 256 ^ width) :: digits width n := rfl
    have byte : (UInt8.ofNat (n / 256 ^ width)).toNat = n / 256 ^ width % 256 := UInt8.toNat_ofNat'
    rw [first, List.foldl_cons, ih, byte, Nat.pow_succ, Nat.mod_mul]
    ring

theorem value_digits {width n : Nat} (h : n < 256 ^ width) : value (digits width n) = n := by
  rw [value, foldl_digits, Nat.zero_mul, Nat.zero_add, Nat.mod_eq_of_lt h]

end BigEndian

/-! ## What a reader takes -/

namespace Read

variable {α β : Type}

/-- The reader takes exactly the bytes and gives the value, wherever they stand and whatever
follows. -/
def Takes (p : Read α) (bytes : List UInt8) (a : α) : Prop :=
  ∀ pos rest, p ⟨pos, bytes ++ rest⟩ = .ok a ⟨pos + bytes.length, rest⟩

/-- Where the first reader succeeds, the second goes on behind it. -/
theorem bind_of_ok {p : Read α} {f : α → Read β} {c c' : Cursor} {a : α} (h : p c = .ok a c') :
    (p >>= f) c = f a c' := by
  show EStateM.bind p f c = f a c'
  rw [EStateM.bind, h]

/-- Where the first reader fails, so does the sequence. -/
theorem bind_of_error {p : Read α} {f : α → Read β} {c k : Cursor} {e : Error}
    (h : p c = .error e k) : (p >>= f) c = .error e k := by
  show EStateM.bind p f c = .error e k
  rw [EStateM.bind, h]

namespace Takes

theorem pure (a : α) : Takes (Pure.pure a : Read α) [] a :=
  fun _ _ => rfl

theorem bind {p : Read α} {f : α → Read β} {first second : List UInt8} {a : α} {b : β}
    (hp : Takes p first a) (hf : Takes (f a) second b) : Takes (p >>= f) (first ++ second) b := by
  intro pos rest
  rw [List.append_assoc, bind_of_ok (hp pos _), List.length_append, ← Nat.add_assoc]
  exact hf _ rest

/-- A reader in front that takes nothing. -/
theorem bind_nil {p : Read α} {f : α → Read β} {bytes : List UInt8} {a : α} {b : β}
    (hp : Takes p [] a) (hf : Takes (f a) bytes b) : Takes (p >>= f) bytes b :=
  bind hp hf

/-- A reader behind that takes nothing. -/
theorem bind_last {p : Read α} {f : α → Read β} {bytes : List UInt8} {a : α} {b : β}
    (hp : Takes p bytes a) (hf : Takes (f a) [] b) : Takes (p >>= f) bytes b := by
  have := bind hp hf
  rwa [List.append_nil] at this

theorem map {p : Read α} {bytes : List UInt8} {a : α} (hp : Takes p bytes a) (f : α → β) :
    Takes (do return f (← p)) bytes (f a) :=
  hp.bind_last (pure (f a))

theorem lift {e : Except Error α} {a : α} (h : e = .ok a) : Takes (liftM e : Read α) [] a := by
  subst h
  exact pure a

theorem bytes (taken : List UInt8) : Takes (Read.bytes taken.length) taken taken := by
  intro pos rest
  have front : (taken ++ rest).take taken.length = taken := List.take_left
  rw [Read.bytes, front, List.drop_left]
  exact if_pos rfl

theorem skip (passed : List UInt8) : Takes (Read.skip passed.length) passed () :=
  (bytes passed).map fun _ => ()

theorem number (width : Nat) {n : Nat} (h : n < 256 ^ width) :
    Takes (Read.number width) (BigEndian.digits width n) n := by
  have read := (bytes (BigEndian.digits width n)).map BigEndian.value
  rwa [BigEndian.length_digits, BigEndian.value_digits h] at read

theorem u8 (b : UInt8) : Takes Read.u8 [b] b := by
  have read := (bytes [b]).map fun bytes => UInt8.ofNat (BigEndian.value bytes)
  have same : UInt8.ofNat (BigEndian.value [b]) = b := by
    show UInt8.ofNat (0 * 256 + b.toNat) = b
    rw [Nat.zero_mul, Nat.zero_add, UInt8.ofNat_toNat]
  rwa [same] at read

theorem u16 (w : UInt16) : Takes Read.u16 (BigEndian.u16 w) w := by
  have read := (number 2 w.toNat_lt).map UInt16.ofNat
  rwa [UInt16.ofNat_toNat] at read

theorem u32 (w : UInt32) : Takes Read.u32 (BigEndian.u32 w) w := by
  have read := (number 4 w.toNat_lt).map UInt32.ofNat
  rwa [UInt32.ofNat_toNat] at read

theorem u64 (w : UInt64) : Takes Read.u64 (BigEndian.u64 w) w := by
  have read := (number 8 w.toNat_lt).map UInt64.ofNat
  rwa [UInt64.ofNat_toNat] at read

theorem i8 (b : UInt8) : Takes Read.i8 [b] b.toInt8 :=
  (u8 b).map UInt8.toInt8

theorem i16 (n : Int16) : Takes Read.i16 (BigEndian.u16 n.toUInt16) n :=
  (u16 n.toUInt16).map UInt16.toInt16

theorem i32 (n : Int32) : Takes Read.i32 (BigEndian.u32 n.toUInt32) n :=
  (u32 n.toUInt32).map UInt32.toInt32

theorem i64 (n : Int64) : Takes Read.i64 (BigEndian.u64 n.toUInt64) n :=
  (u64 n.toUInt64).map UInt64.toInt64

/-! ## Tables -/

theorem timesOnto {p : Read α} {rows : List (List UInt8)} {values : List α}
    (each : List.Forall₂ (Takes p) rows values) (done : List α) :
    Takes (Read.timesOnto p done values.length) rows.flatten (done.reverse ++ values) := by
  induction each generalizing done with
  | nil =>
    rw [List.append_nil]
    exact pure _
  | @cons row value rows values first _ ih =>
    have next := ih (value :: done)
    rw [List.reverse_cons, List.append_assoc] at next
    exact bind first next

theorem counted {p : Read α} {rows : List (List UInt8)} {values : List α}
    (each : List.Forall₂ (Takes p) rows values) (few : rows.length ≤ 65535) :
    Takes (Read.counted p) (Draft.table rows) values := by
  have count : (UInt16.ofNat rows.length).toNat = values.length := by
    rw [← each.length_eq]
    exact UInt16.toNat_ofNat_of_lt' (Nat.lt_succ_of_le few)
  refine bind (u16 _) ?_
  rw [count]
  exact timesOnto each []

/-- The rows of a table are shorter than it. -/
theorem counted_of_shorter {p : Read α} {R : List UInt8 → α → Prop} {rows : List (List UInt8)}
    {values : List α} (few : rows.length ≤ 65535) (each : List.Forall₂ R rows values)
    (shorter : ∀ {row a}, row.length < (Draft.table rows).length → R row a → Takes p row a) :
    Takes (Read.counted p) (Draft.table rows) values := by
  have short : ∀ row ∈ rows, row.length < (Draft.table rows).length := by
    intro row mem
    have inside := (List.sublist_flatten_of_mem mem).length_le
    rw [Draft.table, List.length_append, BigEndian.length_u16]
    omega
  have both := (List.forall₂_and_left ..).mpr ⟨short, each⟩
  exact counted (both.imp fun row a known => shorter known.1 known.2) few

end Takes

/-! ## Up to the end -/

/-- The reader takes exactly the bytes where no more follow. -/
def Ends (p : Read α) (bytes : List UInt8) (a : α) : Prop :=
  ∀ pos, p ⟨pos, bytes⟩ = .ok a ⟨pos + bytes.length, []⟩

namespace Ends

theorem bind {p : Read α} {f : α → Read β} {first second : List UInt8} {a : α} {b : β}
    (hp : Takes p first a) (hf : Ends (f a) second b) : Ends (p >>= f) (first ++ second) b := by
  intro pos
  rw [bind_of_ok (hp pos second), List.length_append, ← Nat.add_assoc]
  exact hf _

theorem bind_nil {p : Read α} {f : α → Read β} {bytes : List UInt8} {a : α} {b : β}
    (hp : Takes p [] a) (hf : Ends (f a) bytes b) : Ends (p >>= f) bytes b :=
  bind hp hf

/-- What is done last, when no bytes are left. -/
theorem bind_last {p : Read α} {f : α → Read β} {bytes : List UInt8} {a : α} {b : β}
    (hp : Takes p bytes a) (hf : Ends (f a) [] b) : Ends (p >>= f) bytes b := by
  have := bind hp hf
  rwa [List.append_nil] at this

theorem parse {p : Read α} {bytes : List UInt8} {a : α} (hp : Ends p bytes a) :
    p.parse bytes = .ok a := by
  rw [Read.parse, Cursor.ofBytes, hp 0]

end Ends

theorem Takes.ends {p : Read α} {bytes : List UInt8} {a : α} (hp : Takes p bytes a) :
    Ends p bytes a := by
  intro pos
  have whole := hp pos []
  rwa [List.append_nil] at whole

/-- What follows is ignored. -/
theorem Takes.parse_append {p : Read α} {bytes : List UInt8} {a : α} (hp : Takes p bytes a)
    (rest : List UInt8) : p.parse (bytes ++ rest) = .ok a := by
  rw [Read.parse, Cursor.ofBytes, hp 0]

theorem Takes.parse {p : Read α} {bytes : List UInt8} {a : α} (hp : Takes p bytes a) :
    p.parse bytes = .ok a :=
  hp.ends.parse

end Read

end Recompose.Bytes
