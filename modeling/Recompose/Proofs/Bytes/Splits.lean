import Mathlib.Data.List.Induction
import Recompose.Proofs.Bytes.Layout
import Recompose.Proofs.Bytes.Results

/-!
Readers against the bytes that they have taken. A reader that succeeds has taken a stretch of bytes
off the front; it would take the same stretch for the same value wherever it stood and whatever
followed. What is known of the stretch and the value is carried along by rules that follow the shape
of the reader: that its length is fixed, or that the reader would fail without its last byte. Two
readers that go over two stretches side by side have such rules too.
-/

namespace Recompose.Bytes

/-! ## Numbers -/

namespace BigEndian

theorem digits_concat (width n : Nat) (b : UInt8) :
    digits (width + 1) (n * 256 + b.toNat) = digits width n ++ [b] := by
  have small := b.toNat_lt
  induction width with
  | zero =>
    have last : UInt8.ofNat ((n * 256 + b.toNat) / 256 ^ 0) = b := by
      rw [← UInt8.toNat_inj, UInt8.toNat_ofNat', Nat.pow_zero, Nat.div_one]
      omega
    rw [digits, digits, digits, List.nil_append]
    exact congrArg (· :: []) last
  | succ width ih =>
    have first : (n * 256 + b.toNat) / 256 ^ (width + 1) = n / 256 ^ width := by
      rw [Nat.pow_succ', ← Nat.div_div_eq_div_mul]
      congr 1
      omega
    rw [digits, ih, digits, List.cons_append]
    exact congrArg (fun k => UInt8.ofNat k :: (digits width n ++ [b])) first

theorem value_concat (bytes : List UInt8) (b : UInt8) :
    value (bytes ++ [b]) = value bytes * 256 + b.toNat :=
  List.foldl_append

/-- Bytes are the digits of the number that they spell. -/
theorem digits_value (bytes : List UInt8) : digits bytes.length (value bytes) = bytes := by
  induction bytes using List.reverseRecOn with
  | nil => rfl
  | append_singleton bytes b ih =>
    rw [value_concat, List.length_append, List.length_singleton, digits_concat, ih]

theorem value_lt (bytes : List UInt8) : value bytes < 256 ^ bytes.length := by
  induction bytes using List.reverseRecOn with
  | nil => exact Nat.one_pos
  | append_singleton bytes b ih =>
    have small := b.toNat_lt
    rw [value_concat, List.length_append, List.length_singleton, Nat.pow_succ]
    omega

theorem u16_value {bytes : List UInt8} (h : bytes.length = 2) :
    u16 (UInt16.ofNat (value bytes)) = bytes := by
  have small := value_lt bytes
  rw [h] at small
  rw [u16, UInt16.toNat_ofNat_of_lt' small, ← h, digits_value]

theorem u32_value {bytes : List UInt8} (h : bytes.length = 4) :
    u32 (UInt32.ofNat (value bytes)) = bytes := by
  have small := value_lt bytes
  rw [h] at small
  rw [u32, UInt32.toNat_ofNat_of_lt' small, ← h, digits_value]

end BigEndian

namespace Read

variable {α β γ : Type}

/-- Where a sequence succeeds, so has its first part, and the second has gone on behind it. -/
theorem exists_of_bind_ok {p : Read α} {f : α → Read β} {c c' : Cursor} {b : β}
    (h : (p >>= f) c = .ok b c') : ∃ a k, p c = .ok a k ∧ f a k = .ok b c' := by
  change EStateM.bind p f c = .ok b c' at h
  unfold EStateM.bind at h
  split at h
  · next a k first => exact ⟨a, k, first, h⟩
  · cases h

/-- Where the reader succeeds it has taken bytes off the front, as it would take them anywhere and
whatever followed; these bytes and the value are in the relation. -/
structure Splits (p : Read α) (R : List UInt8 → α → Prop) : Prop where
  of_ok : ∀ {c a c'}, p c = .ok a c' →
    ∃ used, c.rest = used ++ c'.rest ∧ Takes p used a ∧ R used a

/-- On bytes that are cut off anywhere before their end the reader runs out of bytes. -/
def Starves (p : Read α) (bytes : List UInt8) : Prop :=
  ∀ pos cut, cut <+: bytes → cut ≠ bytes → ∃ k, p ⟨pos, cut⟩ = .error .outOfBounds k

/-- The bytes that the reader takes matter to it, down to the last one, and no others do. -/
abbrev Whole (p : Read α) : Prop :=
  Splits p fun used _ => Starves p used

/-- The reader takes just so many bytes. -/
abbrev Exact (p : Read α) (n : Nat) : Prop :=
  Splits p fun used _ => used.length = n

namespace Splits

variable {R : List UInt8 → α → Prop} {S : List UInt8 → β → Prop}

theorem mono {R' : List UInt8 → α → Prop} {p : Read α} (hp : Splits p R)
    (h : ∀ used a, R used a → R' used a) : Splits p R' := by
  refine ⟨fun ok => ?_⟩
  obtain ⟨used, split, takes, holds⟩ := hp.of_ok ok
  exact ⟨used, split, takes, h used _ holds⟩

theorem holds_of_takes {p : Read α} (hp : Splits p R) {bytes : List UInt8} {a : α}
    (h : Takes p bytes a) : R bytes a := by
  obtain ⟨used, split, -, holds⟩ := hp.of_ok (h 0 [])
  rw [List.append_nil, List.append_nil] at split
  obtain rfl : bytes = used := split
  exact holds

theorem exists_of_parse {p : Read α} (hp : Splits p R) {bytes : List UInt8} {a : α}
    (h : p.parse bytes = .ok a) : ∃ used rest, bytes = used ++ rest ∧ R used a := by
  rw [Read.parse] at h
  split at h
  · next k ok =>
    cases h
    obtain ⟨used, split, -, holds⟩ := hp.of_ok ok
    exact ⟨used, k.rest, split, holds⟩
  · cases h

theorem pure {a : α} (h : R [] a) : Splits (Pure.pure a : Read α) R := by
  refine ⟨fun ok => ?_⟩
  cases ok
  exact ⟨[], rfl, .pure a, h⟩

theorem throw (e : Error) : Splits (MonadExcept.throw e : Read α) R := ⟨nofun⟩

theorem lift (e : Except Error α) : Splits (liftM e : Read α) fun used a => used = [] ∧ e = .ok a := by
  cases e with
  | ok a => exact pure ⟨rfl, rfl⟩
  | error e => exact throw e

/-- What a sequence takes is what its parts take, one behind the other. -/
theorem bind {p : Read α} {f : α → Read β} (hp : Splits p R)
    (hf : ∀ first a, R first a → Splits (f a) fun second b => S (first ++ second) b) :
    Splits (p >>= f) S := by
  refine ⟨fun {c b c'} ok => ?_⟩
  obtain ⟨a, k, early, late⟩ := exists_of_bind_ok ok
  obtain ⟨first, split, takes, holds⟩ := hp.of_ok early
  obtain ⟨second, split', takes', both⟩ := (hf first a holds).of_ok late
  refine ⟨first ++ second, ?_, takes.bind takes', both⟩
  rw [split, split', List.append_assoc]

theorem bytes (n : Nat) : Splits (Read.bytes n) fun used taken => used = taken ∧ used.length = n := by
  refine ⟨fun {c taken c'} ok => ?_⟩
  dsimp only [Read.bytes] at ok
  split at ok
  · next enough =>
    cases ok
    refine ⟨c.rest.take n, (List.take_append_drop n c.rest).symm, ?_, rfl, enough⟩
    have takes := Takes.bytes (c.rest.take n)
    rwa [enough] at takes
  · cases ok

/-- What is made of the value does not count. -/
theorem map {p : Read α} (hp : Splits p R) (f : α → β) :
    Splits (do return f (← p)) fun used b => ∃ a, R used a ∧ f a = b := by
  refine bind hp fun first a holds => pure ⟨a, ?_, rfl⟩
  rwa [List.append_nil]

theorem number (n : Nat) :
    Splits (Read.number n) fun used v => used.length = n ∧ v = BigEndian.value used := by
  refine ((bytes n).map BigEndian.value).mono ?_
  rintro used _ ⟨_, ⟨rfl, length⟩, rfl⟩
  exact ⟨length, rfl⟩

theorem u8 : Splits Read.u8 fun used b => used = [b] := by
  refine ((number 1).map UInt8.ofNat).mono ?_
  rintro used _ ⟨_, ⟨length, rfl⟩, rfl⟩
  obtain ⟨b, rfl⟩ := List.length_eq_one_iff.mp length
  have same : UInt8.ofNat (BigEndian.value [b]) = b := by
    show UInt8.ofNat (0 * 256 + b.toNat) = b
    rw [Nat.zero_mul, Nat.zero_add, UInt8.ofNat_toNat]
  rw [same]

theorem u16 : Splits Read.u16 fun used w => used = BigEndian.u16 w := by
  refine ((number 2).map UInt16.ofNat).mono ?_
  rintro used _ ⟨_, ⟨length, rfl⟩, rfl⟩
  exact (BigEndian.u16_value length).symm

theorem u32 : Splits Read.u32 fun used w => used = BigEndian.u32 w := by
  refine ((number 4).map UInt32.ofNat).mono ?_
  rintro used _ ⟨_, ⟨length, rfl⟩, rfl⟩
  exact (BigEndian.u32_value length).symm

/-! ## Tables -/

theorem timesOnto {p : Read α} (hp : Splits p R) (done : List α) (n : Nat) :
    Splits (Read.timesOnto p done n) fun used all =>
      ∃ rows values, used = rows.flatten ∧ all = done.reverse ++ values ∧ values.length = n ∧
        List.Forall₂ R rows values := by
  induction n generalizing done with
  | zero => exact pure ⟨[], [], rfl, (List.append_nil _).symm, rfl, .nil⟩
  | succ n ih =>
    refine bind hp fun first a holds => (ih (a :: done)).mono ?_
    rintro _ _ ⟨rows, values, rfl, rfl, rfl, each⟩
    exact ⟨first :: rows, a :: values, rfl, by simp, rfl, .cons holds each⟩

/-- A number of values is taken row by row. -/
theorem times {p : Read α} (hp : Splits p R) (n : Nat) :
    Splits (Read.times n p) fun used values =>
      values.length = n ∧ ∃ rows, used = rows.flatten ∧ List.Forall₂ R rows values := by
  refine (timesOnto hp [] n).mono ?_
  rintro _ _ ⟨rows, values, rfl, rfl, length, each⟩
  exact ⟨length, rows, rfl, each⟩

/-- A table is taken as its count and its rows. -/
theorem counted {p : Read α} (hp : Splits p R) :
    Splits (Read.counted p) fun used values =>
      ∃ rows, used = Draft.table rows ∧ rows.length ≤ 65535 ∧ List.Forall₂ R rows values := by
  refine bind u16 fun _ n same => (times hp n.toNat).mono ?_
  rintro _ values ⟨length, rows, rfl, each⟩
  have few := n.toNat_lt
  have count : rows.length = n.toNat := each.length_eq.trans length
  refine ⟨rows, ?_, by omega, each⟩
  rw [Draft.table, count, UInt16.ofNat_toNat, same]

end Splits

/-! ## Bytes cut off -/

namespace Starves

variable {p : Read α} {f : α → Read β} {first second : List UInt8} {a : α}

theorem nil : Starves p [] := by
  intro pos cut before short
  exact absurd (List.prefix_nil.mp before) short

/-- What would be read behind does not count. -/
theorem bind_front (h : Starves p first) : Starves (p >>= f) first := by
  intro pos cut before short
  obtain ⟨k, fails⟩ := h pos cut before short
  exact ⟨k, bind_of_error fails⟩

/-- The cut lies in what the first reader takes, or in what the second one takes behind it. -/
theorem bind (takes : Takes p first a) (early : Starves p first) (late : Starves (f a) second) :
    Starves (p >>= f) (first ++ second) := by
  intro pos cut before short
  by_cases behind : first <+: cut
  · obtain ⟨cut, rfl⟩ := behind
    have before' : cut <+: second := (List.prefix_append_right_inj first).mp before
    have short' : cut ≠ second := by
      rintro rfl
      exact short rfl
    obtain ⟨k, fails⟩ := late (pos + first.length) cut before' short'
    exact ⟨k, (bind_of_ok (takes pos cut)).trans fails⟩
  · have before' : cut <+: first :=
      (List.prefix_or_prefix_of_prefix before (List.prefix_append ..)).resolve_right behind
    have short' : cut ≠ first := by
      rintro rfl
      exact behind List.prefix_rfl
    exact early.bind_front pos cut before' short'

end Starves

namespace Whole

theorem bind {p : Read α} {f : α → Read β} (hp : Whole p) (hf : ∀ a, Whole (f a)) :
    Whole (p >>= f) := by
  refine ⟨fun {c b c'} ok => ?_⟩
  obtain ⟨a, k, early, late⟩ := exists_of_bind_ok ok
  obtain ⟨first, split, takes, starves⟩ := hp.of_ok early
  obtain ⟨second, split', takes', starves'⟩ := (hf a).of_ok late
  refine ⟨first ++ second, ?_, takes.bind takes', starves.bind takes starves'⟩
  rw [split, split', List.append_assoc]

theorem pure (a : α) : Whole (Pure.pure a : Read α) := Splits.pure .nil

theorem map {p : Read α} (hp : Whole p) (f : α → β) : Whole (do return f (← p)) :=
  bind hp fun a => pure (f a)

theorem lift (e : Except Error α) : Whole (liftM e : Read α) := by
  cases e with
  | ok a => exact pure a
  | error e => exact Splits.throw e

theorem bytes (n : Nat) : Whole (Read.bytes n) := by
  refine (Splits.bytes n).mono ?_
  rintro used _ ⟨-, length⟩ pos cut before short
  have fewer : cut.length < n := by
    have := before.length_le
    have : cut.length ≠ used.length := fun same => short (before.eq_of_length same)
    omega
  have few : (cut.take n).length ≠ n := by
    rw [List.length_take]
    omega
  exact ⟨_, if_neg few⟩

theorem skip (n : Nat) : Whole (Read.skip n) := (bytes n).map fun _ => ()

theorem number (n : Nat) : Whole (Read.number n) := (bytes n).map BigEndian.value

theorem u8 : Whole Read.u8 := (number 1).map UInt8.ofNat

theorem u16 : Whole Read.u16 := (number 2).map UInt16.ofNat

theorem u32 : Whole Read.u32 := (number 4).map UInt32.ofNat

theorem i32 : Whole Read.i32 := u32.map UInt32.toInt32

theorem u64 : Whole Read.u64 := (number 8).map UInt64.ofNat

theorem i64 : Whole Read.i64 := u64.map UInt64.toInt64

theorem timesOnto {p : Read α} (hp : Whole p) (done : List α) (n : Nat) :
    Whole (Read.timesOnto p done n) := by
  induction n generalizing done with
  | zero => exact pure _
  | succ n ih => exact bind hp fun a => ih (a :: done)

theorem counted {p : Read α} (hp : Whole p) : Whole (Read.counted p) :=
  bind u16 fun n => timesOnto hp [] n.toNat

end Whole

/-! ## Readers of a fixed number of bytes -/

namespace Exact

theorem bind {p : Read α} {f : α → Read β} {m n : Nat} (hp : Exact p m)
    (hf : ∀ a, Exact (f a) n) : Exact (p >>= f) (m + n) := by
  refine Splits.bind hp fun first a length => (hf a).mono ?_
  rintro second _ rfl
  rw [← length]
  exact List.length_append

theorem pure (a : α) : Exact (Pure.pure a : Read α) 0 := Splits.pure rfl

theorem lift (e : Except Error α) : Exact (liftM e : Read α) 0 :=
  (Splits.lift e).mono fun _ _ h => congrArg List.length h.1

theorem map {p : Read α} {n : Nat} (hp : Exact p n) (f : α → β) :
    Exact (do return f (← p)) n :=
  bind hp fun a => pure (f a)

theorem bytes (n : Nat) : Exact (Read.bytes n) n := (Splits.bytes n).mono fun _ _ h => h.2

theorem skip (n : Nat) : Exact (Read.skip n) n := (bytes n).map fun _ => ()

theorem number (n : Nat) : Exact (Read.number n) n := (bytes n).map BigEndian.value

theorem u8 : Exact Read.u8 1 := (number 1).map UInt8.ofNat

theorem i8 : Exact Read.i8 1 := u8.map UInt8.toInt8

theorem u16 : Exact Read.u16 2 := (number 2).map UInt16.ofNat

theorem i16 : Exact Read.i16 2 := u16.map UInt16.toInt16

theorem u32 : Exact Read.u32 4 := (number 4).map UInt32.ofNat

theorem i32 : Exact Read.i32 4 := u32.map UInt32.toInt32

theorem u64 : Exact Read.u64 8 := (number 8).map UInt64.ofNat

theorem i64 : Exact Read.i64 8 := u64.map UInt64.toInt64

theorem times {p : Read α} {m : Nat} (hp : Exact p m) (n : Nat) : Exact (Read.times n p) (n * m) := by
  refine (Splits.times hp n).mono ?_
  rintro _ values ⟨rfl, rows, rfl, each⟩
  induction each with
  | nil => simp
  | cons length _ ih =>
    rw [List.flatten_cons, List.length_append, ih, length, List.length_cons, Nat.succ_mul,
      Nat.add_comm]

end Exact

/-! ## From a place on -/

/-- Where the reader succeeds at the place, it has taken bytes off the front, and these and the value
are in the relation. -/
structure SplitsAt (pos : Nat) (p : Read α) (R : List UInt8 → α → Prop) : Prop where
  of_ok : ∀ {bytes a k}, p ⟨pos, bytes⟩ = .ok a k →
    ∃ used, bytes = used ++ k.rest ∧ k.pos = pos + used.length ∧ R used a

namespace SplitsAt

variable {pos : Nat} {R : List UInt8 → α → Prop} {S : List UInt8 → β → Prop}

theorem of {p : Read α} (hp : Splits p R) : SplitsAt pos p R := by
  refine ⟨fun {bytes a k} ok => ?_⟩
  obtain ⟨used, split, takes, holds⟩ := hp.of_ok ok
  have stop := takes pos k.rest
  dsimp only at split
  rw [← split, ok] at stop
  injection stop with _ stop
  exact ⟨used, split, congrArg Cursor.pos stop, holds⟩

theorem mono {T : List UInt8 → α → Prop} {p : Read α} (hp : SplitsAt pos p R)
    (h : ∀ used a, R used a → T used a) : SplitsAt pos p T := by
  refine ⟨fun ok => ?_⟩
  obtain ⟨used, split, stop, holds⟩ := hp.of_ok ok
  exact ⟨used, split, stop, h used _ holds⟩

theorem throw (e : Error) : SplitsAt pos (MonadExcept.throw e) R := ⟨nofun⟩

/-- There is one way to take bytes off the front. -/
theorem and {T : List UInt8 → α → Prop} {p : Read α} (hp : SplitsAt pos p R)
    (hp' : SplitsAt pos p T) : SplitsAt pos p fun used a => R used a ∧ T used a := by
  refine ⟨fun ok => ?_⟩
  obtain ⟨used, rfl, stop, holds⟩ := hp.of_ok ok
  obtain ⟨used', split, -, holds'⟩ := hp'.of_ok ok
  obtain rfl := List.append_cancel_right split
  exact ⟨used, rfl, stop, holds, holds'⟩

/-- What comes behind may depend on the bytes in front. -/
theorem bind {p : Read α} {f : α → Read β} (hp : SplitsAt pos p R)
    (hf : ∀ first a, R first a →
      SplitsAt (pos + first.length) (f a) fun second b => S (first ++ second) b) :
    SplitsAt pos (p >>= f) S := by
  refine ⟨fun {bytes b k'} ok => ?_⟩
  obtain ⟨a, ⟨_, _⟩, early, late⟩ := exists_of_bind_ok ok
  obtain ⟨first, rfl, rfl, holds⟩ := hp.of_ok early
  obtain ⟨second, rfl, stop, both⟩ := (hf first a holds).of_ok late
  refine ⟨first ++ second, (List.append_assoc ..).symm, ?_, both⟩
  rw [stop, List.length_append, Nat.add_assoc]

theorem map {p : Read α} (hp : SplitsAt pos p R) (f : α → β) :
    SplitsAt pos (do return f (← p)) fun used b => ∃ a, R used a ∧ f a = b := by
  refine bind hp fun first a holds => of (Splits.pure ⟨a, ?_, rfl⟩)
  rwa [List.append_nil]

theorem position : SplitsAt pos Read.position fun used a => used = [] ∧ a = pos := by
  refine ⟨fun ok => ?_⟩
  cases ok
  exact ⟨[], rfl, rfl, rfl, rfl⟩

theorem align (n : Nat) :
    SplitsAt pos (Read.align n) fun used _ => used.length = (n - pos % n) % n := by
  refine bind position ?_
  rintro _ _ ⟨rfl, rfl⟩
  exact of (Exact.skip _)

theorem i32 : SplitsAt pos Read.i32 fun used n => used = BigEndian.u32 n.toUInt32 := by
  refine (of (Splits.u32.map UInt32.toInt32)).mono ?_
  rintro _ _ ⟨w, rfl, rfl⟩
  rw [UInt32.toUInt32_toInt32]

end SplitsAt

/-! ## Two readers side by side -/

/-- Where the first reader succeeds, at the place and on the first bytes with any others behind, it
stops behind them, and the second one gives the same on the second bytes and stops there too. -/
structure Follows (pos : Nat) (p q : Read α) (bytes bytes' : List UInt8) : Prop where
  of_ok : ∀ {rest a k}, p ⟨pos, bytes ++ rest⟩ = .ok a k →
    k = ⟨pos + bytes.length, rest⟩ ∧
      ∀ rest', q ⟨pos, bytes' ++ rest'⟩ = .ok a ⟨pos + bytes.length, rest'⟩

namespace Follows

variable {pos : Nat} {p q : Read α} {first first' second second' : List UInt8}

theorem pure (a : α) : Follows pos (Pure.pure a) (Pure.pure a) [] [] := by
  refine ⟨fun ok => ?_⟩
  cases ok
  exact ⟨rfl, fun _ => rfl⟩

theorem throw (e : Error) : Follows pos (MonadExcept.throw e) q first second := ⟨nofun⟩

theorem lift {e e' : Except Error α} (h : Agrees e e') :
    Follows pos (liftM e : Read α) (liftM e' : Read α) [] [] := by
  cases ends : e with
  | ok a =>
    rw [h.of_ok ends]
    exact pure a
  | error e => exact throw e

/-- A reader of a fixed number of bytes. -/
theorem same {n : Nat} (hp : Exact p n) {bytes : List UInt8} (h : bytes.length = n) :
    Follows pos p p bytes bytes := by
  refine ⟨fun {rest a k} ok => ?_⟩
  obtain ⟨used, split, takes, length⟩ := hp.of_ok ok
  obtain ⟨rfl, -⟩ := List.append_inj split (h.trans length.symm)
  rw [takes pos] at ok
  cases ok
  exact ⟨rfl, takes pos⟩

/-- Bytes that are passed over need not be the same. -/
theorem skip {n : Nat} {bytes bytes' : List UInt8} (h : bytes.length = n)
    (h' : bytes'.length = bytes.length) :
    Follows pos (Read.skip n) (Read.skip n) bytes bytes' := by
  subst h
  refine ⟨fun {rest a k} ok => ?_⟩
  rw [Takes.skip bytes pos] at ok
  cases ok
  have passed := Takes.skip bytes' pos
  rw [h'] at passed
  exact ⟨rfl, passed⟩

theorem bind {f g : α → Read β} (hp : Follows pos p q first first')
    (hf : ∀ a, Follows (pos + first.length) (f a) (g a) second second') :
    Follows pos (p >>= f) (q >>= g) (first ++ second) (first' ++ second') := by
  refine ⟨fun {rest b k} ok => ?_⟩
  rw [List.append_assoc] at ok
  obtain ⟨a, _, early, late⟩ := exists_of_bind_ok ok
  obtain ⟨rfl, early'⟩ := hp.of_ok early
  obtain ⟨rfl, late'⟩ := (hf a).of_ok late
  rw [List.length_append, ← Nat.add_assoc]
  refine ⟨rfl, fun rest' => ?_⟩
  rw [List.append_assoc, bind_of_ok (early' _)]
  exact late' rest'

/-- In front each reader takes what is known, not the same value. -/
theorem bind_takes {p : Read α} {q : Read γ} {f : α → Read β} {g : γ → Read β} {a : α} {c : γ}
    (hp : Takes p first a) (hq : Takes q first' c) (length : first'.length = first.length)
    (hf : Follows (pos + first.length) (f a) (g c) second second') :
    Follows pos (p >>= f) (q >>= g) (first ++ second) (first' ++ second') := by
  refine ⟨fun {rest b k} ok => ?_⟩
  rw [List.append_assoc, bind_of_ok (hp pos _)] at ok
  obtain ⟨rfl, late'⟩ := hf.of_ok ok
  rw [List.length_append, ← Nat.add_assoc]
  refine ⟨rfl, fun rest' => ?_⟩
  rw [List.append_assoc, bind_of_ok (hq pos _), length]
  exact late' rest'

theorem bind_u8 {f g : UInt8 → Read β} {b : UInt8}
    (hf : Follows (pos + 1) (f b) (g b) second second') :
    Follows pos (Read.u8 >>= f) (Read.u8 >>= g) (b :: second) (b :: second') :=
  bind_takes (Takes.u8 b) (Takes.u8 b) rfl hf

/-- A reader that takes nothing in front of both. -/
theorem bind_nil {f g : α → Read β} (hp : Follows pos p q [] [])
    (hf : ∀ a, Follows pos (f a) (g a) second second') :
    Follows pos (p >>= f) (q >>= g) second second' :=
  bind hp hf

theorem bind_last {f g : α → Read β} (hp : Follows pos p q first first')
    (hf : ∀ a, Follows (pos + first.length) (f a) (g a) [] []) :
    Follows pos (p >>= f) (q >>= g) first first' := by
  have whole := bind hp hf
  rwa [List.append_nil, List.append_nil] at whole

theorem bind_position {f g : Nat → Read β} (hf : Follows pos (f pos) (g pos) second second') :
    Follows pos (Read.position >>= f) (Read.position >>= g) second second' :=
  ⟨hf.of_ok⟩

theorem align {n : Nat} {padding : List UInt8} (h : padding.length = (n - pos % n) % n) :
    Follows pos (Read.align n) (Read.align n) padding padding :=
  bind_position (same (.skip _) h)

end Follows

end Read

end Recompose.Bytes
