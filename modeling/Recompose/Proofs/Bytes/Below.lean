import Recompose.Proofs.Bytes.Splits

/-!
Readers that cannot be told apart while few bytes are left. A reader that calls itself behind bytes
that it has read does not get deeper than there are bytes, so whatever is put in the place of deeper
calls does not show. The rules follow the shape of the readers.
-/

namespace Recompose.Bytes.Read

variable {α β : Type}

/-- The reader takes at least so many bytes. -/
abbrev AtLeast (p : Read α) (n : Nat) : Prop :=
  Splits p fun used _ => n ≤ used.length

theorem AtLeast.length_rest {p : Read α} {n : Nat} (hp : AtLeast p n) {c c' : Cursor} {a : α}
    (ok : p c = .ok a c') : c'.rest.length + n ≤ c.rest.length := by
  obtain ⟨used, split, -, enough⟩ := hp.of_ok ok
  rw [split, List.length_append]
  omega

/-- With fewer than `n` bytes left the two readers do the same. -/
structure AgreeBelow (n : Nat) (p q : Read α) : Prop where
  same : ∀ {c : Cursor}, c.rest.length < n → p c = q c

namespace AgreeBelow

variable {n k : Nat} {p q : Read α} {R : List UInt8 → α → Prop}

theorem refl (n : Nat) (p : Read α) : AgreeBelow n p p :=
  ⟨fun _ => rfl⟩

theorem zero (p q : Read α) : AgreeBelow 0 p q :=
  ⟨fun few => absurd few (Nat.not_lt_zero _)⟩

theorem mono (h : AgreeBelow n p q) (fewer : k ≤ n) : AgreeBelow k p q :=
  ⟨fun few => h.same (Nat.lt_of_lt_of_le few fewer)⟩

/-- What is read in front is no longer left behind. -/
theorem bind {f g : α → Read β} (h : AgreeBelow (n + k) p q) (hq : AtLeast q k)
    (hf : ∀ a, AgreeBelow n (f a) (g a)) : AgreeBelow (n + k) (p >>= f) (q >>= g) := by
  refine ⟨fun {c} few => ?_⟩
  have front := h.same few
  cases ends : q c with
  | ok a c' =>
    have less := hq.length_rest ends
    rw [bind_of_ok (front.trans ends), bind_of_ok ends]
    exact (hf a).same (by omega)
  | error e c' => rw [bind_of_error (front.trans ends), bind_of_error ends]

/-- The same reader in front of both. -/
theorem behind {f g : α → Read β} (hp : Exact p k) (hf : ∀ a, AgreeBelow n (f a) (g a)) :
    AgreeBelow (n + k) (p >>= f) (p >>= g) :=
  bind (refl _ p) (hp.mono fun _ _ length => Nat.le_of_eq length.symm) hf

theorem bind_front {f g : α → Read β} (h : AgreeBelow n p q) (hq : Splits q R)
    (hf : ∀ a, AgreeBelow n (f a) (g a)) : AgreeBelow n (p >>= f) (q >>= g) :=
  bind (k := 0) h (hq.mono fun _ _ _ => Nat.zero_le _) hf

theorem map (h : AgreeBelow n p q) (hq : Splits q R) (f : α → β) :
    AgreeBelow n (do return f (← p)) (do return f (← q)) :=
  h.bind_front hq fun a => refl n (pure (f a))

theorem timesOnto (h : AgreeBelow n p q) (hq : Splits q R) (done : List α) (count : Nat) :
    AgreeBelow n (Read.timesOnto p done count) (Read.timesOnto q done count) := by
  induction count generalizing done with
  | zero => exact refl n _
  | succ count ih => exact h.bind_front hq fun a => ih (a :: done)

theorem counted (h : AgreeBelow n p q) (hq : Splits q R) :
    AgreeBelow (n + 2) (Read.counted p) (Read.counted q) :=
  .behind Exact.u16 fun count => h.timesOnto hq [] count.toNat

theorem parse (h : AgreeBelow n p q) {bytes : List UInt8} (few : bytes.length < n) :
    p.parse bytes = q.parse bytes := by
  rw [Read.parse, Read.parse, h.same (c := .ofBytes bytes) few]

end AgreeBelow

end Recompose.Bytes.Read
