/-!
Sixteen-bit code units of a text. Encoding gives a character one unit or a surrogate pair; decoding
turns every unit that is no half of a pair into the replacement character, so it never fails.
-/

namespace Recompose.Text.Utf16

/-- The units of one character. -/
def encode (c : Char) : List UInt16 :=
  if c.toNat < 0x10000 then
    [UInt16.ofNat c.toNat]
  else
    [UInt16.ofNat (0xD800 + (c.toNat - 0x10000) / 0x400),
      UInt16.ofNat (0xDC00 + (c.toNat - 0x10000) % 0x400)]

def IsHigh (u : UInt16) : Prop :=
  0xD800 ≤ u.toNat ∧ u.toNat < 0xDC00

def IsLow (u : UInt16) : Prop :=
  0xDC00 ≤ u.toNat ∧ u.toNat < 0xE000

instance (u : UInt16) : Decidable (IsHigh u) :=
  inferInstanceAs (Decidable (_ ∧ _))

instance (u : UInt16) : Decidable (IsLow u) :=
  inferInstanceAs (Decidable (_ ∧ _))

/-- What stands for a half of a pair without the other half. -/
def replacement : Char := '\uFFFD'

/-- The character of a unit outside any pair. -/
def single (u : UInt16) : Char :=
  if IsHigh u ∨ IsLow u then replacement else Char.ofNat u.toNat

/-- The character of a surrogate pair. -/
def pair (high low : UInt16) : Char :=
  Char.ofNat (0x10000 + (high.toNat - 0xD800) * 0x400 + (low.toNat - 0xDC00))

/-- Decodes behind `done`, which holds the characters so far, last one first. -/
def decodeOnto (done : List Char) : List UInt16 → List Char
  | [] => done.reverse
  | [u] => (single u :: done).reverse
  | u :: v :: rest =>
    if IsHigh u ∧ IsLow v then
      decodeOnto (pair u v :: done) rest
    else
      decodeOnto (single u :: done) (v :: rest)

/-- The text of a sequence of units. -/
def decode (units : List UInt16) : List Char :=
  decodeOnto [] units

end Recompose.Text.Utf16
