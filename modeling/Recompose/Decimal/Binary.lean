import Recompose.Decimal.Shortest

/-!
Binary floating-point numbers by their bits, and their shortest decimal text: the text of a finite
number names a decimal that rounds back to it, and no coarser decimal next to it does.
-/

namespace Recompose.Decimal

/-- The widths of the two fields below the sign bit. -/
structure BinaryFormat where
  fractionBits : Nat
  exponentBits : Nat
deriving DecidableEq, Repr

namespace BinaryFormat

def single : BinaryFormat := ⟨23, 8⟩

def double : BinaryFormat := ⟨52, 11⟩

end BinaryFormat

/-- What the bits of a number say. -/
inductive Binary where
  | nan
  | infinite (negative : Bool)
  /-- The number `significand * 2 ^ exponent`; `atPower` if the gap below it is half the gap above. -/
  | finite (negative : Bool) (significand : Nat) (exponent : Int) (atPower : Bool)
deriving DecidableEq, Repr

namespace Binary

def ofBits (format : BinaryFormat) (bits : Nat) : Binary :=
  let hidden := Nat.pow 2 format.fractionBits
  let fields := Nat.pow 2 format.exponentBits
  let fraction := bits % hidden
  let field := bits / hidden % fields
  let negative := bits / (hidden * fields) % 2 == 1
  let bias : Int := Nat.pow 2 (format.exponentBits - 1) - 1
  if field = fields - 1 then
    if fraction = 0 then infinite negative else nan
  else if field = 0 then
    finite negative fraction (1 - bias - format.fractionBits) false
  else
    finite negative (hidden + fraction) (field - bias - format.fractionBits)
      (fraction == 0 && field != 1)

/-- The rationals that round to `significand * 2 ^ exponent`; the ends round to it if the significand
is even. -/
def span (significand : Nat) (exponent : Int) (atPower : Bool) : Span :=
  let quarter := exponent - 2
  let scale := Nat.pow 2 quarter.toNat
  { low := (4 * significand - (if atPower then 1 else 2)) * scale
    mid := 4 * significand * scale
    high := (4 * significand + 2) * scale
    den := Nat.pow 2 (-quarter).toNat
    closed := significand % 2 == 0 }

/-- The words and signs around the digits of a number. -/
structure Style where
  minus : String
  infinity : String
  notANumber : String

/-- Numbers in instruction listings. A zero keeps its sign; a not-a-number has none. -/
def listing : Style := ⟨"-", "inf", "NaN"⟩

/-- The coarsest grid tried is above every double, the finest below the gap of the smallest one. -/
def shortest (significand : Nat) (exponent : Int) (atPower : Bool) : Decimal :=
  ((span significand exponent atPower).search 309 640).getD ⟨0, 0⟩

def text (style : Style) : Binary → String
  | nan => style.notANumber
  | infinite negative => (if negative then style.minus else "") ++ style.infinity
  | finite negative significand exponent atPower =>
    (if negative then style.minus else "") ++
      (if significand = 0 then "0" else (shortest significand exponent atPower).plain)

end Binary

def singleText (bits : UInt32) : String :=
  (Binary.ofBits .single bits.toNat).text Binary.listing

def doubleText (bits : UInt64) : String :=
  (Binary.ofBits .double bits.toNat).text Binary.listing

end Recompose.Decimal
