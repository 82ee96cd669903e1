/-!
The shortest decimal inside a span of rationals. Grids of powers of ten are tried from coarse to
fine; the first grid with a point next to the middle that lies in the span gives the decimal, so no
decimal of a coarser grid lies in the span.
-/

namespace Recompose

/-- The number `digits * 10 ^ exponent`. -/
structure Decimal where
  digits : Nat
  exponent : Int
deriving DecidableEq, Repr

namespace Decimal

/-- The rationals around `mid / den` that stand for one value; the ends belong if `closed`. -/
structure Span where
  low : Nat
  mid : Nat
  high : Nat
  den : Nat
  closed : Bool
deriving DecidableEq, Repr

namespace Span

/-- Whether `point / den` lies in a span whose numerators are scaled by `factor`. -/
def covers (s : Span) (factor point : Nat) : Bool :=
  if s.closed then
    decide (s.low * factor ≤ point) && decide (point ≤ s.high * factor)
  else
    decide (s.low * factor < point) && decide (point < s.high * factor)

/-- The neighbour of the middle on the grid of `10 ^ k` that lies in the span; of two the nearer,
of two equally near the larger. -/
def onGrid? (s : Span) (k : Int) : Option Nat :=
  let factor := Nat.pow 10 (-k).toNat
  let step := s.den * Nat.pow 10 k.toNat
  let below := s.mid * factor / step
  match s.covers factor (below * step), s.covers factor ((below + 1) * step) with
  | true, true =>
    some (if 2 * (s.mid * factor) < (2 * below + 1) * step then below else below + 1)
  | true, false => some below
  | false, true => some (below + 1)
  | false, false => none

/-- Tries the grid of `10 ^ k` and `finer` finer ones. -/
def search (s : Span) (k : Int) : (finer : Nat) → Option Decimal
  | 0 => (s.onGrid? k).map fun d => ⟨d, k⟩
  | finer + 1 =>
    match s.onGrid? k with
    | some d => some ⟨d, k⟩
    | none => s.search (k - 1) finer

end Span

/-- The decimal in positional notation, without an exponent and without needless zeros. -/
def plain (d : Decimal) : String :=
  if 0 ≤ d.exponent then
    toString (d.digits * Nat.pow 10 d.exponent.toNat)
  else
    let places := (-d.exponent).toNat
    let whole := toString (d.digits / Nat.pow 10 places)
    let fraction := Nat.toDigits 10 (d.digits % Nat.pow 10 places)
    let padded := List.replicate (places - fraction.length) '0' ++ fraction
    let kept := (padded.reverse.dropWhile (· == '0')).reverse
    if kept.isEmpty then whole else whole ++ "." ++ String.ofList kept

end Decimal

end Recompose
