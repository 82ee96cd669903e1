/-!
Numbers as bytes, most significant byte first.
-/

namespace Recompose.Bytes.BigEndian

/-- The number that the bytes spell. -/
def value (bytes : List UInt8) : Nat :=
  bytes.foldl (fun n b => n * 256 + b.toNat) 0

/-- The low `width` bytes of a number. -/
def digits : (width : Nat) → Nat → List UInt8
  | 0, _ => []
  | width + 1, n => UInt8.ofNat (n / Nat.pow 256 width) :: digits width n

def u16 (w : UInt16) : List UInt8 :=
  digits 2 w.toNat

def u32 (w : UInt32) : List UInt8 :=
  digits 4 w.toNat

def u64 (w : UInt64) : List UInt8 :=
  digits 8 w.toNat

end Recompose.Bytes.BigEndian
