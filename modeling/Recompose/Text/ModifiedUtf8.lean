import Recompose.Error
import Recompose.Text.Utf16

/-!
The text encoding of class files. Every sixteen-bit unit is written on its own in one to three
bytes, the zero unit in two, so an encoded text holds no zero byte and a character outside the
basic plane takes six bytes.
-/

namespace Recompose.Text.ModifiedUtf8

/-! ## Writing -/

/-- The bytes of one unit. -/
def encodeUnit (u : UInt16) : List UInt8 :=
  let n := u.toNat
  if 0 < n ∧ n < 0x80 then
    [UInt8.ofNat n]
  else if n < 0x800 then
    [UInt8.ofNat (0xC0 + n / 64), UInt8.ofNat (0x80 + n % 64)]
  else
    [UInt8.ofNat (0xE0 + n / 4096), UInt8.ofNat (0x80 + n / 64 % 64), UInt8.ofNat (0x80 + n % 64)]

def encode (s : String) : List UInt8 :=
  s.toList.flatMap fun c => (Utf16.encode c).flatMap encodeUnit

/-! ## Reading -/

/-- The unit of a two-byte sequence; only the low six bits of the second byte count. -/
def twoBytes (a b : UInt8) : UInt16 :=
  UInt16.ofNat (a.toNat % 32 * 64 + b.toNat % 64)

/-- The unit of a three-byte sequence; only the low six bits of the later bytes count. -/
def threeBytes (a b c : UInt8) : UInt16 :=
  UInt16.ofNat (a.toNat % 16 * 4096 + b.toNat % 64 * 64 + c.toNat % 64)

/-- Splits the bytes into sequences behind `done`, which holds the units so far, last one first. -/
def unitsOnto (done : List UInt16) : List UInt8 → Except Error (List UInt16)
  | [] => .ok done.reverse
  | a :: rest =>
    if 0x01 ≤ a ∧ a ≤ 0x7F then
      unitsOnto (a.toUInt16 :: done) rest
    else if 0xC0 ≤ a ∧ a ≤ 0xDF then
      match rest with
      | b :: rest => unitsOnto (twoBytes a b :: done) rest
      | [] => .error (.malformed .truncatedText)
    else if 0xE0 ≤ a ∧ a ≤ 0xEF then
      match rest with
      | b :: c :: rest => unitsOnto (threeBytes a b c :: done) rest
      | _ => .error (.malformed .truncatedText)
    else
      .error (.malformed (.leadByte a))

def units (bytes : List UInt8) : Except Error (List UInt16) :=
  unitsOnto [] bytes

def isAscii (bytes : List UInt8) : Bool :=
  bytes.all (· < 0x80)

/-- Bytes below 128 throughout are taken as they are, zero bytes too; all others go by units. -/
def decode (bytes : List UInt8) : Except Error String :=
  if isAscii bytes then
    .ok (String.ofList (bytes.map fun b => Char.ofNat b.toNat))
  else
    (units bytes).map fun us => String.ofList (Utf16.decode us)

end Recompose.Text.ModifiedUtf8
