import Recompose.Text.ModifiedUtf8

/-!
Texts survive their encoding. Every unit is read back from its bytes, every character from its units,
and an encoded text of low bytes alone is that of the characters with these numbers.
-/

namespace Recompose.Text

/-! ## Units and characters -/

namespace Utf16

/-- A character is no half of a surrogate pair and has a number below 0x110000. -/
theorem toNat_bounds (c : Char) :
    c.toNat < 0xD800 ∨ (0xE000 ≤ c.toNat ∧ c.toNat < 0x110000) := by
  rcases c.valid with low | ⟨low, high⟩
  · exact .inl low
  · exact .inr ⟨low, high⟩

theorem single_ofNat {c : Char} (low : c.toNat < 0x10000) :
    ¬IsHigh (UInt16.ofNat c.toNat) ∧ single (UInt16.ofNat c.toNat) = c := by
  have unit : (UInt16.ofNat c.toNat).toNat = c.toNat := UInt16.toNat_ofNat_of_lt' low
  have outside : ¬(IsHigh (UInt16.ofNat c.toNat) ∨ IsLow (UInt16.ofNat c.toNat)) := by
    rw [IsHigh, IsLow, unit]
    have := toNat_bounds c
    omega
  refine ⟨fun high => outside (.inl high), ?_⟩
  rw [single, if_neg outside, unit, Char.ofNat_toNat]

theorem pair_ofNat {c : Char} (high : ¬c.toNat < 0x10000) :
    IsHigh (UInt16.ofNat (0xD800 + (c.toNat - 0x10000) / 0x400)) ∧
      IsLow (UInt16.ofNat (0xDC00 + (c.toNat - 0x10000) % 0x400)) ∧
      pair (UInt16.ofNat (0xD800 + (c.toNat - 0x10000) / 0x400))
        (UInt16.ofNat (0xDC00 + (c.toNat - 0x10000) % 0x400)) = c := by
  have bounds := toNat_bounds c
  have first : (UInt16.ofNat (0xD800 + (c.toNat - 0x10000) / 0x400)).toNat =
      0xD800 + (c.toNat - 0x10000) / 0x400 := UInt16.toNat_ofNat_of_lt' (by
    show _ < 65536
    omega)
  have second : (UInt16.ofNat (0xDC00 + (c.toNat - 0x10000) % 0x400)).toNat =
      0xDC00 + (c.toNat - 0x10000) % 0x400 := UInt16.toNat_ofNat_of_lt' (by
    show _ < 65536
    omega)
  rw [IsHigh, IsLow, pair, first, second]
  -- The two halves hold the quotient and the remainder of the same division.
  refine ⟨by omega, by omega, ?_⟩
  rw [show 0x10000 + (0xD800 + (c.toNat - 0x10000) / 0x400 - 0xD800) * 0x400 +
      (0xDC00 + (c.toNat - 0x10000) % 0x400 - 0xDC00) = c.toNat by omega, Char.ofNat_toNat]

/-- The units of a character are taken as that character, whatever follows. -/
theorem decodeOnto_encode (c : Char) (done : List Char) (rest : List UInt16) :
    decodeOnto done (encode c ++ rest) = decodeOnto (c :: done) rest := by
  rw [encode]
  split
  · next low =>
    obtain ⟨notHigh, same⟩ := single_ofNat low
    -- The decoder looks at the next unit as well, if there is one.
    cases rest with
    | nil =>
      show (single _ :: done).reverse = (c :: done).reverse
      rw [same]
    | cons v rest =>
      show decodeOnto done (_ :: v :: rest) = _
      rw [decodeOnto, if_neg fun both => notHigh both.1, same]
  · next high =>
    obtain ⟨isHigh, isLow, same⟩ := pair_ofNat high
    show decodeOnto done (_ :: _ :: rest) = _
    rw [decodeOnto, if_pos ⟨isHigh, isLow⟩, same]

theorem decode_encode (cs : List Char) : decode (cs.flatMap encode) = cs := by
  have general : ∀ (cs done : List Char),
      decodeOnto done (cs.flatMap encode) = done.reverse ++ cs := by
    intro cs
    induction cs with
    | nil =>
      intro done
      exact (List.append_nil _).symm
    | cons c cs ih =>
      intro done
      rw [List.flatMap_cons, decodeOnto_encode, ih, List.reverse_cons, List.append_assoc]
      rfl
  exact general cs []

end Utf16

/-! ## Bytes and units -/

namespace ModifiedUtf8

theorem toNat_ofNat {n : Nat} (h : n < 256) : (UInt8.ofNat n).toNat = n :=
  UInt8.toNat_ofNat_of_lt' h

theorem not_between {low high a : UInt8} (outside : a.toNat < low.toNat ∨ high.toNat < a.toNat) :
    ¬(low ≤ a ∧ a ≤ high) := by
  rw [UInt8.le_iff_toNat_le, UInt8.le_iff_toNat_le]
  omega

variable {done : List UInt16} {a b c : UInt8} {rest : List UInt8}

theorem unitsOnto_one (h : 0x01 ≤ a.toNat ∧ a.toNat ≤ 0x7F) :
    unitsOnto done (a :: rest) = unitsOnto (a.toUInt16 :: done) rest := by
  rw [unitsOnto.eq_def]
  exact if_pos h

theorem unitsOnto_two (h : 0xC0 ≤ a.toNat ∧ a.toNat ≤ 0xDF) :
    unitsOnto done (a :: b :: rest) = unitsOnto (twoBytes a b :: done) rest := by
  have one : ¬(0x01 ≤ a ∧ a ≤ 0x7F) := not_between (.inr (show 0x7F < a.toNat by omega))
  rw [unitsOnto.eq_def]
  exact (if_neg one).trans (if_pos h)

theorem unitsOnto_three (h : 0xE0 ≤ a.toNat ∧ a.toNat ≤ 0xEF) :
    unitsOnto done (a :: b :: c :: rest) = unitsOnto (threeBytes a b c :: done) rest := by
  have one : ¬(0x01 ≤ a ∧ a ≤ 0x7F) := not_between (.inr (show 0x7F < a.toNat by omega))
  have two : ¬(0xC0 ≤ a ∧ a ≤ 0xDF) := not_between (.inr (show 0xDF < a.toNat by omega))
  rw [unitsOnto.eq_def]
  exact (if_neg one).trans ((if_neg two).trans (if_pos h))

/-- The bytes of a unit are taken as that unit, whatever follows. -/
theorem unitsOnto_encodeUnit (u : UInt16) :
    unitsOnto done (encodeUnit u ++ rest) = unitsOnto (u :: done) rest := by
  have bound : u.toNat < 65536 := u.toNat_lt
  rw [encodeUnit]
  split
  · next one =>
    have byte := toNat_ofNat (n := u.toNat) (by omega)
    have same : (UInt8.ofNat u.toNat).toUInt16 = u := by
      rw [← UInt16.toNat_inj, UInt8.toNat_toUInt16, byte]
    refine (unitsOnto_one ?_).trans (by rw [same]; rfl)
    rw [byte]
    omega
  · split
    · have first := toNat_ofNat (n := 0xC0 + u.toNat / 64) (by omega)
      have second := toNat_ofNat (n := 0x80 + u.toNat % 64) (by omega)
      have same : twoBytes (UInt8.ofNat (0xC0 + u.toNat / 64))
          (UInt8.ofNat (0x80 + u.toNat % 64)) = u := by
        rw [twoBytes, first, second, show (0xC0 + u.toNat / 64) % 32 * 64 +
          (0x80 + u.toNat % 64) % 64 = u.toNat by omega, UInt16.ofNat_toNat]
      refine (unitsOnto_two ?_).trans (by rw [same]; rfl)
      rw [first]
      omega
    · have first := toNat_ofNat (n := 0xE0 + u.toNat / 4096) (by omega)
      have second := toNat_ofNat (n := 0x80 + u.toNat / 64 % 64) (by omega)
      have third := toNat_ofNat (n := 0x80 + u.toNat % 64) (by omega)
      have same : threeBytes (UInt8.ofNat (0xE0 + u.toNat / 4096))
          (UInt8.ofNat (0x80 + u.toNat / 64 % 64)) (UInt8.ofNat (0x80 + u.toNat % 64)) = u := by
        rw [threeBytes, first, second, third, show (0xE0 + u.toNat / 4096) % 16 * 4096 +
          (0x80 + u.toNat / 64 % 64) % 64 * 64 + (0x80 + u.toNat % 64) % 64 = u.toNat by omega,
          UInt16.ofNat_toNat]
      refine (unitsOnto_three ?_).trans (by rw [same]; rfl)
      rw [first]
      omega

theorem units_encode (us : List UInt16) : units (us.flatMap encodeUnit) = .ok us := by
  have general : ∀ us done : List UInt16,
      unitsOnto done (us.flatMap encodeUnit) = .ok (done.reverse ++ us) := by
    intro us
    induction us with
    | nil =>
      intro done
      rw [List.append_nil]
      rfl
    | cons u us ih =>
      intro done
      rw [List.flatMap_cons, unitsOnto_encodeUnit, ih, List.reverse_cons, List.append_assoc]
      rfl
  exact general us []

/-- A unit written in low bytes alone is written as itself. -/
theorem encodeUnit_of_isAscii {u : UInt16} (h : isAscii (encodeUnit u) = true) :
    u.toNat < 0x80 ∧ encodeUnit u = [UInt8.ofNat u.toNat] := by
  have bound : u.toNat < 65536 := u.toNat_lt
  rw [encodeUnit] at h ⊢
  split
  · next one => exact ⟨one.2, rfl⟩
  · next one =>
    rw [if_neg one] at h
    -- Both longer forms start with a byte that is not low.
    split at h
    · have low := (Bool.and_eq_true_iff.mp h).1
      have : (UInt8.ofNat (0xC0 + u.toNat / 64)).toNat < 0x80 := of_decide_eq_true low
      rw [toNat_ofNat (by omega)] at this
      omega
    · have low := (Bool.and_eq_true_iff.mp h).1
      have : (UInt8.ofNat (0xE0 + u.toNat / 4096)).toNat < 0x80 := of_decide_eq_true low
      rw [toNat_ofNat (by omega)] at this
      omega

/-- A text written in low bytes alone is written as the numbers of its characters. -/
theorem map_ofNat_encode {cs : List Char}
    (h : isAscii (cs.flatMap fun c => (Utf16.encode c).flatMap encodeUnit) = true) :
    (cs.flatMap fun c => (Utf16.encode c).flatMap encodeUnit).map (fun b => Char.ofNat b.toNat) =
      cs := by
  induction cs with
  | nil => rfl
  | cons c cs ih =>
    rw [isAscii, List.flatMap_cons, List.all_append, Bool.and_eq_true_iff] at h
    obtain ⟨first, later⟩ := h
    rw [List.flatMap_cons, List.map_append, ih later]
    rw [Utf16.encode] at first ⊢
    split
    · next low =>
      rw [if_pos low, List.flatMap_singleton] at first
      obtain ⟨small, same⟩ := encodeUnit_of_isAscii first
      have unit : (UInt16.ofNat c.toNat).toNat = c.toNat := UInt16.toNat_ofNat_of_lt' low
      rw [unit] at small same
      rw [List.flatMap_singleton, same, List.map_singleton, toNat_ofNat (by omega),
        Char.ofNat_toNat]
      rfl
    · next high =>
      -- A surrogate is no low unit.
      rw [if_neg high, List.flatMap_cons, List.all_append, Bool.and_eq_true_iff] at first
      have small := (encodeUnit_of_isAscii first.1).1
      have bounds := Utf16.toNat_bounds c
      rw [UInt16.toNat_ofNat_of_lt' (by show _ < 65536; omega)] at small
      omega

/-- **Decoding undoes encoding.** -/
theorem decode_encode (s : String) : decode (encode s) = .ok s := by
  rw [decode]
  -- Low bytes are decoded on a path of their own.
  split
  · next ascii => rw [encode, map_ofNat_encode ascii, String.ofList_toList]
  · have flat : encode s = (s.toList.flatMap Utf16.encode).flatMap encodeUnit :=
      List.flatMap_assoc.symm
    rw [flat, units_encode]
    show Except.ok (String.ofList (Utf16.decode (s.toList.flatMap Utf16.encode))) = _
    rw [Utf16.decode_encode, String.ofList_toList]

end ModifiedUtf8

end Recompose.Text
