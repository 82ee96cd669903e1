import Recompose.Assembly.Op
import Recompose.Instruction.Decode
import Recompose.Proofs.Bytes.Layout

/-!
The decoder on the bytes of single operations: every form of an operation is taken for the same
instruction.
-/

namespace Recompose

open Bytes BigEndian
open Read (Takes)

/-- The layout of an opcode's operands, unless it is reserved. -/
def Opcode.operand? (opcode : UInt8) : Option Operand :=
  (info? opcode).map (·.2)

namespace Instruction

/-- At an offset the decoder takes exactly the bytes, for the instruction with its jump targets,
whatever follows. -/
def TakesAt (c : CodeContext) (offset : Nat) (bytes : List UInt8) (targets : List Nat)
    (i : Instruction) : Prop :=
  ∀ rest, read c ⟨offset, bytes ++ rest⟩ =
    .ok ⟨offset, bytes.length, targets, i⟩ ⟨offset + bytes.length, rest⟩

namespace TakesAt

variable {c : CodeContext} {offset : Nat}

/-- An opcode with its operands behind it. -/
theorem ofOperand {opcode : UInt8} (operand : Operand) {bytes : List UInt8} {targets : List Nat}
    {i : Instruction} (known : Opcode.operand? opcode = some operand)
    (taken : Takes (readOperand c offset opcode operand) bytes (i, targets)) :
    TakesAt c offset (opcode :: bytes) targets i := by
  obtain ⟨mnemonic, info⟩ : ∃ mnemonic, Opcode.info? opcode = some (mnemonic, operand) := by
    obtain ⟨row, info, same⟩ := Option.map_eq_some_iff.mp known
    exact ⟨row.1, same ▸ info⟩
  intro rest
  have first : Read.u8 ⟨offset, opcode :: (bytes ++ rest)⟩ =
      .ok opcode ⟨offset + 1, bytes ++ rest⟩ := Takes.u8 opcode offset _
  have behind : readBehind c offset opcode ⟨offset + 1, bytes ++ rest⟩ =
      .ok ⟨offset, offset + 1 + bytes.length - offset, targets, i⟩
        ⟨offset + 1 + bytes.length, rest⟩ := by
    have row : readBehind c offset opcode = (readOperand c offset opcode operand >>= fun r => do
        let stop ← Read.position
        return ⟨offset, stop - offset, r.2, r.1⟩) := by
      unfold readBehind
      rw [info]
    rw [row, Read.bind_of_ok (taken (offset + 1) rest)]
    rfl
  have place : Read.position ⟨offset, opcode :: (bytes ++ rest)⟩ =
      .ok offset ⟨offset, opcode :: (bytes ++ rest)⟩ := rfl
  have size : offset + 1 + bytes.length - offset = bytes.length + 1 := by omega
  have stop : offset + 1 + bytes.length = offset + (bytes.length + 1) := by omega
  rw [size, stop] at behind
  exact (Read.bind_of_ok place).trans ((Read.bind_of_ok first).trans behind)

theorem length_pos {bytes : List UInt8} {targets : List Nat} {i : Instruction}
    (h : TakesAt c offset bytes targets i) : 0 < bytes.length := by
  have := length_rest_lt_of_read (h [])
  rw [List.append_nil] at this
  exact this

theorem implied {opcode : UInt8} (known : Opcode.operand? opcode = some .none) :
    TakesAt c offset [opcode] [] (Instruction.implied opcode) :=
  ofOperand .none known (.pure _)

/-! ## Integers in the code -/

theorem iconst {value : Int32} (low : -1 ≤ value.toInt) (high : value.toInt ≤ 5) :
    TakesAt c offset [UInt8.ofNat (Opcode.iconst0.toNat + value.toInt).toNat] []
      (.constant (UInt8.ofNat (Opcode.iconst0.toNat + value.toInt).toNat) (.int value)) := by
  have same : Int32.ofInt value.toInt = value := Int32.ofInt_toInt value
  generalize value.toInt = n at low high same
  subst same
  obtain rfl | rfl | rfl | rfl | rfl | rfl | rfl :
      n = -1 ∨ n = 0 ∨ n = 1 ∨ n = 2 ∨ n = 3 ∨ n = 4 ∨ n = 5 := by omega
  all_goals exact implied (by decide +kernel)

theorem bipush {value : Int32} (low : -128 ≤ value.toInt) (high : value.toInt ≤ 127) :
    TakesAt c offset [Opcode.bipush, value.toUInt32.toUInt8] []
      (.immediate Opcode.bipush value) := by
  have byte : value.toUInt32.toUInt8.toInt8 = value.toInt8 := by
    rw [← Int8.toBitVec_inj]
    simp [BitVec.signExtend_eq_setWidth_of_le]
  have same : value.toInt8.toInt32 = value := by
    rw [← Int32.toInt_inj, Int8.toInt_toInt32, Int32.toInt_toInt8]
    exact Int.bmod_eq_of_le (by omega) (by omega)
  have read : Takes Read.i8 [value.toUInt32.toUInt8] value.toInt8 := byte ▸ .i8 _
  refine ofOperand .byte (by decide +kernel) (.bind_last read ?_)
  rw [same]
  exact .pure _

theorem sipush {value : Int32} (low : -32768 ≤ value.toInt) (high : value.toInt ≤ 32767) :
    TakesAt c offset (Opcode.sipush :: u16 value.toUInt32.toUInt16) []
      (.immediate Opcode.sipush value) := by
  have bytes : value.toUInt32.toUInt16.toInt16 = value.toInt16 := by
    rw [← Int16.toBitVec_inj]
    simp [BitVec.signExtend_eq_setWidth_of_le]
  have same : value.toInt16.toInt32 = value := by
    rw [← Int32.toInt_inj, Int16.toInt_toInt32, Int32.toInt_toInt16]
    exact Int.bmod_eq_of_le (by omega) (by omega)
  have read : Takes Read.i16 (u16 value.toUInt32.toUInt16) value.toInt16 :=
    bytes ▸ (Takes.u16 _).map _
  refine ofOperand .short (by decide +kernel) (.bind_last read ?_)
  rw [same]
  exact .pure _

/-! ## Constants of the pool -/

theorem ldc2W {slot : UInt16} {value : Constant}
    (known : c.pool.loadable c.bootstraps slot = .ok value) :
    TakesAt c offset (Opcode.ldc2W :: u16 slot) [] (.constant Opcode.ldc value) :=
  ofOperand .constant (by decide +kernel)
    (.bind_last (.u16 slot) (.bind_nil (.lift known) (.pure _)))

theorem toUInt16_toUInt8 {n : UInt16} (h : n.toNat ≤ 255) : n.toUInt8.toUInt16 = n := by
  rw [← UInt16.toNat_inj, UInt8.toNat_toUInt16, UInt16.toNat_toUInt8]
  omega

/-- The short and the long form of a load are the same instruction. -/
theorem load (slot : UInt16) :
    ∃ bytes, Piece.load slot = .code bytes ∧ ∀ (c : CodeContext) (offset : Nat) (value : Constant),
      c.pool.loadable c.bootstraps slot = .ok value →
        TakesAt c offset bytes [] (.constant Opcode.ldc value) := by
  rw [Piece.load]
  split
  · next short =>
    refine ⟨_, rfl, fun c offset value known => ?_⟩
    refine ofOperand .constantByte (by decide +kernel) (.bind_last (.u8 slot.toUInt8) ?_)
    rw [toUInt16_toUInt8 short]
    exact .bind_nil (.lift known) (.pure _)
  · exact ⟨_, rfl, fun c offset value known => ofOperand .constant (by decide +kernel)
      (.bind_last (.u16 slot) (.bind_nil (.lift known) (.pure _)))⟩

/-! ## Local variables -/

/-- The three forms of an access are the same instruction. -/
theorem slot (access : SlotAccess) (index : UInt16) :
    TakesAt c offset (Op.slotBytes access index) [] (.slot access.opcode index none) := by
  rw [Op.slotBytes]
  split
  · next low =>
    have same : UInt16.ofNat index.toNat = index := UInt16.ofNat_toNat
    generalize index.toNat = n at low same
    subst same
    obtain rfl | rfl | rfl | rfl : n = 0 ∨ n = 1 ∨ n = 2 ∨ n = 3 := by omega
    all_goals cases access <;> exact implied (by decide +kernel)
  · split
    · next short =>
      refine ofOperand .slot (by cases access <;> decide +kernel) (.bind_last (.u8 index.toUInt8) ?_)
      rw [toUInt16_toUInt8 short]
      exact .pure _
    · refine ofOperand .wide (by decide +kernel) ?_
      refine .bind_last ?_ (.pure _)
      refine .bind (.u8 access.opcode) ?_
      rw [if_neg (by cases access <;> decide), if_pos (by cases access <;> decide)]
      exact (Takes.u16 index).map _

/-- Both forms of an increment are the same instruction. -/
theorem increment (index : UInt16) (step : Int16) :
    TakesAt c offset (Op.incrementBytes index step) [] (.slot Opcode.iinc index (some step)) := by
  rw [Op.incrementBytes]
  split
  · next short =>
    obtain ⟨small, low, high⟩ := short
    have byte : step.toUInt16.toUInt8.toInt8 = step.toInt8 := by
      rw [← Int8.toBitVec_inj]
      simp [BitVec.signExtend_eq_setWidth_of_le]
    have same : step.toInt8.toInt16 = step := by
      rw [← Int16.toInt_inj, Int8.toInt_toInt16, Int16.toInt_toInt8]
      exact Int.bmod_eq_of_le (by omega) (by omega)
    have read : Takes Read.i8 [step.toUInt16.toUInt8] step.toInt8 := byte ▸ .i8 _
    refine ofOperand .increment (by decide +kernel) (.bind (.u8 index.toUInt8) (.bind_last read ?_))
    rw [toUInt16_toUInt8 small, same]
    exact .pure _
  · refine ofOperand .wide (by decide +kernel) ?_
    refine .bind_last ?_ (.pure _)
    refine .bind (.u8 Opcode.iinc) ?_
    rw [if_pos rfl]
    exact .bind (.u16 index) ((Takes.i16 step).map _)

/-! ## Jumps -/

/-- A jump within short code leads to the place whose distance it holds. -/
theorem jump (kind : JumpKind) {place : Nat} (small : c.length ≤ 32767) (here : offset < c.length)
    (there : place < c.length) :
    TakesAt c offset (kind.opcode :: u16 (Int16.ofInt ((place : Int) - (offset : Int))).toUInt16)
      [place] (.plain kind.opcode) := by
  have distance : (Int16.ofInt ((place : Int) - (offset : Int))).toInt = place - offset :=
    Int16.toInt_ofInt_of_le (by omega) (by omega)
  have found : target c offset ((place : Int) - (offset : Int)) = .ok place := by
    have back : (offset : Int) + (place - offset) = place := by omega
    rw [target, back]
    exact if_pos ⟨Int.natCast_nonneg place, Int.ofNat_lt.mpr there⟩
  refine ofOperand .branch (by cases kind <;> decide +kernel) (.bind_last (.i16 _) ?_)
  rw [distance]
  exact .bind_nil (.lift found) (.pure _)

end TakesAt

end Instruction

end Recompose
