import Recompose.Proofs.Hash.Mix
import Recompose.Proofs.Hash.Words

/-!
Small edits show in a hash. Main result: words of which exactly one is another one lead to another
state, whatever comes before and after; and an edit of one operand of an instruction is of this kind.
-/

namespace Recompose

/-- The lists are of one length and differ in exactly one place. -/
def DifferOnce {α : Type} (u v : List α) : Prop :=
  u.length = v.length ∧ ∃! i : Nat, u[i]? ≠ v[i]?

namespace DifferOnce

variable {α : Type} {u v : List α}

theorem of_split {x y : α} (different : x ≠ y) (front back : List α) :
    DifferOnce (front ++ x :: back) (front ++ y :: back) := by
  refine ⟨by simp, front.length, by simpa using different, fun i differ => ?_⟩
  by_contra elsewhere
  apply differ
  rcases Nat.lt_or_gt_of_ne elsewhere with before | behind
  · rw [List.getElem?_append_left before, List.getElem?_append_left before]
  · obtain ⟨k, rfl⟩ := Nat.exists_eq_add_of_lt behind
    rw [List.getElem?_append_right (by omega), List.getElem?_append_right (by omega)]
    simp [Nat.add_assoc]

/-- The lists agree in front of one place and behind it. -/
theorem exists_split (h : DifferOnce u v) :
    ∃ front x y back, x ≠ y ∧ u = front ++ x :: back ∧ v = front ++ y :: back := by
  obtain ⟨same, i, differ, only⟩ := h
  have elsewhere : ∀ j, j ≠ i → u[j]? = v[j]? := fun j other => by
    by_contra more
    exact other (only j more)
  have inside : i < u.length := by
    by_contra outside
    rw [List.getElem?_eq_none (by omega), List.getElem?_eq_none (by omega)] at differ
    exact differ rfl
  have inside' : i < v.length := same ▸ inside
  have front : v.take i = u.take i := by
    refine List.ext_getElem? fun j => ?_
    rw [List.getElem?_take, List.getElem?_take]
    split
    · exact (elsewhere j (by omega)).symm
    · rfl
  have back : v.drop (i + 1) = u.drop (i + 1) := by
    refine List.ext_getElem? fun j => ?_
    rw [List.getElem?_drop, List.getElem?_drop]
    exact (elsewhere (i + 1 + j) (by omega)).symm
  refine ⟨u.take i, u[i], v[i], u.drop (i + 1), ?_, ?_, ?_⟩
  · simpa [inside, inside'] using differ
  · rw [List.getElem_cons_drop, List.take_append_drop]
  · rw [← front, ← back, List.getElem_cons_drop, List.take_append_drop]

theorem append (h : DifferOnce u v) (front back : List α) :
    DifferOnce (front ++ u ++ back) (front ++ v ++ back) := by
  obtain ⟨front', x, y, back', different, rfl, rfl⟩ := h.exists_split
  have split := of_split different (front ++ front') (back' ++ back)
  simpa using split

end DifferOnce

namespace Hash

/-! ## States -/

/-- **One word that is another one is never lost.** -/
theorem mixAll_ne_of_differOnce {u v : List UInt64} (h : DifferOnce u v) (start : Hash) :
    mixAll start u ≠ mixAll start v := by
  obtain ⟨front, x, y, back, different, rfl, rfl⟩ := h.exists_split
  intro same
  rw [mixAll_append, mixAll_append] at same
  exact different (mix_injective_word _ (mixAll_injective back same))

/-! ## Texts -/

/-- The texts differ, and only within one of the chunks of eight bytes that they are hashed by. -/
def DifferInChunk (s t : String) : Prop :=
  s ≠ t ∧ s.utf8ByteSize = t.utf8ByteSize ∧
    ∃ k, ∀ i, i / 8 ≠ k → s.toUTF8.data.toList[i]? = t.toUTF8.data.toList[i]?

theorem length_chunks (bytes : List UInt8) : (chunks bytes).length = (bytes.length + 7) / 8 := by
  induction size : bytes.length using Nat.strong_induction_on generalizing bytes with
  | _ n ih =>
    by_cases none : bytes = []
    · subst none
      subst size
      rfl
    · have some := List.length_pos_of_ne_nil none
      have fewer : (bytes.drop 8).length < n := by
        rw [List.length_drop]
        omega
      rw [chunks_of_ne_nil none, List.length_cons, ih _ fewer _ rfl, List.length_drop]
      omega

theorem getElem?_chunks (bytes : List UInt8) (k : Nat) :
    (chunks bytes)[k]? =
      if 8 * k < bytes.length then some (littleEndian ((bytes.drop (8 * k)).take 8)) else none := by
  induction k generalizing bytes with
  | zero =>
    by_cases none : bytes = []
    · subst none
      rfl
    · rw [chunks_of_ne_nil none, if_pos (List.length_pos_of_ne_nil none)]
      rfl
  | succ k ih =>
    by_cases none : bytes = []
    · subst none
      rfl
    · have place : 8 + 8 * k = 8 * (k + 1) := by omega
      rw [chunks_of_ne_nil none, List.getElem?_cons_succ, ih, List.drop_drop, List.length_drop,
        place]
      congr 1
      exact propext (by omega)

/-- Bytes that differ within one chunk give words that differ once. -/
theorem differOnce_chunks {a b : List UInt8} (same : a.length = b.length) (different : a ≠ b)
    {k : Nat} (elsewhere : ∀ i, i / 8 ≠ k → a[i]? = b[i]?) :
    DifferOnce (chunks a) (chunks b) := by
  have others : ∀ j, j ≠ k → (chunks a)[j]? = (chunks b)[j]? := by
    intro j other
    have chunk : (a.drop (8 * j)).take 8 = (b.drop (8 * j)).take 8 := by
      refine List.ext_getElem? fun i => ?_
      rw [List.getElem?_take, List.getElem?_take, List.getElem?_drop, List.getElem?_drop]
      split
      · exact elsewhere _ (by omega)
      · rfl
    rw [getElem?_chunks, getElem?_chunks, same, chunk]
  refine ⟨by rw [length_chunks, length_chunks, same], k, fun equal => ?_, fun j differ => ?_⟩
  · have all : chunks a = chunks b := by
      refine List.ext_getElem? fun j => ?_
      by_cases here : j = k
      · rw [here, equal]
      · exact others j here
    exact different (chunks_append_inj same (congrArg (· ++ []) all)).1
  · by_contra other
    exact differ (others j other)

theorem differOnce_ofText {s t : String} (h : DifferInChunk s t) :
    DifferOnce (ofText s) (ofText t) := by
  obtain ⟨different, sizes, k, elsewhere⟩ := h
  have bytes : s.toUTF8.data.toList ≠ t.toUTF8.data.toList := by
    intro same
    exact different (String.toByteArray_inj.mp (ByteArray.ext (Array.toList_inj.mp same)))
  have words := (differOnce_chunks sizes bytes elsewhere).append [UInt64.ofNat s.utf8ByteSize] []
  rw [List.append_nil, List.append_nil] at words
  unfold ofText
  rw [← sizes]
  exact words

end Hash

namespace Instruction

open Hash

/-! ## Instructions -/

/-- The second instruction is the first one with a single operand edited. -/
inductive Edited : Instruction → Instruction → Prop
  | int (opcode : UInt8) {m n : Int32} (different : m ≠ n) :
      Edited (constant opcode (.int m)) (constant opcode (.int n))
  | float (opcode : UInt8) {m n : UInt32} (different : m ≠ n) :
      Edited (constant opcode (.float m)) (constant opcode (.float n))
  | long (opcode : UInt8) {m n : Int64} (different : m ≠ n) :
      Edited (constant opcode (.long m)) (constant opcode (.long n))
  | double (opcode : UInt8) {m n : UInt64} (different : m ≠ n) :
      Edited (constant opcode (.double m)) (constant opcode (.double n))
  | immediate (opcode : UInt8) {m n : Int32} (different : m ≠ n) :
      Edited (immediate opcode m) (immediate opcode n)
  | slot (opcode : UInt8) {m n : UInt16} (different : m ≠ n) (step : Option Int16) :
      Edited (slot opcode m step) (slot opcode n step)
  | increment (opcode : UInt8) (index : UInt16) {m n : Int16} (different : m ≠ n) :
      Edited (slot opcode index (some m)) (slot opcode index (some n))
  /-- Labels are numbered by words of four bytes. -/
  | label {m n : Nat} (hm : m < 2 ^ 32) (hn : n < 2 ^ 32) (different : m ≠ n) :
      Edited (label m) (label n)
  | plain {opcode opcode' : UInt8} (different : opcode ≠ opcode') :
      Edited (plain opcode) (plain opcode')
  | name (opcode : UInt8) (target : Member) {name : String}
      (different : DifferInChunk target.name name) :
      Edited (call opcode target) (call opcode { target with name })

theorem Edited.differOnce_words {i j : Instruction} (h : Edited i j) :
    DifferOnce i.words j.words := by
  have int64 {m n : Int64} (different : m ≠ n) : m.toUInt64 ≠ n.toUInt64 := by
    intro same
    exact different (Int64.toBitVec_inj.mp (congrArg UInt64.toBitVec same))
  cases h with
  | int opcode different =>
    exact .of_split (int64 (int32_toInt64_injective.ne different)) [opcode.toUInt64, 1] []
  | float opcode different =>
    exact .of_split (UInt32.toUInt64_inj.ne.mpr different) [opcode.toUInt64, 2] []
  | long opcode different => exact .of_split (int64 different) [opcode.toUInt64, 3] []
  | double opcode different => exact .of_split different [opcode.toUInt64, 4] []
  | immediate opcode different =>
    exact .of_split (int64 (int32_toInt64_injective.ne different)) [opcode.toUInt64] []
  | slot opcode different step =>
    have indices := UInt16.toUInt64_inj.ne.mpr different
    cases step with
    | none => exact .of_split indices [opcode.toUInt64] []
    | some step => exact .of_split indices [opcode.toUInt64] (ofInt64 step.toInt64)
  | increment opcode index different =>
    exact .of_split (int64 (int16_toInt64_injective.ne different))
      [opcode.toUInt64, index.toUInt64] []
  | @label m n hm hn different =>
    have ordinals : UInt64.ofNat m ≠ UInt64.ofNat n := by
      intro same
      have numbers := congrArg UInt64.toNat same
      rw [UInt64.toNat_ofNat_of_lt' (Nat.lt_trans hm (by decide)),
        UInt64.toNat_ofNat_of_lt' (Nat.lt_trans hn (by decide))] at numbers
      exact different numbers
    exact .of_split ordinals [0xFFFFFFFFFFFFFFFF] []
  | plain different => exact .of_split (UInt8.toUInt64_inj.ne.mpr different) [] []
  | name opcode target different =>
    have names := (differOnce_ofText different).append (opcode.toUInt64 :: ofText target.owner)
      (ofText target.descriptor ++ ofBool target.isInterface)
    simpa [words, opcodeWord, opcode?, operandWords] using names

/-- **An edit of one operand changes the hash.** Words that differ in exactly one place are never
mixed to the same state; so two sequences have different hashes that differ in one instruction, and
there in one word; and such are the instructions of which one operand is edited. -/
theorem ofInstructions_ne_of_edited :
    (∀ (start : Hash) (u v : List UInt64), DifferOnce u v → mixAll start u ≠ mixAll start v) ∧
      (∀ (before after : List Instruction) (i j : Instruction), DifferOnce i.words j.words →
        ofInstructions (before ++ i :: after) ≠ ofInstructions (before ++ j :: after)) ∧
      ∀ i j : Instruction, Edited i j → DifferOnce i.words j.words := by
  refine ⟨fun start u v h => mixAll_ne_of_differOnce h start, fun before after i j h => ?_,
    fun i j h => h.differOnce_words⟩
  have words (k : Instruction) : (before ++ k :: after).flatMap Instruction.words =
      before.flatMap Instruction.words ++ k.words ++ after.flatMap Instruction.words := by
    simp
  rw [ofInstructions, ofInstructions, words, words]
  exact mixAll_ne_of_differOnce (h.append _ _) basis

/-- Another name of the method that is called, between other instructions. -/
theorem ofInstructions_ne_of_renamed_call :
    mixAll basis [1, 2, 3] ≠ mixAll basis [1, 4, 3] ∧
      ofInstructions ([label 0] ++ call Opcode.invokestatic ⟨"AppKt", "a", "()V", false⟩ ::
          [plain 0xB1]) ≠
        ofInstructions ([label 0] ++ call Opcode.invokestatic ⟨"AppKt", "b", "()V", false⟩ ::
          [plain 0xB1]) := by
  have renamed : DifferInChunk "a" "b" := by
    refine ⟨by decide, by decide, 0, fun i behind => ?_⟩
    have outside : 1 ≤ i := by omega
    rw [List.getElem?_eq_none outside, List.getElem?_eq_none outside]
  exact ⟨ofInstructions_ne_of_edited.1 basis _ _ (.of_split (by decide) [1] [3]),
    ofInstructions_ne_of_edited.2.1 _ _ _ _
      (ofInstructions_ne_of_edited.2.2 _ _ (.name _ _ renamed))⟩

end Instruction

end Recompose
