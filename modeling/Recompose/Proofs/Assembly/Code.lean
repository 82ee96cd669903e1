import Recompose.Proofs.Assembly.Listing

/-!
The code of a body. The pieces of the operations lie one behind the other, every label stands where
as many bytes precede it as its instructions take, and the decoder finds the instructions with the
labels at their positions.
-/

namespace Recompose

open Bytes

/-! ## Bytes of pieces -/

namespace Piece

/-- The code of pieces from an offset on. -/
def emitted (offsetOf : Nat → Nat) : Nat → List Piece → List UInt8
  | _, [] => []
  | offset, p :: pieces => p.emit offsetOf offset ++ emitted offsetOf (offset + p.size) pieces

/-- How many bytes pieces take. -/
def total (pieces : List Piece) : Nat :=
  (pieces.map size).sum

/-- How many bytes those pieces take that take any. -/
def sizes (pieces : List Piece) : List Nat :=
  (pieces.map size).filter (· ≠ 0)

theorem emitOnto_eq (offsetOf : Nat → Nat) (done : List (List UInt8)) (offset : Nat)
    (pieces : List Piece) :
    emitOnto offsetOf done offset pieces = done.reverse.flatten ++ emitted offsetOf offset pieces := by
  induction pieces generalizing done offset with
  | nil => rw [emitOnto, emitted, List.append_nil]
  | cons p pieces ih =>
    rw [emitOnto, ih, emitted, List.reverse_cons, List.flatten_append, List.flatten_singleton,
      List.append_assoc]

theorem length_emit (p : Piece) (offsetOf : Nat → Nat) (offset : Nat) :
    (p.emit offsetOf offset).length = p.size := by
  cases p with
  | code bytes => rfl
  | jump opcode label => rw [emit, List.length_cons, BigEndian.length_u16, size]
  | place label => rfl
  | line number => rfl

theorem length_emitted (offsetOf : Nat → Nat) (offset : Nat) (pieces : List Piece) :
    (emitted offsetOf offset pieces).length = total pieces := by
  induction pieces generalizing offset with
  | nil => rfl
  | cons p pieces ih =>
    rw [emitted, List.length_append, length_emit, ih]
    rfl

theorem sizes_cons_of_eq {p : Piece} {pieces : List Piece} (h : p.size = 0) :
    sizes (p :: pieces) = sizes pieces :=
  List.filter_cons_of_neg (by simpa using h)

theorem sizes_cons_of_ne {p : Piece} {pieces : List Piece} (h : p.size ≠ 0) :
    sizes (p :: pieces) = p.size :: sizes pieces :=
  List.filter_cons_of_pos (by simpa using h)

theorem sum_sizes (pieces : List Piece) : (sizes pieces).sum = total pieces := by
  induction pieces with
  | nil => rfl
  | cons p pieces ih =>
    have more : total (p :: pieces) = p.size + total pieces := List.sum_cons
    by_cases empty : p.size = 0
    · rw [sizes_cons_of_eq empty, more, empty, ih, Nat.zero_add]
    · rw [sizes_cons_of_ne empty, more, List.sum_cons, ih]

theorem sizes_append (first second : List Piece) :
    sizes (first ++ second) = sizes first ++ sizes second := by
  rw [sizes, List.map_append, List.filter_append]
  rfl

end Piece

/-! ## Offsets of positions -/

namespace Op

variable {D : Draft} {ops : List Op} {pieces : List Piece}

/-- A mark takes no bytes and jumps nowhere; any other operation takes bytes. -/
theorem Renders.mark_or_code {op : Op} {p : Piece} (h : op.Renders D p) :
    (op.instruction? = none ∧ op.target? = none ∧ p.size = 0) ∨
      ∃ i, op.instruction? = some i ∧ p.size ≠ 0 := by
  cases h with
  | code meant _ taken => exact .inr ⟨_, meant, Nat.ne_of_gt (taken 0 0).length_pos⟩
  | jump kind label => exact .inr ⟨_, rfl, Nat.succ_ne_zero 2⟩
  | place label => exact .inl ⟨rfl, rfl, rfl⟩
  | line number => exact .inl ⟨rfl, rfl, rfl⟩

theorem length_sizes (rendered : List.Forall₂ (Renders D) ops pieces) :
    (Piece.sizes pieces).length = (ops.filterMap instruction?).length := by
  induction rendered with
  | nil => rfl
  | cons first _ ih =>
    rcases first.mark_or_code with ⟨mark, -, empty⟩ | ⟨i, meant, takes⟩
    · rw [Piece.sizes_cons_of_eq empty, List.filterMap_cons_none mark, ih]
    · rw [Piece.sizes_cons_of_ne takes, List.filterMap_cons_some meant, List.length_cons,
        List.length_cons, ih]

end Op

namespace Piece

/-- The offset of the instruction at a position. -/
def offsetAt (pieces : List Piece) (position : Nat) : Nat :=
  ((sizes pieces).take position).sum

theorem offsetAt_lt {pieces : List Piece} {i j : Nat} (less : i < j)
    (inside : j ≤ (sizes pieces).length) : offsetAt pieces i < offsetAt pieces j := by
  have positive : ∀ n ∈ sizes pieces, 0 < n := by
    intro n mem
    have := (List.mem_filter.mp mem).2
    simp at this
    omega
  -- Between two positions lies at least one instruction, and none is empty.
  have split : (sizes pieces).take j = (sizes pieces).take i ++ ((sizes pieces).take j).drop i := by
    conv_lhs => rw [← List.take_append_drop i ((sizes pieces).take j), List.take_take]
    rw [Nat.min_eq_left (Nat.le_of_lt less)]
  have longer : ((sizes pieces).take j).drop i ≠ [] := by
    rw [Ne, List.drop_eq_nil_iff, List.length_take]
    omega
  obtain ⟨n, rest, eq⟩ := List.exists_cons_of_ne_nil longer
  have mem : n ∈ sizes pieces :=
    List.mem_of_mem_take (List.mem_of_mem_drop (eq ▸ List.mem_cons_self))
  have := positive n mem
  rw [offsetAt, offsetAt, split, List.sum_append, eq, List.sum_cons]
  omega

/-- All positions together reach the end of the code. -/
theorem offsetAt_length (pieces : List Piece) :
    offsetAt pieces (sizes pieces).length = total pieces := by
  rw [offsetAt, List.take_length, sum_sizes]

end Piece

namespace Op

variable {D : Draft} {ops : List Op} {pieces : List Piece}

/-- Some first operations take as many bytes as their instructions say. -/
theorem total_take (rendered : List.Forall₂ (Renders D) ops pieces) (m : Nat) :
    Piece.total (pieces.take m) =
      Piece.offsetAt pieces ((ops.take m).filterMap instruction?).length := by
  have parts : Piece.sizes pieces = Piece.sizes (pieces.take m) ++ Piece.sizes (pieces.drop m) := by
    rw [← Piece.sizes_append, List.take_append_drop]
  rw [← length_sizes (List.forall₂_take m rendered), Piece.offsetAt, parts, List.take_left,
    Piece.sum_sizes]

end Op

/-! ## Labels -/

namespace Survey

variable {D : Draft} {ops : List Op} {pieces : List Piece}

theorem offset_foldl (pieces : List Piece) (s : Survey) :
    (pieces.foldl add s).offset = s.offset + Piece.total pieces := by
  induction pieces generalizing s with
  | nil => rfl
  | cons p pieces ih =>
    have more : Piece.total (p :: pieces) = p.size + Piece.total pieces := List.sum_cons
    rw [List.foldl_cons, ih, more, ← Nat.add_assoc]
    congr 1
    cases p <;> rfl

theorem offset_ofPieces (pieces : List Piece) : (ofPieces pieces).offset = Piece.total pieces :=
  (offset_foldl pieces {}).trans (Nat.zero_add _)

/-- A label stands behind the pieces of the operations before it. -/
theorem lookup_foldl (rendered : List.Forall₂ (Op.Renders D) ops pieces) (label : Nat)
    (s : Survey) :
    (pieces.foldl add s).labels.lookup label =
      match Op.before? label ops with
      | some earlier => some (s.offset + Piece.total (pieces.take earlier.length))
      | none => s.labels.lookup label := by
  induction rendered generalizing s with
  | nil => rfl
  | @cons op p ops pieces first _ ih =>
    have reached : (s.add p).offset = s.offset + p.size := by
      cases p <;> rfl
    rw [List.foldl_cons, ih, Op.before?]
    cases Op.before? label ops with
    | some earlier =>
      have more : Piece.total ((p :: pieces).take (op :: earlier).length) =
          p.size + Piece.total (pieces.take earlier.length) := List.sum_cons
      show some ((s.add p).offset + _) = some (s.offset + Piece.total _)
      rw [reached, more, Nat.add_assoc]
    | none =>
      -- Nothing further on places the label, so the last place is here or earlier.
      show (s.add p).labels.lookup label = _
      cases first with
      | code meant _ _ =>
        have other : op ≠ .place label := by
          rintro rfl
          cases meant
        rw [if_neg other]
        rfl
      | jump kind target => rfl
      | line number => rfl
      | place placed =>
        by_cases same : placed = label
        · rw [if_pos (congrArg Op.place same)]
          subst same
          show List.lookup placed ((placed, s.offset) :: s.labels) = some (s.offset + 0)
          rw [List.lookup_cons, beq_self_eq_true]
          rfl
        · have different : (label == placed) = false := beq_eq_false_iff_ne.mpr (Ne.symm same)
          rw [if_neg fun eq => same (Op.place.inj eq)]
          show List.lookup label ((placed, s.offset) :: s.labels) = s.labels.lookup label
          rw [List.lookup_cons, different]

/-- **A label stands at the offset of its position.** -/
theorem offsetOf_ofPieces {b : Body} (rendered : List.Forall₂ (Op.Renders D) b.ops pieces)
    (label : Nat) :
    (ofPieces pieces).offsetOf label = Piece.offsetAt pieces (b.positionOf label) := by
  rw [offsetOf, offset_ofPieces, ofPieces, lookup_foldl rendered, Body.positionOf]
  cases found : Op.before? label b.ops with
  | some earlier =>
    have start := List.prefix_iff_eq_take.mp (Op.prefix_of_before? found)
    show 0 + Piece.total (pieces.take earlier.length) = _
    rw [Nat.zero_add, Op.total_take rendered, ← start]
    rfl
  | none =>
    have whole := Op.total_take rendered b.ops.length
    rw [List.take_length, rendered.length_eq, List.take_length] at whole
    exact whole

end Survey

/-! ## Order of labels -/

namespace Body

variable {D : Draft} {b : Body} {pieces : List Piece}

/-- The offsets of positions, up to that of the end, grow. -/
theorem offsetAt_lt (rendered : List.Forall₂ (Op.Renders D) b.ops pieces) {i j : Nat} (less : i < j)
    (inside : j ≤ b.instructions.length) : Piece.offsetAt pieces i < Piece.offsetAt pieces j := by
  have count : (Piece.sizes pieces).length = b.instructions.length := Op.length_sizes rendered
  exact Piece.offsetAt_lt less (count ▸ inside)

theorem offsetAt_length (rendered : List.Forall₂ (Op.Renders D) b.ops pieces) :
    Piece.offsetAt pieces b.instructions.length = Piece.total pieces := by
  have count : (Piece.sizes pieces).length = b.instructions.length := Op.length_sizes rendered
  rw [← count, Piece.offsetAt_length]

theorem total_pos (rendered : List.Forall₂ (Op.Renders D) b.ops pieces)
    (nonempty : b.instructions ≠ []) : 0 < Piece.total pieces := by
  have first := offsetAt_lt rendered (List.length_pos_iff.mpr nonempty) (Nat.le_refl _)
  rw [offsetAt_length rendered] at first
  exact Nat.lt_of_le_of_lt (Nat.zero_le _) first

theorem offsetOf_lt (rendered : List.Forall₂ (Op.Renders D) b.ops pieces) {label other : Nat}
    (less : b.positionOf label < b.positionOf other) :
    (Survey.ofPieces pieces).offsetOf label < (Survey.ofPieces pieces).offsetOf other := by
  rw [Survey.offsetOf_ofPieces rendered, Survey.offsetOf_ofPieces rendered]
  exact offsetAt_lt rendered less (b.positionOf_le other)

theorem offsetOf_lt_total (rendered : List.Forall₂ (Op.Renders D) b.ops pieces) {label : Nat}
    (inside : b.positionOf label < b.instructions.length) :
    (Survey.ofPieces pieces).offsetOf label < Piece.total pieces := by
  rw [Survey.offsetOf_ofPieces rendered, ← offsetAt_length rendered]
  exact offsetAt_lt rendered inside (Nat.le_refl _)

theorem offsetOf_le_total (rendered : List.Forall₂ (Op.Renders D) b.ops pieces) (label : Nat) :
    (Survey.ofPieces pieces).offsetOf label ≤ Piece.total pieces := by
  rcases Nat.lt_or_eq_of_le (b.positionOf_le label) with inside | last
  · exact Nat.le_of_lt (offsetOf_lt_total rendered inside)
  · rw [Survey.offsetOf_ofPieces rendered, last, offsetAt_length rendered]

end Body

end Recompose
