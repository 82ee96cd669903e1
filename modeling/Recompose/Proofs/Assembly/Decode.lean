import Recompose.Proofs.Assembly.Code

/-!
The decoder on assembled code. It finds every operation that takes code where its bytes stand, and
with labels put in where jumps and guards lead, the instructions are the listing of the body.
-/

namespace Recompose

open Instruction (TakesAt)

/-! ## One instruction after another -/

namespace Instruction

theorem readAllOnto_of_read {c : CodeContext} {k k' : Bytes.Cursor} {l : Located}
    (h : read c k = .ok l k') (done : List Located) :
    readAllOnto c done k = readAllOnto c (l :: done) k' := by
  have more : k.hasMore = true := by
    have shorter := length_rest_lt_of_read h
    rw [Bytes.Cursor.hasMore, Bool.not_eq_true', List.isEmpty_eq_false_iff, ← List.length_pos_iff]
    omega
  rw [readAllOnto, if_pos more]
  split
  · next same =>
    rw [h] at same
    cases same
    rfl
  · next same =>
    rw [h] at same
    cases same

theorem readAllOnto_nil (c : CodeContext) (done : List Located) (offset : Nat) :
    readAllOnto c done ⟨offset, []⟩ = .ok done.reverse := by
  rw [readAllOnto]
  exact if_neg Bool.false_ne_true

end Instruction

namespace Op

/-- Where the decoder finds operations whose pieces lie from an offset on. -/
def located (offsetOf : Nat → Nat) : Nat → List Op → List Piece → List Located
  | offset, op :: ops, p :: pieces =>
    match op.instruction? with
    | some i =>
      ⟨offset, p.size, (op.target?.map offsetOf).toList, i⟩ ::
        located offsetOf (offset + p.size) ops pieces
    | none => located offsetOf offset ops pieces
  | _, _, _ => []

variable {D : Draft} {ops : List Op} {pieces : List Piece} {offsetOf : Nat → Nat} {length : Nat}

/-- The bytes of an operation are its instruction, and lead where its label is. -/
theorem Renders.takesAt {op : Op} {p : Piece} {i : Instruction} {offset : Nat}
    (h : op.Renders D p) (meant : op.instruction? = some i) (small : length ≤ 32767)
    (inside : offset + p.size ≤ length)
    (jumps : ∀ label, op.target? = some label → offsetOf label < length) :
    TakesAt ⟨D.pool, D.bootstraps, length⟩ offset (p.emit offsetOf offset)
      (op.target?.map offsetOf).toList i := by
  cases h with
  | code meant' straight taken =>
    cases meant.symm.trans meant'
    rw [straight]
    exact taken length offset
  | jump kind label =>
    cases meant
    have here : offset + 3 ≤ length := inside
    exact .jump kind small (by show offset < length; omega) (jumps label rfl)
  | place label => cases meant
  | line number => cases meant

/-- **The decoder finds every operation of assembled code.** -/
theorem readAllOnto_emitted (rendered : List.Forall₂ (Renders D) ops pieces)
    (small : length ≤ 32767)
    (jumps : ∀ op ∈ ops, ∀ label, op.target? = some label → offsetOf label < length)
    (offset : Nat) (stop : offset + Piece.total pieces = length) (done : List Located) :
    Instruction.readAllOnto ⟨D.pool, D.bootstraps, length⟩ done
        ⟨offset, Piece.emitted offsetOf offset pieces⟩ =
      .ok (done.reverse ++ located offsetOf offset ops pieces) := by
  induction rendered generalizing offset done with
  | nil =>
    rw [Piece.emitted, Instruction.readAllOnto_nil, located.eq_def, List.append_nil]
  | @cons op p ops pieces first _ ih =>
    have more : Piece.total (p :: pieces) = p.size + Piece.total pieces := List.sum_cons
    have later := ih (fun op mem => jumps op (List.mem_cons_of_mem _ mem)) (offset + p.size)
      (by omega)
    rw [Piece.emitted, located]
    -- A mark leaves the decoder where it is; of anything else it takes one instruction.
    rcases first.mark_or_code with ⟨mark, -, empty⟩ | ⟨i, meant, takes⟩
    · have nothing : p.emit offsetOf offset = [] :=
        List.eq_nil_of_length_eq_zero ((p.length_emit offsetOf offset).trans empty)
      rw [empty, Nat.add_zero] at later
      rw [mark, nothing, empty]
      exact later done
    · have inside : offset + p.size ≤ length := by omega
      have taken := first.takesAt meant small inside (jumps op List.mem_cons_self)
      have size := p.length_emit offsetOf offset
      have read := taken (Piece.emitted offsetOf (offset + p.size) pieces)
      rw [size] at read
      rw [Instruction.readAllOnto_of_read read, later, meant, List.reverse_cons,
        List.append_assoc]
      rfl

/-! ## Instructions found -/

theorem flatMap_targets_located (rendered : List.Forall₂ (Renders D) ops pieces) (offset : Nat) :
    (located offsetOf offset ops pieces).flatMap (·.targets) =
      (ops.filterMap target?).map offsetOf := by
  induction rendered generalizing offset with
  | nil => rfl
  | @cons op p ops pieces first _ ih =>
    rw [located]
    rcases first.mark_or_code with ⟨mark, straight, -⟩ | ⟨i, meant, -⟩
    · rw [mark, List.filterMap_cons_none straight]
      exact ih offset
    · rw [meant]
      show (op.target?.map offsetOf).toList ++
        (located offsetOf (offset + p.size) ops pieces).flatMap (·.targets) = _
      rw [ih]
      cases target : op.target? with
      | none => rw [List.filterMap_cons_none target]; rfl
      | some label => rw [List.filterMap_cons_some target]; rfl

/-- The instructions are found in order, each at the offset of its position. -/
theorem map_located (rendered : List.Forall₂ (Renders D) ops pieces) (offset : Nat) :
    (located offsetOf offset ops pieces).map (fun l => (l.instruction, l.offset)) =
      (ops.filterMap instruction?).zipIdx.map fun (i, position) =>
        (i, offset + Piece.offsetAt pieces position) := by
  induction rendered generalizing offset with
  | nil => rfl
  | @cons op p ops pieces first _ ih =>
    rw [located]
    rcases first.mark_or_code with ⟨mark, -, empty⟩ | ⟨i, meant, takes⟩
    · rw [mark, List.filterMap_cons_none mark, ih]
      have same : Piece.offsetAt (p :: pieces) = Piece.offsetAt pieces := by
        funext position
        rw [Piece.offsetAt, Piece.sizes_cons_of_eq empty]
        rfl
      rw [same]
    · have next : ∀ position, Piece.offsetAt (p :: pieces) (position + 1) =
          p.size + Piece.offsetAt pieces position := by
        intro position
        rw [Piece.offsetAt, Piece.sizes_cons_of_ne takes, List.take_succ_cons, List.sum_cons]
        rfl
      rw [meant, List.filterMap_cons_some meant, List.map_cons, ih, List.zipIdx_cons',
        List.map_cons, List.map_map]
      refine congrArg₂ List.cons (Prod.ext rfl rfl) (List.map_congr_left fun entry _ => ?_)
      refine Prod.ext rfl ?_
      show offset + p.size + Piece.offsetAt pieces entry.2 =
        offset + Piece.offsetAt (p :: pieces) (entry.2 + 1)
      rw [next, Nat.add_assoc]

end Op

/-! ## Labels put in -/

namespace Body

variable {D : Draft} {b : Body} {pieces : List Piece}

theorem map_located (rendered : List.Forall₂ (Op.Renders D) b.ops pieces) (offsetOf : Nat → Nat) :
    (Op.located offsetOf 0 b.ops pieces).map (fun l => (l.instruction, l.offset)) =
      b.instructions.zipIdx.map fun (i, position) => (i, Piece.offsetAt pieces position) := by
  rw [Op.map_located rendered]
  simp only [Nat.zero_add]
  rfl

/-- Labels are put in at the offsets of the positions referred to. -/
theorem entryPoints_located (rendered : List.Forall₂ (Op.Renders D) b.ops pieces)
    {guards : List Guard} (places : guards.flatMap Guard.places =
      (b.guards.flatMap LabeledGuard.labels).map (Survey.ofPieces pieces).offsetOf) :
    Located.entryPoints (Op.located (Survey.ofPieces pieces).offsetOf 0 b.ops pieces) guards =
      Ascending.ofList (b.positions.map (Piece.offsetAt pieces)) := by
  have offsets : (Survey.ofPieces pieces).offsetOf = Piece.offsetAt pieces ∘ b.positionOf :=
    funext (Survey.offsetOf_ofPieces rendered)
  rw [Located.entryPoints, Op.flatMap_targets_located rendered, places, ← List.map_append, offsets,
    ← List.map_map]
  rfl

theorem labelAt_offsetAt (rendered : List.Forall₂ (Op.Renders D) b.ops pieces) {k : Nat}
    (le : k ≤ b.instructions.length) :
    Located.labelAt (Ascending.ofList (b.positions.map (Piece.offsetAt pieces)))
      (Piece.offsetAt pieces k) = b.labelAt k := by
  rw [Located.labelAt_ofList (fun i j less inside => offsetAt_lt rendered less inside)
    (fun _ => le_of_mem_positions) le]
  rfl

/-- The offset of a position is the end of the code or that of an instruction found. -/
theorem isBoundary_offsetAt (rendered : List.Forall₂ (Op.Renders D) b.ops pieces)
    (offsetOf : Nat → Nat) {k : Nat} (le : k ≤ b.instructions.length) :
    Located.isBoundary (Op.located offsetOf 0 b.ops pieces) (Piece.total pieces)
      (Piece.offsetAt pieces k) = true := by
  rw [Located.isBoundary, Bool.or_eq_true_iff, beq_iff_eq]
  rcases Nat.lt_or_eq_of_le le with inside | rfl
  · refine .inr (List.any_eq_true.mpr ?_)
    have entry : (b.instructions[k], k) ∈ b.instructions.zipIdx :=
      List.mk_mem_zipIdx_iff_getElem?.mpr (List.getElem?_eq_getElem inside)
    have found := List.mem_map_of_mem (f := fun (i, position) => (i, Piece.offsetAt pieces position))
      entry
    rw [← map_located rendered offsetOf] at found
    obtain ⟨l, mem, same⟩ := List.mem_map.mp found
    exact ⟨l, mem, beq_iff_eq.mpr (Prod.ext_iff.mp same).2⟩
  · exact .inl (offsetAt_length rendered)

/-- **The instructions found, with labels put in, are the listing.** -/
theorem withLabels_located (rendered : List.Forall₂ (Op.Renders D) b.ops pieces)
    {guards : List Guard} (places : guards.flatMap Guard.places =
      (b.guards.flatMap LabeledGuard.labels).map (Survey.ofPieces pieces).offsetOf) :
    Located.withLabels (Op.located (Survey.ofPieces pieces).offsetOf 0 b.ops pieces) guards
      (Piece.total pieces) = .ok b.listing := by
  have points := entryPoints_located rendered places
  have found := map_located rendered (Survey.ofPieces pieces).offsetOf
  have boundary := fun {k} => isBoundary_offsetAt (k := k) rendered (Survey.ofPieces pieces).offsetOf
  -- From here on only these facts about the code count.
  generalize Op.located (Survey.ofPieces pieces).offsetOf 0 b.ops pieces = code at *
  have boundaries : (Located.entryPoints code guards).find?
      (fun offset => !Located.isBoundary code (Piece.total pieces) offset) = none := by
    rw [List.find?_eq_none]
    intro point mem
    rw [points, Ascending.mem_ofList] at mem
    obtain ⟨k, used, rfl⟩ := List.mem_map.mp mem
    rw [Bool.not_eq_true', Bool.not_eq_false]
    exact boundary (le_of_mem_positions used)
  have listed : code.flatMap (fun l => Located.labelAt (Located.entryPoints code guards) l.offset ++
      [l.instruction]) = b.instructions.zipIdx.flatMap fun (i, position) =>
        b.labelAt position ++ [i] := by
    have pairs := List.flatMap_map (fun l : Located => (l.instruction, l.offset))
      (fun entry => Located.labelAt (Located.entryPoints code guards) entry.2 ++ [entry.1]) code
    rw [found, List.flatMap_map] at pairs
    rw [← pairs]
    refine congrArg List.flatten (List.map_congr_left fun entry mem => ?_)
    have inside := (List.getElem?_eq_some_iff.mp (List.mem_zipIdx_iff_getElem?.mp mem)).1
    rw [points, labelAt_offsetAt rendered (Nat.le_of_lt inside)]
  rw [Located.withLabels, boundaries]
  show Except.ok (code.flatMap (fun l => Located.labelAt (Located.entryPoints code guards) l.offset ++
    [l.instruction]) ++ Located.labelAt (Located.entryPoints code guards) (Piece.total pieces)) = _
  rw [listed, points, ← offsetAt_length rendered, labelAt_offsetAt rendered (Nat.le_refl _), listing]

end Body

end Recompose
