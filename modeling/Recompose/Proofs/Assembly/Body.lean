import Mathlib.Algebra.Order.BigOperators.Group.List
import Recompose.Proofs.Assembly.Decode

/-!
Bodies from assembly to listing: the payload of a code attribute is read back, with guards between
the places of their labels, and decodes to the listing of the body.
-/

namespace Recompose

open Bytes BigEndian Draft

namespace Op

/-- Whether an operation gives a line number. -/
def isLine : Op → Bool
  | line _ => true
  | _ => false

end Op

namespace Body

/-- How many bytes the operations take by the tables. -/
def length (b : Body) (d : Draft) : Nat :=
  Piece.total ((b.ops.mapM Op.assemble).run d).1

/-- The body keeps to the limits of a class file whose tables are given: code there is, but no more
than a jump can span, jumps and handlers lead to instructions, and guarded ranges are not empty. -/
@[mk_iff]
structure Fits (b : Body) (d : Draft) : Prop where
  sound : ∀ op ∈ b.ops, op.IsSound
  nonempty : b.instructions ≠ []
  short : b.length d ≤ 32767
  jumps : ∀ op ∈ b.ops, ∀ label ∈ op.target?, b.positionOf label < b.instructions.length
  guards : ∀ g ∈ b.guards, b.positionOf g.start < b.positionOf g.stop ∧
    b.positionOf g.handler < b.instructions.length
  guardRows : b.guards.length ≤ 65535
  lineRows : b.ops.countP Op.isLine ≤ 65535
  localRows : b.locals.length ≤ 65535

instance (b : Body) (d : Draft) : Decidable (b.Fits d) :=
  decidable_of_iff' _ (fits_iff b d)

/-! ## Guards -/

/-- The guard of the places of labels. -/
def guardAt (offsetOf : Nat → Nat) (g : LabeledGuard) (catchType : UInt16) : Guard :=
  ⟨UInt16.ofNat (offsetOf g.start), UInt16.ofNat (offsetOf g.stop),
    UInt16.ofNat (offsetOf g.handler), catchType⟩

/-- The row is read as the guard wherever that is in order. -/
def IsGuardRow (offsetOf : Nat → Nat) (g : LabeledGuard) (row : List UInt8) : Prop :=
  row.length = 8 ∧ ∃ catchType, ∀ length, (guardAt offsetOf g catchType).Fits length →
    Read.Takes (Guard.read length) row (guardAt offsetOf g catchType)

theorem isGuardRow (offsetOf : Nat → Nat) (g : LabeledGuard) (catchType : UInt16) :
    IsGuardRow offsetOf g (u16 (UInt16.ofNat (offsetOf g.start)) ++
      u16 (UInt16.ofNat (offsetOf g.stop)) ++ u16 (UInt16.ofNat (offsetOf g.handler)) ++
      u16 catchType) := by
  refine ⟨by simp, catchType, fun length fits => ?_⟩
  rw [List.append_assoc, List.append_assoc]
  refine .bind (.u16 _) (.bind (.u16 _) (.bind (.u16 _) (.bind_last (.u16 _) ?_)))
  rw [if_pos (show Guard.Fits ⟨_, _, _, _⟩ length from fits)]
  exact .pure _

theorem guardRow_yields (s : Survey) (g : LabeledGuard) :
    Yields (guardRow s g) fun _ row => IsGuardRow s.offsetOf g row := by
  rw [guardRow]
  cases g.catchType with
  | some name =>
    exact (classRef_yields name).map fun _ catchType _ _ => isGuardRow s.offsetOf g catchType
  | none => exact .pure fun _ _ => isGuardRow s.offsetOf g 0

/-- The rows of all guards are read as the guards of the labels' places. -/
theorem exists_guards {offsetOf : Nat → Nat} {length : Nat} (short : length ≤ 32767)
    {guards : List LabeledGuard} {rows : List (List UInt8)}
    (each : List.Forall₂ (IsGuardRow offsetOf) guards rows)
    (ordered : ∀ g ∈ guards, offsetOf g.start < offsetOf g.stop ∧ offsetOf g.stop ≤ length ∧
      offsetOf g.handler < length) :
    ∃ read : List Guard, List.Forall₂ (Read.Takes (Guard.read length)) rows read ∧
      read.flatMap Guard.places = (guards.flatMap LabeledGuard.labels).map offsetOf := by
  induction each with
  | nil => exact ⟨[], .nil, rfl⟩
  | @cons g row guards rows first _ ih =>
    obtain ⟨read, later, places⟩ := ih fun g mem => ordered g (List.mem_cons_of_mem _ mem)
    obtain ⟨-, catchType, taken⟩ := first
    obtain ⟨less, stop, handler⟩ := ordered g List.mem_cons_self
    have number : ∀ n ≤ length, (UInt16.ofNat n).toNat = n := fun n le =>
      UInt16.toNat_ofNat_of_lt' (Nat.lt_of_le_of_lt (Nat.le_trans le short) (by decide))
    have startNumber := number (offsetOf g.start) (by omega)
    have stopNumber := number (offsetOf g.stop) stop
    have handlerNumber := number (offsetOf g.handler) (by omega)
    have fits : (guardAt offsetOf g catchType).Fits length := by
      refine ⟨UInt16.lt_iff_toNat_lt.mpr ?_, ?_, ?_⟩
      · show (UInt16.ofNat _).toNat < (UInt16.ofNat _).toNat
        rw [startNumber, stopNumber]
        exact less
      · show (UInt16.ofNat _).toNat ≤ length
        rw [stopNumber]
        exact stop
      · show (UInt16.ofNat _).toNat < length
        rw [handlerNumber]
        exact handler
    refine ⟨_ :: read, .cons (taken length fits) later, ?_⟩
    have own : (guardAt offsetOf g catchType).places = g.labels.map offsetOf := by
      show [(UInt16.ofNat _).toNat, (UInt16.ofNat _).toNat, (UInt16.ofNat _).toNat] = _
      rw [startNumber, stopNumber, handlerNumber]
      rfl
    rw [List.flatMap_cons, List.flatMap_cons, List.map_append, own, places]

/-! ## Tables of lines and local variables -/

theorem length_lines {D : Draft} {ops : List Op} {pieces : List Piece}
    (rendered : List.Forall₂ (Op.Renders D) ops pieces) (s : Survey) :
    (pieces.foldl Survey.add s).lines.length = s.lines.length + ops.countP Op.isLine := by
  induction rendered generalizing s with
  | nil => rfl
  | @cons op p ops pieces first _ ih =>
    rw [List.foldl_cons, ih, List.countP_cons]
    -- Code is not a line number, since it is the code of an instruction.
    cases first with
    | @code _ _ _ meant _ _ =>
      have other : op.isLine = false := by
        cases op with
        | line number => cases meant
        | _ => rfl
      rw [other]
      rfl
    | jump kind label => rfl
    | place label => rfl
    | line number =>
      show s.lines.length + 1 + _ = s.lines.length + (_ + 1)
      omega

/-- At most one attribute, of the size of its rows. -/
theorem length_lineTable (s : Survey) : (lineTable s).length ≤ 1 ∧
    ∀ a ∈ lineTable s, a.data.length = 2 + s.lines.length * 4 := by
  rw [lineTable]
  split
  · exact ⟨Nat.zero_le _, nofun⟩
  · refine ⟨Nat.le_refl _, fun a mem => ?_⟩
    obtain rfl := List.mem_singleton.mp mem
    refine (length_table_of_rows fun row mem => ?_).trans (by rw [List.length_map, List.length_reverse])
    obtain ⟨entry, -, rfl⟩ := List.mem_map.mp mem
    simp

theorem localTable_yields (length : Nat) (locals : List LocalVariable) :
    Yields (localTable length locals) fun _ as => as.length ≤ 1 ∧
      ∀ a ∈ as, a.data.length = 2 + locals.length * 10 := by
  have row : ∀ v ∈ locals, Yields (localRow length v) fun _ row => row.length = 10 := by
    intro v _
    refine (utf8_yields v.name).bind fun name => (utf8_yields v.descriptor).map ?_
    intro D descriptor _ _ _ _
    simp
  rw [localTable]
  split
  · exact .pure fun _ _ => ⟨Nat.zero_le _, nofun⟩
  · refine (Yields.mapM_mem row).map fun D rows _ ⟨count, widths⟩ => ⟨Nat.le_refl _, ?_⟩
    intro a mem
    obtain rfl := List.mem_singleton.mp mem
    rw [← count]
    exact length_table_of_rows widths

/-! ## The code attribute -/

theorem takes_code {pool : Pool} {bytes attributeBytes : List UInt8} {rows : List (List UInt8)}
    {guards : List Guard} {attributes : List Attribute} (nonempty : 0 < bytes.length)
    (short : bytes.length ≤ 32767)
    (guardsTaken : List.Forall₂ (Read.Takes (Guard.read bytes.length)) rows guards)
    (few : rows.length ≤ 65535)
    (attributesTaken : Read.Takes (Attribute.readTable pool) attributeBytes attributes) :
    Read.Takes (Code.read pool)
      (u16 room ++ u16 room ++ u32 (UInt32.ofNat bytes.length) ++ bytes ++ table rows ++
        attributeBytes)
      ⟨room, room, bytes, guards, attributes⟩ := by
  have number : (UInt32.ofNat bytes.length).toNat = bytes.length :=
    UInt32.toNat_ofNat_of_lt' (Nat.lt_of_le_of_lt short (by decide))
  have nonzero : UInt32.ofNat bytes.length ≠ 0 := by
    intro zero
    rw [zero] at number
    have : 0 = bytes.length := number
    omega
  rw [List.append_assoc, List.append_assoc, List.append_assoc, List.append_assoc]
  refine .bind (.u16 room) (.bind (.u16 room) (.bind (.u32 _) ?_))
  rw [if_neg nonzero, number]
  refine .bind (.bytes bytes) (.bind (.counted guardsTaken few) ?_)
  exact attributesTaken.map (Code.mk room room bytes guards)

/-- Code decodes to the listing if jumps and guards lead where the labels are. -/
theorem instructions_code {D : Draft} {b : Body} {pieces : List Piece}
    (rendered : List.Forall₂ (Op.Renders D) b.ops pieces) (short : Piece.total pieces ≤ 32767)
    (jumps : ∀ op ∈ b.ops, ∀ label, op.target? = some label →
      (Survey.ofPieces pieces).offsetOf label < Piece.total pieces)
    {guards : List Guard} (places : guards.flatMap Guard.places =
      (b.guards.flatMap LabeledGuard.labels).map (Survey.ofPieces pieces).offsetOf)
    (attributes : List Attribute) :
    (⟨room, room, Piece.emitted (Survey.ofPieces pieces).offsetOf 0 pieces, guards, attributes⟩ :
      Code).instructions D.pool D.bootstraps = .ok b.listing := by
  have all := Op.readAllOnto_emitted rendered short jumps 0 (Nat.zero_add _) []
  have found : Instruction.readAll D.pool D.bootstraps
      (Piece.emitted (Survey.ofPieces pieces).offsetOf 0 pieces) =
        .ok (Op.located (Survey.ofPieces pieces).offsetOf 0 b.ops pieces) := by
    rw [Instruction.readAll, Piece.length_emitted]
    exact all
  rw [Code.instructions, found, Piece.length_emitted]
  exact withLabels_located rendered places

/-- The guards of a body that fits are in order. -/
theorem guards_ordered {D : Draft} {b : Body} {pieces : List Piece} (fits : b.Fits D)
    (rendered : List.Forall₂ (Op.Renders D) b.ops pieces) : ∀ g ∈ b.guards,
      (Survey.ofPieces pieces).offsetOf g.start < (Survey.ofPieces pieces).offsetOf g.stop ∧
      (Survey.ofPieces pieces).offsetOf g.stop ≤ Piece.total pieces ∧
      (Survey.ofPieces pieces).offsetOf g.handler < Piece.total pieces := by
  intro g mem
  obtain ⟨less, handler⟩ := fits.guards g mem
  exact ⟨offsetOf_lt rendered less, offsetOf_le_total rendered _, offsetOf_lt_total rendered handler⟩

/-- Two attributes at most, neither longer than a full table of local variables. -/
theorem attributes_small {D : Draft} {b : Body} {pieces : List Piece} (fits : b.Fits D)
    (rendered : List.Forall₂ (Op.Renders D) b.ops pieces) {locals : List Attribute}
    (one : locals.length ≤ 1) (sizes : ∀ a ∈ locals, a.data.length = 2 + b.locals.length * 10) :
    (lineTable (Survey.ofPieces pieces) ++ locals).length ≤ 2 ∧
      ∀ a ∈ lineTable (Survey.ofPieces pieces) ++ locals, a.data.length ≤ 2 + 65535 * 10 := by
  obtain ⟨lineCount, lineSizes⟩ := length_lineTable (Survey.ofPieces pieces)
  have lines : (Survey.ofPieces pieces).lines.length = 0 + b.ops.countP Op.isLine :=
    length_lines rendered {}
  have lineRows := fits.lineRows
  have localRows := fits.localRows
  refine ⟨by rw [List.length_append]; omega, fun a mem => ?_⟩
  rcases List.mem_append.mp mem with mem | mem
  · rw [lineSizes a mem]
    omega
  · rw [sizes a mem]
    omega

/-- Few attributes of bounded size are not long in total. -/
theorem sum_attributes_le {attributes : List Attribute} {count size : Nat}
    (few : attributes.length ≤ count) (small : ∀ a ∈ attributes, a.data.length ≤ size) :
    (attributes.map fun a => 6 + a.data.length).sum ≤ count * (6 + size) := by
  have each : ∀ n ∈ attributes.map fun a => 6 + a.data.length, n ≤ 6 + size := by
    intro n mem
    obtain ⟨a, inTable, rfl⟩ := List.mem_map.mp mem
    exact Nat.add_le_add_left (small a inTable) 6
  have sum := List.sum_le_card_nsmul _ _ each
  rw [List.length_map] at sum
  exact Nat.le_trans sum (Nat.mul_le_mul_right _ few)

/-- **A body is read back and decodes to its listing.** -/
theorem assemble_yields {b : Body} (sound : ∀ op ∈ b.ops, op.IsSound) :
    Yields b.assemble fun D data => b.Fits D → data.length < 2 ^ 32 ∧
      ∃ code, Code.parse D.pool data = .ok code ∧
        code.instructions D.pool D.bootstraps = .ok b.listing := by
  have pieces := (Yields.mapM fun op mem => Op.assemble_yields (sound op mem)).answers
  refine pieces.bind fun pieces => ?_
  refine (Yields.mapM fun g _ => guardRow_yields (Survey.ofPieces pieces) g).bind fun rows => ?_
  refine (localTable_yields (Survey.ofPieces pieces).offset b.locals).bind fun locals => ?_
  refine (attributeTable_yields (lineTable (Survey.ofPieces pieces) ++ locals)).map ?_
  rintro D attributes _ ⟨attributesLength, attributesTaken⟩ _ ⟨localCount, localSizes⟩ _ guardRows _
    ⟨settled, rendered⟩ fits
  -- By the final tables the operations would be assembled to the same pieces.
  have size : b.length D = Piece.total pieces :=
    congrArg (fun answer : List Piece × Draft => Piece.total answer.1) settled
  have short : Piece.total pieces ≤ 32767 := size ▸ fits.short
  have nonempty := total_pos rendered fits.nonempty
  obtain ⟨guards, guardsTaken, places⟩ :=
    exists_guards short guardRows (guards_ordered fits rendered)
  obtain ⟨attributeCount, attributeSizes⟩ := attributes_small fits rendered localCount localSizes
  have attributesRead := attributesTaken (by omega) fun a mem =>
    Nat.lt_of_le_of_lt (attributeSizes a mem) (by decide)
  have code : Piece.emitOnto (Survey.ofPieces pieces).offsetOf [] 0 pieces =
      Piece.emitted (Survey.ofPieces pieces).offsetOf 0 pieces := Piece.emitOnto_eq ..
  have codeLength := Piece.length_emitted (Survey.ofPieces pieces).offsetOf 0 pieces
  have few : rows.length ≤ 65535 := guardRows.length_eq ▸ fits.guardRows
  rw [code]
  have taken := takes_code (codeLength ▸ nonempty) (codeLength ▸ short) (codeLength ▸ guardsTaken)
    few attributesRead
  refine ⟨?_, _, taken.parse, instructions_code rendered short ?_ places _⟩
  -- The code, the guards and the attributes together are far from the limit of a payload.
  · have sum := sum_attributes_le attributeCount attributeSizes
    have widths : ∀ row ∈ rows, row.length = 8 :=
      forall_mem_of_forall₂ (fun _ _ row => row.1) guardRows
    simp only [List.length_append, length_u16, length_u32, codeLength, length_table_of_rows widths,
      attributesLength]
    omega
  · intro op mem label target
    exact offsetOf_lt_total rendered (fits.jumps op mem label target)

end Body

end Recompose
