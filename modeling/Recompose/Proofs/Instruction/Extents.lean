import Recompose.Proofs.Instruction.Tiling

/-!
How many bytes an instruction takes. Main result: the instructions of decoded code lie one behind
the other without a gap, each takes just the bytes that its opcode and its operands ask for, and
jumps stay in the code; an instruction that asks for more bytes than are left is an error.
-/

namespace Recompose

open Bytes BigEndian

/-! ## What operands ask for -/

namespace Operand

/-- The signed number that four bytes at a place spell. -/
def int32At (bytes : List UInt8) (place : Nat) : Int32 :=
  (UInt32.ofNat (value ((bytes.drop place).take 4))).toInt32

/-- The bytes up to the next multiple of four. -/
def padding (pos : Nat) : Nat :=
  (4 - pos % 4) % 4

/-- How many bytes an operand asks for that stands at `pos`, in front of `behind`. A switch has a
default and bounds or a number of pairs, and rows of one or two numbers each. -/
def extent (pos : Nat) (behind : List UInt8) : Operand → Nat
  | none => 0
  | byte | slot | arrayType | constantByte => 1
  | short | increment | branch | constant | field | method | classRef => 2
  | multiArray => 3
  | branchWide | interfaceMethod | dynamic => 4
  | wide => if behind.head? = some Opcode.iinc then 5 else 3
  | tableSwitch =>
    let low := int32At behind (padding pos + 4)
    let high := int32At behind (padding pos + 8)
    padding pos + 12 + 4 * (high.toInt - low.toInt + 1).toNat
  | lookupSwitch =>
    let pairs := int32At behind (padding pos + 4)
    padding pos + 8 + 8 * pairs.toInt.toNat

theorem int32At_append (front : List UInt8) {place : Nat} (h : front.length = place) (n : Int32)
    (behind : List UInt8) : int32At (front ++ (u32 n.toUInt32 ++ behind)) place = n := by
  rw [int32At, ← h, List.drop_left, List.take_left' (length_u32 _), u32,
    value_digits n.toUInt32.toNat_lt, UInt32.ofNat_toNat]
  rfl

theorem extent_of_width? {operand : Operand} {width : Nat} (h : operand.width? = some width)
    (pos : Nat) (behind : List UInt8) : operand.extent pos behind = width := by
  cases operand <;> cases h <;> rfl

theorem extent_of_tail? {operand : Operand} {tail : Nat} (h : operand.tail? = some tail)
    (pos : Nat) (behind : List UInt8) : operand.extent pos behind = 2 + tail := by
  cases operand <;> cases h <;> rfl

/-- Operands that are laid out take what they ask for, whatever follows. -/
theorem extent_append {r : UInt16 → UInt16} {pos : Nat} {operand : Operand}
    {bytes bytes' : List UInt8} (h : operand.Renumbered r pos bytes bytes') (rest : List UInt8) :
    operand.extent pos (bytes ++ rest) = bytes.length := by
  cases h with
  | fixed width => exact extent_of_width? width _ _
  | @wide opcode bytes length =>
    rw [extent, List.cons_append, List.head?_cons, List.length_cons, length]
    by_cases increment : opcode = Opcode.iinc
    · rw [if_pos (congrArg some increment), if_pos increment]
    · rw [if_neg fun same => increment (Option.some.inj same), if_neg increment]
  | @table front rows fallback low high aligned length =>
    have low' : int32At ((front ++ (u32 fallback.toUInt32 ++ (u32 low.toUInt32 ++
        (u32 high.toUInt32 ++ rows)))) ++ rest) (padding pos + 4) = low := by
      simpa using int32At_append (front ++ u32 fallback.toUInt32)
        (by rw [List.length_append, aligned, length_u32]; rfl) low
        (u32 high.toUInt32 ++ rows ++ rest)
    have high' : int32At ((front ++ (u32 fallback.toUInt32 ++ (u32 low.toUInt32 ++
        (u32 high.toUInt32 ++ rows)))) ++ rest) (padding pos + 8) = high := by
      simpa using int32At_append (front ++ u32 fallback.toUInt32 ++ u32 low.toUInt32)
        (by simp only [List.length_append, aligned, length_u32]; rfl) high (rows ++ rest)
    rw [extent, low', high']
    simp only [List.length_append, length_u32, length, aligned, padding]
    omega
  | @pairs front rows fallback count aligned length =>
    have count' : int32At ((front ++ (u32 fallback.toUInt32 ++
        (u32 count.toUInt32 ++ rows))) ++ rest) (padding pos + 4) = count := by
      simpa using int32At_append (front ++ u32 fallback.toUInt32)
        (by rw [List.length_append, aligned, length_u32]; rfl) count (rows ++ rest)
    rw [extent, count']
    simp only [List.length_append, length_u32, length, aligned, padding]
    omega
  | byteSlot => rfl
  | slotted index tail =>
    rw [List.length_append, length_u16]
    exact extent_of_tail? tail _ _

end Operand

namespace Instruction

open Read (Gives SplitsAt)

/-! ## Jump targets -/

section Targets

variable (c : CodeContext) (offset : Nat)

theorem target_lt (distance : Int) : Ensures (target c offset distance) (· < c.length) := by
  unfold target
  dsimp only
  split
  · next inside => exact .pure (by omega)
  · exact .throw _

theorem readTarget_lt : Gives (readTarget c offset) (· < c.length) :=
  .behind fun _ => .lift (target_lt c offset _)

theorem readTable_lt :
    Gives (readTable c offset) fun targets => ∀ place ∈ targets, place < c.length := by
  refine .behind fun _ => .behind fun fallback => .behind fun low => .behind fun high => ?_
  split
  · exact .throw _
  · refine .bind (.lift (target_lt c offset _)) fun first inside => ?_
    refine .bind (.times (readTarget_lt c offset) _) fun others rows => ?_
    exact .pure (List.forall_mem_cons.mpr ⟨inside, rows⟩)

theorem readPairs_lt :
    Gives (readPairs c offset) fun targets => ∀ place ∈ targets, place < c.length := by
  refine .behind fun _ => .behind fun fallback => .behind fun pairs => ?_
  split
  · exact .throw _
  · refine .bind (.lift (target_lt c offset _)) fun first inside => ?_
    refine .bind (.times (.behind fun _ => readTarget_lt c offset) _) fun others rows => ?_
    exact .pure (List.forall_mem_cons.mpr ⟨inside, rows⟩)

theorem readOperand_lt (opcode : UInt8) (operand : Operand) :
    Gives (readOperand c offset opcode operand) fun r => ∀ place ∈ r.2, place < c.length := by
  cases operand with
  | none => exact .pure (List.forall_mem_nil _)
  | branch =>
    refine .behind fun distance => .bind (.lift (target_lt c offset _)) fun place inside => ?_
    exact .pure (List.forall_mem_singleton.mpr inside)
  | branchWide =>
    exact .bind (readTarget_lt c offset) fun place inside =>
      .pure (List.forall_mem_singleton.mpr inside)
  | tableSwitch => exact .bind (readTable_lt c offset) fun _ inside => .pure inside
  | lookupSwitch => exact .bind (readPairs_lt c offset) fun _ inside => .pure inside
  | byte | short | arrayType | slot | classRef | multiArray | wide =>
    exact .behind fun _ => .pure (List.forall_mem_nil _)
  | constantByte | constant | increment | field | method =>
    exact .behind fun _ => .behind fun _ => .pure (List.forall_mem_nil _)
  | interfaceMethod | dynamic =>
    exact .behind fun _ => .behind fun _ => .behind fun _ => .pure (List.forall_mem_nil _)

/-- An instruction that is read jumps into the code. -/
theorem targets_lt : Gives (read c) fun l => ∀ place ∈ l.targets, place < c.length := by
  refine .behind fun offset => .behind fun opcode => ?_
  unfold readBehind
  split
  · exact .throw _
  · exact .bind (readOperand_lt c offset opcode _) fun _ inside => .behind fun _ => .pure inside

end Targets

/-! ## What is read -/

/-- The instruction stands at the cursor and takes what its opcode and its operands ask for. -/
structure Fills (k : Cursor) (l : Located) : Prop where
  offset : l.offset = k.pos
  asked : ∃ opcode operand behind, k.rest = opcode :: behind ∧
    Opcode.operand? opcode = some operand ∧ l.size = operand.extent (k.pos + 1) behind + 1
  room : l.size ≤ k.rest.length

variable {c : CodeContext}

/-- An instruction takes what it asks for, and the cursor stops behind it. -/
theorem fills_of_read {k k' : Cursor} {l : Located} (h : read c k = .ok l k') :
    Fills k l ∧ k' = ⟨k.pos + l.size, k.rest.drop l.size⟩ := by
  have same : ∀ index : UInt8, ∃ index' : UInt8, index'.toUInt16 = id index.toUInt16 :=
    fun index => ⟨index, rfl⟩
  obtain ⟨used, split, stop, ⟨here, size, -⟩, opcode, operand, bytes, bytes', rfl, known, form⟩ :=
    ((splitsAt_read c).and (exists_renumbered_of_read id c same)).of_ok h
  refine ⟨⟨here, ⟨opcode, operand, bytes ++ k'.rest, split, known, ?_⟩, ?_⟩, ?_⟩
  · rw [size, List.length_cons, Operand.extent_append form]
  · rw [split, size, List.length_append]
    exact Nat.le_add_right _ _
  · rw [split, size, ← stop, List.drop_left]

/-- An instruction that asks for more bytes than are left cannot be read. -/
theorem read_of_short {k : Cursor} {opcode : UInt8} {operand : Operand} {behind : List UInt8}
    (here : k.rest = opcode :: behind) (known : Opcode.operand? opcode = some operand)
    (short : behind.length < operand.extent (k.pos + 1) behind) :
    ∃ e k', read c k = .error e k' := by
  cases ends : read c k with
  | ok l k' =>
    obtain ⟨-, ⟨opcode', operand', behind', here', known', size⟩, room⟩ := (fills_of_read ends).1
    obtain ⟨rfl, rfl⟩ := List.cons.inj (here.symm.trans here')
    obtain rfl := Option.some.inj (known.symm.trans known')
    rw [here, List.length_cons] at room
    omega
  | error e k' => exact ⟨e, k', rfl⟩

/-- Instructions that are read one after another, from a cursor to a cursor. -/
inductive Reads (c : CodeContext) : Cursor → List Located → Cursor → Prop
  | nil {k : Cursor} : Reads c k [] k
  | cons {k between k' : Cursor} {l : Located} {code : List Located} :
      read c k = .ok l between → Reads c between code k' → Reads c k (l :: code) k'

namespace Reads

variable {k k' : Cursor} {code : List Located}

/-- Each instruction is read where it stands in the whole code. -/
theorem fills (h : Reads c k code k') {bytes : List UInt8} (left : k.rest = bytes.drop k.pos) :
    ∀ l ∈ code, Fills ⟨l.offset, bytes.drop l.offset⟩ l := by
  induction h with
  | nil => exact List.forall_mem_nil _
  | @cons k _ _ l _ first _ ih =>
    obtain ⟨own, rfl⟩ := fills_of_read first
    refine List.forall_mem_cons.mpr ⟨?_, ih ?_⟩
    · rw [own.offset, ← left]
      exact own
    · rw [left, List.drop_drop]

/-- Every instruction uses up some of the bytes. -/
theorem length_le (h : Reads c k code k') : k'.rest.length + code.length ≤ k.rest.length := by
  induction h with
  | nil => exact Nat.le_refl _
  | cons first _ ih =>
    have := length_rest_lt_of_read first
    rw [List.length_cons]
    omega

/-- The loop comes to where the reads come to. -/
theorem readAllOnto_eq (h : Reads c k code k') (done : List Located) :
    readAllOnto c done k = readAllOnto c (code.reverse ++ done) k' := by
  induction h generalizing done with
  | nil => rfl
  | cons first _ ih =>
    rw [readAllOnto_of_read first, ih, List.reverse_cons, List.append_assoc, List.singleton_append]

/-- Where an instruction cannot be read, the code is not decoded. -/
theorem readAllOnto_error (h : Reads c k code k') {e : Error} {stuck : Cursor}
    (fails : read c k' = .error e stuck) (more : k'.hasMore = true) (done : List Located) :
    readAllOnto c done k = .error e := by
  rw [h.readAllOnto_eq, readAllOnto, if_pos more]
  split
  · next ok =>
    rw [fails] at ok
    cases ok
  · next same =>
    rw [fails] at same
    cases same
    rfl

end Reads

theorem reads_of_readAllOnto (done : List Located) (k : Cursor) :
    Ensures (readAllOnto c done k) fun all =>
      ∃ code k', all = done.reverse ++ code ∧ Reads c k code k' := by
  fun_induction readAllOnto c done k with
  | case1 done k _ l k' first ih =>
    refine ih.mono ?_
    rintro _ ⟨code, k'', rfl, rest⟩
    refine ⟨l :: code, k'', ?_, .cons first rest⟩
    rw [List.reverse_cons, List.append_assoc, List.singleton_append]
  | case2 => exact .throw _
  | case3 done k => exact .pure ⟨[], k, (List.append_nil _).symm, .nil⟩

/-! ## The whole code -/

/-- **Decoded code is tiled by its instructions.** They lie one behind the other from the first byte
to the last, jump to places in the code, and take what their opcodes and operands ask for. Whatever
the bytes are, no more instructions are read than there are bytes; and if one asks for more bytes
than are left, as a switch may that declares any number of rows, the code is refused. -/
theorem readAll_exact (pool : Pool) (bootstraps : List Bootstrap) (bytes : List UInt8) :
    (∀ code, readAll pool bootstraps bytes = .ok code →
        Located.Tiles bytes.length 0 code ∧
          ∀ l ∈ code, (∀ place ∈ l.targets, place < bytes.length) ∧
            Fills ⟨l.offset, bytes.drop l.offset⟩ l) ∧
      ∀ code k, Reads ⟨pool, bootstraps, bytes.length⟩ (.ofBytes bytes) code k →
        code.length ≤ bytes.length ∧
          ∀ opcode operand behind, k.rest = opcode :: behind →
            Opcode.operand? opcode = some operand →
              behind.length < operand.extent (k.pos + 1) behind →
                ∃ e, readAll pool bootstraps bytes = .error e := by
  constructor
  · intro code decoded
    refine ⟨(tiles_readAll pool bootstraps bytes).of_ok decoded, fun l mem => ⟨?_, ?_⟩⟩
    · exact (forall_readAllOnto (targets_lt _) (List.forall_mem_nil _) _).of_ok decoded l mem
    · obtain ⟨_, k, rfl, reads⟩ := (reads_of_readAllOnto [] _).of_ok decoded
      exact reads.fills rfl l mem
  · intro code k reads
    refine ⟨Nat.le_trans (Nat.le_add_left _ _) reads.length_le, ?_⟩
    intro opcode operand behind here known short
    obtain ⟨e, stuck, fails⟩ := read_of_short here known short
    have more : k.hasMore = true := by rw [Cursor.hasMore, here]; rfl
    exact ⟨e, reads.readAllOnto_error fails more []⟩

/-- A switch by range behind two bytes of padding, a widened increment, and a switch by value behind
one byte of padding. -/
def switchingCode : List UInt8 :=
  [0x1A, 0xAA, 0, 0, 0, 0, 0, 47, 0, 0, 0, 0, 0, 0, 0, 1, 0, 0, 0, 23, 0xFF, 0xFF, 0xFF, 0xFF,
    0xC4, 0x84, 1, 0, 0xFF, 0xFE, 0xAB, 0, 0, 0, 0, 18, 0, 0, 0, 1, 0, 0, 0, 7, 0xFF, 0xFF, 0xFF,
    0xE2, 0xB1]

def switchingLocated : List Located :=
  [⟨0, 1, [], .slot Opcode.iload 0 none⟩, ⟨1, 23, [48, 24, 0], .plain 0xAA⟩,
    ⟨24, 6, [], .slot Opcode.iinc 256 (some (-2))⟩, ⟨30, 18, [48, 0], .plain 0xAB⟩,
    ⟨48, 1, [], .plain 0xB1⟩]

/-- A switch that declares a row for every number, and has none. -/
def boundlessSwitch : List UInt8 :=
  [0xAA, 0, 0, 0, 0, 0, 0, 0, 0x80, 0, 0, 0, 0x7F, 0xFF, 0xFF, 0xFF]

theorem readAll_exact_switching :
    (readAll ⟨#[]⟩ [] switchingCode = .ok switchingLocated ∧
        Located.Tiles 49 0 switchingLocated ∧
          ∀ l ∈ switchingLocated, (∀ place ∈ l.targets, place < 49) ∧
            Fills ⟨l.offset, switchingCode.drop l.offset⟩ l) ∧
      Operand.tableSwitch.extent 1 (boundlessSwitch.drop 1) = 15 + 4 * 2 ^ 32 ∧
        ∃ e, readAll ⟨#[]⟩ [] boundlessSwitch = .error e := by
  have decoded : readAll ⟨#[]⟩ [] switchingCode = .ok switchingLocated := by decide +kernel
  have asked : Operand.tableSwitch.extent 1 (boundlessSwitch.drop 1) = 15 + 4 * 2 ^ 32 := by
    decide +kernel
  have short : (boundlessSwitch.drop 1).length <
      Operand.tableSwitch.extent 1 (boundlessSwitch.drop 1) := by
    rw [asked]
    decide
  refine ⟨⟨decoded, (readAll_exact ⟨#[]⟩ [] switchingCode).1 _ decoded⟩, asked, ?_⟩
  exact ((readAll_exact ⟨#[]⟩ [] boundlessSwitch).2 [] _ .nil).2 0xAA .tableSwitch _ rfl
    (by decide +kernel) short

end Instruction

end Recompose
