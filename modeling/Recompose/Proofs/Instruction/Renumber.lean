import Recompose.Instruction.Listing
import Recompose.Proofs.Assembly.Decode
import Recompose.Proofs.Bytes.Splits
import Recompose.Proofs.Pool.Renumber

/-!
The decoder on code whose pool has been renumbered. Renumbered code has the layout of the code that it
comes from, with a new number for every slot of the pool; the decoder walks over both alike and finds
the same instructions.
-/

namespace Recompose

open Bytes BigEndian

/-! ## Renumbered code -/

namespace Operand

/-- The number of bytes of an operand that has a fixed width and no slot of the pool. -/
def width? : Operand → Option Nat
  | none => some 0
  | byte | slot | arrayType => some 1
  | short | increment | branch => some 2
  | branchWide => some 4
  | _ => Option.none

/-- The number of bytes behind the two-byte slot that an operand starts with. -/
def tail? : Operand → Option Nat
  | constant | field | method | classRef => some 0
  | multiArray => some 1
  | interfaceMethod | dynamic => some 2
  | _ => Option.none

/-- The operand's bytes from `pos` on, and the same with its slot renumbered. All bytes that are no
slot of the pool stay. -/
inductive Renumbered (r : UInt16 → UInt16) (pos : Nat) :
    Operand → List UInt8 → List UInt8 → Prop
  | fixed {operand : Operand} {bytes : List UInt8} (width : operand.width? = some bytes.length) :
      Renumbered r pos operand bytes bytes
  | wide {opcode : UInt8} {bytes : List UInt8}
      (length : bytes.length = if opcode = Opcode.iinc then 4 else 2) :
      Renumbered r pos .wide (opcode :: bytes) (opcode :: bytes)
  | table {padding rows : List UInt8} (fallback low high : Int32)
      (aligned : padding.length = (4 - pos % 4) % 4)
      (length : rows.length = (high.toInt - low.toInt + 1).toNat * 4) :
      Renumbered r pos .tableSwitch
        (padding ++ (u32 fallback.toUInt32 ++ (u32 low.toUInt32 ++ (u32 high.toUInt32 ++ rows))))
        (padding ++ (u32 fallback.toUInt32 ++ (u32 low.toUInt32 ++ (u32 high.toUInt32 ++ rows))))
  | pairs {padding rows : List UInt8} (fallback count : Int32)
      (aligned : padding.length = (4 - pos % 4) % 4)
      (length : rows.length = count.toInt.toNat * 8) :
      Renumbered r pos .lookupSwitch
        (padding ++ (u32 fallback.toUInt32 ++ (u32 count.toUInt32 ++ rows)))
        (padding ++ (u32 fallback.toUInt32 ++ (u32 count.toUInt32 ++ rows)))
  | byteSlot {index index' : UInt8} (image : index'.toUInt16 = r index.toUInt16) :
      Renumbered r pos .constantByte [index] [index']
  | slotted {operand : Operand} (index : UInt16) {tail : List UInt8}
      (length : operand.tail? = some tail.length) :
      Renumbered r pos operand (u16 index ++ tail) (u16 (r index) ++ tail)

end Operand

namespace Instruction

/-- The bytes of instructions from `pos` on, and the same with every slot of the pool renumbered. -/
inductive Renumbered (r : UInt16 → UInt16) : Nat → List UInt8 → List UInt8 → Prop
  | nil {pos : Nat} : Renumbered r pos [] []
  | cons {pos : Nat} {opcode : UInt8} {operand : Operand} {bytes bytes' code code' : List UInt8}
      (known : Opcode.operand? opcode = some operand)
      (first : operand.Renumbered r (pos + 1) bytes bytes')
      (rest : Renumbered r (pos + 1 + bytes.length) code code') :
      Renumbered r pos (opcode :: (bytes ++ code)) (opcode :: (bytes' ++ code'))

end Instruction

/-- A body with every slot of the pool in its instructions renumbered, and guards at the same places,
whatever the slots of their throwables. -/
structure Code.Renumbered (r : UInt16 → UInt16) (code code' : Code) : Prop where
  bytes : Instruction.Renumbered r 0 code.bytes code'.bytes
  guards : code'.guards.map Guard.places = code.guards.map Guard.places

/-! ## The decoder on renumbered code -/

section

variable {r : UInt16 → UInt16} {p q : Pool} (table : List Bootstrap) (length : Nat)

theorem Operand.Renumbered.length_eq {pos : Nat} {operand : Operand} {bytes bytes' : List UInt8}
    (h : operand.Renumbered r pos bytes bytes') : bytes'.length = bytes.length := by
  cases h with
  | fixed | wide | table | pairs | byteSlot => rfl
  | slotted => rw [List.length_append, List.length_append, length_u16, length_u16]

theorem Instruction.Renumbered.length_eq {pos : Nat} {code code' : List UInt8}
    (h : Renumbered r pos code code') : code'.length = code.length := by
  induction h with
  | nil => rfl
  | cons _ first _ ih =>
    rw [List.length_cons, List.length_cons, List.length_append, List.length_append, ih,
      first.length_eq]

namespace Instruction

open Read (Follows Exact)

theorem agrees_callSite (pools : p.Renumbered r q) (index : UInt16) :
    Agrees (callSite ⟨p, table, length⟩ index)
      (callSite ⟨q, table.map (.renumber r), length⟩ (r index)) := by
  unfold callSite
  cases known : p.get? index with
  | none =>
    rw [Pool.get, known]
    exact .throw _
  | some e =>
    refine .bind_of_ok (Pool.get_of_get? known) (Pool.get_of_get? (pools.moved known)) ?_
    cases e with
    | callSite bootstrap signature =>
      dsimp only [Entry.renumber]
      rw [List.getElem?_map]
      cases table[bootstrap.toNat]? with
      | none => exact .throw _
      | some row =>
        refine .bind (pools.nameAndType signature) ?_
        rintro ⟨name, descriptor⟩
        refine .bind (.mapM_map (fun i => pools.loadable i table) row.arguments) fun arguments => ?_
        exact .bind (pools.methodHandle row.method) fun _ => .refl _
    | _ => exact .throw _

theorem exact_readTarget (c : CodeContext) (offset : Nat) : Exact (readTarget c offset) 4 :=
  .bind .i32 fun _ => .lift _

/-- An operand of a fixed width takes no more and no less. -/
theorem exact_readOperand (c : CodeContext) (offset : Nat) (opcode : UInt8) {operand : Operand}
    {width : Nat} (h : operand.width? = some width) :
    Exact (readOperand c offset opcode operand) width := by
  cases operand <;> cases h
  case none => exact .pure _
  case byte => exact .map .i8 _
  case short => exact .map .i16 _
  case arrayType => exact .map .u8 _
  case slot => exact .map .u8 _
  case increment => exact .bind .u8 fun _ => .map .i8 _
  case branch => exact .bind .i16 fun _ => .bind (.lift _) fun _ => .pure _
  case branchWide => exact .map (exact_readTarget c offset) _

variable (offset : Nat) (opcode : UInt8)

theorem follows_readTable {c : CodeContext} {pos : Nat} {padding rows : List UInt8}
    {fallback low high : Int32} (aligned : padding.length = (4 - pos % 4) % 4)
    (length : rows.length = (high.toInt - low.toInt + 1).toNat * 4) :
    Follows pos (readTable c offset) (readTable c offset)
      (padding ++ (u32 fallback.toUInt32 ++ (u32 low.toUInt32 ++ (u32 high.toUInt32 ++ rows))))
      (padding ++ (u32 fallback.toUInt32 ++ (u32 low.toUInt32 ++ (u32 high.toUInt32 ++ rows)))) := by
  refine .bind (.align aligned) fun _ => ?_
  refine .bind_takes (.i32 fallback) (.i32 fallback) rfl ?_
  refine .bind_takes (.i32 low) (.i32 low) rfl ?_
  refine .bind_takes (.i32 high) (.i32 high) rfl ?_
  split
  · exact .throw _
  · refine .bind_nil (.lift (.refl _)) fun _ => ?_
    exact .bind_last (.same (.times (exact_readTarget c offset) _) length) fun _ => .pure _

theorem follows_readPairs {c : CodeContext} {pos : Nat} {padding rows : List UInt8}
    {fallback count : Int32} (aligned : padding.length = (4 - pos % 4) % 4)
    (length : rows.length = count.toInt.toNat * 8) :
    Follows pos (readPairs c offset) (readPairs c offset)
      (padding ++ (u32 fallback.toUInt32 ++ (u32 count.toUInt32 ++ rows)))
      (padding ++ (u32 fallback.toUInt32 ++ (u32 count.toUInt32 ++ rows))) := by
  refine .bind (.align aligned) fun _ => ?_
  refine .bind_takes (.i32 fallback) (.i32 fallback) rfl ?_
  refine .bind_takes (.i32 count) (.i32 count) rfl ?_
  split
  · exact .throw _
  · have pair : Exact (readPair c offset) 8 := .bind .i32 fun _ => exact_readTarget c offset
    refine .bind_nil (.lift (.refl _)) fun _ => ?_
    exact .bind_last (.same (.times pair _) length) fun _ => .pure _

theorem follows_readWide {pos : Nat} {widened : UInt8} {bytes : List UInt8}
    (length : bytes.length = if widened = Opcode.iinc then 4 else 2) :
    Follows pos (readWide offset) (readWide offset) (widened :: bytes) (widened :: bytes) := by
  refine .bind_u8 ?_
  by_cases increment : widened = Opcode.iinc
  · rw [if_pos increment] at length ⊢
    exact .same (.bind .u16 fun _ => .map .i16 _) length
  · rw [if_neg increment] at length ⊢
    split
    · exact .same (.map .u16 _) length
    · exact .throw _

/-- The operands of renumbered code give the same instruction. -/
theorem follows_readOperand (pools : p.Renumbered r q) {pos : Nat} {operand : Operand}
    {bytes bytes' : List UInt8} (h : operand.Renumbered r pos bytes bytes') :
    Follows pos (readOperand ⟨p, table, length⟩ offset opcode operand)
      (readOperand ⟨q, table.map (.renumber r), length⟩ offset opcode operand) bytes bytes' := by
  cases h with
  | fixed width =>
    -- Without a slot only the length of the code counts.
    have unslotted : readOperand ⟨q, table.map (.renumber r), length⟩ offset opcode operand =
        readOperand ⟨p, table, length⟩ offset opcode operand := by
      cases operand <;> first | rfl | cases width
    rw [unslotted]
    exact .same (exact_readOperand _ offset opcode width) rfl
  | wide size => exact .bind_last (follows_readWide offset size) fun _ => .pure _
  | table fallback low high aligned size =>
    exact .bind_last (follows_readTable offset aligned size) fun _ => .pure _
  | pairs fallback count aligned size =>
    exact .bind_last (follows_readPairs offset aligned size) fun _ => .pure _
  | @byteSlot index index' image =>
    refine .bind_takes (.u8 index) (.u8 index') rfl ?_
    rw [image]
    exact .bind_nil (.lift (pools.loadable _ table)) fun _ => .pure _
  | @slotted _ index tail size =>
    have slot := Read.Takes.u16 index
    have slot' := Read.Takes.u16 (r index)
    cases operand <;> try contradiction
    case constant =>
      obtain rfl := List.eq_nil_of_length_eq_zero (Option.some.inj size).symm
      exact .bind_takes slot slot' rfl
        (.bind_nil (.lift (pools.loadable index table)) fun _ => .pure _)
    case field | method =>
      obtain rfl := List.eq_nil_of_length_eq_zero (Option.some.inj size).symm
      exact .bind_takes slot slot' rfl (.bind_nil (.lift (pools.member index)) fun _ => .pure _)
    case interfaceMethod =>
      exact .bind_takes slot slot' rfl (.bind_last (.skip (Option.some.inj size).symm rfl) fun _ =>
        .bind_nil (.lift (pools.member index)) fun _ => .pure _)
    case dynamic =>
      exact .bind_takes slot slot' rfl (.bind_last (.skip (Option.some.inj size).symm rfl) fun _ =>
        .bind_nil (.lift (agrees_callSite table length pools index)) fun _ => .pure _)
    -- A class is not looked up: its slot is passed over, with what follows it.
    case classRef =>
      obtain rfl := List.eq_nil_of_length_eq_zero (Option.some.inj size).symm
      exact .bind_last (.skip rfl rfl) fun _ => .pure _
    case multiArray =>
      have one := Option.some.inj size
      refine .bind_last (.skip ?_ ?_) fun _ => .pure _
      · rw [List.length_append, ← one, length_u16]
      · rw [List.length_append, List.length_append, length_u16, length_u16]

/-- An instruction is found where its renumbered form stands. -/
theorem follows_read (pools : p.Renumbered r q) {operand : Operand} {bytes bytes' : List UInt8}
    (known : Opcode.operand? opcode = some operand)
    (h : operand.Renumbered r (offset + 1) bytes bytes') :
    Follows offset (read ⟨p, table, length⟩) (read ⟨q, table.map (.renumber r), length⟩)
      (opcode :: bytes) (opcode :: bytes') := by
  obtain ⟨⟨mnemonic, _⟩, info, rfl⟩ := Option.map_eq_some_iff.mp known
  refine .bind_position ?_
  refine .bind_u8 ?_
  unfold readBehind
  rw [info]
  refine .bind_last (follows_readOperand table length offset opcode pools h) fun _ => ?_
  exact .bind_position (.pure _)

theorem exists_read_of_readAllOnto {c : CodeContext} {done all : List Located} {k : Cursor}
    (h : readAllOnto c done k = .ok all) (more : k.hasMore = true) :
    ∃ l k', read c k = .ok l k' ∧ readAllOnto c (l :: done) k' = .ok all := by
  rw [readAllOnto, if_pos more] at h
  split at h
  · next l k' early => exact ⟨l, k', early, h⟩
  · cases h

/-- **What is read of code is read of its renumbered form**, one instruction after another. -/
theorem Renumbered.agrees_readAllOnto (pools : p.Renumbered r q) {pos : Nat}
    {code code' : List UInt8} (h : Renumbered r pos code code') (done : List Located) :
    Agrees (readAllOnto ⟨p, table, length⟩ done ⟨pos, code⟩)
      (readAllOnto ⟨q, table.map (.renumber r), length⟩ done ⟨pos, code'⟩) := by
  induction h generalizing done with
  | nil =>
    rw [readAllOnto_nil, readAllOnto_nil]
    exact .refl _
  | @cons pos opcode operand bytes bytes' code code' known first _ ih =>
    refine ⟨fun ok => ?_⟩
    obtain ⟨l, _, early, late⟩ := exists_read_of_readAllOnto ok rfl
    obtain ⟨rfl, early'⟩ := (follows_read table length pos opcode pools known first).of_ok early
    have stop : pos + (opcode :: bytes).length = pos + 1 + bytes.length := by
      rw [List.length_cons]
      omega
    rw [stop] at late early'
    rw [← List.cons_append, readAllOnto_of_read (early' code')]
    exact (ih (l :: done)).of_ok late

/-! ## Every body that is decoded has renumbered forms -/

section

variable (r) (c : CodeContext) (offset : Nat) {pos : Nat}

open Read (SplitsAt)

theorem exists_renumbered_of_readTable :
    SplitsAt pos (readTable c offset) fun used _ =>
      Operand.Renumbered r pos .tableSwitch used used := by
  refine .bind (.align 4) fun padding _ aligned => ?_
  refine .bind .i32 fun _ fallback h => h ▸ ?_
  refine .bind .i32 fun _ low h => h ▸ ?_
  refine .bind .i32 fun _ high h => h ▸ ?_
  split
  · exact .throw _
  · have rest := Exact.bind (.lift (target c offset fallback.toInt)) fun first =>
      Exact.map (.times (exact_readTarget c offset) (high.toInt - low.toInt + 1).toNat) (first :: ·)
    refine (SplitsAt.of rest).mono fun rows _ length => ?_
    exact .table fallback low high aligned (length.trans (Nat.zero_add _))

theorem exists_renumbered_of_readPairs :
    SplitsAt pos (readPairs c offset) fun used _ =>
      Operand.Renumbered r pos .lookupSwitch used used := by
  refine .bind (.align 4) fun padding _ aligned => ?_
  refine .bind .i32 fun _ fallback h => h ▸ ?_
  refine .bind .i32 fun _ count h => h ▸ ?_
  split
  · exact .throw _
  · have pair : Exact (readPair c offset) 8 := .bind .i32 fun _ => exact_readTarget c offset
    have rest := Exact.bind (.lift (target c offset fallback.toInt)) fun first =>
      Exact.map (.times pair count.toInt.toNat) (first :: ·)
    refine (SplitsAt.of rest).mono fun rows _ length => ?_
    exact .pairs fallback count aligned (length.trans (Nat.zero_add _))

theorem exists_renumbered_of_readWide :
    SplitsAt pos (readWide offset) fun used _ => Operand.Renumbered r pos .wide used used := by
  refine .bind (.of .u8) fun _ opcode h => h ▸ ?_
  split
  · next increment =>
    have rest {f : UInt16 → Int16 → Instruction} :
        Exact (do return f (← Read.u16) (← Read.i16)) 4 := .bind .u16 fun _ => .map .i16 _
    exact (SplitsAt.of rest).mono fun bytes _ length =>
      .wide (length.trans (if_pos increment).symm)
  · next other =>
    split
    · have rest {f : UInt16 → Instruction} : Exact (do return f (← Read.u16)) 2 := .map .u16 _
      exact (SplitsAt.of rest).mono fun bytes _ length => .wide (length.trans (if_neg other).symm)
    · exact .throw _

variable (short : ∀ index : UInt8, ∃ index' : UInt8, index'.toUInt16 = r index.toUInt16)

include short

/-- The operands that are read have a renumbered form, if one-byte slots keep to one byte. -/
theorem exists_renumbered_of_readOperand (operand : Operand) :
    SplitsAt pos (readOperand c offset opcode operand) fun used _ =>
      ∃ used', operand.Renumbered r pos used used' := by
  have fixed {width : Nat} (h : operand.width? = some width) :
      SplitsAt pos (readOperand c offset opcode operand) fun used _ =>
        ∃ used', operand.Renumbered r pos used used' :=
    (SplitsAt.of (exact_readOperand c offset opcode h)).mono fun used _ length =>
      ⟨used, .fixed (length ▸ h)⟩
  have slotted {f : UInt16 → Read (Instruction × List Nat)} {n : Nat}
      (h : operand.tail? = some n) (hf : ∀ index, Exact (f index) n) :
      SplitsAt pos (Read.u16 >>= f) fun used _ => ∃ used', operand.Renumbered r pos used used' :=
    .bind (.of .u16) fun _ index same => same ▸ (SplitsAt.of (hf index)).mono fun tail _ length =>
      ⟨_, .slotted index (length ▸ h)⟩
  have passed {a : Instruction × List Nat} {n : Nat} (h : operand.tail? = some n) :
      SplitsAt pos (do Read.skip (2 + n); return a) fun used _ =>
        ∃ used', operand.Renumbered r pos used used' := by
    refine (SplitsAt.of (Exact.map (.skip (2 + n)) _)).mono fun used _ length => ?_
    have front : (used.take 2).length = 2 := by rw [List.length_take]; omega
    have behind : (used.drop 2).length = n := by rw [List.length_drop]; omega
    rw [← List.take_append_drop 2 used, ← u16_value front]
    exact ⟨_, .slotted _ (behind ▸ h)⟩
  have kept {α : Type} {p : Read α} {f : α → Instruction × List Nat}
      (hp : SplitsAt pos p fun used _ => operand.Renumbered r pos used used) :
      SplitsAt pos (do return f (← p)) fun used _ => ∃ used', operand.Renumbered r pos used used' :=
    (hp.map f).mono fun used _ ⟨_, h, _⟩ => ⟨used, h⟩
  cases operand
  case constantByte =>
    refine .bind (.of .u8) fun _ index same => same ▸ ?_
    have rest {f : Constant → Instruction × List Nat} {e : Except Error Constant} :
        Exact (do return f (← e)) 0 := .map (.lift e) f
    refine (SplitsAt.of rest).mono fun nothing _ length => ?_
    obtain rfl := List.eq_nil_of_length_eq_zero length
    obtain ⟨index', image⟩ := short index
    exact ⟨[index'], .byteSlot image⟩
  case constant => exact slotted rfl fun _ => .map (.lift _) _
  case field | method => exact slotted rfl fun _ => .map (.lift _) _
  case interfaceMethod | dynamic =>
    exact slotted rfl fun _ => .bind (.skip 2) fun _ => .map (.lift _) _
  case classRef | multiArray => exact passed rfl
  case tableSwitch => exact kept (exists_renumbered_of_readTable r c offset)
  case lookupSwitch => exact kept (exists_renumbered_of_readPairs r c offset)
  case wide => exact kept (exists_renumbered_of_readWide r offset)
  all_goals exact fixed rfl

theorem exists_renumbered_of_read :
    SplitsAt pos (read c) fun used _ => ∃ opcode operand bytes bytes', used = opcode :: bytes ∧
      Opcode.operand? opcode = some operand ∧ operand.Renumbered r (pos + 1) bytes bytes' := by
  refine .bind .position ?_
  rintro _ _ ⟨rfl, rfl⟩
  refine .bind (.of .u8) fun _ opcode h => h ▸ ?_
  unfold readBehind
  split
  · exact .throw _
  · next mnemonic operand info =>
    refine .bind (exists_renumbered_of_readOperand r _ c _ short operand) ?_
    rintro bytes _ ⟨bytes', h⟩
    refine (SplitsAt.map .position _).mono fun _ _ ⟨_, ⟨nothing, _⟩, _⟩ => ?_
    refine ⟨opcode, operand, bytes, bytes', ?_, congrArg (Option.map _) info, h⟩
    rw [nothing, List.append_nil]
    rfl

theorem exists_renumbered_of_readAllOnto (done : List Located) (k : Cursor) :
    Ensures (readAllOnto c done k) fun _ => ∃ code', Renumbered r k.pos k.rest code' := by
  fun_induction readAllOnto c done k with
  | case1 done k _ l k' first ih =>
    obtain ⟨_, split, stop, opcode, operand, bytes, bytes', rfl, known, h⟩ :=
      (exists_renumbered_of_read r c short).of_ok first
    refine ih.mono fun _ ⟨code', rest⟩ => ?_
    have place : k'.pos = k.pos + 1 + bytes.length := by
      rw [stop, List.length_cons]
      omega
    rw [split, List.cons_append]
    exact ⟨_, .cons known h (place ▸ rest)⟩
  | case2 => exact .throw _
  | case3 done k ends =>
    have nothing : k.rest = [] := by simpa [Cursor.hasMore] using ends
    rw [nothing]
    exact .pure ⟨[], .nil⟩

end

end Instruction

namespace Located

/-- Labels are put in by the places of the guards alone. -/
theorem withLabels_congr {guards guards' : List Guard}
    (h : guards'.map Guard.places = guards.map Guard.places) (code : List Located) (length : Nat) :
    withLabels code guards' length = withLabels code guards length := by
  have points : entryPoints code guards' = entryPoints code guards := by
    rw [entryPoints, entryPoints, List.flatMap_def (l := guards'), h, ← List.flatMap_def]
  rw [withLabels, withLabels, points]

end Located

namespace Code

/-- **The order of the pool does not show in the instructions.** Where a body is decoded, its
renumbered form is decoded with the renumbered pool and bootstrap table, to the same instructions and
labels. -/
theorem instructions_of_renumbered (pools : p.Renumbered r q) {code code' : Code}
    (codes : code.Renumbered r code') {is : List Instruction}
    (h : code.instructions p table = .ok is) :
    code'.instructions q (table.map (.renumber r)) = .ok is := by
  refine (Agrees.bind ?_ fun located => ?_).of_ok h
  · rw [Instruction.readAll, Instruction.readAll, codes.bytes.length_eq]
    exact codes.bytes.agrees_readAllOnto table _ pools []
  · rw [codes.bytes.length_eq, Located.withLabels_congr codes.guards]
    exact .refl _

/-- A pool behind a constant, a call, a call site and a class. -/
def linkingPool : Pool :=
  ⟨#[none, some (.utf8 "App"), some (.classRef 1), some (.utf8 "run"), some (.utf8 "()V"),
    some (.nameAndType 3 4), some (.member .method 2 5), some (.string 3),
    some (.methodHandle 6 6), some (.callSite 0 5)]⟩

/-- The same entries, last one first. -/
def linkingPoolBackwards : Pool :=
  ⟨#[none, some (.callSite 0 5), some (.methodHandle 6 4), some (.string 7),
    some (.member .method 8 5), some (.nameAndType 7 6), some (.utf8 "()V"), some (.utf8 "run"),
    some (.classRef 9), some (.utf8 "App")]⟩

/-- Loads a text, makes a call and one through a call site, names a class, and goes back to the start
or on to the end. -/
def linkingCode : Code :=
  ⟨1, 0, [0x12, 7, 0xB8, 0, 6, 0xBA, 0, 9, 0, 0, 0xBB, 0, 2, 0xAA, 0, 0, 0, 0, 0, 19, 0, 0, 0, 0,
    0, 0, 0, 0, 0xFF, 0xFF, 0xFF, 0xF3, 0xB1], [⟨0, 13, 32, 2⟩], []⟩

def linkingCodeBackwards : Code :=
  ⟨1, 0, [0x12, 3, 0xB8, 0, 4, 0xBA, 0, 1, 0, 0, 0xBB, 0, 8, 0xAA, 0, 0, 0, 0, 0, 19, 0, 0, 0, 0,
    0, 0, 0, 0, 0xFF, 0xFF, 0xFF, 0xF3, 0xB1], [⟨0, 13, 32, 8⟩], []⟩

def linkingListing : List Instruction :=
  [.label 0, .constant Opcode.ldc (.string "run"),
    .call Opcode.invokestatic ⟨"App", "run", "()V", false⟩,
    .dynamic "run" "()V" ⟨6, "App", "run", "()V", false⟩ [.string "run"], .plain 0xBB, .label 1,
    .plain 0xAA, .label 2, .plain 0xB1]

theorem renumbered_linkingCode : linkingCode.Renumbered (10 - ·) linkingCodeBackwards := by
  have load : Operand.Renumbered (10 - ·) 1 .constantByte [7] [3] := .byteSlot rfl
  have call : Operand.Renumbered (10 - ·) 3 .method [0, 6] [0, 4] :=
    @Operand.Renumbered.slotted _ _ _ 6 [] rfl
  have site : Operand.Renumbered (10 - ·) 6 .dynamic [0, 9, 0, 0] [0, 1, 0, 0] :=
    @Operand.Renumbered.slotted _ _ _ 9 [0, 0] rfl
  have name : Operand.Renumbered (10 - ·) 11 .classRef [0, 2] [0, 8] :=
    @Operand.Renumbered.slotted _ _ _ 2 [] rfl
  have jump := @Operand.Renumbered.table (10 - ·) 14 [0, 0] [0xFF, 0xFF, 0xFF, 0xF3] 19 0 0 rfl rfl
  have stop : Operand.Renumbered (10 - ·) 33 .none [] [] := .fixed rfl
  refine ⟨?_, rfl⟩
  refine .cons (by decide +kernel) load ?_
  refine .cons (by decide +kernel) call ?_
  refine .cons (by decide +kernel) site ?_
  refine .cons (by decide +kernel) name ?_
  refine .cons (by decide +kernel) jump ?_
  exact .cons (by decide +kernel) stop .nil

/-- The two forms of the code are one listing. -/
theorem instructions_linkingCodeBackwards :
    linkingPool.Renumbered (10 - ·) linkingPoolBackwards ∧
      linkingCode.Renumbered (10 - ·) linkingCodeBackwards ∧
      linkingCode.instructions linkingPool [⟨8, [7]⟩] = .ok linkingListing ∧
      linkingCodeBackwards.instructions linkingPoolBackwards [⟨2, [3]⟩] = .ok linkingListing := by
  have pools : linkingPool.Renumbered (10 - ·) linkingPoolBackwards := by decide +kernel
  have listed : linkingCode.instructions linkingPool [⟨8, [7]⟩] = .ok linkingListing := by
    decide +kernel
  exact ⟨pools, renumbered_linkingCode, listed,
    instructions_of_renumbered _ pools renumbered_linkingCode listed⟩

/-- Every body that is decoded has a renumbered form, if one-byte slots keep to one byte. -/
theorem exists_renumbered
    (short : ∀ index : UInt8, ∃ index' : UInt8, index'.toUInt16 = r index.toUInt16) {code : Code}
    {is : List Instruction} (h : code.instructions p table = .ok is) :
    ∃ code', code.Renumbered r code' := by
  have all : Ensures (code.instructions p table) fun _ => ∃ code', code.Renumbered r code' := by
    refine (Instruction.exists_renumbered_of_readAllOnto r _ short [] _).bind ?_
    rintro _ ⟨bytes, renumbered⟩
    exact (Ensures.any _).mono fun _ _ => ⟨{ code with bytes }, renumbered, rfl⟩
  exact all.of_ok h

end Code

end

end Recompose
