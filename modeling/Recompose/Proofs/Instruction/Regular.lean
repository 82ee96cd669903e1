import Recompose.Instruction.Listing
import Recompose.Proofs.Ascending
import Recompose.Proofs.Instruction.Decode
import Recompose.Proofs.Pool.Loaded

/-!
Instructions as they are decoded. The opcode of an instruction says what operands it has, its texts
come from the pool, and the number of a label is bounded by the length of the code.
-/

namespace Recompose

open Bytes

/-- What operands an instruction has. -/
inductive Shape where
  | call
  | constant
  | dynamic
  | field
  | immediate
  | slot (stepped : Bool)
  | label
  | plain
deriving DecidableEq, Repr

namespace Instruction

def shape : Instruction → Shape
  | call .. => .call
  | constant .. => .constant
  | dynamic .. => .dynamic
  | field .. => .field
  | immediate .. => .immediate
  | slot _ _ step => .slot step.isSome
  | label _ => .label
  | plain _ => .plain

end Instruction

namespace Operand

/-- The shape of instructions with such operands; short forms imply theirs. -/
def shape (opcode : UInt8) : Operand → Shape
  | none => (Instruction.implied opcode).shape
  | byte | short | arrayType => .immediate
  | constantByte | constant => .constant
  | slot => .slot false
  | increment => .slot true
  | field => .field
  | method | interfaceMethod => .call
  | dynamic => .dynamic
  | branch | branchWide | tableSwitch | lookupSwitch | classRef | multiArray | wide => .plain

end Operand

namespace Opcode

/-- The shape of the instructions that are reported with an opcode. -/
def shape (opcode : UInt8) : Shape :=
  match operand? opcode with
  | some operand => operand.shape opcode
  | none => .plain

theorem shape_of_operand {opcode : UInt8} {operand : Operand}
    (known : operand? opcode = some operand) : shape opcode = operand.shape opcode := by
  unfold shape
  generalize operand? opcode = layout at known
  subst known
  rfl

/-- The opcodes of short forms are those of accesses to local variables. -/
theorem shape_of_hasWideSlot {opcode : UInt8} (h : Instruction.HasWideSlot opcode) :
    shape opcode = .slot false := by
  have all : ∀ n : Fin 256, Instruction.HasWideSlot (UInt8.ofNat n) →
      shape (UInt8.ofNat n) = .slot false := by decide +kernel
  have := all ⟨opcode.toNat, opcode.toNat_lt⟩
  rw [UInt8.ofNat_toNat] at this
  exact this h

end Opcode

namespace Instruction

/-- What holds of all instructions of a listing. -/
def Regular : Instruction → Prop
  | call opcode target => Opcode.shape opcode = .call ∧ ∀ s ∈ target.texts, Hash.Fits s
  | constant opcode value => Opcode.shape opcode = .constant ∧ ∀ s ∈ value.texts, Hash.Fits s
  | dynamic name descriptor bootstrap arguments =>
    (∀ s ∈ name :: descriptor :: bootstrap.texts, Hash.Fits s) ∧
      ∀ c ∈ arguments, c ≠ .null ∧ ∀ s ∈ c.texts, Hash.Fits s
  | field opcode target => Opcode.shape opcode = .field ∧ ∀ s ∈ target.texts, Hash.Fits s
  | immediate opcode _ => Opcode.shape opcode = .immediate
  | slot opcode _ step => Opcode.shape opcode = .slot step.isSome
  | label ordinal => ordinal < 2 ^ 64
  | plain opcode => Opcode.shape opcode = .plain

theorem Regular.shape_eq {i : Instruction} (h : i.Regular) {opcode : UInt8}
    (known : i.opcode? = some opcode) : i.shape = Opcode.shape opcode := by
  cases i with
  | dynamic =>
    cases known
    show Shape.dynamic = _
    decide +kernel
  | label => cases known
  | immediate | slot | plain =>
    cases known
    exact h.symm
  | call | constant | field =>
    cases known
    exact h.1.symm

/-! ## Decoding -/

theorem regular_implied {opcode : UInt8} (known : Opcode.operand? opcode = some .none) :
    (implied opcode).Regular := by
  have same : Opcode.shape opcode = (implied opcode).shape := Opcode.shape_of_operand known
  have loads : ∀ k < 5, HasWideSlot (Opcode.iload + UInt8.ofNat k) := by decide
  have stores : ∀ k < 5, HasWideSlot (Opcode.istore + UInt8.ofNat k) := by decide
  revert same
  fun_cases implied opcode <;> intro same
  case case10 n _ _ _ _ _ _ _ _ _ inside =>
    exact Opcode.shape_of_hasWideSlot (loads _ (by omega))
  case case11 n _ _ _ _ _ _ _ _ _ _ inside =>
    exact Opcode.shape_of_hasWideSlot (stores _ (by omega))
  case case12 => exact same
  all_goals exact ⟨same, List.forall_mem_nil _⟩

variable {c : CodeContext}

open Read (Gives)

theorem regular_callSite (loaded : c.pool.Loaded) (index : UInt16) :
    Ensures (callSite c index) Regular := by
  apply (Ensures.any _).bind
  intro entry _
  split
  · next number signature =>
    split
    · exact .throw _
    · next row _ =>
      apply (loaded.nameAndType _).bind
      intro signature hsignature
      apply (Ensures.mapM (fun i => loaded.loadable i c.bootstraps) row.arguments).bind
      intro arguments harguments
      apply (loaded.methodHandle row.method).bind
      intro bootstrap hbootstrap
      apply Ensures.pure
      refine ⟨?_, harguments⟩
      simp only [List.forall_mem_cons]
      exact ⟨hsignature.1, hsignature.2, hbootstrap⟩
  · exact .throw _

theorem regular_readWide (offset : Nat) : Gives (readWide offset) Regular := by
  apply Gives.behind
  intro opcode
  split
  · next is =>
    refine .behind fun index => .behind fun step => .pure ?_
    subst is
    show Opcode.shape Opcode.iinc = .slot true
    decide +kernel
  · split
    · next is => exact .behind fun index => .pure (Opcode.shape_of_hasWideSlot is)
    · exact .throw _

theorem regular_readOperand (loaded : c.pool.Loaded) (offset : Nat) {opcode : UInt8}
    {operand : Operand} (known : Opcode.operand? opcode = some operand) :
    Gives (readOperand c offset opcode operand) fun r => r.1.Regular := by
  have same := Opcode.shape_of_operand known
  have ldc : Opcode.shape Opcode.ldc = .constant := by decide +kernel
  cases operand with
  | none => exact .pure (regular_implied known)
  | byte => exact .behind fun _ => .pure (same)
  | short => exact .behind fun _ => .pure (same)
  | arrayType => exact .behind fun _ => .pure (same)
  | constantByte =>
    refine .behind fun index => .bind (.lift (loaded.loadable _ _)) fun value hvalue => .pure ?_
    exact ⟨ldc, hvalue.2⟩
  | constant =>
    refine .behind fun index => .bind (.lift (loaded.loadable _ _)) fun value hvalue => .pure ?_
    exact ⟨ldc, hvalue.2⟩
  | slot => exact .behind fun _ => .pure (same)
  | increment => exact .behind fun _ => .behind fun _ => .pure (same)
  | branch => exact .behind fun _ => .behind fun _ => .pure (same)
  | branchWide =>
    refine .behind fun _ => .pure ?_
    show Opcode.shape _ = .plain
    split <;> decide +kernel
  | tableSwitch => exact .behind fun _ => .pure (same)
  | lookupSwitch => exact .behind fun _ => .pure (same)
  | field =>
    exact .behind fun _ => .bind (.lift (loaded.member _)) fun m hm => .pure ⟨same, hm⟩
  | method =>
    exact .behind fun _ => .bind (.lift (loaded.member _)) fun m hm => .pure ⟨same, hm⟩
  | interfaceMethod =>
    exact .behind fun _ => .behind fun _ => .bind (.lift (loaded.member _)) fun m hm =>
      .pure ⟨same, hm⟩
  | dynamic =>
    exact .behind fun _ => .behind fun _ => .bind (.lift (regular_callSite loaded _)) fun i hi =>
      .pure hi
  | classRef => exact .behind fun _ => .pure (same)
  | multiArray => exact .behind fun _ => .pure (same)
  | wide => exact .bind (regular_readWide offset) fun i hi => .pure hi

theorem regular_read (loaded : c.pool.Loaded) : Gives (read c) fun l => l.instruction.Regular := by
  refine .behind fun offset => .behind fun opcode => ?_
  unfold readBehind
  split
  · exact .throw _
  · next mnemonic operand info =>
    have known : Opcode.operand? opcode = some operand := by
      rw [Opcode.operand?, info]
      rfl
    apply (regular_readOperand loaded offset known).bind
    intro r hr
    exact .behind fun stop => .pure hr

/-- Every instruction takes a byte at least. -/
theorem regular_readAllOnto (loaded : c.pool.Loaded) {done : List Located}
    (before : ∀ l ∈ done, l.instruction.Regular) (k : Cursor) :
    Ensures (readAllOnto c done k) fun code =>
      (∀ l ∈ code, l.instruction.Regular) ∧ code.length ≤ done.length + k.rest.length := by
  fun_induction readAllOnto c done k with
  | case1 done k _ l k' first ih =>
    have one := (regular_read loaded).of_ok first
    have shorter := length_rest_lt_of_read first
    apply (ih (List.forall_mem_cons.mpr ⟨one, before⟩)).mono
    intro code ⟨all, few⟩
    rw [List.length_cons] at few
    exact ⟨all, by omega⟩
  | case2 => exact .throw _
  | case3 done k =>
    apply Ensures.pure
    rw [List.length_reverse]
    exact ⟨fun l mem => before l (List.mem_reverse.mp mem), Nat.le_add_right _ _⟩

theorem regular_readAll {pool : Pool} (loaded : pool.Loaded) (bootstraps : List Bootstrap)
    (bytes : List UInt8) :
    Ensures (readAll pool bootstraps bytes) fun code =>
      (∀ l ∈ code, l.instruction.Regular) ∧ code.length ≤ bytes.length := by
  have all := regular_readAllOnto (c := ⟨pool, bootstraps, bytes.length⟩) loaded
    (List.forall_mem_nil _) (.ofBytes bytes)
  rwa [List.length_nil, Nat.zero_add] at all

end Instruction

/-! ## Listings -/

namespace Located

/-- There are no more labels than instructions, but for one at the end. -/
theorem length_entryPoints {code : List Located} {guards : List Guard} {length : Nat}
    (inside : ∀ offset ∈ entryPoints code guards, isBoundary code length offset = true) :
    (entryPoints code guards).length ≤ code.length + 1 := by
  have distinct : (entryPoints code guards).Nodup := by
    apply (Ascending.pairwise_ofList _).imp
    intro a b before same
    rw [same, Nat.compare_eq_lt] at before
    exact Nat.lt_irrefl _ before
  have places : entryPoints code guards ⊆ length :: code.map (·.offset) := by
    intro offset mem
    have boundary := inside offset mem
    simp only [isBoundary, Bool.or_eq_true, beq_iff_eq, List.any_eq_true] at boundary
    rw [List.mem_cons, List.mem_map]
    exact boundary
  simpa using (distinct.subperm places).length_le

theorem regular_labelAt {points : List Nat} (few : points.length < 2 ^ 64) (offset : Nat) :
    ∀ i ∈ labelAt points offset, i.Regular := by
  unfold labelAt
  split
  · next ordinal found =>
    obtain ⟨inside, -⟩ := List.idxOf?_eq_some_iff.mp found
    simp only [List.forall_mem_cons]
    exact ⟨Nat.lt_trans inside few, List.forall_mem_nil _⟩
  · exact List.forall_mem_nil _

theorem regular_withLabels {code : List Located} (all : ∀ l ∈ code, l.instruction.Regular)
    (few : code.length < 2 ^ 32) (guards : List Guard) (length : Nat) :
    Ensures (withLabels code guards length) fun is => ∀ i ∈ is, i.Regular := by
  unfold withLabels
  dsimp only
  split
  · exact .throw _
  · next none =>
    have inside : ∀ offset ∈ entryPoints code guards, isBoundary code length offset = true := by
      simpa using List.find?_eq_none.mp none
    have points : (entryPoints code guards).length < 2 ^ 64 := by
      have := length_entryPoints inside
      omega
    apply Ensures.pure
    simp only [List.mem_append, List.mem_flatMap]
    rintro i (⟨l, mem, label | this⟩ | label)
    · exact regular_labelAt points _ i label
    · cases List.mem_singleton.mp this
      exact all l mem
    · exact regular_labelAt points _ i label

end Located

namespace Code

/-- **All instructions of a listing are regular.** -/
theorem regular_instructions {pool : Pool} (loaded : pool.Loaded) (bootstraps : List Bootstrap)
    {code : Code} (few : code.bytes.length < 2 ^ 32) :
    Ensures (code.instructions pool bootstraps) fun is => ∀ i ∈ is, i.Regular := by
  apply (Instruction.regular_readAll loaded bootstraps code.bytes).bind
  intro located ⟨all, short⟩
  exact Located.regular_withLabels all (Nat.lt_of_le_of_lt short few) code.guards code.bytes.length

end Code

end Recompose
