import Recompose.Proofs.Assembly.Names
import Recompose.Proofs.Instruction.Decode

/-!
What a decoder should make of each operation, and that it does: the bytes of an operation, whatever
form they take, are the operation's instruction by the final tables.
-/

namespace Recompose

open Bytes BigEndian
open Instruction (TakesAt)

/-! ## Instructions meant -/

namespace Lambda

def instruction (site : Lambda) : Instruction :=
  .dynamic site.name site.descriptor
    ⟨invokeStatic, factoryOwner, site.factory, factoryDescriptor, false⟩
    [.methodType site.erased,
      .methodHandle
        ⟨invokeStatic, site.body.className, site.body.name, site.body.descriptor, false⟩,
      .methodType site.erased]

end Lambda

namespace Op

/-- The instruction that loads an integer in the shortest form. -/
def intInstruction (value : Int32) : Instruction :=
  let n := value.toInt
  if -1 ≤ n ∧ n ≤ 5 then
    .constant (UInt8.ofNat (Opcode.iconst0.toNat + n).toNat) (.int value)
  else if -128 ≤ n ∧ n ≤ 127 then
    .immediate Opcode.bipush value
  else if -32768 ≤ n ∧ n ≤ 32767 then
    .immediate Opcode.sipush value
  else
    .constant Opcode.ldc (.int value)

/-- The instruction that an operation stands for. The marks, which place labels and give line
numbers, stand for none. -/
def instruction? : Op → Option Instruction
  | plain opcode => some (.implied opcode)
  | int value => some (intInstruction value)
  | poolInt value => some (.constant Opcode.ldc (.int value))
  | poolLong value => some (.constant Opcode.ldc (.long value))
  | poolString value => some (.constant Opcode.ldc (.string value))
  | slot access index => some (.slot access.opcode index none)
  | increment index step => some (.slot Opcode.iinc index (some step))
  | invoke kind target =>
    some (.call kind.opcode
      ⟨target.className, target.name, target.descriptor, kind.memberKind = .interfaceMethod⟩)
  | field access owner name descriptor => some (.field access.opcode ⟨owner, name, descriptor, false⟩)
  | lambda site => some site.instruction
  | jump kind _ => some (.plain kind.opcode)
  | place _ => none
  | line _ => none

/-- The label that an operation jumps to. -/
def target? : Op → Option Nat
  | jump _ label => some label
  | _ => none

/-! ## Pieces of operations -/

/-- The piece is right for the operation by the tables: code that is its instruction wherever it
stands, or the same jump or mark. -/
inductive Renders (D : Draft) : Op → Piece → Prop
  | code {op : Op} {bytes : List UInt8} {i : Instruction} :
      op.instruction? = some i → op.target? = none →
      (∀ length offset, TakesAt ⟨D.pool, D.bootstraps, length⟩ offset bytes [] i) →
      Renders D op (.code bytes)
  | jump (kind : JumpKind) (label : Nat) : Renders D (.jump kind label) (.jump kind.opcode label)
  | place (label : Nat) : Renders D (.place label) (.place label)
  | line (number : UInt16) : Renders D (.line number) (.line number)

/-- The opcode that is given plainly, if one is. -/
def plain? : Op → Option UInt8
  | plain opcode => some opcode
  | _ => none

/-- The operation can be assembled as it is: an opcode given plainly has no operands. -/
def IsSound (op : Op) : Prop :=
  ∀ opcode ∈ op.plain?, Opcode.operand? opcode = some .none

instance (op : Op) : Decidable op.IsSound :=
  inferInstanceAs (Decidable (∀ opcode ∈ op.plain?, Opcode.operand? opcode = some .none))

end Op

open Draft

/-- The call site of a lambda is found with its name, its bootstrap method and its arguments. -/
theorem Lambda.callSite_yields (site : Lambda) :
    Yields site.callSite fun D index => ∀ length,
      Instruction.callSite ⟨D.pool, D.bootstraps, length⟩ index = .ok site.instruction := by
  refine (member_yields _ _ _ _).bind fun factoryMember => ?_
  refine (methodHandle_yields _ _).bind fun factory => ?_
  refine (member_yields _ _ _ _).bind fun bodyMember => ?_
  refine (methodType_yields _).bind fun erased => ?_
  refine (methodHandle_yields _ _).bind fun body => ?_
  refine (bootstrap_yields rfl).bind fun row => ?_
  refine (nameAndType_yields _ _).bind fun signature => (intern_yields _).imp ?_
  rintro D index _ ⟨found, _⟩ _ knownSignature _ knownRow _ knownBody _ knownErased _ bodyIs _
    knownFactory _ factoryIs length
  obtain ⟨factoryHandle, -⟩ := knownFactory _ factoryIs
  obtain ⟨-, bodyHandle⟩ := knownBody _ bodyIs
  have arguments : [erased, body, erased].mapM (D.pool.loadable D.bootstraps) =
      .ok [.methodType site.erased, .methodHandle (.ofMember Lambda.invokeStatic
        ⟨site.body.className, site.body.name, site.body.descriptor, false⟩),
        .methodType site.erased] := by
    rw [List.mapM_cons, List.mapM_cons, List.mapM_cons, List.mapM_nil, knownErased, bodyHandle]
    rfl
  have get : D.pool.get index = .ok (.callSite row signature) := by
    rw [Pool.get, found]
  simp only [Instruction.callSite, get, bind, Except.bind, knownRow, knownSignature, arguments,
    factoryHandle]
  rfl

namespace Op

/-- A load of a constant whose slot is known. -/
theorem load_yields {op : Op} {m : Assemble UInt16} {value : Constant}
    (meant : op.instruction? = some (.constant Opcode.ldc value)) (straight : op.target? = none)
    (known : Yields m fun D slot => ∀ table, D.pool.loadable table slot = .ok value) :
    Yields (do return .load (← m)) fun D piece => op.Renders D piece := by
  refine known.map fun D slot _ found => ?_
  obtain ⟨bytes, same, taken⟩ := TakesAt.load slot
  rw [same]
  exact .code meant straight fun length offset => taken _ offset value (found _)

theorem int_yields (value : Int32) :
    Yields (assemble (.int value)) fun D piece => (Op.int value).Renders D piece := by
  rw [assemble, immediate?]
  by_cases first : -1 ≤ value.toInt ∧ value.toInt ≤ 5
  · rw [if_pos first]
    refine .pure fun D _ => .code (congrArg some (if_pos first)) rfl fun _ _ => ?_
    exact .iconst first.1 first.2
  · rw [if_neg first]
    by_cases second : -128 ≤ value.toInt ∧ value.toInt ≤ 127
    · rw [if_pos second]
      have meant : intInstruction value = .immediate Opcode.bipush value :=
        (if_neg first).trans (if_pos second)
      exact .pure fun D _ => .code (congrArg some meant) rfl fun _ _ => .bipush second.1 second.2
    · rw [if_neg second]
      by_cases third : -32768 ≤ value.toInt ∧ value.toInt ≤ 32767
      · rw [if_pos third]
        have meant : intInstruction value = .immediate Opcode.sipush value :=
          (if_neg first).trans ((if_neg second).trans (if_pos third))
        exact .pure fun D _ => .code (congrArg some meant) rfl fun _ _ => .sipush third.1 third.2
      · rw [if_neg third]
        have meant : intInstruction value = .constant Opcode.ldc (.int value) :=
          (if_neg first).trans ((if_neg second).trans (if_neg third))
        exact load_yields (congrArg some meant) rfl
          ((integer_yields value).imp fun _ _ _ known => known.2)

/-- **Every operation is assembled to the instruction it stands for.** -/
theorem assemble_yields {op : Op} (sound : op.IsSound) :
    Yields op.assemble fun D piece => op.Renders D piece := by
  cases op with
  | plain opcode =>
    exact .pure fun D _ => .code rfl rfl fun _ _ => .implied (sound opcode rfl)
  | int value => exact int_yields value
  | poolInt value =>
    exact load_yields rfl rfl ((integer_yields value).imp fun _ _ _ known => known.2)
  | poolLong value =>
    exact (long_yields value).map fun D slot _ known =>
      .code rfl rfl fun _ _ => .ldc2W (known _)
  | poolString value => exact load_yields rfl rfl (string_yields value)
  | slot access index => exact .pure fun D _ => .code rfl rfl fun _ _ => .slot access index
  | increment index step => exact .pure fun D _ => .code rfl rfl fun _ _ => .increment index step
  | invoke kind target =>
    refine (member_yields _ _ _ _).map fun D index _ known => .code rfl rfl fun length offset => ?_
    cases kind with
    | interfaceMethod =>
      refine .ofOperand .interfaceMethod (by decide +kernel) (.bind (.u16 index) ?_)
      exact .bind_last (.skip [1, 0]) (.bind_nil (.lift known) (.pure _))
    | virtualMethod | specialMethod | staticMethod =>
      refine .ofOperand .method (by decide +kernel) (.bind (.u16 index) ?_)
      exact .bind_nil (.lift known) (.pure _)
  | field access owner name descriptor =>
    refine (member_yields _ _ _ _).map fun D index _ known => .code rfl rfl fun length offset => ?_
    refine .ofOperand .field (by cases access <;> decide +kernel) (.bind_last (.u16 index) ?_)
    exact .bind_nil (.lift known) (.pure _)
  | lambda site =>
    refine site.callSite_yields.map fun D index _ known => .code rfl rfl fun length offset => ?_
    refine .ofOperand .dynamic (by decide +kernel) (.bind (.u16 index) ?_)
    exact .bind_last (.skip [0, 0]) (.bind_nil (.lift (known length)) (.pure _))
  | jump kind label => exact .pure fun D _ => .jump kind label
  | place label => exact .pure fun D _ => .place label
  | line number => exact .pure fun D _ => .line number

end Op

end Recompose
