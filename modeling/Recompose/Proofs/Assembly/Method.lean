import Recompose.Assembly.Class
import Recompose.Proofs.Assembly.Body
import Recompose.Proofs.ClassFile.Annotations

/-!
Methods from assembly to reading: identity, access flags, group keys and body come back as described.
-/

namespace Recompose

open Bytes BigEndian Draft

/-! ## Flags -/

namespace MethodFlag

theorem bit_and_bit (f g : MethodFlag) : g.bit &&& f.bit ≠ 0 ↔ f = g := by
  cases f <;> cases g <;> decide

theorem foldl_and_bit (flags : List MethodFlag) (f : MethodFlag) (bits : UInt16) :
    flags.foldl (fun bits flag => bits ||| flag.bit) bits &&& f.bit ≠ 0 ↔
      bits &&& f.bit ≠ 0 ∨ f ∈ flags := by
  induction flags generalizing bits with
  | nil => simp
  | cons g flags ih =>
    have either : (bits ||| g.bit) &&& f.bit ≠ 0 ↔ bits &&& f.bit ≠ 0 ∨ f = g := by
      have parts : (bits ||| g.bit) &&& f.bit = bits &&& f.bit ||| g.bit &&& f.bit := by
        rw [← UInt16.toBitVec_inj]
        exact BitVec.and_or_distrib_right
      rw [parts, Ne, UInt16.or_eq_zero_iff, not_and_or]
      exact or_congr Iff.rfl (bit_and_bit f g)
    rw [List.foldl_cons, ih, either, List.mem_cons, or_assoc]

/-- Flags survive as a set, listed in the order of their bits. -/
theorem ofBits_toBits (flags : List MethodFlag) :
    ofBits (toBits flags) = all.filter (· ∈ flags) := by
  rw [ofBits]
  refine List.filter_congr fun f _ => ?_
  have set : toBits flags &&& f.bit ≠ 0 ↔ f ∈ flags :=
    (foldl_and_bit flags f 0).trans (by simp)
  rw [Bool.eq_iff_iff, bne_iff_ne, decide_eq_true_iff]
  exact set

end MethodFlag

/-! ## Group keys -/

namespace Annotation

/-- The annotation that carries a key. -/
def ofKey (key : String × Int32) : Annotation :=
  .mk key.1 [("key", .int key.2)]

theorem key?_ofKeys (keys : List (String × Int32)) (type : String) :
    key? (keys.map ofKey) type = keys.lookup type := by
  induction keys with
  | nil => rfl
  | cons key keys ih =>
    obtain ⟨name, value⟩ := key
    rw [key?, List.map_cons, List.filter_cons, List.lookup_cons]
    by_cases same : name = type
    · subst same
      have own : ((ofKey (name, value)).descriptor == name) = true := beq_self_eq_true name
      rw [if_pos own, beq_self_eq_true, List.findSome?_cons]
      rfl
    · have other : ((ofKey (name, value)).descriptor == type) = false :=
        beq_eq_false_iff_ne.mpr same
      have other' : (type == name) = false := beq_eq_false_iff_ne.mpr (Ne.symm same)
      rw [other, other']
      exact ih

/-- The row is read as the annotation of a key, however deep values may nest. -/
def IsKeyRow (pool : Pool) (key : String × Int32) (row : List UInt8) : Prop :=
  row.length = 9 ∧ ∀ depth,
    Read.Takes (readWith pool (ElementValue.read pool (depth + 1))) row (ofKey key)

theorem isKeyRow {pool : Pool} {key : String × Int32} {type name value : UInt16}
    (typeIs : pool.utf8 type = .ok key.1) (nameIs : pool.utf8 name = .ok "key")
    (valueIs : ElementValue.number pool .int value = .ok (.int key.2)) :
    IsKeyRow pool key
      (u16 type ++ u16 1 ++ u16 name ++ (UInt8.ofNat 'I'.toNat :: u16 value)) := by
  refine ⟨by simp, fun depth => ?_⟩
  have element : Read.Takes (ElementValue.read pool (depth + 1))
      (UInt8.ofNat 'I'.toNat :: u16 value) (.int key.2) :=
    .bind (.u8 _) (.bind_last (.u16 value) (.lift valueIs))
  have bytes : u16 type ++ u16 1 ++ u16 name ++ (UInt8.ofNat 'I'.toNat :: u16 value) =
      u16 type ++ table [u16 name ++ (UInt8.ofNat 'I'.toNat :: u16 value)] := by
    rw [table, List.flatten_singleton, List.append_assoc, List.append_assoc]
    rfl
  have written : WrittenWith pool (Read.Takes (ElementValue.read pool (depth + 1)))
      (u16 type ++ table [u16 name ++ (UInt8.ofNat 'I'.toNat :: u16 value)]) (ofKey key) :=
    .mk (Pool.utf8_eq_ok_iff.mp typeIs) (by simp)
      (.cons (.mk (Pool.utf8_eq_ok_iff.mp nameIs) element) .nil)
  rw [bytes]
  exact takes_readWith written fun _ taken => taken

theorem length_keyRows {pool : Pool} {keys : List (String × Int32)} {rows : List (List UInt8)}
    (each : List.Forall₂ (IsKeyRow pool) keys rows) :
    (table rows).length = 2 + keys.length * 9 := by
  have widths : ∀ row ∈ rows, row.length = 9 :=
    forall_mem_of_forall₂ (fun _ _ row => row.1) each
  rw [length_table_of_rows widths, each.length_eq]

/-- The rows of keys are read as the annotations that carry them. -/
theorem parseAll_keyRows {pool : Pool} {keys : List (String × Int32)} {rows : List (List UInt8)}
    (each : List.Forall₂ (IsKeyRow pool) keys rows) (few : keys.length ≤ 65535) :
    parseAll pool (table rows) = .ok (keys.map ofKey) := by
  have taken : List.Forall₂
      (Read.Takes (readWith pool (ElementValue.read pool (table rows).length))) rows
        (keys.map ofKey) := by
    rw [length_keyRows each, show 2 + keys.length * 9 = (1 + keys.length * 9) + 1 by omega]
    exact List.forall₂_map_right_iff.mpr (each.flip.imp fun _ _ known => known.2 _)
  exact (Read.Takes.counted taken (each.length_eq ▸ few)).parse

end Annotation

namespace MethodSpec

theorem keyRow_yields (key : String × Int32) :
    Yields (keyRow key) fun D row => Annotation.IsKeyRow D.pool key row := by
  refine (utf8_yields key.1).bind fun type => (utf8_yields "key").bind fun name =>
    (integer_yields key.2).map ?_
  rintro D value _ ⟨number, _⟩ _ nameIs _ typeIs
  have valueIs : ElementValue.number D.pool .int value = .ok (.int key.2) := by
    rw [ElementValue.number, number]
    rfl
  exact Annotation.isKeyRow typeIs nameIs valueIs

/-- At most one attribute, whose annotations are added to those of the method. -/
theorem keyAttribute_yields (keys : List (String × Int32)) :
    Yields (keyAttribute keys) fun D as => keys.length ≤ 65535 → as.length ≤ 1 ∧
      (∀ a ∈ as, a.data.length < 2 ^ 32) ∧ ∀ m : Method, m.addAttributes D.pool as =
        .ok { m with annotations := m.annotations ++ keys.map .ofKey } := by
  rw [keyAttribute]
  split
  · next none =>
    rw [List.isEmpty_iff] at none
    subst none
    exact .pure fun D _ _ => ⟨Nat.zero_le _, nofun, fun m => by
      rw [List.map_nil, List.append_nil]
      rfl⟩
  · refine (Yields.mapM fun key _ => keyRow_yields key).map fun D rows _ each few => ?_
    refine ⟨Nat.le_refl _, fun a mem => ?_, fun m => ?_⟩
    · obtain rfl := List.mem_singleton.mp mem
      have length := Annotation.length_keyRows each
      show (table rows).length < 2 ^ 32
      omega
    · have other : ¬Attribute.annotationsName = Attribute.codeName := by decide
      show [(⟨Attribute.annotationsName, table rows⟩ : Attribute)].foldlM
        (Method.addAttribute D.pool) m = _
      rw [List.foldlM_cons, Method.addAttribute, if_neg other, if_pos rfl,
        Annotation.parseAll_keyRows each few]
      rfl

/-- At most one attribute, which gives a method without a body the one described. -/
theorem codeAttribute_yields {body : Option Body}
    (sound : ∀ b, body = some b → ∀ op ∈ b.ops, op.IsSound) :
    Yields (codeAttribute body) fun D as => (∀ b, body = some b → b.Fits D) → as.length ≤ 1 ∧
      (∀ a ∈ as, a.data.length < 2 ^ 32) ∧ ∃ code : Option Code, code.isSome = body.isSome ∧
        (∀ b, body = some b → ∀ c, code = some c →
          c.instructions D.pool D.bootstraps = .ok b.listing) ∧
        ∀ m : Method, m.code = none → m.addAttributes D.pool as = .ok { m with code := code } := by
  cases body with
  | none =>
    refine .pure fun D _ _ => ⟨Nat.zero_le _, nofun, none, rfl, nofun, ?_⟩
    rintro ⟨id, flags, code, annotations, attributes⟩ rfl
    rfl
  | some b =>
    refine (Body.assemble_yields (sound b rfl)).map fun D data _ known fits => ?_
    obtain ⟨short, code, parsed, listing⟩ := known (fits b rfl)
    refine ⟨Nat.le_refl _, fun a mem => ?_, some code, rfl, ?_, fun m bare => ?_⟩
    · obtain rfl := List.mem_singleton.mp mem
      exact short
    · rintro _ ⟨⟩ _ ⟨⟩
      exact listing
    · have first : ¬m.code.isSome = true := by
        rw [bare]
        exact Bool.false_ne_true
      show [(⟨Attribute.codeName, data⟩ : Attribute)].foldlM (Method.addAttribute D.pool) m = _
      rw [List.foldlM_cons, Method.addAttribute, if_pos rfl, if_neg first, parsed]
      rfl

/-! ## Methods -/

/-- The method of a class file is the one described: it has its name and descriptor, its access
flags, its group keys and, if there is a body, the instructions of the body. -/
structure IsReadAs (c : ClassFile) (spec : MethodSpec) (m : Method) : Prop where
  id : m.id = ⟨c.name, spec.name, spec.descriptor⟩
  flags : m.flags = MethodFlag.all.filter (· ∈ spec.flags)
  keys : ∀ type, m.key? type = spec.keys.lookup type
  noBody : spec.body = none → m.code = none
  body : ∀ b, spec.body = some b → m.code.isSome ∧ m.instructions c = .ok b.listing

/-- The method keeps to the limits of a class file whose tables are given. -/
@[mk_iff]
structure Fits (spec : MethodSpec) (d : Draft) : Prop where
  keyRows : spec.keys.length ≤ 65535
  body : ∀ b ∈ spec.body, b.Fits d

instance (spec : MethodSpec) (d : Draft) : Decidable (spec.Fits d) :=
  decidable_of_iff' _ (fits_iff spec d)

/-- The method as it is read, once its body has been. -/
def asRead (spec : MethodSpec) (className : String) (code : Option Code) : Method :=
  ⟨⟨className, spec.name, spec.descriptor⟩, MethodFlag.ofBits (MethodFlag.toBits spec.flags), code,
    spec.keys.map .ofKey, []⟩

theorem isReadAs_asRead {spec : MethodSpec} {c : ClassFile} {code : Option Code}
    (same : code.isSome = spec.body.isSome)
    (listing : ∀ b, spec.body = some b → ∀ read, code = some read →
      read.instructions c.pool c.bootstraps = .ok b.listing) :
    spec.IsReadAs c (spec.asRead c.name code) := by
  refine ⟨rfl, MethodFlag.ofBits_toBits _, Annotation.key?_ofKeys _, fun absent => ?_, fun b given => ?_⟩
  · rw [absent] at same
    exact Option.isSome_eq_false_iff.mp same |> Option.isNone_iff_eq_none.mp
  · rw [given] at same
    obtain ⟨read, known⟩ := Option.isSome_iff_exists.mp same
    refine ⟨same, ?_⟩
    subst known
    exact listing b given read rfl

/-- The row is read as the method described, in whatever class file has the tables. -/
def IsRow (d : Draft) (spec : MethodSpec) (row : List UInt8) : Prop :=
  spec.Fits d → ∀ className, ∃ m, Read.Takes (Method.read d.pool className) row m ∧
    ∀ c : ClassFile, c.name = className → c.pool = d.pool → c.bootstraps = d.bootstraps →
      spec.IsReadAs c m

/-- **A method is read back as described.** -/
theorem assemble_yields {spec : MethodSpec}
    (sound : ∀ b, spec.body = some b → ∀ op ∈ b.ops, op.IsSound) :
    Yields spec.assemble fun D row => spec.IsRow D row := by
  refine (utf8_yields spec.name).bind fun name => (utf8_yields spec.descriptor).bind ?_
  intro descriptor
  refine (codeAttribute_yields sound).bind fun code => (keyAttribute_yields spec.keys).bind ?_
  intro keys
  refine (attributeTable_yields (code ++ keys)).map fun D attributes _ ⟨_, taken⟩ _ knownKeys _
    knownCode _ descriptorIs _ nameIs fits className => ?_
  obtain ⟨keyCount, keySizes, addKeys⟩ := knownKeys fits.keyRows
  obtain ⟨codeCount, codeSizes, body, same, listing, addCode⟩ := knownCode fits.body
  have attributesTaken := taken (by rw [List.length_append]; omega) fun a mem =>
    (List.mem_append.mp mem).elim (codeSizes a) (keySizes a)
  have added : Method.addAttributes D.pool
      ⟨⟨className, spec.name, spec.descriptor⟩, MethodFlag.ofBits (MethodFlag.toBits spec.flags), none,
        [], []⟩ (code ++ keys) = .ok (spec.asRead className body) := by
    have first := addCode ⟨⟨className, spec.name, spec.descriptor⟩,
      MethodFlag.ofBits (MethodFlag.toBits spec.flags), none, [], []⟩ rfl
    rw [Method.addAttributes] at first ⊢
    rw [List.foldlM_append, first]
    exact addKeys _
  refine ⟨spec.asRead className body, ?_, ?_⟩
  · rw [List.append_assoc, List.append_assoc]
    refine .bind (.u16 _) (.bind (.u16 name) (.bind_nil (.lift nameIs) ?_))
    refine .bind (.u16 descriptor) (.bind_nil (.lift descriptorIs) ?_)
    exact .bind_last attributesTaken (.lift added)
  · rintro c rfl pool bootstraps
    rw [← pool, ← bootstraps] at listing
    exact isReadAs_asRead same listing

end MethodSpec

end Recompose
