import Recompose.Proofs.Assembly.Method

/-!
Classes there and back: the bytes of an assembled class are a class file with the name, the
superclass and the methods of the description.
-/

namespace Recompose

open Bytes BigEndian Draft

namespace ClassSpec

/-- The pool and the bootstrap table of the class. -/
def tables (c : ClassSpec) : Draft :=
  (c.assembleBody.run {}).2

/-- The class keeps to the limits of a class file. -/
@[mk_iff]
structure Fits (c : ClassSpec) : Prop where
  tables : c.tables.Fits
  methodRows : c.methods.length ≤ 65535
  methods : ∀ m ∈ c.methods, m.Fits c.tables

instance (c : ClassSpec) : Decidable c.Fits :=
  decidable_of_iff' _ (fits_iff c)

/-! ## Bootstrap methods -/

theorem takes_bootstrap (row : Bootstrap) (few : row.arguments.length ≤ 65535) :
    Read.Takes Bootstrap.read (u16 row.method ++ table (row.arguments.map u16)) row := by
  have slots : List.Forall₂ (Read.Takes Read.u16) (row.arguments.map u16) row.arguments :=
    List.forall₂_map_left_iff.mpr (List.forall₂_same.mpr fun slot _ => .u16 slot)
  refine .bind (.u16 row.method) ?_
  exact (Read.Takes.counted slots (by rwa [List.length_map])).map (Bootstrap.mk row.method)

theorem bootstrapTable_facts {d : Draft} (h : d.Final) :
    (bootstrapTable d.bootstraps).length < 2 ^ 32 ∧
      Bootstrap.parseTable (bootstrapTable d.bootstraps) = .ok d.bootstraps := by
  have few := h.fits.bootstraps
  constructor
  · have widths : ∀ row ∈ d.bootstraps.map fun row => u16 row.method ++ table (row.arguments.map u16),
        row.length = 10 := by
      intro bytes mem
      obtain ⟨row, known, rfl⟩ := List.mem_map.mp mem
      have pairs : ∀ slot ∈ row.arguments.map u16, slot.length = 2 := by
        intro slot mem
        obtain ⟨w, -, rfl⟩ := List.mem_map.mp mem
        exact length_u16 w
      rw [List.length_append, length_u16, length_table_of_rows pairs, List.length_map,
        h.three_arguments row known]
    rw [bootstrapTable, length_table_of_rows widths, List.length_map]
    omega
  · have rows : List.Forall₂ (Read.Takes Bootstrap.read)
        (d.bootstraps.map fun row => u16 row.method ++ table (row.arguments.map u16))
        d.bootstraps := by
      refine List.forall₂_map_left_iff.mpr (List.forall₂_same.mpr fun row mem => ?_)
      exact takes_bootstrap row (by rw [h.three_arguments row mem]; decide)
    exact (Read.Takes.counted rows (by rwa [List.length_map])).parse

/-- An attribute table adds names to the pool, but no bootstrap methods. -/
theorem bootstraps_attributeTable (as : List Attribute) (d : Draft) :
    (attributeTable as d).2.bootstraps = d.bootstraps := by
  have row : ∀ a d, (attributeRow a d).2.bootstraps = d.bootstraps := by
    intro a d
    show (intern (.utf8 a.name) d).2.bootstraps = d.bootstraps
    rw [intern]
    split <;> rfl
  show (as.mapM attributeRow d).2.bootstraps = d.bootstraps
  induction as generalizing d with
  | nil => rfl
  | cons a as ih =>
    rw [List.mapM_cons]
    show (as.mapM attributeRow (attributeRow a d).2).2.bootstraps = d.bootstraps
    rw [ih, row]

/-! ## Attributes -/

/-- The attribute of a bootstrap table, unless that is empty. -/
def bootstrapAttributes (rows : List Bootstrap) : List Attribute :=
  if rows.isEmpty then [] else [⟨Attribute.bootstrapName, bootstrapTable rows⟩]

theorem bootstrapAttribute_eq (d : Draft) :
    bootstrapAttribute d = (bootstrapAttributes d.bootstraps, d) := by
  rw [bootstrapAttributes, bootstrapAttribute]
  show (if d.bootstraps.isEmpty then
    (return [] : Assemble (List Attribute))
  else
    return [⟨Attribute.bootstrapName, bootstrapTable d.bootstraps⟩]) d = _
  split <;> rfl

theorem bootstrapAttributes_small {d : Draft} (h : d.Final) :
    (bootstrapAttributes d.bootstraps).length ≤ 1 ∧
      ∀ a ∈ bootstrapAttributes d.bootstraps, a.data.length < 2 ^ 32 := by
  rw [bootstrapAttributes]
  split
  · exact ⟨Nat.zero_le _, nofun⟩
  · refine ⟨Nat.le_refl _, fun a mem => ?_⟩
    obtain rfl := List.mem_singleton.mp mem
    exact (bootstrapTable_facts h).1

theorem sourceAttribute_yields (source : Option String) :
    Yields (sourceAttribute source) fun _ as => as.length ≤ 1 ∧
      ∀ a ∈ as, a.data.length = 2 ∧ a.name ≠ Attribute.bootstrapName := by
  cases source with
  | none => exact .pure fun _ _ => ⟨Nat.zero_le _, nofun⟩
  | some name =>
    refine (utf8_yields name).map fun _ slot _ _ => ⟨Nat.le_refl _, fun a mem => ?_⟩
    obtain rfl := List.mem_singleton.mp mem
    exact ⟨length_u16 slot, (by decide : "SourceFile" ≠ Attribute.bootstrapName)⟩

/-- The attributes of a class give it its bootstrap table and change neither its name nor its
methods. -/
theorem addAttributes_eq {d : Draft} (h : d.Final) {source : List Attribute}
    (other : ∀ a ∈ source, a.name ≠ Attribute.bootstrapName) (file : ClassFile)
    (bare : file.bootstraps = []) :
    ∃ attributes, file.addAttributes (source ++ bootstrapAttributes d.bootstraps) =
      .ok { file with attributes := attributes, bootstraps := d.bootstraps } := by
  induction source generalizing file with
  | nil =>
    refine ⟨file.attributes, ?_⟩
    rw [bootstrapAttributes]
    split
    · next none =>
      rw [List.isEmpty_iff.mp none, ← bare]
      rfl
    · show [(⟨Attribute.bootstrapName, bootstrapTable d.bootstraps⟩ : Attribute)].foldlM
        ClassFile.addAttribute file = _
      rw [List.foldlM_cons, ClassFile.addAttribute, if_pos rfl, (bootstrapTable_facts h).2]
      rfl
  | cons a source ih =>
    obtain ⟨attributes, added⟩ := ih (fun a mem => other a (List.mem_cons_of_mem _ mem))
      { file with attributes := file.attributes ++ [a] } bare
    refine ⟨attributes, ?_⟩
    have first : file.addAttribute a = .ok { file with attributes := file.attributes ++ [a] } :=
      if_neg (other a List.mem_cons_self)
    rw [ClassFile.addAttributes, List.cons_append, List.foldlM_cons, first]
    exact added

/-! ## Assembling and parsing -/

/-- What is assembled before the attributes of the class: the slots of its name and superclass, the
rows of its methods, and the attribute of its source file. -/
structure Front where
  thisClass : UInt16
  superClass : UInt16
  methods : List (List UInt8)
  source : List Attribute

def front (c : ClassSpec) : Assemble Front := do
  let _ ← c.reserved.mapM utf8
  let thisClass ← classRef c.name
  let superClass ← classRef c.superName
  let methods ← c.methods.mapM MethodSpec.assemble
  let source ← sourceAttribute c.sourceFile
  return ⟨thisClass, superClass, methods, source⟩

/-- What follows the pool, with the attributes of the class. -/
def Front.bytes (f : Front) (attributes : List UInt8) : List UInt8 :=
  u16 (ClassFlag.toBits flags) ++ u16 f.thisClass ++ u16 f.superClass ++ u16 0 ++ u16 0 ++
    table f.methods ++ attributes

/-- The attributes of the class, with the bootstrap table of all that went before, and the tables
behind them. -/
def back (c : ClassSpec) : List UInt8 × Draft :=
  attributeTable ((c.front {}).1.source ++ bootstrapAttributes (c.front {}).2.bootstraps)
    (c.front {}).2

theorem assembleBody_eq (c : ClassSpec) :
    c.assembleBody.run {} = ((c.front {}).1.bytes c.back.1, c.back.2) := by
  have unfolded : c.assembleBody.run {} =
      let f := c.front {}
      let rows := bootstrapAttribute f.2
      let attributes := attributeTable (f.1.source ++ rows.1) rows.2
      (f.1.bytes attributes.1, attributes.2) := rfl
  rw [unfolded]
  simp only [bootstrapAttribute_eq]
  rfl

theorem tables_eq (c : ClassSpec) : c.tables = c.back.2 := by
  rw [tables, assembleBody_eq]

theorem assemble_eq (c : ClassSpec) :
    c.assemble = u32 ClassFile.magic ++ (u16 0 ++ (u16 majorVersion ++
      (u16 (UInt16.ofNat c.tables.pool.size) ++ (c.tables.pool.layout ++
        (u16 (ClassFlag.toBits flags) ++ u16 (c.front {}).1.thisClass))))) ++
      (u16 (c.front {}).1.superClass ++ (u16 0 ++ (u16 0 ++
        (table (c.front {}).1.methods ++ c.back.1)))) := by
  have whole : c.assemble = u32 ClassFile.magic ++ u16 0 ++ u16 majorVersion ++
      u16 (UInt16.ofNat c.tables.pool.size) ++ c.tables.pool.layout ++ (c.assembleBody.run {}).1 :=
    rfl
  have body : (c.assembleBody.run {}).1 = (c.front {}).1.bytes c.back.1 :=
    congrArg Prod.fst (assembleBody_eq c)
  rw [whole, body, Front.bytes]
  simp only [List.append_assoc]

theorem front_yields {c : ClassSpec}
    (sound : ∀ m ∈ c.methods, ∀ b, m.body = some b → ∀ op ∈ b.ops, op.IsSound) :
    Yields c.front fun D f => D.pool.className f.thisClass = .ok c.name ∧
      (D.pool.className f.superClass = .ok c.superName ∧ f.superClass ≠ 0) ∧
      List.Forall₂ (MethodSpec.IsRow D) c.methods f.methods ∧
      f.source.length ≤ 1 ∧
      ∀ a ∈ f.source, a.data.length = 2 ∧ a.name ≠ Attribute.bootstrapName := by
  refine (Yields.mapM_mem fun text _ => (utf8_yields text).imp fun _ _ _ _ => trivial).bind ?_
  intro _
  refine (classRef_yields c.name).bind fun thisClass => ?_
  refine (classRef_yields c.superName).bind fun superClass => ?_
  refine (Yields.mapM fun m mem => MethodSpec.assemble_yields (sound m mem)).bind fun methods => ?_
  refine (sourceAttribute_yields c.sourceFile).map ?_
  rintro D source _ sourceIs _ methodsAre _ superIs _ ⟨thisIs, _⟩ _ _
  exact ⟨thisIs, superIs, methodsAre, sourceIs⟩

/-- The methods of the rows, if all specs fit. -/
theorem exists_methods {d : Draft} {specs : List MethodSpec} {rows : List (List UInt8)}
    (each : List.Forall₂ (MethodSpec.IsRow d) specs rows) (fits : ∀ spec ∈ specs, spec.Fits d)
    (className : String) :
    ∃ methods, List.Forall₂ (Read.Takes (Method.read d.pool className)) rows methods ∧
      ∀ file : ClassFile, file.name = className → file.pool = d.pool →
        file.bootstraps = d.bootstraps →
          List.Forall₂ (MethodSpec.IsReadAs file) specs methods := by
  induction each with
  | nil => exact ⟨[], .nil, fun _ _ _ _ => .nil⟩
  | @cons spec row specs rows first _ ih =>
    obtain ⟨m, taken, described⟩ := first (fits spec List.mem_cons_self) className
    obtain ⟨methods, later, all⟩ := ih fun spec mem => fits spec (List.mem_cons_of_mem _ mem)
    exact ⟨m :: methods, .cons taken later, fun file named pool bootstraps =>
      .cons (described file named pool bootstraps) (all file named pool bootstraps)⟩

/-- The header of a class whose tables are given. -/
def header (c : ClassSpec) (d : Draft) : ClassFile.Header :=
  ⟨0, majorVersion, d.pool, ClassFlag.ofBits (ClassFlag.toBits flags), c.name⟩

theorem takes_header {c : ClassSpec} {d : Draft} (h : d.Final) {thisClass : UInt16}
    (named : d.pool.className thisClass = .ok c.name) :
    Read.Takes ClassFile.Header.read
      (u16 0 ++ (u16 majorVersion ++ (u16 (UInt16.ofNat d.pool.size) ++ (d.pool.layout ++
        (u16 (ClassFlag.toBits flags) ++ u16 thisClass))))) (c.header d) := by
  refine .bind (.u16 0) (.bind (.u16 majorVersion) (.bind (.u16 _) (.bind h.takes_pool ?_)))
  exact .bind (.u16 _) (.bind_last (.u16 thisClass) (.bind_nil (.lift named) (.pure _)))

/-- The class file as it is read, with the attributes that are no bootstrap table. -/
def asRead (c : ClassSpec) (d : Draft) (methods : List Method) (attributes : List Attribute) :
    ClassFile :=
  ⟨0, majorVersion, d.pool, ClassFlag.ofBits (ClassFlag.toBits flags), c.name, some c.superName, [],
    methods, d.bootstraps, attributes⟩

/-- What follows the header is read up to the end of the bytes. -/
theorem ends_readBody {c : ClassSpec} {d : Draft} (h : d.Final) {f : Front}
    (superIs : d.pool.className f.superClass = .ok c.superName ∧ f.superClass ≠ 0)
    {methods : List Method} (few : f.methods.length ≤ 65535)
    (methodsTaken : List.Forall₂ (Read.Takes (Method.read d.pool c.name)) f.methods methods)
    {attributes : List UInt8} (other : ∀ a ∈ f.source, a.name ≠ Attribute.bootstrapName)
    (attributesTaken : Read.Takes (Attribute.readTable d.pool) attributes
      (f.source ++ bootstrapAttributes d.bootstraps)) :
    ∃ rest, Read.Ends (ClassFile.readBody (c.header d))
      (u16 f.superClass ++ (u16 0 ++ (u16 0 ++ (table f.methods ++ attributes))))
      (c.asRead d methods rest) := by
  obtain ⟨rest, added⟩ := addAttributes_eq h other
    ⟨0, majorVersion, d.pool, ClassFlag.ofBits (ClassFlag.toBits flags), c.name,
      some c.superName, [], methods, [], []⟩ rfl
  have superTaken : Read.Takes (ClassFile.readSuper d.pool) (u16 f.superClass)
      (some c.superName) := by
    refine .bind_last (.u16 _) ?_
    rw [if_neg superIs.2]
    exact .bind_nil (.lift superIs.1) (.pure _)
  have none : ∀ {α : Type} (p : Read α), Read.Takes (Read.counted p) (u16 0) [] := by
    intro α p
    have empty : table [] = u16 0 := (List.append_nil _).trans (congrArg u16 rfl)
    exact empty ▸ .counted .nil (Nat.zero_le _)
  refine ⟨rest, .bind superTaken (.bind (none _) (.bind (none _) ?_))⟩
  refine .bind (.counted methodsTaken few) (.bind_last attributesTaken ?_)
  exact .bind_nil (.lift added) fun _ => rfl

theorem parseWith_eq {α : Type} {p : Read α} {bytes : List UInt8} {a : α} (h : p.Ends bytes a)
    (enough : 6 ≤ bytes.length) : ClassFile.parseWith p (u32 ClassFile.magic ++ bytes) = .ok a := by
  have long : ClassFile.preambleLength ≤ (u32 ClassFile.magic ++ bytes).length := by
    rw [List.length_append, length_u32]
    show 10 ≤ _
    omega
  rw [ClassFile.parseWith_of_long long]
  refine (Read.Ends.bind (.u32 ClassFile.magic) ?_).parse
  rw [if_pos rfl]
  exact h

/-- **Assembling a class and parsing it gives back what was described.** -/
theorem parse_assemble {c : ClassSpec} (h : c.Fits) :
    ∃ file, ClassFile.parse c.assemble = .ok file ∧ file.name = c.name ∧
      file.superName = some c.superName ∧
      List.Forall₂ (MethodSpec.IsReadAs file) c.methods file.methods := by
  have frontYields := front_yields fun m mem b given => ((h.methods m mem).body b given).sound
  -- The tables only grow by the names of the attributes behind the front.
  have backYields := attributeTable_yields
    ((c.front {}).1.source ++ bootstrapAttributes (c.front {}).2.bootstraps)
  have later : Grows (c.front {}).2 c.tables := tables_eq c ▸ backYields.grows _
  have final : c.tables.Final := ⟨(frontYields.grows {}).trans later, h.tables⟩
  have rows : c.tables.bootstraps = (c.front {}).2.bootstraps :=
    (congrArg Draft.bootstraps (tables_eq c)).trans (bootstraps_attributeTable _ _)
  obtain ⟨thisIs, superIs, methodsAre, fewSources, sourceIs⟩ := frontYields.holds {} _ later final
  have attributesTaken : Read.Takes (Attribute.readTable c.tables.pool) c.back.1
      ((c.front {}).1.source ++ bootstrapAttributes c.tables.bootstraps) := by
    obtain ⟨few, small⟩ := bootstrapAttributes_small final
    rw [rows] at few small ⊢
    refine (backYields.holds _ _ (tables_eq c ▸ .refl _) final).2 ?_ fun a mem => ?_
    · rw [List.length_append]
      omega
    · rcases List.mem_append.mp mem with mem | mem
      · rw [(sourceIs a mem).1]
        decide
      · exact small a mem
  -- The rows of the methods were assembled earlier, but are right by the final tables too.
  obtain ⟨methods, methodsTaken, described⟩ := exists_methods methodsAre h.methods c.name
  obtain ⟨rest, read⟩ := ends_readBody final superIs (methodsAre.length_eq ▸ h.methodRows)
    methodsTaken (fun a mem => (sourceIs a mem).2) attributesTaken
  refine ⟨c.asRead c.tables methods rest, ?_, rfl, rfl, described _ rfl rfl rfl⟩
  rw [assemble_eq, List.append_assoc]
  refine parseWith_eq (.bind (takes_header final thisIs) read) ?_
  simp only [List.length_append, length_u16]
  omega

/-- A method that counts down in a guarded loop, and one without a body. -/
def countdown : ClassSpec where
  name := "Countdown"
  sourceFile := some "Countdown.kt"
  methods := [
    { name := "run"
      descriptor := "(I)V"
      keys := [("LKey;", -7)]
      body := some {
        ops := [.place 0, .line 3, .slot .iload 0, .jump .ifeq 1, .increment 0 (-1), .poolLong 40,
          .plain 0x58, .jump .goto 0, .place 1, .plain 0xB1]
        guards := [⟨0, 1, 1, some "java/lang/Exception"⟩]
        locals := [⟨"n", "I", 0⟩] } },
    { name := "stop", descriptor := "()V", flags := [.accPublic, .accAbstract] }]

theorem parse_assemble_countdown : countdown.Fits ∧ ∃ file,
    ClassFile.parse countdown.assemble = .ok file ∧ file.name = "Countdown" ∧
      file.superName = some "java/lang/Object" ∧
      List.Forall₂ (MethodSpec.IsReadAs file) countdown.methods file.methods := by
  have fits : countdown.Fits := by decide +kernel
  exact ⟨fits, parse_assemble fits⟩

end ClassSpec

end Recompose
