import Recompose.ClassFile
import Recompose.Proofs.Bytes.Format

/-!
Class files in sections. The bytes of a class that is accepted are those in front of its methods, and
two tables: of the methods with their attributes as they stand, and of the attributes of the class.
What comes of the bytes is a function of the sections.
-/

namespace Recompose

open Bytes BigEndian
open Read (Whole Splits Decodes Takes Yields)

/-! ## Attributes -/

/-- An attribute as it stands in a file: the slot of its name, and its payload. -/
structure RawAttribute where
  name : UInt16
  data : List UInt8
deriving DecidableEq, Repr

namespace RawAttribute

def layout (a : RawAttribute) : List UInt8 :=
  u16 a.name ++ (u32 (UInt32.ofNat a.data.length) ++ a.data)

/-- The length of the payload fits four bytes. -/
def Fits (a : RawAttribute) : Prop :=
  a.data.length < 2 ^ 32

instance (a : RawAttribute) : Decidable a.Fits :=
  inferInstanceAs (Decidable (_ < _))

def meaning (pool : Pool) (a : RawAttribute) : Except Error Attribute := do
  let name ← pool.utf8 a.name
  return ⟨name, a.data⟩

theorem decodes_read (pool : Pool) :
    Decodes (Attribute.read pool) layout Fits (meaning pool) := by
  refine ⟨?_, fun a fits => ?_⟩
  · refine .bind .u16 ?_
    rintro _ index rfl
    refine .bind (.lift _) ?_
    rintro _ name ⟨rfl, known⟩
    refine .bind .u32 ?_
    rintro _ length rfl
    refine .bind (.bytes _) ?_
    rintro data _ ⟨rfl, size⟩
    refine .pure ⟨⟨index, data⟩, ?_, ?_, ?_⟩
    · rw [layout, size, UInt32.ofNat_toNat, List.append_nil, List.nil_append]
    · show data.length < 2 ^ 32
      rw [size]
      exact length.toNat_lt
    · rw [meaning, known]
      rfl
  · have size : (UInt32.ofNat a.data.length).toNat = a.data.length := UInt32.toNat_ofNat_of_lt' fits
    refine .bind_takes (.u16 _) (.bind_lift fun name known => ?_)
    refine .bind_takes (.u32 _) ?_
    rw [size]
    exact Takes.map (.bytes _) _

end RawAttribute

/-! ## Methods -/

/-- A method as it stands in a file, with slots for its names. -/
structure RawMethod where
  flags : UInt16
  name : UInt16
  descriptor : UInt16
  attributes : List RawAttribute
deriving DecidableEq, Repr

namespace RawMethod

def layout (m : RawMethod) : List UInt8 :=
  u16 m.flags ++ (u16 m.name ++ (u16 m.descriptor ++
    Draft.table (m.attributes.map RawAttribute.layout)))

def Fits (m : RawMethod) : Prop :=
  m.attributes.length ≤ 65535 ∧ ∀ a ∈ m.attributes, a.Fits

instance (m : RawMethod) : Decidable m.Fits :=
  inferInstanceAs (Decidable (_ ∧ _))

def meaning (pool : Pool) (className : String) (m : RawMethod) : Except Error Method := do
  let name ← pool.utf8 m.name
  let descriptor ← pool.utf8 m.descriptor
  let attributes ← m.attributes.mapM (RawAttribute.meaning pool)
  Method.addAttributes pool ⟨⟨className, name, descriptor⟩, MethodFlag.ofBits m.flags, none, [], []⟩
    attributes

theorem decodes_read (pool : Pool) (className : String) :
    Decodes (Method.read pool className) layout Fits (meaning pool className) := by
  have table := (RawAttribute.decodes_read pool).counted
  refine ⟨?_, fun m fits => ?_⟩
  · refine .bind .u16 ?_
    rintro _ flags rfl
    refine .bind .u16 ?_
    rintro _ name rfl
    refine .bind (.lift _) ?_
    rintro _ text ⟨rfl, named⟩
    refine .bind .u16 ?_
    rintro _ descriptor rfl
    refine .bind (.lift _) ?_
    rintro _ signature ⟨rfl, typed⟩
    refine .bind table.splits ?_
    rintro _ attributes ⟨raw, rfl, fits, known⟩
    refine (Splits.lift _).mono ?_
    rintro _ m ⟨rfl, added⟩
    refine ⟨⟨flags, name, descriptor, raw⟩, ?_, fits, ?_⟩
    · rw [layout, List.append_nil, List.nil_append, List.nil_append]
    · rw [meaning, named, typed, known]
      exact added
  · refine .bind_takes (.u16 _) (.bind_takes (.u16 _) (.bind_lift fun name _ => ?_))
    refine .bind_takes (.u16 _) (.bind_lift fun descriptor _ => ?_)
    exact .bind_last (table.yields _ fits) fun attributes _ => .lift _

end RawMethod

/-! ## Classes -/

/-- The tables of a class as they stand in a file: its methods and its attributes. -/
structure RawClass where
  methods : List RawMethod
  attributes : List RawAttribute
deriving DecidableEq, Repr

namespace ClassFile

/-- What a class file says in front of its methods. -/
structure Front where
  header : Header
  superName : Option String
  interfaces : List String

namespace Front

/-- Reads the bytes of a class file up to its fields, which are passed over. -/
def read : Read Front := do
  if (← Read.u32) = magic then
    let header ← Header.read
    let superName ← readSuper header.pool
    let interfaces ← Read.counted (readInterface header.pool)
    let _ ← Read.counted (readField header.pool)
    return ⟨header, superName, interfaces⟩
  else
    throw .notSupported

/-- The class without attributes. -/
def bare (f : Front) (methods : List Method) : ClassFile :=
  ⟨f.header.minorVersion, f.header.majorVersion, f.header.pool, f.header.flags, f.header.name,
    f.superName, f.interfaces, methods, [], []⟩

/-- Reads the tables behind. -/
def readTables (f : Front) : Read ClassFile := do
  let methods ← Read.counted (Method.read f.header.pool f.header.name)
  let attributes ← Attribute.readTable f.header.pool
  (f.bare methods).addAttributes attributes

/-- Accepts a file of which nothing is left. -/
def close (f : Front) (file : ClassFile) : Read ClassFile := do
  let left ← Read.remaining
  if left = 0 then
    return file
  else
    throw (.malformed (.trailingBytes left f.header.name))

end Front

end ClassFile

namespace ClassFile

/-- The attributes of a class change nothing but its bootstrap table and attributes. -/
theorem addAttributes_keeps (c : ClassFile) (attributes : List Attribute) :
    Ensures (c.addAttributes attributes) fun c' =>
      c'.name = c.name ∧ c'.pool = c.pool ∧ c'.methods = c.methods := by
  induction attributes generalizing c with
  | nil => exact .pure ⟨rfl, rfl, rfl⟩
  | cons a attributes ih =>
    have first : Ensures (c.addAttribute a) fun c' =>
        c'.name = c.name ∧ c'.pool = c.pool ∧ c'.methods = c.methods := by
      unfold addAttribute
      split
      · exact (Ensures.any _).bind fun _ _ => .pure ⟨rfl, rfl, rfl⟩
      · exact .pure ⟨rfl, rfl, rfl⟩
    rw [addAttributes, List.foldlM_cons]
    refine first.bind fun c₁ kept => (ih c₁).mono fun c' kept' => ?_
    obtain ⟨name, pool, methods⟩ := kept
    obtain ⟨name', pool', methods'⟩ := kept'
    exact ⟨name'.trans name, pool'.trans pool, methods'.trans methods⟩

end ClassFile

namespace RawClass

open ClassFile (Front)

def layout (c : RawClass) : List UInt8 :=
  Draft.table (c.methods.map RawMethod.layout) ++ Draft.table (c.attributes.map RawAttribute.layout)

def Fits (c : RawClass) : Prop :=
  (c.methods.length ≤ 65535 ∧ ∀ m ∈ c.methods, m.Fits) ∧
    c.attributes.length ≤ 65535 ∧ ∀ a ∈ c.attributes, a.Fits

instance (c : RawClass) : Decidable c.Fits :=
  inferInstanceAs (Decidable (_ ∧ _))

def meaning (f : Front) (c : RawClass) : Except Error ClassFile := do
  let methods ← c.methods.mapM (RawMethod.meaning f.header.pool f.header.name)
  let attributes ← c.attributes.mapM (RawAttribute.meaning f.header.pool)
  (f.bare methods).addAttributes attributes

theorem decodes_readTables (f : Front) : Decodes f.readTables layout Fits (meaning f) := by
  have methods := (RawMethod.decodes_read f.header.pool f.header.name).counted
  have attributes := (RawAttribute.decodes_read f.header.pool).counted
  refine ⟨?_, fun c fits => ?_⟩
  · refine .bind methods.splits ?_
    rintro _ ms ⟨rawMethods, rfl, fewMethods, knownMethods⟩
    refine .bind attributes.splits ?_
    rintro _ as ⟨rawAttributes, rfl, fewAttributes, knownAttributes⟩
    refine (Splits.lift _).mono ?_
    rintro _ c ⟨rfl, added⟩
    refine ⟨⟨rawMethods, rawAttributes⟩, ?_, ⟨fewMethods, fewAttributes⟩, ?_⟩
    · rw [layout, List.append_nil]
    · rw [meaning, knownMethods, knownAttributes]
      exact added
  · refine .bind (methods.yields _ fits.1) fun ms _ => ?_
    exact .bind_last (attributes.yields _ fits.2) fun as _ => .lift _

/-- A class has the name of its header, and its methods are those of the table. -/
theorem name_of_meaning {f : Front} {raw : RawClass} {c : ClassFile} (h : raw.meaning f = .ok c) :
    c.name = f.header.name ∧
      raw.methods.mapM (RawMethod.meaning f.header.pool f.header.name) = .ok c.methods := by
  obtain ⟨methods, known, h⟩ := exists_ok_of_bind h
  obtain ⟨attributes, -, added⟩ := exists_ok_of_bind h
  obtain ⟨name, -, same⟩ := (ClassFile.addAttributes_keeps _ _).of_ok added
  rw [same]
  exact ⟨name, known⟩

end RawClass

/-! ## The front -/

theorem Entry.whole_read (slot : Nat) : Whole (read slot) := by
  have single {α : Type} {p : Read α} (hp : Whole p) {make : α → Entry} :
      Whole (do return make (← p)) := hp.map make
  have pair {α β : Type} {p : Read α} {q : Read β} (hp : Whole p) (hq : Whole q)
      {make : α → β → Entry} : Whole (do return make (← p) (← q)) := .bind hp fun _ => single hq
  refine .bind .u8 fun tag => ?_
  unfold readFields
  split
  case h_1 => exact single (.bind .u16 fun _ => .bind (.bytes _) fun _ => .lift _)
  case h_12 => exact pair .u8 .u16
  case h_18 => exact .throw _
  all_goals first
    | exact single .u16
    | exact pair .u16 .u16
    | exact single .i32
    | exact single .u32
    | exact single .i64
    | exact single .u64

theorem Pool.whole_readInto (p : Pool) (room : Nat) : Whole (p.readInto room) := by
  -- A wide entry uses up two slots of the room at once.
  induction room using Nat.strong_induction_on generalizing p with
  | _ room ih =>
    cases room with
    | zero => exact .pure _
    | succ room =>
      unfold readInto
      refine .bind (Entry.whole_read p.size) fun e => ?_
      split
      · cases room with
        | zero => exact .throw _
        | succ room => exact ih room (by omega) _
      · exact ih room (by omega) _

theorem Pool.whole_read (count : UInt16) : Whole (read count) := by
  unfold read
  split
  · exact .throw _
  · exact whole_readInto _ _

theorem Attribute.whole_readTable (pool : Pool) : Whole (readTable pool) := by
  apply Whole.counted
  exact .bind .u16 fun _ => .bind (.lift _) fun _ => .bind .u32 fun _ => .bind (.bytes _) fun _ =>
    .pure _

namespace ClassFile

theorem whole_readSuper (pool : Pool) : Whole (readSuper pool) := by
  refine .bind .u16 fun index => ?_
  split
  · exact .pure _
  · exact .bind (.lift _) fun _ => .pure _

theorem whole_readInterface (pool : Pool) : Whole (readInterface pool) :=
  .bind .u16 fun _ => .lift _

theorem whole_readField (pool : Pool) : Whole (readField pool) :=
  .bind (.skip 6) fun _ => .bind (Attribute.whole_readTable pool) fun _ => .pure _

/-- The front is not shorter than its magic number, versions and the size of its pool. -/
theorem Front.length_read : Splits read fun used _ => preambleLength ≤ used.length := by
  have header : Splits Header.read fun used _ => 6 ≤ used.length := by
    refine .bind .u16 fun _ minor h₁ => .bind .u16 fun _ major h₂ => .bind .u16 fun _ count h₃ => ?_
    have rest : Whole _ := .bind (Pool.whole_read count) fun pool => .bind .u16 fun flags =>
      .bind .u16 fun index => .bind (.lift (pool.className index)) fun name =>
        .pure (⟨minor, major, pool, ClassFlag.ofBits flags, name⟩ : Header)
    refine rest.mono fun used _ _ => ?_
    rw [h₁, h₂, h₃]
    simp only [List.length_append, length_u16]
    omega
  refine .bind .u32 fun _ first h => ?_
  split
  · refine .bind header fun front header long => ?_
    have rest : Whole _ := .bind (whole_readSuper header.pool) fun superName =>
      .bind (.counted (whole_readInterface header.pool)) fun interfaces =>
        .bind (.counted (whole_readField header.pool)) fun _ =>
          .pure (⟨header, superName, interfaces⟩ : Front)
    refine rest.mono fun used _ _ => ?_
    rw [h]
    simp only [List.length_append, length_u32, preambleLength]
    omega
  · exact .throw _

/-- Reading a file is reading its front, then its tables, then nothing. -/
theorem parse_eq {bytes : List UInt8} (h : preambleLength ≤ bytes.length) :
    parse bytes = (do let f ← Front.read; f.close (← f.readTables) : Read ClassFile).parse bytes := by
  have reader : (do if (← Read.u32) = magic then readBody (← Header.read) else throw .notSupported) =
      (do let f ← Front.read; f.close (← f.readTables) : Read ClassFile) := by
    rw [Front.read, bind_assoc]
    refine bind_congr fun first => ?_
    split
    · simp only [readBody, Front.readTables, bind_assoc, pure_bind]
      rfl
    · rfl
  rw [parse, parseWith_of_long h, ← reader]

theorem Front.close_of_nil (f : Front) (file : ClassFile) (pos : Nat) :
    f.close file ⟨pos, []⟩ = .ok file ⟨pos, []⟩ := rfl

theorem Front.exists_of_close_ok {f : Front} {file c : ClassFile} {k k' : Cursor}
    (h : f.close file k = .ok c k') : c = file ∧ k.rest = [] := by
  change (if k.rest.length = 0 then pure file else throw _ : Read ClassFile) k = .ok c k' at h
  split at h
  · next nothing =>
    cases h
    exact ⟨rfl, List.length_eq_zero_iff.mp nothing⟩
  · cases h

variable {front : List UInt8} {f : Front} {raw : RawClass}

theorem Front.length_of_takes (takes : Takes Front.read front f) (rest : List UInt8) :
    preambleLength ≤ (front ++ rest).length := by
  have := length_read.holds_of_takes takes
  rw [List.length_append]
  omega

/-- **A file that is accepted has sections**, and is what they mean. -/
theorem exists_sections {bytes : List UInt8} {c : ClassFile} (h : parse bytes = .ok c) :
    ∃ front f raw, bytes = front ++ RawClass.layout raw ∧ Takes Front.read front f ∧ raw.Fits ∧
      raw.meaning f = .ok c := by
  have long : preambleLength ≤ bytes.length := by
    rw [parse, parseWith] at h
    split at h
    · cases h
    · split at h
      · cases h
      · next long => exact Nat.not_lt.mp long
  rw [parse_eq long, Read.parse] at h
  split at h
  · next file k ok =>
    cases h
    obtain ⟨f, k₁, early, late⟩ := Read.exists_of_bind_ok ok
    obtain ⟨file', k₂, tables, closed⟩ := Read.exists_of_bind_ok late
    obtain ⟨rfl, nothing⟩ := Front.exists_of_close_ok closed
    obtain ⟨front, split, takes, -⟩ := Front.length_read.of_ok early
    obtain ⟨_, split', -, raw, rfl, fits, known⟩ :=
      (RawClass.decodes_readTables f).splits.of_ok tables
    rw [nothing, List.append_nil] at split'
    exact ⟨front, f, raw, split.trans (congrArg _ split'), takes, fits, known⟩
  · cases h

/-- **What comes of a file is what its sections mean.** -/
theorem parse_sections (takes : Takes Front.read front f) (fits : raw.Fits) :
    parse (front ++ raw.layout) = raw.meaning f := by
  have tables := (RawClass.decodes_readTables f).yields raw fits
  rw [parse_eq (Front.length_of_takes takes _), Read.parse, Cursor.ofBytes, Read.bind_of_ok (takes 0 _)]
  cases meant : raw.meaning f with
  | ok c =>
    rw [meant] at tables
    have read := tables (0 + front.length) []
    rw [List.append_nil] at read
    rw [Read.bind_of_ok read, Front.close_of_nil]
  | error e =>
    rw [meant] at tables
    obtain ⟨k, fails⟩ := tables (0 + front.length) []
    rw [List.append_nil] at fails
    rw [Read.bind_of_error fails]

end ClassFile

end Recompose
