import Recompose.Annotation
import Recompose.Proofs.Bytes.Below
import Recompose.Proofs.Pool.Renumber

/-!
Annotations against the bytes that they are read from. What the bytes of an annotation are is said
first, by the tags of its values and the pool; values nest in one another to any depth. Reading
takes these bytes and no others. Every value takes a byte of its own before the values in it are
read, so the bytes that are left bound how deep the reader goes.
-/

namespace Recompose

open Bytes BigEndian
open Read (Takes Splits Exact AtLeast AgreeBelow)

/-! ## What the bytes of an annotation are -/

namespace Annotation

/-- An element is the slot of its name and a value, of which `R` says what its bytes are. -/
inductive ElementWith (pool : Pool) (R : List UInt8 → ElementValue → Prop) :
    List UInt8 → String × ElementValue → Prop where
  | mk {slot : UInt16} {name : String} {bytes : List UInt8} {v : ElementValue}
      (known : pool.get? slot = some (.utf8 name)) (value : R bytes v) :
      ElementWith pool R (u16 slot ++ bytes) (name, v)

/-- An annotation is the slot of its type and a table of elements. -/
inductive WrittenWith (pool : Pool) (R : List UInt8 → ElementValue → Prop) :
    List UInt8 → Annotation → Prop where
  | mk {slot : UInt16} {descriptor : String} {rows : List (List UInt8)}
      {elements : List (String × ElementValue)} (known : pool.get? slot = some (.utf8 descriptor))
      (few : rows.length ≤ 65535) (each : List.Forall₂ (ElementWith pool R) rows elements) :
      WrittenWith pool R (u16 slot ++ Draft.table rows) (.mk descriptor elements)

end Annotation

namespace ElementValue

namespace Form

/-- The characters that announce a form. -/
def letters : Form → List Char
  | number .int => ['B', 'C', 'I', 'S', 'Z']
  | number .long => ['J']
  | number .float => ['F']
  | number .double => ['D']
  | string => ['s']
  | enumConstant => ['e']
  | classRef => ['c']
  | nested => ['@']
  | array => ['[']

end Form

/-- An entry of a kind of number, and the value that it is. -/
inductive Holds : Entry → NumberKind → ElementValue → Prop where
  | int (value : Int32) : Holds (.integer value) .int (.int value)
  | long (value : Int64) : Holds (.long value) .long (.long value)
  | float (bits : UInt32) : Holds (.float bits) .float (.float bits)
  | double (bits : UInt64) : Holds (.double bits) .double (.double bits)

/-- The bytes are those of a value: a tag and what it announces, where the slots of the pool hold
entries of the kind that the tag requires. -/
inductive Written (pool : Pool) : List UInt8 → ElementValue → Prop where
  | number {kind : NumberKind} {tag : Char} {slot : UInt16} {e : Entry} {v : ElementValue}
      (announced : tag ∈ (Form.number kind).letters) (known : pool.get? slot = some e)
      (holds : Holds e kind v) : Written pool (tag.toUInt8 :: u16 slot) v
  | string {slot : UInt16} {text : String} (known : pool.get? slot = some (.utf8 text)) :
      Written pool ('s'.toUInt8 :: u16 slot) (.string text)
  | enumConstant {typeSlot nameSlot : UInt16} {type name : String}
      (typeKnown : pool.get? typeSlot = some (.utf8 type))
      (nameKnown : pool.get? nameSlot = some (.utf8 name)) :
      Written pool ('e'.toUInt8 :: (u16 typeSlot ++ u16 nameSlot)) (.enumConstant type name)
  | classRef {slot : UInt16} {descriptor : String}
      (known : pool.get? slot = some (.utf8 descriptor)) :
      Written pool ('c'.toUInt8 :: u16 slot) (.classRef descriptor)
  | nested {bytes : List UInt8} {a : Annotation}
      (written : Annotation.WrittenWith pool (Written pool) bytes a) :
      Written pool ('@'.toUInt8 :: bytes) (.nested a)
  | array {rows : List (List UInt8)} {values : List ElementValue} (few : rows.length ≤ 65535)
      (each : List.Forall₂ (Written pool) rows values) :
      Written pool ('['.toUInt8 :: Draft.table rows) (.array values)

end ElementValue

/-- The bytes are those of an annotation. -/
abbrev Annotation.Written (pool : Pool) : List UInt8 → Annotation → Prop :=
  WrittenWith pool (ElementValue.Written pool)

namespace ElementValue

variable {pool : Pool}

theorem Written.three_le_length {bytes : List UInt8} {v : ElementValue}
    (h : Written pool bytes v) : 3 ≤ bytes.length := by
  cases h with
  | number | string | classRef => rw [List.length_cons, length_u16]
  | enumConstant =>
    rw [List.length_cons, List.length_append, length_u16, length_u16]
    decide
  | nested written =>
    obtain ⟨_, _, _⟩ := written
    rw [List.length_cons, List.length_append, length_u16]
    omega
  | array =>
    rw [List.length_cons, Draft.table, List.length_append, length_u16]
    omega

/-! ## Tags and slots -/

namespace Form

theorem ofTag?_of_mem {form : Form} {tag : Char} (h : tag ∈ form.letters) :
    ofTag? tag.toUInt8 = some form := by
  have same : form.letters.map (fun letter => ofTag? letter.toUInt8) =
      form.letters.map fun _ => some form := by
    cases form with
    | number kind => cases kind <;> rfl
    | string | enumConstant | classRef | nested | array => rfl
  exact List.map_inj_left.mp same tag h

theorem toUInt8_ofNat (tag : UInt8) : (Char.ofNat tag.toNat).toUInt8 = tag := by
  have small := tag.toNat_lt
  have valid : tag.toNat.isValidChar := .inl (by omega)
  rw [← UInt8.toNat_inj, Char.ofNat, dif_pos valid, Char.toUInt8, UInt32.toNat_toUInt8]
  exact Nat.mod_eq_of_lt small

theorem exists_letter_of_ofTag? {form : Form} {tag : UInt8} (h : ofTag? tag = some form) :
    ∃ letter ∈ form.letters, letter.toUInt8 = tag := by
  refine ⟨Char.ofNat tag.toNat, ?_, toUInt8_ofNat tag⟩
  unfold ofTag? at h
  split at h <;> cases h
  all_goals simp [letters, *]

end Form

theorem number_eq_ok_iff {kind : NumberKind} {slot : UInt16} {v : ElementValue} :
    number pool kind slot = .ok v ↔ ∃ e, pool.get? slot = some e ∧ Holds e kind v := by
  constructor
  · intro ok
    obtain ⟨e, found, same⟩ := exists_ok_of_bind ok
    refine ⟨e, Pool.get_eq_ok_iff.mp found, ?_⟩
    split at same <;> cases same <;> constructor
  · rintro ⟨e, known, holds⟩
    rw [number, Pool.get_of_get? known]
    cases holds <;> rfl

theorem takes_readUtf8 {slot : UInt16} {text : String}
    (known : pool.get? slot = some (.utf8 text)) : Takes (readUtf8 pool) (u16 slot) text :=
  .bind_last (.u16 slot) (.lift (Pool.utf8_eq_ok_iff.mpr known))

theorem splits_readUtf8 :
    Splits (readUtf8 pool) fun used text =>
      ∃ slot, used = u16 slot ∧ pool.get? slot = some (.utf8 text) := by
  refine .bind .u16 fun _ slot same => (Splits.lift _).mono ?_
  rintro _ text ⟨rfl, found⟩
  exact ⟨slot, by rw [same, List.append_nil], Pool.utf8_eq_ok_iff.mp found⟩

theorem exact_readUtf8 : Exact (readUtf8 pool) 2 :=
  Exact.u16.bind fun _ => .lift _

end ElementValue

/-! ## One level -/

namespace Annotation

variable {pool : Pool} {value value' : Read ElementValue} {R : List UInt8 → ElementValue → Prop}

/-- Reads an element whose value is read by `value`. -/
def readElement (pool : Pool) (value : Read ElementValue) : Read (String × ElementValue) := do
  let name ← ElementValue.readUtf8 pool
  let value ← value
  return (name, value)

theorem splits_readElement (pool : Pool) (h : Splits value R) :
    Splits (readElement pool value) (ElementWith pool R) := by
  refine .bind ElementValue.splits_readUtf8 ?_
  rintro _ name ⟨slot, rfl, known⟩
  refine (h.map (Prod.mk name)).mono ?_
  rintro _ _ ⟨v, written, rfl⟩
  exact .mk known written

theorem splits_readWith (pool : Pool) (h : Splits value R) :
    Splits (readWith pool value) (WrittenWith pool R) := by
  refine .bind ElementValue.splits_readUtf8 ?_
  rintro _ descriptor ⟨slot, rfl, known⟩
  refine ((splits_readElement pool h).counted.map (mk descriptor)).mono ?_
  rintro _ _ ⟨elements, ⟨rows, rfl, few, each⟩, rfl⟩
  exact .mk known few each

theorem takes_readWith {bytes : List UInt8} {a : Annotation} (written : WrittenWith pool R bytes a)
    (shorter : ∀ {row v}, row.length < bytes.length → R row v → Takes value row v) :
    Takes (readWith pool value) bytes a := by
  obtain ⟨known, few, each⟩ := written
  rw [List.length_append, length_u16] at shorter
  refine .bind (ElementValue.takes_readUtf8 known) (.map (.counted_of_shorter few each ?_) _)
  rintro _ _ short ⟨nameKnown, written⟩
  rw [List.length_append, length_u16] at short
  exact .bind (ElementValue.takes_readUtf8 nameKnown) ((shorter (by omega) written).map _)

theorem agreeBelow_readWith (pool : Pool) {n : Nat} (h : AgreeBelow n value value')
    (h' : Splits value' R) : AgreeBelow n (readWith pool value) (readWith pool value') := by
  have elements := splits_readElement pool h'
  have element : AgreeBelow (n + 2) (readElement pool value) (readElement pool value') :=
    .behind ElementValue.exact_readUtf8 fun name => h.map h' (Prod.mk name)
  have whole : AgreeBelow (n + 2 + 2 + 2) (readWith pool value) (readWith pool value') :=
    .behind ElementValue.exact_readUtf8 fun descriptor =>
      (element.counted elements).map elements.counted (mk descriptor)
  exact whole.mono (by omega)

end Annotation

namespace ElementValue

variable {pool : Pool} {inner inner' : Read ElementValue}

/-- What is read behind a tag, where `inner` reads the values in the value. -/
def readForm (pool : Pool) (inner : Read ElementValue) : Form → Read ElementValue
  | .number kind => do
    let index ← Read.u16
    number pool kind index
  | .string => return string (← readUtf8 pool)
  | .enumConstant => return enumConstant (← readUtf8 pool) (← readUtf8 pool)
  | .classRef => return classRef (← readUtf8 pool)
  | .nested => return nested (← Annotation.readWith pool inner)
  | .array => return array (← Read.counted inner)

/-- One level of the reader: it is the reader itself where `inner` is. -/
def level (pool : Pool) (inner : Read ElementValue) : Read ElementValue := do
  let tag ← Read.u8
  match Form.ofTag? tag with
  | some form => readForm pool inner form
  | none => throw (.malformed (.elementTag tag))

theorem read_succ (depth : Nat) : read pool (depth + 1) = level pool (read pool depth) := by
  rw [read, level]
  congr
  funext tag
  cases Form.ofTag? tag with
  | none => rfl
  | some form => cases form <;> rfl

theorem splits_readForm (h : Splits inner (Written pool)) {tag : Char} {form : Form}
    (announced : tag ∈ form.letters) :
    Splits (readForm pool inner form) fun used v => Written pool (tag.toUInt8 :: used) v := by
  cases form with
  | number kind =>
    refine .bind .u16 fun _ slot same => (Splits.lift _).mono ?_
    rintro _ v ⟨rfl, found⟩
    obtain ⟨e, known, holds⟩ := number_eq_ok_iff.mp found
    rw [same, List.append_nil]
    exact .number announced known holds
  | string =>
    obtain rfl := List.mem_singleton.mp announced
    refine (splits_readUtf8.map string).mono ?_
    rintro _ _ ⟨text, ⟨slot, rfl, known⟩, rfl⟩
    exact .string known
  | enumConstant =>
    obtain rfl := List.mem_singleton.mp announced
    refine .bind splits_readUtf8 ?_
    rintro _ type ⟨typeSlot, rfl, typeKnown⟩
    refine (splits_readUtf8.map (enumConstant type)).mono ?_
    rintro _ _ ⟨name, ⟨nameSlot, rfl, nameKnown⟩, rfl⟩
    exact .enumConstant typeKnown nameKnown
  | classRef =>
    obtain rfl := List.mem_singleton.mp announced
    refine (splits_readUtf8.map classRef).mono ?_
    rintro _ _ ⟨descriptor, ⟨slot, rfl, known⟩, rfl⟩
    exact .classRef known
  | nested =>
    obtain rfl := List.mem_singleton.mp announced
    have annotations := Annotation.splits_readWith pool h
    refine (annotations.map nested).mono ?_
    rintro _ _ ⟨a, written, rfl⟩
    exact .nested written
  | array =>
    obtain rfl := List.mem_singleton.mp announced
    refine (h.counted.map array).mono ?_
    rintro _ _ ⟨values, ⟨rows, rfl, few, each⟩, rfl⟩
    exact .array few each

theorem splits_level (h : Splits inner (Written pool)) :
    Splits (level pool inner) (Written pool) := by
  refine .bind .u8 fun used tag same => ?_
  subst same
  cases announced : Form.ofTag? tag with
  | none => exact .throw _
  | some form =>
    obtain ⟨letter, mem, rfl⟩ := Form.exists_letter_of_ofTag? announced
    exact splits_readForm h mem

theorem takes_level_of_mem (form : Form) {tag : Char} {bytes : List UInt8} {v : ElementValue}
    (announced : tag ∈ form.letters) (h : Takes (readForm pool inner form) bytes v) :
    Takes (level pool inner) (tag.toUInt8 :: bytes) v := by
  refine .bind (.u8 tag.toUInt8) ?_
  rw [Form.ofTag?_of_mem announced]
  exact h

/-- The values in a value are shorter than it. -/
theorem takes_level {bytes : List UInt8} {v : ElementValue} (written : Written pool bytes v)
    (shorter : ∀ {row v}, row.length < bytes.length → Written pool row v → Takes inner row v) :
    Takes (level pool inner) bytes v := by
  cases written with
  | number announced known holds =>
    exact takes_level_of_mem (.number _) announced
      (.bind_last (.u16 _) (.lift (number_eq_ok_iff.mpr ⟨_, known, holds⟩)))
  | string known =>
    exact takes_level_of_mem .string (List.mem_singleton_self _)
      ((takes_readUtf8 known).map string)
  | enumConstant typeKnown nameKnown =>
    exact takes_level_of_mem .enumConstant (List.mem_singleton_self _)
      (.bind (takes_readUtf8 typeKnown) ((takes_readUtf8 nameKnown).map _))
  | classRef known =>
    exact takes_level_of_mem .classRef (List.mem_singleton_self _)
      ((takes_readUtf8 known).map classRef)
  | nested written =>
    refine takes_level_of_mem .nested (List.mem_singleton_self _) (.map ?_ nested)
    exact Annotation.takes_readWith written fun short => shorter (Nat.lt_succ_of_lt short)
  | array few each =>
    refine takes_level_of_mem .array (List.mem_singleton_self _) (.map ?_ array)
    exact .counted_of_shorter few each fun short => shorter (Nat.lt_succ_of_lt short)

theorem agreeBelow_level {n : Nat} (h : AgreeBelow n inner inner')
    (h' : Splits inner' (Written pool)) :
    AgreeBelow (n + 1) (level pool inner) (level pool inner') := by
  refine .behind Exact.u8 fun tag => ?_
  cases Form.ofTag? tag with
  | none => exact .refl n _
  | some form =>
    cases form with
    | number | string | enumConstant | classRef => exact .refl n _
    | nested =>
      have annotations := Annotation.splits_readWith pool h'
      have agree := Annotation.agreeBelow_readWith pool h h'
      exact agree.map annotations nested
    | array => exact ((h.counted h').mono (Nat.le_add_right ..)).map h'.counted array

/-! ## Every level -/

theorem splits_read (pool : Pool) (depth : Nat) : Splits (read pool depth) (Written pool) := by
  induction depth with
  | zero => exact .throw _
  | succ depth ih =>
    rw [read_succ]
    exact splits_level ih

/-- A value does not nest deeper than it has bytes. -/
theorem takes_read {depth : Nat} {bytes : List UInt8} {v : ElementValue}
    (written : Written pool bytes v) (enough : bytes.length ≤ depth) :
    Takes (read pool depth) bytes v := by
  induction depth generalizing bytes v with
  | zero =>
    have := written.three_le_length
    omega
  | succ depth ih =>
    rw [read_succ]
    exact takes_level written fun short written => ih written (by omega)

/-- The reader unrolled so many times, with a reader of any kind for the values that lie deeper. -/
def unrolled (pool : Pool) (deeper : Read ElementValue) : (depth : Nat) → Read ElementValue
  | 0 => deeper
  | depth + 1 => level pool (unrolled pool deeper depth)

theorem unrolled_add (deeper : Read ElementValue) (k depth : Nat) :
    unrolled pool deeper (k + depth) = unrolled pool (unrolled pool deeper k) depth := by
  induction depth with
  | zero => rfl
  | succ depth ih => exact congrArg (level pool) ih

/-- Each level reads a byte, so what lies deeper is out of reach. -/
theorem agreeBelow_unrolled (pool : Pool) (deeper : Read ElementValue) (depth : Nat) :
    AgreeBelow depth (unrolled pool deeper depth) (read pool depth) := by
  induction depth with
  | zero => exact .zero ..
  | succ depth ih =>
    rw [read_succ]
    exact agreeBelow_level ih (splits_read pool depth)

end ElementValue

namespace Annotation

theorem parseAll_unrolled (pool : Pool) (data : List UInt8) (deeper : Read ElementValue)
    {depth : Nat} (enough : data.length ≤ depth) :
    (Read.counted (readWith pool (ElementValue.unrolled pool deeper depth))).parse data =
      parseAll pool data := by
  obtain ⟨k, rfl⟩ := Nat.exists_eq_add_of_le' enough
  have values := ElementValue.splits_read pool data.length
  rw [ElementValue.unrolled_add]
  generalize ElementValue.unrolled pool deeper k = deeper
  have agree := ElementValue.agreeBelow_unrolled pool deeper data.length
  have tables := (agreeBelow_readWith pool agree values).counted (splits_readWith pool values)
  exact tables.parse (by omega)

theorem parseAll_eq_ok_iff {pool : Pool} {data : List UInt8} {as : List Annotation} :
    parseAll pool data = .ok as ↔ ∃ rows rest, data = Draft.table rows ++ rest ∧
      rows.length ≤ 65535 ∧ List.Forall₂ (Written pool) rows as := by
  constructor
  · intro ok
    have values := ElementValue.splits_read pool data.length
    have table := (splits_readWith pool values).counted
    obtain ⟨_, rest, same, rows, rfl, few, each⟩ := table.exists_of_parse ok
    exact ⟨rows, rest, same, few, each⟩
  · rintro ⟨rows, rest, rfl, few, each⟩
    refine (Takes.counted_of_shorter few each fun short written => ?_).parse_append rest
    refine takes_readWith written fun short' written => ElementValue.takes_read written ?_
    rw [List.length_append]
    omega

/-- **Annotations are read from just the bytes that they are written as**, whatever follows. The
reader gets no deeper than there are bytes, so it makes no difference which reader is put in the
place of itself beyond that depth; and each value takes three bytes or more. -/
theorem parseAll_exact (pool : Pool) (data : List UInt8) :
    (∀ deeper depth, data.length ≤ depth →
      (Read.counted (readWith pool (ElementValue.unrolled pool deeper depth))).parse data =
        parseAll pool data) ∧
    (∀ depth pos v k, ElementValue.read pool depth ⟨pos, data⟩ = .ok v k →
      k.rest.length + 3 ≤ data.length) ∧
    ∀ as, parseAll pool data = .ok as ↔ ∃ rows rest, data = Draft.table rows ++ rest ∧
      rows.length ≤ 65535 ∧ List.Forall₂ (Written pool) rows as := by
  refine ⟨fun deeper depth enough => parseAll_unrolled pool data deeper enough, ?_,
    fun as => parseAll_eq_ok_iff⟩
  intro depth pos v k ok
  have value : AtLeast (ElementValue.read pool depth) 3 :=
    (ElementValue.splits_read pool depth).mono fun _ _ written => written.three_le_length
  exact value.length_rest ok

/-- Three texts and a number. -/
def keyPool : Pool :=
  ⟨#[none, some (.utf8 "LKey;"), some (.utf8 "key"), some (.integer 1902), some (.utf8 "x")]⟩

/-- A number, and a list of a text and an annotation. -/
def nestingKey : Annotation :=
  .mk "LKey;" [("key", .int 1902), ("x", .array [.string "key", .nested (.mk "LKey;" [])])]

def nestingRow : List UInt8 :=
  u16 1 ++ Draft.table [u16 2 ++ ('I'.toUInt8 :: u16 3),
    u16 4 ++ ('['.toUInt8 :: Draft.table ['s'.toUInt8 :: u16 2,
      '@'.toUInt8 :: (u16 1 ++ Draft.table [])])]

/-- The annotation is read from bytes behind which one more follows, and the number in it from three
bytes. -/
theorem parseAll_exact_nesting :
    parseAll keyPool (Draft.table [nestingRow] ++ [0xCA]) = .ok [nestingKey] ∧
      (Read.counted (readWith keyPool
        (ElementValue.unrolled keyPool (pure (.string "deeper")) 26))).parse
          (Draft.table [nestingRow] ++ [0xCA]) = .ok [nestingKey] ∧
      ElementValue.read keyPool 1 ⟨8, [0x49, 0, 3]⟩ = .ok (.int 1902) ⟨11, []⟩ ∧
      0 + 3 ≤ [0x49, 0, 3].length := by
  have written : Written keyPool nestingRow nestingKey :=
    .mk rfl (by decide) (.cons (.mk rfl (.number (by decide) rfl (.int 1902))) (.cons (.mk rfl
      (.array (by decide) (.cons (.string rfl) (.cons (.nested (.mk rfl (by decide) .nil)) .nil))))
      .nil))
  obtain ⟨unrolled, -, exact⟩ := parseAll_exact keyPool (Draft.table [nestingRow] ++ [0xCA])
  have parsed := (exact [nestingKey]).mpr
    ⟨[nestingRow], [0xCA], rfl, by decide, .cons written .nil⟩
  have number : ElementValue.read keyPool 1 ⟨8, [0x49, 0, 3]⟩ = .ok (.int 1902) ⟨11, []⟩ := rfl
  refine ⟨parsed, (unrolled _ 26 (by decide)).trans parsed, number, ?_⟩
  exact (parseAll_exact keyPool [0x49, 0, 3]).2.1 1 8 (.int 1902) ⟨11, []⟩ number

end Annotation

end Recompose
