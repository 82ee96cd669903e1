import Recompose.Proofs.Assembly.Draft

/-!
The slots that an assembly gives out are those of the right names: looked up in the final tables,
each leads to what it was asked for. Attributes laid out with them are read back.
-/

namespace Recompose

open Bytes

namespace Draft

theorem utf8_yields (text : String) : Yields (utf8 text) fun D index => D.pool.utf8 index = .ok text :=
  (intern_yields _).imp fun D index _ ⟨found, _⟩ => by
    rw [Pool.utf8, found]

theorem classRef_yields (name : String) :
    Yields (classRef name) fun D index => D.pool.className index = .ok name ∧ index ≠ 0 := by
  refine (utf8_yields name).bind fun text => (intern_yields _).imp ?_
  rintro D index _ ⟨found, nonzero⟩ _ known
  rw [Pool.className, found]
  exact ⟨known, nonzero⟩

theorem nameAndType_yields (name descriptor : String) :
    Yields (nameAndType name descriptor) fun D index =>
      D.pool.nameAndType index = .ok (name, descriptor) := by
  refine (utf8_yields name).bind fun first => (utf8_yields descriptor).bind fun second =>
    (intern_yields _).imp ?_
  rintro D index _ ⟨found, _⟩ _ knownDescriptor _ knownName
  rw [Pool.nameAndType, found]
  show (do
    let name ← D.pool.utf8 first
    let descriptor ← D.pool.utf8 second
    return (name, descriptor) : Except Error (String × String)) = _
  rw [knownName, knownDescriptor]
  rfl

theorem member_yields (kind : MemberKind) (owner name descriptor : String) :
    Yields (member kind owner name descriptor) fun D index =>
      D.pool.member index = .ok ⟨owner, name, descriptor, kind = .interfaceMethod⟩ := by
  refine (classRef_yields owner).bind fun first =>
    (nameAndType_yields name descriptor).bind fun second => (intern_yields _).imp ?_
  rintro D index _ ⟨found, _⟩ _ knownSignature _ ⟨knownOwner, _⟩
  simp only [Pool.member, found, knownSignature, knownOwner]
  rfl

/-- The slot of a handle on a method whose slot is known. -/
theorem methodHandle_yields (kind : UInt8) (reference : UInt16) :
    Yields (intern (.methodHandle kind reference)) fun D index =>
      ∀ m, D.pool.member reference = .ok m →
        D.pool.methodHandle index = .ok (.ofMember kind m) ∧
        ∀ table, D.pool.loadable table index = .ok (.methodHandle (.ofMember kind m)) := by
  refine (intern_yields _).imp ?_
  rintro D index _ ⟨found, _⟩ m known
  have handle : D.pool.methodHandle index = .ok (.ofMember kind m) := by
    rw [Pool.methodHandle, found]
    show (do return .ofMember kind (← D.pool.member reference) : Except Error Handle) = _
    rw [known]
    rfl
  refine ⟨handle, fun table => ?_⟩
  rw [Pool.loadable, Pool.get, found]
  show (do return .methodHandle (← D.pool.methodHandle index) : Except Error Constant) = _
  rw [handle]
  rfl

theorem methodType_yields (descriptor : String) :
    Yields (methodType descriptor) fun D index =>
      ∀ table, D.pool.loadable table index = .ok (.methodType descriptor) := by
  refine (utf8_yields descriptor).bind fun text => (intern_yields _).imp ?_
  rintro D index _ ⟨found, _⟩ _ known table
  rw [Pool.loadable, Pool.get, found]
  show (do return .methodType (← D.pool.utf8 text) : Except Error Constant) = _
  rw [known]
  rfl

theorem string_yields (text : String) :
    Yields (string text) fun D index =>
      ∀ table, D.pool.loadable table index = .ok (.string text) := by
  refine (utf8_yields text).bind fun slot => (intern_yields _).imp ?_
  rintro D index _ ⟨found, _⟩ _ known table
  rw [Pool.loadable, Pool.get, found]
  show (do return .string (← D.pool.utf8 slot) : Except Error Constant) = _
  rw [known]
  rfl

theorem integer_yields (value : Int32) :
    Yields (intern (.integer value)) fun D index =>
      D.pool.get index = .ok (.integer value) ∧
        ∀ table, D.pool.loadable table index = .ok (.int value) := by
  refine (intern_yields _).imp ?_
  rintro D index _ ⟨found, _⟩
  have here : D.pool.get index = .ok (.integer value) := by
    rw [Pool.get, found]
  refine ⟨here, fun table => ?_⟩
  rw [Pool.loadable, here]
  rfl

theorem long_yields (value : Int64) :
    Yields (intern (.long value)) fun D index =>
      ∀ table, D.pool.loadable table index = .ok (.long value) := by
  refine (intern_yields _).imp ?_
  rintro D index _ ⟨found, _⟩ table
  rw [Pool.loadable, Pool.get, found]
  rfl

/-! ## Attributes -/

theorem length_table (rows : List (List UInt8)) :
    (table rows).length = 2 + (rows.map List.length).sum := by
  rw [table, List.length_append, BigEndian.length_u16, List.length_flatten]

/-- Rows of one length. -/
theorem length_table_of_rows {rows : List (List UInt8)} {width : Nat}
    (h : ∀ row ∈ rows, row.length = width) : (table rows).length = 2 + rows.length * width := by
  have same : rows.map List.length = List.replicate rows.length width :=
    List.map_eq_replicate_iff.mpr h
  rw [length_table, same, List.sum_replicate_nat]

theorem attributeRow_yields (a : Attribute) :
    Yields (attributeRow a) fun D row => row.length = 6 + a.data.length ∧
      (a.data.length < 2 ^ 32 → Read.Takes (Attribute.read D.pool) row a) := by
  refine (utf8_yields a.name).map fun D name _ known => ⟨?_, fun short => ?_⟩
  · simp only [List.length_append, BigEndian.length_u16, BigEndian.length_u32]
  · have length := UInt32.toNat_ofNat_of_lt' short
    rw [List.append_assoc]
    refine .bind (.u16 name) (.bind_nil (.lift known) (.bind (.u32 _) ?_))
    rw [length]
    exact (Read.Takes.bytes a.data).map (Attribute.mk a.name)

theorem attributeTable_yields (as : List Attribute) :
    Yields (attributeTable as) fun D bytes =>
      bytes.length = 2 + (as.map fun a => 6 + a.data.length).sum ∧
        (as.length ≤ 65535 → (∀ a ∈ as, a.data.length < 2 ^ 32) →
          Read.Takes (Attribute.readTable D.pool) bytes as) := by
  refine (Yields.mapM fun a _ => attributeRow_yields a).map fun D rows _ each => ⟨?_, ?_⟩
  · have lengths : List.Forall₂ Eq (rows.map List.length) (as.map fun a => 6 + a.data.length) :=
      List.forall₂_map_left_iff.mpr
        (List.forall₂_map_right_iff.mpr (each.flip.imp fun _ _ known => known.1))
    rw [List.forall₂_eq_eq_eq] at lengths
    rw [length_table, lengths]
  · intro few short
    have rowsTaken : List.Forall₂ (Read.Takes (Attribute.read D.pool)) rows as :=
      ((List.forall₂_and_left _ _).mpr ⟨short, each⟩).flip.imp fun _ _ known => known.2.2 known.1
    exact .counted rowsTaken (each.length_eq ▸ few)

end Draft

end Recompose
