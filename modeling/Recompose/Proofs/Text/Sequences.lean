import Mathlib.Algebra.Ring.Nat
import Recompose.Proofs.Text.ModifiedUtf8

/-!
Which bytes are read as texts, and which are written. An encoded text is a row of sequences of one to
three bytes, one for each unit. Writing makes such rows and no others. Reading takes them all, but it
does not look at the upper bits of the bytes behind a first one, and on low bytes alone it does not
mind a zero.
-/

namespace Recompose.Text.ModifiedUtf8

/-! ## Sequences -/

/-- A byte that stands behind the first one of a sequence. -/
def IsLater (b : UInt8) : Prop :=
  0x80 ≤ b.toNat ∧ b.toNat ≤ 0xBF

/-- The bytes split into sequences that stand for the units; `Later` says which bytes may stand
behind the first one of a sequence, where each adds six bits to the unit. -/
inductive Spells (Later : UInt8 → Prop) : List UInt8 → List UInt16 → Prop where
  | nil : Spells Later [] []
  | one {a : UInt8} {u : UInt16} {bytes : List UInt8} {us : List UInt16}
      (lead : 0x01 ≤ a.toNat ∧ a.toNat ≤ 0x7F) (unit : u.toNat = a.toNat)
      (rest : Spells Later bytes us) : Spells Later (a :: bytes) (u :: us)
  | two {a b : UInt8} {u : UInt16} {bytes : List UInt8} {us : List UInt16}
      (lead : 0xC0 ≤ a.toNat ∧ a.toNat ≤ 0xDF) (later : Later b)
      (unit : u.toNat = (a.toNat - 0xC0) * 64 + b.toNat % 64)
      (rest : Spells Later bytes us) : Spells Later (a :: b :: bytes) (u :: us)
  | three {a b c : UInt8} {u : UInt16} {bytes : List UInt8} {us : List UInt16}
      (lead : 0xE0 ≤ a.toNat ∧ a.toNat ≤ 0xEF) (later : Later b ∧ Later c)
      (unit : u.toNat = (a.toNat - 0xE0) * 4096 + b.toNat % 64 * 64 + c.toNat % 64)
      (rest : Spells Later bytes us) : Spells Later (a :: b :: c :: bytes) (u :: us)

/-- Sequences whose later bytes are any bytes. -/
abbrev SpellsLoosely : List UInt8 → List UInt16 → Prop :=
  Spells fun _ => True

/-- No sequence stands in front, for the reason given. -/
inductive Stops : List UInt8 → Defect → Prop where
  | cutTwo {a : UInt8} (lead : 0xC0 ≤ a.toNat ∧ a.toNat ≤ 0xDF) : Stops [a] .truncatedText
  | cutThree {a : UInt8} {rest : List UInt8} (lead : 0xE0 ≤ a.toNat ∧ a.toNat ≤ 0xEF)
      (short : rest.length < 2) : Stops (a :: rest) .truncatedText
  | noLead {a : UInt8} {rest : List UInt8}
      (lead : a.toNat = 0 ∨ (0x80 ≤ a.toNat ∧ a.toNat ≤ 0xBF) ∨ 0xF0 ≤ a.toNat) :
      Stops (a :: rest) (.leadByte a)

theorem toNat_twoBytes {a : UInt8} (lead : 0xC0 ≤ a.toNat ∧ a.toNat ≤ 0xDF) (b : UInt8) :
    (twoBytes a b).toNat = (a.toNat - 0xC0) * 64 + b.toNat % 64 := by
  have small : a.toNat % 32 * 64 + b.toNat % 64 < 65536 := by omega
  rw [twoBytes, UInt16.toNat_ofNat_of_lt' small]
  omega

theorem toNat_threeBytes {a : UInt8} (lead : 0xE0 ≤ a.toNat ∧ a.toNat ≤ 0xEF) (b c : UInt8) :
    (threeBytes a b c).toNat = (a.toNat - 0xE0) * 4096 + b.toNat % 64 * 64 + c.toNat % 64 := by
  have small : a.toNat % 16 * 4096 + b.toNat % 64 * 64 + c.toNat % 64 < 65536 := by omega
  rw [threeBytes, UInt16.toNat_ofNat_of_lt' small]
  omega

namespace Spells

variable {Later Later' : UInt8 → Prop} {bytes : List UInt8} {us : List UInt16}

theorem mono (h : ∀ b, Later b → Later' b) (spells : Spells Later bytes us) :
    Spells Later' bytes us := by
  induction spells with
  | nil => exact nil
  | one lead unit _ ih => exact one lead unit ih
  | two lead later unit _ ih => exact two lead (h _ later) unit ih
  | three lead later unit _ ih => exact three lead ⟨h _ later.1, h _ later.2⟩ unit ih

/-- No sequence is empty. -/
theorem length_le (spells : Spells Later bytes us) : us.length ≤ bytes.length := by
  induction spells with
  | nil => exact Nat.le_refl 0
  | one _ _ _ ih | two _ _ _ _ ih | three _ _ _ _ ih =>
    simp only [List.length_cons]
    omega

/-- Sequences are taken as their units, whatever follows. -/
theorem unitsOnto_append (spells : Spells Later bytes us) (done : List UInt16)
    (rest : List UInt8) :
    unitsOnto done (bytes ++ rest) = unitsOnto (us.reverse ++ done) rest := by
  induction spells generalizing done with
  | nil => rfl
  | @one a u bytes us lead unit _ ih =>
    have same : a.toUInt16 = u := by rw [← UInt16.toNat_inj, UInt8.toNat_toUInt16, unit]
    rw [List.cons_append, unitsOnto_one lead, ih, same, List.reverse_cons, List.append_assoc]
    rfl
  | @two a b u bytes us lead _ unit _ ih =>
    have same : twoBytes a b = u := by rw [← UInt16.toNat_inj, toNat_twoBytes lead, unit]
    rw [List.cons_append, List.cons_append, unitsOnto_two lead, ih, same, List.reverse_cons,
      List.append_assoc]
    rfl
  | @three a b c u bytes us lead _ unit _ ih =>
    have same : threeBytes a b c = u := by rw [← UInt16.toNat_inj, toNat_threeBytes lead, unit]
    rw [List.cons_append, List.cons_append, List.cons_append, unitsOnto_three lead, ih, same,
      List.reverse_cons, List.append_assoc]
    rfl

theorem units_eq (spells : Spells Later bytes us) : units bytes = .ok us := by
  have whole := spells.unitsOnto_append [] []
  rw [List.append_nil, List.append_nil] at whole
  rw [units, whole, unitsOnto, List.reverse_reverse]

/-- Low bytes stand for themselves. -/
theorem eq_of_low (spells : Spells Later bytes us) (low : ∀ b ∈ bytes, b.toNat < 0x80) :
    us = bytes.map UInt8.toUInt16 := by
  induction spells with
  | nil => rfl
  | @one a u bytes us lead unit _ ih =>
    have same : u = a.toUInt16 := by rw [← UInt16.toNat_inj, UInt8.toNat_toUInt16, unit]
    rw [ih (List.forall_mem_cons.mp low).2, same, List.map_cons]
  | two lead | three lead =>
    have first := (List.forall_mem_cons.mp low).1
    omega

end Spells

theorem Stops.unitsOnto_eq {bytes : List UInt8} {defect : Defect} (h : Stops bytes defect)
    (done : List UInt16) : unitsOnto done bytes = .error (.malformed defect) := by
  cases h with
  | @cutTwo a lead =>
    have one : ¬(0x01 ≤ a ∧ a ≤ 0x7F) := not_between (.inr (show 0x7F < a.toNat by omega))
    rw [unitsOnto.eq_def]
    exact (if_neg one).trans (if_pos lead)
  | @cutThree a rest lead short =>
    have one : ¬(0x01 ≤ a ∧ a ≤ 0x7F) := not_between (.inr (show 0x7F < a.toNat by omega))
    have two : ¬(0xC0 ≤ a ∧ a ≤ 0xDF) := not_between (.inr (show 0xDF < a.toNat by omega))
    rw [unitsOnto.eq_def]
    refine (if_neg one).trans ((if_neg two).trans ((if_pos lead).trans ?_))
    rcases rest with _ | ⟨b, _ | ⟨c, rest⟩⟩
    · rfl
    · rfl
    · exact absurd short (by simp)
  | @noLead a rest lead =>
    have one : ¬(0x01 ≤ a ∧ a ≤ 0x7F) :=
      not_between (show a.toNat < 0x01 ∨ 0x7F < a.toNat by omega)
    have two : ¬(0xC0 ≤ a ∧ a ≤ 0xDF) :=
      not_between (show a.toNat < 0xC0 ∨ 0xDF < a.toNat by omega)
    have three : ¬(0xE0 ≤ a ∧ a ≤ 0xEF) :=
      not_between (show a.toNat < 0xE0 ∨ 0xEF < a.toNat by omega)
    rw [unitsOnto.eq_def]
    exact (if_neg one).trans ((if_neg two).trans (if_neg three))

/-! ## Reading -/

/-- Sequences go on to the end, or up to bytes that start with none. -/
theorem spells_or_stops (bytes : List UInt8) :
    (∃ us, SpellsLoosely bytes us) ∨
      ∃ front us rest defect, bytes = front ++ rest ∧ SpellsLoosely front us ∧ Stops rest defect := by
  -- The cases are those of the reader; what it has read so far does not count.
  fun_induction unitsOnto [] bytes with
  | case1 => exact .inl ⟨[], .nil⟩
  | case2 done a bytes lead ih =>
    have unit : a.toUInt16.toNat = a.toNat := UInt8.toNat_toUInt16 a
    obtain ⟨us, spells⟩ | ⟨front, us, rest, defect, rfl, spells, stops⟩ := ih
    · exact .inl ⟨_, .one lead unit spells⟩
    · exact .inr ⟨a :: front, _, rest, defect, rfl, .one lead unit spells, stops⟩
  | case3 done a _ lead b bytes ih =>
    have unit := toNat_twoBytes lead b
    obtain ⟨us, spells⟩ | ⟨front, us, rest, defect, rfl, spells, stops⟩ := ih
    · exact .inl ⟨_, .two lead trivial unit spells⟩
    · exact .inr ⟨a :: b :: front, _, rest, defect, rfl, .two lead trivial unit spells, stops⟩
  | case4 done a _ lead => exact .inr ⟨[], [], _, _, rfl, .nil, .cutTwo lead⟩
  | case5 done a _ _ lead b c bytes ih =>
    have unit := toNat_threeBytes lead b c
    obtain ⟨us, spells⟩ | ⟨front, us, rest, defect, rfl, spells, stops⟩ := ih
    · exact .inl ⟨_, .three lead ⟨trivial, trivial⟩ unit spells⟩
    · exact .inr ⟨a :: b :: c :: front, _, rest, defect, rfl,
        .three lead ⟨trivial, trivial⟩ unit spells, stops⟩
  | case6 done a rest _ _ lead short =>
    have few : rest.length < 2 := by
      match rest, short with
      | [], _ | [_], _ => simp
      | b :: c :: rest, short => exact (short b c rest rfl).elim
    exact .inr ⟨[], [], _, _, rfl, .nil, .cutThree lead few⟩
  | case7 done a rest one two three =>
    change ¬(0x01 ≤ a.toNat ∧ a.toNat ≤ 0x7F) at one
    change ¬(0xC0 ≤ a.toNat ∧ a.toNat ≤ 0xDF) at two
    change ¬(0xE0 ≤ a.toNat ∧ a.toNat ≤ 0xEF) at three
    exact .inr ⟨[], [], _, _, rfl, .nil, .noLead (by omega)⟩

theorem units_of_stops {front rest : List UInt8} {us : List UInt16} {defect : Defect}
    (spells : SpellsLoosely front us) (stops : Stops rest defect) :
    units (front ++ rest) = .error (.malformed defect) := by
  rw [units, spells.unitsOnto_append, stops.unitsOnto_eq]

theorem units_eq_ok_iff {bytes : List UInt8} {us : List UInt16} :
    units bytes = .ok us ↔ SpellsLoosely bytes us := by
  refine ⟨fun read => ?_, Spells.units_eq⟩
  obtain ⟨us', spells⟩ | ⟨front, us', rest, defect, rfl, spells, stops⟩ := spells_or_stops bytes
  · rw [spells.units_eq] at read
    exact Except.ok.inj read ▸ spells
  · rw [units_of_stops spells stops] at read
    cases read

theorem units_eq_error_iff {bytes : List UInt8} {e : Error} :
    units bytes = .error e ↔ ∃ front us rest defect, bytes = front ++ rest ∧
      SpellsLoosely front us ∧ Stops rest defect ∧ e = .malformed defect := by
  constructor
  · intro read
    obtain ⟨us, spells⟩ | ⟨front, us, rest, defect, rfl, spells, stops⟩ := spells_or_stops bytes
    · rw [spells.units_eq] at read
      cases read
    · rw [units_of_stops spells stops] at read
      exact ⟨front, us, rest, defect, rfl, spells, stops, (Except.error.inj read).symm⟩
  · rintro ⟨front, us, rest, defect, rfl, spells, stops, rfl⟩
    exact units_of_stops spells stops

/-- A low byte is the unit of the character with its number. -/
theorem encode_ofNat {b : UInt8} (low : b.toNat < 0x80) :
    Utf16.encode (Char.ofNat b.toNat) = [b.toUInt16] := by
  have number : (Char.ofNat b.toNat).toNat = b.toNat := by
    rw [Char.ofNat, dif_pos (.inl (by omega))]
    rfl
  have unit : UInt16.ofNat b.toNat = b.toUInt16 := by
    rw [← UInt16.toNat_inj, UInt8.toNat_toUInt16, UInt16.toNat_ofNat_of_lt' (by show _ < 65536; omega)]
  rw [Utf16.encode, number, if_pos (by omega), unit]

theorem decode_map_toUInt16 {bytes : List UInt8} (low : ∀ b ∈ bytes, b.toNat < 0x80) :
    Utf16.decode (bytes.map UInt8.toUInt16) = bytes.map fun b => Char.ofNat b.toNat := by
  have units : (bytes.map fun b => Char.ofNat b.toNat).flatMap Utf16.encode =
      bytes.map UInt8.toUInt16 := by
    induction bytes with
    | nil => rfl
    | cons b bytes ih =>
      obtain ⟨first, later⟩ := List.forall_mem_cons.mp low
      rw [List.map_cons, List.flatMap_cons, encode_ofNat first, ih later, List.map_cons]
      rfl
  rw [← units, Utf16.decode_encode]

theorem isAscii_iff {bytes : List UInt8} : isAscii bytes = true ↔ ∀ b ∈ bytes, b.toNat < 0x80 := by
  rw [isAscii, List.all_eq_true]
  exact forall₂_congr fun b _ => decide_eq_true_iff

theorem decode_of_low {bytes : List UInt8} (low : ∀ b ∈ bytes, b.toNat < 0x80) :
    decode bytes = .ok (String.ofList (Utf16.decode (bytes.map UInt8.toUInt16))) := by
  rw [decode, if_pos (isAscii_iff.mpr low), decode_map_toUInt16 low]

theorem decode_of_not_low {bytes : List UInt8} (high : ¬∀ b ∈ bytes, b.toNat < 0x80) :
    decode bytes = (units bytes).map fun us => String.ofList (Utf16.decode us) := by
  rw [decode, if_neg (mt isAscii_iff.mp high)]

/-! ## Sequences that are not well formed -/

/-- A byte that should not be there stands behind the first byte. -/
inductive Strays : List UInt8 → Prop where
  | two {a b : UInt8} {rest : List UInt8} (lead : 0xC0 ≤ a.toNat ∧ a.toNat ≤ 0xDF)
      (stray : ¬IsLater b) : Strays (a :: b :: rest)
  | three {a b c : UInt8} {rest : List UInt8} (lead : 0xE0 ≤ a.toNat ∧ a.toNat ≤ 0xEF)
      (stray : ¬(IsLater b ∧ IsLater c)) : Strays (a :: b :: c :: rest)

/-- Loose sequences are well formed up to the first with a stray byte. -/
theorem spells_or_strays {bytes : List UInt8} {us : List UInt16} (spells : SpellsLoosely bytes us) :
    Spells IsLater bytes us ∨
      ∃ front us' rest, bytes = front ++ rest ∧ SpellsLoosely front us' ∧ Strays rest := by
  induction spells with
  | nil => exact .inl .nil
  | @one a u bytes us lead unit _ ih =>
    obtain spells | ⟨front, us', rest, rfl, spells, strays⟩ := ih
    · exact .inl (.one lead unit spells)
    · exact .inr ⟨a :: front, _, rest, rfl, .one lead unit spells, strays⟩
  | @two a b u bytes us lead _ unit _ ih =>
    by_cases later : IsLater b
    · obtain spells | ⟨front, us', rest, rfl, spells, strays⟩ := ih
      · exact .inl (.two lead later unit spells)
      · exact .inr ⟨a :: b :: front, _, rest, rfl, .two lead trivial unit spells, strays⟩
    · exact .inr ⟨[], [], _, rfl, .nil, .two lead later⟩
  | @three a b c u bytes us lead _ unit _ ih =>
    by_cases later : IsLater b ∧ IsLater c
    · obtain spells | ⟨front, us', rest, rfl, spells, strays⟩ := ih
      · exact .inl (.three lead later unit spells)
      · exact .inr ⟨a :: b :: c :: front, _, rest, rfl, .three lead ⟨trivial, trivial⟩ unit spells,
          strays⟩
    · exact .inr ⟨[], [], _, rfl, .nil, .three lead later⟩

namespace Spells

variable {Later : UInt8 → Prop}

/-- There is one way to split: what is left behind sequences splits as well. -/
theorem exists_rest {front rest : List UInt8} {us vs : List UInt16}
    (taken : SpellsLoosely front vs) (spells : Spells Later (front ++ rest) us) :
    ∃ ws, Spells Later rest ws := by
  induction taken generalizing us with
  | nil => exact ⟨us, spells⟩
  | @one _ _ bytes _ lead _ _ ih =>
    rw [List.cons_append] at spells
    generalize bytes ++ rest = behind at spells ih
    cases spells with
    | one _ _ spells => exact ih spells
    | two lead' | three lead' => omega
  | @two _ _ _ bytes _ lead _ _ _ ih =>
    rw [List.cons_append, List.cons_append] at spells
    generalize bytes ++ rest = behind at spells ih
    cases spells with
    | two _ _ _ spells => exact ih spells
    | one lead' | three lead' => omega
  | @three _ _ _ _ bytes _ lead _ _ _ ih =>
    rw [List.cons_append, List.cons_append, List.cons_append] at spells
    generalize bytes ++ rest = behind at spells ih
    cases spells with
    | three _ _ _ spells => exact ih spells
    | one lead' | two lead' => omega

theorem not_strays {bytes : List UInt8} {us : List UInt16} (spells : Spells IsLater bytes us) :
    ¬Strays bytes := by
  intro strays
  cases strays with
  | two lead stray =>
    cases spells with
    | two _ later => exact stray later
    | one lead' | three lead' => omega
  | three lead stray =>
    cases spells with
    | three _ later => exact stray later
    | one lead' | two lead' => omega

/-- Well-formed sequences hold no zero byte and none above the first ones. -/
theorem bounds {bytes : List UInt8} {us : List UInt16} (spells : Spells IsLater bytes us) :
    ∀ b ∈ bytes, 0 < b.toNat ∧ b.toNat < 0xF0 := by
  induction spells with
  | nil => simp
  | one lead _ _ ih =>
    simp only [List.forall_mem_cons]
    exact ⟨by omega, ih⟩
  | two lead later _ _ ih =>
    simp only [List.forall_mem_cons]
    exact ⟨by omega, by unfold IsLater at later; omega, ih⟩
  | three lead later _ _ ih =>
    simp only [List.forall_mem_cons]
    unfold IsLater at later
    exact ⟨by omega, by omega, by omega, ih⟩

/-- Low bytes without a zero are sequences of one byte. -/
theorem of_low {bytes : List UInt8} (low : ∀ b ∈ bytes, 0 < b.toNat ∧ b.toNat < 0x80) :
    Spells Later bytes (bytes.map UInt8.toUInt16) := by
  induction bytes with
  | nil => exact nil
  | cons b bytes ih =>
    obtain ⟨first, later⟩ := List.forall_mem_cons.mp low
    exact one (by omega) (UInt8.toNat_toUInt16 b) (ih later)

end Spells

theorem decode_eq_ok_iff {bytes : List UInt8} {s : String} :
    decode bytes = .ok s ↔ ∃ us,
      (SpellsLoosely bytes us ∨ (∀ b ∈ bytes, b.toNat < 0x80) ∧ us = bytes.map UInt8.toUInt16) ∧
        s = String.ofList (Utf16.decode us) := by
  by_cases low : ∀ b ∈ bytes, b.toNat < 0x80
  · rw [decode_of_low low]
    constructor
    · intro read
      exact ⟨_, .inr ⟨low, rfl⟩, (Except.ok.inj read).symm⟩
    · rintro ⟨us, spells | ⟨-, rfl⟩, rfl⟩
      · rw [spells.eq_of_low low]
      · rfl
  · rw [decode_of_not_low low]
    constructor
    · intro read
      cases ends : units bytes with
      | ok us =>
        rw [ends] at read
        exact ⟨us, .inl (units_eq_ok_iff.mp ends), (Except.ok.inj read).symm⟩
      | error e =>
        rw [ends] at read
        cases read
    · rintro ⟨us, spells | ⟨low', -⟩, rfl⟩
      · rw [spells.units_eq]
        rfl
      · exact absurd low' low

theorem decode_eq_error_iff {bytes : List UInt8} {e : Error} :
    decode bytes = .error e ↔ (¬∀ b ∈ bytes, b.toNat < 0x80) ∧
      ∃ front us rest defect, bytes = front ++ rest ∧ SpellsLoosely front us ∧ Stops rest defect ∧
        e = .malformed defect := by
  by_cases low : ∀ b ∈ bytes, b.toNat < 0x80
  · rw [decode_of_low low]
    exact ⟨nofun, fun ⟨high, _⟩ => absurd low high⟩
  · rw [decode_of_not_low low, ← units_eq_error_iff, and_iff_right low]
    cases units bytes with
    | ok us => exact ⟨nofun, nofun⟩
    | error e =>
      show Except.error _ = Except.error _ ↔ _
      rw [Except.error.injEq, Except.error.injEq]

/-- Well-formed sequences are what is read, apart from a zero among low bytes and stray bytes. -/
theorem exists_spells_iff {bytes : List UInt8} :
    (∃ us, Spells IsLater bytes us) ↔
      (∃ s, decode bytes = .ok s) ∧ ¬((∀ b ∈ bytes, b.toNat < 0x80) ∧ 0 ∈ bytes) ∧
        ¬∃ front us rest, bytes = front ++ rest ∧ SpellsLoosely front us ∧ Strays rest := by
  constructor
  · rintro ⟨us, spells⟩
    refine ⟨⟨_, decode_eq_ok_iff.mpr ⟨us, .inl (spells.mono fun _ _ => trivial), rfl⟩⟩, ?_, ?_⟩
    · rintro ⟨-, zero⟩
      exact absurd (spells.bounds 0 zero).1 (Nat.lt_irrefl 0)
    · rintro ⟨front, vs, rest, rfl, taken, strays⟩
      obtain ⟨ws, behind⟩ := taken.exists_rest spells
      exact behind.not_strays strays
  · rintro ⟨⟨s, read⟩, noZero, noStray⟩
    obtain ⟨us, spells | ⟨low, -⟩, -⟩ := decode_eq_ok_iff.mp read
    · exact ⟨us, (spells_or_strays spells).resolve_right noStray⟩
    · refine ⟨_, .of_low fun b mem => ⟨Nat.pos_of_ne_zero fun zero => noZero ⟨low, ?_⟩, low b mem⟩⟩
      obtain rfl : b = 0 := UInt8.toNat_inj.mp zero
      exact mem

/-- **Which bytes are texts.** Well-formed sequences are read as the decoding of their units. They are
all that is read, but for low bytes alone that have a zero among them and for sequences with a stray
byte, which add their low six bits like any others. Whatever is not read is malformed: behind the
sequences stands a cut one or a byte that starts none. -/
theorem decode_accepts (bytes : List UInt8) :
    (∀ us, Spells IsLater bytes us → decode bytes = .ok (String.ofList (Utf16.decode us))) ∧
      ((∃ us, Spells IsLater bytes us) ↔
        (∃ s, decode bytes = .ok s) ∧ ¬((∀ b ∈ bytes, b.toNat < 0x80) ∧ 0 ∈ bytes) ∧
          ¬∃ front us rest, bytes = front ++ rest ∧ SpellsLoosely front us ∧ Strays rest) ∧
      (∀ s, decode bytes = .ok s ↔ ∃ us,
        (SpellsLoosely bytes us ∨ (∀ b ∈ bytes, b.toNat < 0x80) ∧ us = bytes.map UInt8.toUInt16) ∧
          s = String.ofList (Utf16.decode us)) ∧
      ∀ e, decode bytes = .error e ↔ (¬∀ b ∈ bytes, b.toNat < 0x80) ∧
        ∃ front us rest defect, bytes = front ++ rest ∧ SpellsLoosely front us ∧
          Stops rest defect ∧ e = .malformed defect := by
  refine ⟨fun us spells => ?_, exists_spells_iff, fun s => decode_eq_ok_iff,
    fun e => decode_eq_error_iff⟩
  exact decode_eq_ok_iff.mpr ⟨us, .inl (spells.mono fun _ _ => trivial), rfl⟩

/-- A zero byte on its own and a letter behind a first byte are read, though no sequences. -/
theorem strays_accepted :
    (decode [0x00] = .ok "\x00" ∧ ¬∃ us, Spells IsLater [0x00] us) ∧
      decode [0xC3, 0x41] = .ok "Á" ∧ ¬∃ us, Spells IsLater [0xC3, 0x41] us := by
  refine ⟨⟨rfl, ?_⟩, rfl, ?_⟩
  · rintro ⟨us, spells⟩
    exact absurd (spells.bounds 0 List.mem_cons_self).1 (Nat.lt_irrefl 0)
  · rintro ⟨us, spells⟩
    exact spells.not_strays (.two (by decide) (by unfold IsLater; decide))

/-! ## Writing -/

/-- How many bytes a character takes. -/
def width (c : Char) : Nat :=
  if c.toNat = 0 then 2
  else if c.toNat < 0x80 then 1
  else if c.toNat < 0x800 then 2
  else if c.toNat < 0x10000 then 3
  else 6

theorem length_encodeUnit (u : UInt16) :
    (encodeUnit u).length =
      if 0 < u.toNat ∧ u.toNat < 0x80 then 1 else if u.toNat < 0x800 then 2 else 3 := by
  rw [encodeUnit]
  split
  · rfl
  · split <;> rfl

/-- A half of a surrogate pair takes three bytes. -/
theorem length_surrogate {u : UInt16} (h : Utf16.IsHigh u ∨ Utf16.IsLow u) :
    (encodeUnit u).length = 3 := by
  unfold Utf16.IsHigh Utf16.IsLow at h
  rw [length_encodeUnit, if_neg (by omega), if_neg (by omega)]

theorem length_encode (c : Char) : ((Utf16.encode c).flatMap encodeUnit).length = width c := by
  rw [Utf16.encode, width]
  split
  · next basic =>
    have unit : (UInt16.ofNat c.toNat).toNat = c.toNat := UInt16.toNat_ofNat_of_lt' basic
    rw [List.flatMap_singleton, length_encodeUnit, unit]
    grind
  · next high =>
    obtain ⟨isHigh, isLow, -⟩ := Utf16.pair_ofNat high
    rw [List.flatMap_cons, List.flatMap_singleton, List.length_append,
      length_surrogate (.inl isHigh), length_surrogate (.inr isLow)]
    grind

/-- The bytes of a unit are a sequence that stands for it. -/
theorem Spells.encodeUnit_append {rest : List UInt8} {us : List UInt16} (u : UInt16)
    (spells : Spells IsLater rest us) : Spells IsLater (encodeUnit u ++ rest) (u :: us) := by
  have bound : u.toNat < 65536 := u.toNat_lt
  rw [encodeUnit]
  split
  · next one =>
    have byte := toNat_ofNat (n := u.toNat) (by omega)
    exact .one (by omega) byte.symm spells
  · split
    · have first := toNat_ofNat (n := 0xC0 + u.toNat / 64) (by omega)
      have second := toNat_ofNat (n := 0x80 + u.toNat % 64) (by omega)
      refine .two (by omega) ?_ (by omega) spells
      rw [IsLater, second]
      omega
    · have first := toNat_ofNat (n := 0xE0 + u.toNat / 4096) (by omega)
      have second := toNat_ofNat (n := 0x80 + u.toNat / 64 % 64) (by omega)
      have third := toNat_ofNat (n := 0x80 + u.toNat % 64) (by omega)
      refine .three (by omega) ?_ (by omega) spells
      rw [IsLater, IsLater, second, third]
      omega

theorem spells_encodeUnit (u : UInt16) : Spells IsLater (encodeUnit u) [u] := by
  have spells := Spells.nil.encodeUnit_append u
  rwa [List.append_nil] at spells

theorem spells_flatMap_encodeUnit (us : List UInt16) : Spells IsLater (us.flatMap encodeUnit) us := by
  induction us with
  | nil => exact .nil
  | cons u us ih => exact ih.encodeUnit_append u

theorem encode_eq (s : String) : encode s = (s.toList.flatMap Utf16.encode).flatMap encodeUnit :=
  List.flatMap_assoc.symm

/-- A character outside the basic plane is written as the two halves of its surrogate pair. -/
theorem encode_supplementary {s : String} {front back : List Char} {c : Char}
    (split : s.toList = front ++ c :: back) (high : 0x10000 ≤ c.toNat) :
    ∃ u v, Utf16.IsHigh u ∧ Utf16.IsLow v ∧ Utf16.pair u v = c ∧
      encode s = encode (String.ofList front) ++ encodeUnit u ++ encodeUnit v ++
        encode (String.ofList back) := by
  obtain ⟨isHigh, isLow, same⟩ := Utf16.pair_ofNat (Nat.not_lt.mpr high)
  refine ⟨_, _, isHigh, isLow, same, ?_⟩
  have pair : (Utf16.encode c).flatMap encodeUnit =
      encodeUnit (UInt16.ofNat (0xD800 + (c.toNat - 0x10000) / 0x400)) ++
        encodeUnit (UInt16.ofNat (0xDC00 + (c.toNat - 0x10000) % 0x400)) := by
    rw [Utf16.encode, if_neg (Nat.not_lt.mpr high), List.flatMap_cons, List.flatMap_singleton]
  rw [encode, encode, encode, split, List.flatMap_append, List.flatMap_cons, pair,
    String.toList_ofList, String.toList_ofList]
  simp only [List.append_assoc]

/-- **What is written is read back.** The bytes are well-formed sequences, so none is zero and none is
above the first bytes; each character takes the bytes of its class, and one outside the basic plane
is written as two surrogates of three bytes each. -/
theorem decode_encode_bounds (s : String) :
    decode (encode s) = .ok s ∧ (∀ b ∈ encode s, b ≠ 0x00 ∧ b < 0xF0) ∧
      Spells IsLater (encode s) (s.toList.flatMap Utf16.encode) ∧
      (encode s).length = (s.toList.map width).sum ∧
      ∀ front c back, s.toList = front ++ c :: back → 0x10000 ≤ c.toNat →
        ∃ u v first second, Utf16.IsHigh u ∧ Utf16.IsLow v ∧ Utf16.pair u v = c ∧
          (Spells IsLater first [u] ∧ first.length = 3) ∧
          (Spells IsLater second [v] ∧ second.length = 3) ∧
          encode s =
            encode (String.ofList front) ++ first ++ second ++ encode (String.ofList back) := by
  have spells : Spells IsLater (encode s) (s.toList.flatMap Utf16.encode) := by
    rw [encode_eq]
    exact spells_flatMap_encodeUnit _
  refine ⟨decode_encode s, fun b mem => ?_, spells, ?_, fun front c back split high => ?_⟩
  · obtain ⟨positive, small⟩ := spells.bounds b mem
    refine ⟨?_, small⟩
    rintro rfl
    exact Nat.lt_irrefl 0 positive
  · rw [encode, List.length_flatMap]
    simp only [length_encode]
  · obtain ⟨u, v, isHigh, isLow, same, whole⟩ := encode_supplementary split high
    exact ⟨u, v, _, _, isHigh, isLow, same, ⟨spells_encodeUnit u, length_surrogate (.inl isHigh)⟩,
      ⟨spells_encodeUnit v, length_surrogate (.inr isLow)⟩, whole⟩

/-- A zero, an accented letter and a character outside the basic plane. -/
theorem decode_encode_bounds_smiley :
    decode (encode "\x00é😀") = .ok "\x00é😀" ∧ (encode "\x00é😀").length = 10 ∧
      "\x00é😀".toList = ['\x00', 'é'] ++ '😀' :: [] ∧ 0x10000 ≤ '😀'.toNat ∧
      ∃ u v first second, Utf16.pair u v = '😀' ∧ Spells IsLater first [u] ∧ first.length = 3 ∧
        Spells IsLater second [v] ∧ second.length = 3 ∧
        encode "\x00é😀" = encode "\x00é" ++ first ++ second ++ encode "" := by
  obtain ⟨back, -, -, length, supplementary⟩ := decode_encode_bounds "\x00é😀"
  have split : "\x00é😀".toList = ['\x00', 'é'] ++ '😀' :: [] := by decide
  have high : 0x10000 ≤ '😀'.toNat := by decide
  obtain ⟨u, v, first, second, -, -, pair, one, two, whole⟩ := supplementary _ _ _ split high
  exact ⟨back, length.trans (by decide), split, high, u, v, first, second, pair, one.1, one.2, two.1,
    two.2, whole⟩

example : encode "\x00é😀" = [0xC0, 0x80, 0xC3, 0xA9, 0xED, 0xA0, 0xBD, 0xED, 0xB8, 0x80] := by
  decide

end Recompose.Text.ModifiedUtf8
