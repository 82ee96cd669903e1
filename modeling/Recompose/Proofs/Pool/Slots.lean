import Recompose.Proofs.Pool.Layout
import Recompose.Proofs.Pool.Renumber

/-!
Which slot is whose. An entry stands behind the slots of the entries before it, so the numbers of
slots and of entries drift apart at each wide one; the slot behind a wide entry holds nothing, nor
does slot zero.
-/

namespace Recompose

/-! ## Counting slots -/

namespace Entry

theorem length_slots (e : Entry) : e.slots.length = if e.isWide then 2 else 1 := by
  rw [slots]
  split <;> rfl

theorem getElem?_slots (e : Entry) : e.slots[0]? = some (some e) := by
  rw [slots]
  split <;> rfl

theorem getElem?_slots_of_isWide {e : Entry} (wide : e.isWide) : e.slots[1]? = some none := by
  rw [slots, if_pos wide]
  rfl

end Entry

namespace Pool

/-- The number of slots of a pool with these entries: slot zero, one for each entry, and a second one
for each wide entry. -/
def slotCount (entries : List Entry) : Nat :=
  1 + entries.length + entries.countP Entry.isWide

theorem length_flatMap_slots (entries : List Entry) :
    (entries.flatMap Entry.slots).length + 1 = slotCount entries := by
  induction entries with
  | nil => rfl
  | cons e entries ih =>
    rw [slotCount] at ih ⊢
    rw [List.flatMap_cons, List.length_append, List.length_cons, List.countP_cons,
      Entry.length_slots]
    split <;> omega

theorem toList_start_extend (entries : List Entry) :
    (start.extend entries).slots.toList = none :: entries.flatMap Entry.slots :=
  toList_extend start entries

theorem size_start_extend (entries : List Entry) :
    (start.extend entries).size = slotCount entries := by
  rw [Pool.size, ← Array.length_toList, toList_start_extend, List.length_cons, length_flatMap_slots]

theorem slotCount_append (front back : List Entry) :
    slotCount front ≤ slotCount (front ++ back) := by
  simp only [slotCount, List.length_append, List.countP_append]
  omega

/-- The slots from that of an entry on are its own and those of the entries behind it. -/
theorem getElem?_start_extend (front back : List Entry) (k : Nat) :
    (start.extend (front ++ back)).slots[slotCount front + k]? =
      (back.flatMap Entry.slots)[k]? := by
  have before : (none :: front.flatMap Entry.slots).length = slotCount front := by
    rw [List.length_cons, length_flatMap_slots]
  rw [← Array.getElem?_toList, toList_start_extend, List.flatMap_append, ← List.cons_append,
    List.getElem?_append_right (by omega), before, Nat.add_sub_cancel_left]

/-! ## Looking up -/

variable {p : Pool}

theorem get_eq_error {index : UInt16} (h : p.get? index = none) :
    p.get index = .error (.poolEntry index .entry) := by
  rw [get, h]

section

variable {entries front back : List Entry} {e : Entry} (few : slotCount entries ≤ 65535)

include few

/-- Every entry is at its own slot. -/
theorem get_own (split : entries = front ++ e :: back) :
    (start.extend entries).get (UInt16.ofNat (slotCount front)) = .ok e := by
  have inside := slotCount_append front (e :: back)
  rw [← split] at inside
  have number : (UInt16.ofNat (slotCount front)).toNat = slotCount front :=
    UInt16.toNat_ofNat_of_lt' (show _ < 65536 by omega)
  apply get_of_get?
  have here := getElem?_start_extend front (e :: back) 0
  rw [List.flatMap_cons, List.getElem?_append_left (by rw [Entry.length_slots]; split <;> omega),
    Entry.getElem?_slots, ← split] at here
  rw [get?, number]
  exact congrArg Option.join here

/-- Behind a wide entry nothing can be looked up. -/
theorem get_second (split : entries = front ++ e :: back) (wide : e.isWide) :
    (start.extend entries).get (UInt16.ofNat (slotCount front + 1)) =
      .error (.poolEntry (UInt16.ofNat (slotCount front + 1)) .entry) := by
  have inside : slotCount front + 2 ≤ slotCount entries := by
    rw [split]
    simp only [slotCount, List.length_append, List.length_cons, List.countP_append,
      List.countP_cons, wide, if_true]
    omega
  have number : (UInt16.ofNat (slotCount front + 1)).toNat = slotCount front + 1 :=
    UInt16.toNat_ofNat_of_lt' (show _ < 65536 by omega)
  apply get_eq_error
  have here := getElem?_start_extend front (e :: back) 1
  rw [List.flatMap_cons, List.getElem?_append_left (by rw [Entry.length_slots, if_pos wide]; omega),
    Entry.getElem?_slots_of_isWide wide, ← split] at here
  rw [get?, number]
  exact congrArg Option.join here

end

theorem get_zero (entries : List Entry) :
    (start.extend entries).get 0 = .error (.poolEntry 0 .entry) := by
  apply get_eq_error
  have empty : (start.extend entries).slots[0]? = some none :=
    getElem?_extend (p := .start) rfl entries
  exact congrArg Option.join empty

theorem get_outside {entries : List Entry} {index : UInt16}
    (outside : slotCount entries ≤ index.toNat) :
    (start.extend entries).get index = .error (.poolEntry index .entry) := by
  apply get_eq_error
  rw [get?, Array.getElem?_eq_none (by rw [← Pool.size, size_start_extend]; exact outside)]
  rfl

/-! ## Reading -/

open Bytes

theorem read_slotCount {entries : List Entry} (fits : ∀ e ∈ entries, e.Fits)
    (few : slotCount entries ≤ 65535) :
    Read.Takes (read (UInt16.ofNat (slotCount entries))) (entries.flatMap Entry.layout)
      (start.extend entries) := by
  have taken := takes_read fits (by rwa [size_start_extend])
  rwa [size_start_extend, layout, entries_extend] at taken

theorem slotCount_concat {front : List Entry} {e : Entry} (wide : e.isWide) :
    slotCount (front ++ [e]) = slotCount front + 2 := by
  simp only [slotCount, List.length_append, List.length_singleton, List.countP_append,
    List.countP_singleton, wide, if_true]
  omega

/-- Without the second slot of a wide entry that comes last, that entry runs over the end. -/
theorem read_overrun {front : List Entry} {e : Entry} (fits : ∀ e' ∈ front ++ [e], e'.Fits)
    (few : slotCount (front ++ [e]) ≤ 65535) (wide : e.isWide) (pos : Nat) (rest : List UInt8) :
    ∃ k, read (UInt16.ofNat (slotCount (front ++ [e]) - 1))
        ⟨pos, (front ++ [e]).flatMap Entry.layout ++ rest⟩ =
      .error (.malformed (.poolOverrun (slotCount (front ++ [e]) - 1))) k := by
  obtain ⟨others, last⟩ := List.forall_mem_append.mp fits
  rw [slotCount_concat wide] at few ⊢
  have count : (UInt16.ofNat (slotCount front + 2 - 1)).toNat =
      (front.flatMap Entry.slots).length + 1 + 1 := by
    rw [UInt16.toNat_ofNat_of_lt' (show _ < 65536 by omega), length_flatMap_slots]
    omega
  have final := Entry.takes_read (last e List.mem_cons_self) (start.extend front).size
    (pos + (front.flatMap Entry.layout).length) rest
  refine ⟨⟨pos + (front.flatMap Entry.layout).length + e.layout.length, rest⟩, ?_⟩
  rw [read, count, List.flatMap_append, List.flatMap_singleton, List.append_assoc]
  show readInto start ((front.flatMap Entry.slots).length + 1) _ = _
  -- The others leave room for one slot.
  rw [readInto_extend others, readInto, Read.bind_of_ok final, if_pos wide, size_start_extend]
  rfl

/-- **A pool is read back from the layout of its entries.** With as many slots declared as they take,
reading stops right behind the last entry; every entry is at its own slot, and nothing is at slot
zero, behind a wide entry or outside. One slot less is refused if the last entry is wide. -/
theorem read_layout {entries : List Entry} (fits : ∀ e ∈ entries, e.Fits)
    (few : slotCount entries ≤ 65535) (pos : Nat) (rest : List UInt8) :
    (∃ p, read (UInt16.ofNat (slotCount entries)) ⟨pos, entries.flatMap Entry.layout ++ rest⟩ =
        .ok p ⟨pos + (entries.flatMap Entry.layout).length, rest⟩ ∧
      p.size = slotCount entries ∧
      (∀ front e back, entries = front ++ e :: back →
        p.get (UInt16.ofNat (slotCount front)) = .ok e ∧
          (e.isWide → p.get (UInt16.ofNat (slotCount front + 1)) =
            .error (.poolEntry (UInt16.ofNat (slotCount front + 1)) .entry))) ∧
      p.get 0 = .error (.poolEntry 0 .entry) ∧
      ∀ index : UInt16, slotCount entries ≤ index.toNat →
        p.get index = .error (.poolEntry index .entry)) ∧
    ∀ front e, entries = front ++ [e] → e.isWide →
      ∃ k, read (UInt16.ofNat (slotCount entries - 1))
          ⟨pos, entries.flatMap Entry.layout ++ rest⟩ =
        .error (.malformed (.poolOverrun (slotCount entries - 1))) k := by
  refine ⟨⟨start.extend entries, read_slotCount fits few pos rest, size_start_extend entries,
    fun front e back split => ⟨get_own few split, get_second few split⟩, get_zero entries,
    fun index outside => get_outside outside⟩, ?_⟩
  rintro front e rfl wide
  exact read_overrun fits few wide pos rest

/-- A text, a number of two slots, a reference, a float and a double that are no numbers. -/
def mixedEntries : List Entry :=
  [.utf8 "é", .long (-1), .classRef 1, .float 0x7FC00001, .double 0x7FF0000000000001]

/-- Eight slots hold the five entries, and seven are one too few. -/
theorem read_layout_mixed :
    (∀ e ∈ mixedEntries, e.Fits) ∧ slotCount mixedEntries = 8 ∧
      (∃ p k, read 8 ⟨10, mixedEntries.flatMap Entry.layout ++ [0xCA]⟩ = .ok p k ∧
        k = ⟨41, [0xCA]⟩ ∧ p.get 4 = .ok (.classRef 1) ∧
        p.get 6 = .ok (.double 0x7FF0000000000001) ∧ p.get 7 = .error (.poolEntry 7 .entry)) ∧
      ∃ k, read 7 ⟨10, mixedEntries.flatMap Entry.layout ++ [0xCA]⟩ =
        .error (.malformed (.poolOverrun 7)) k := by
  have fits : ∀ e ∈ mixedEntries, e.Fits := by decide
  have count : slotCount mixedEntries = 8 := by decide
  obtain ⟨⟨p, read, -, own, -⟩, overrun⟩ := read_layout fits (by rw [count]; decide) 10 [0xCA]
  have last : mixedEntries =
      [.utf8 "é", .long (-1), .classRef 1, .float 0x7FC00001] ++ [.double 0x7FF0000000000001] := rfl
  obtain ⟨double, behind⟩ := own _ _ [] last
  exact ⟨fits, count, ⟨p, _, read, rfl, (own [.utf8 "é", .long (-1)] _ _ rfl).1, double,
    behind rfl⟩, overrun _ _ last rfl⟩

end Pool

end Recompose
