import Recompose.Pool
import Recompose.Proofs.Bytes.Layout
import Recompose.Proofs.Text.ModifiedUtf8

/-!
Pools that grow. An entry that has a slot keeps it, the first slot of an entry stays its first, and a
pool that has grown from the empty one is read back from its layout.
-/

namespace Recompose

open Bytes

/-! ## Entries -/

namespace Entry

open Read (Takes)

/-- The slots that an entry takes. -/
def slots (e : Entry) : List (Option Entry) :=
  if e.isWide then [some e, none] else [some e]

def text? : Entry → Option String
  | utf8 text => some text
  | _ => none

/-- The entry can be laid out: the length of a text fits two bytes. -/
def Fits (e : Entry) : Prop :=
  ∀ text ∈ e.text?, (Text.ModifiedUtf8.encode text).length ≤ 65535

instance (e : Entry) : Decidable e.Fits :=
  inferInstanceAs (Decidable (∀ text ∈ e.text?, (Text.ModifiedUtf8.encode text).length ≤ 65535))

theorem takes_readText {text : String} (h : (Text.ModifiedUtf8.encode text).length ≤ 65535) :
    Takes readText (textLayout (Text.ModifiedUtf8.encode text)) text := by
  have length := UInt16.toNat_ofNat_of_lt' (Nat.lt_succ_of_le h)
  refine .bind (.u16 _) ?_
  rw [length]
  exact .bind_last (.bytes _) (.lift (Text.ModifiedUtf8.decode_encode text))

theorem takes_pair {make : UInt16 → UInt16 → Entry} (a b : UInt16) :
    Takes (do return make (← Read.u16) (← Read.u16)) (BigEndian.u16 a ++ BigEndian.u16 b)
      (make a b) :=
  .bind (.u16 a) ((Takes.u16 b).map (make a))

/-- **An entry is read back from its layout.** -/
theorem takes_read {e : Entry} (h : e.Fits) (slot : Nat) : Takes (read slot) e.layout e := by
  cases e with
  | utf8 text => exact .bind (.u8 1) ((takes_readText (h text rfl)).map utf8)
  | integer value => exact .bind (.u8 3) ((Takes.i32 value).map integer)
  | float bits => exact .bind (.u8 4) ((Takes.u32 bits).map float)
  | long value => exact .bind (.u8 5) ((Takes.i64 value).map long)
  | double bits => exact .bind (.u8 6) ((Takes.u64 bits).map double)
  | classRef name => exact .bind (.u8 7) ((Takes.u16 name).map classRef)
  | string text => exact .bind (.u8 8) ((Takes.u16 text).map string)
  | member kind owner signature =>
    cases kind with
    | field => exact .bind (.u8 9) (takes_pair owner signature)
    | method => exact .bind (.u8 10) (takes_pair owner signature)
    | interfaceMethod => exact .bind (.u8 11) (takes_pair owner signature)
  | nameAndType name descriptor => exact .bind (.u8 12) (takes_pair name descriptor)
  | methodHandle kind reference =>
    exact .bind (.u8 15) (.bind (.u8 kind) ((Takes.u16 reference).map (methodHandle kind)))
  | methodType descriptor => exact .bind (.u8 16) ((Takes.u16 descriptor).map methodType)
  | dynamic bootstrap signature => exact .bind (.u8 17) (takes_pair bootstrap signature)
  | callSite bootstrap signature => exact .bind (.u8 18) (takes_pair bootstrap signature)
  | moduleRef name => exact .bind (.u8 19) ((Takes.u16 name).map moduleRef)
  | packageRef name => exact .bind (.u8 20) ((Takes.u16 name).map packageRef)

end Entry

/-! ## Growth -/

namespace Pool

/-- The pool with more entries behind the others. -/
def extend (p : Pool) (entries : List Entry) : Pool :=
  entries.foldl push p

theorem toList_push (p : Pool) (e : Entry) :
    (p.push e).slots.toList = p.slots.toList ++ e.slots := by
  rw [push, Entry.slots]
  split <;> simp

theorem toList_extend (p : Pool) (entries : List Entry) :
    (p.extend entries).slots.toList = p.slots.toList ++ entries.flatMap Entry.slots := by
  induction entries generalizing p with
  | nil => exact (List.append_nil _).symm
  | cons e entries ih =>
    show ((p.push e).extend entries).slots.toList = _
    rw [ih, toList_push, List.append_assoc, List.flatMap_cons]

theorem extend_append (p : Pool) (first second : List Entry) :
    p.extend (first ++ second) = (p.extend first).extend second :=
  List.foldl_append

/-- What has a slot keeps it. -/
theorem getElem?_extend {p : Pool} {k : Nat} {slot : Option Entry} (h : p.slots[k]? = some slot)
    (entries : List Entry) : (p.extend entries).slots[k]? = some slot := by
  rw [← Array.getElem?_toList] at h ⊢
  rw [toList_extend, List.getElem?_append_left (List.getElem?_eq_some_iff.mp h).1, h]

theorem idxOf?_toList (p : Pool) (e : Entry) :
    p.slots.idxOf? (some e) = p.slots.toList.idxOf? (some e) :=
  List.idxOf?_toArray (some e) p.slots.toList

/-- The first slot of an entry stays its first. -/
theorem idxOf?_extend {p : Pool} {k : Nat} {e : Entry} (h : p.slots.idxOf? (some e) = some k)
    (entries : List Entry) : (p.extend entries).slots.idxOf? (some e) = some k := by
  rw [idxOf?_toList] at h ⊢
  rw [toList_extend, List.idxOf?, List.findIdx?_append]
  rw [List.idxOf?] at h
  rw [h]
  rfl

/-- A new entry gets the slot behind all others. -/
theorem idxOf?_push {p : Pool} {e : Entry} (h : p.slots.idxOf? (some e) = none) :
    (p.push e).slots.idxOf? (some e) = some p.size := by
  have first : e.slots.findIdx? (· == some e) = some 0 := by
    rw [Entry.slots]
    split <;> simp [List.findIdx?_cons]
  rw [idxOf?_toList] at h ⊢
  rw [toList_push, List.idxOf?, List.findIdx?_append, first]
  rw [List.idxOf?] at h
  rw [h, Array.length_toList]
  exact congrArg some (Nat.zero_add _)

theorem getElem?_of_idxOf? {p : Pool} {k : Nat} {e : Entry}
    (h : p.slots.idxOf? (some e) = some k) : p.slots[k]? = some (some e) := by
  rw [idxOf?_toList] at h
  obtain ⟨inside, same, -⟩ := List.idxOf?_eq_some_iff.mp h
  rw [← Array.getElem?_toList, List.getElem?_eq_getElem inside, same]

/-! ## Reading back -/

/-- The entries of a pool that has grown from the empty one. -/
theorem entries_extend (entries : List Entry) : (start.extend entries).entries = entries := by
  have each : ∀ e : Entry, e.slots.filterMap id = [e] := by
    intro e
    rw [Entry.slots]
    split <;> rfl
  rw [Pool.entries, toList_extend]
  show (entries.flatMap Entry.slots).filterMap id = entries
  induction entries with
  | nil => rfl
  | cons e entries ih => rw [List.flatMap_cons, List.filterMap_append, each, ih, List.singleton_append]

/-- Reading goes on behind the entries, with the room that they leave. -/
theorem readInto_extend {entries : List Entry} (h : ∀ e ∈ entries, e.Fits) (p : Pool)
    (room pos : Nat) (rest : List UInt8) :
    readInto p ((entries.flatMap Entry.slots).length + room)
        ⟨pos, entries.flatMap Entry.layout ++ rest⟩ =
      readInto (p.extend entries) room ⟨pos + (entries.flatMap Entry.layout).length, rest⟩ := by
  induction entries generalizing p pos with
  | nil =>
    rw [List.flatMap_nil, List.flatMap_nil, List.length_nil, Nat.zero_add]
    rfl
  | cons e entries ih =>
    have first := Entry.takes_read (h e List.mem_cons_self) p.size
    have later := ih (fun e mem => h e (List.mem_cons_of_mem _ mem)) (p.push e)
    rw [List.flatMap_cons, List.flatMap_cons, List.length_append, List.length_append,
      List.append_assoc, Entry.slots, ← Nat.add_assoc pos]
    -- A wide entry uses up two slots of the room at once.
    by_cases wide : e.isWide
    · rw [if_pos wide, show [some e, none].length + (entries.flatMap Entry.slots).length + room =
        (entries.flatMap Entry.slots).length + room + 1 + 1 by simp only [List.length]; omega]
      conv => lhs; unfold readInto
      rw [Read.bind_of_ok (first pos _), if_pos wide]
      exact later _
    · rw [if_neg wide, show [some e].length + (entries.flatMap Entry.slots).length + room =
        (entries.flatMap Entry.slots).length + room + 1 by simp only [List.length]; omega]
      conv => lhs; unfold readInto
      rw [Read.bind_of_ok (first pos _), if_neg wide]
      exact later _

theorem takes_readInto {entries : List Entry} (h : ∀ e ∈ entries, e.Fits) (p : Pool) :
    Read.Takes (readInto p (entries.flatMap Entry.slots).length) (entries.flatMap Entry.layout)
      (p.extend entries) :=
  fun pos rest => readInto_extend h p 0 pos rest

/-- **A pool is read back from its layout.** -/
theorem takes_read {entries : List Entry} (h : ∀ e ∈ entries, e.Fits)
    (few : (start.extend entries).size ≤ 65535) :
    Read.Takes (read (UInt16.ofNat (start.extend entries).size)) (start.extend entries).layout
      (start.extend entries) := by
  have size : (start.extend entries).size = (entries.flatMap Entry.slots).length + 1 := by
    rw [Pool.size, ← Array.length_toList, toList_extend, List.length_append, Nat.add_comm]
    rfl
  have count := UInt16.toNat_ofNat_of_lt' (Nat.lt_succ_of_le few)
  rw [read, count, size, layout, entries_extend]
  exact takes_readInto h start

end Pool

end Recompose
