import Mathlib.Data.String.Basic
import Recompose.Proofs.Bytes.Results
import Recompose.Proofs.Hash.Words
import Recompose.Proofs.Pool.Layout
import Recompose.Proofs.Text.Sequences

/-!
Pools as they are loaded. A text has a two-byte length in the bytes of a pool, and each of its bytes
makes one character at most, so the texts of a pool are far from the limits of a word.
-/

namespace Recompose

open Bytes

/-! ## Lengths of texts -/

namespace Text

theorem length_decodeOnto (done : List Char) (units : List UInt16) :
    (Utf16.decodeOnto done units).length ≤ done.length + units.length := by
  fun_induction Utf16.decodeOnto done units with
  | case1 done => simp
  | case2 done u => simp
  | case3 done u v rest _ ih | case4 done u v rest _ ih =>
    simp only [List.length_cons] at ih ⊢
    omega

/-- Each byte makes one unit at most. -/
theorem length_units (bytes : List UInt8) :
    Ensures (ModifiedUtf8.units bytes) fun units => units.length ≤ bytes.length :=
  ⟨fun read => (ModifiedUtf8.units_eq_ok_iff.mp read).length_le⟩

theorem utf8ByteSize_ofList_le (cs : List Char) :
    (String.ofList cs).utf8ByteSize ≤ 4 * cs.length := by
  rw [String.utf8ByteSize_ofList]
  induction cs with
  | nil => simp
  | cons c cs ih =>
    have := c.utf8Size_le_four
    rw [String.utf8Len_cons, List.length_cons]
    omega

theorem utf8ByteSize_decode (bytes : List UInt8) :
    Ensures (ModifiedUtf8.decode bytes) fun s => s.utf8ByteSize ≤ 4 * bytes.length := by
  unfold ModifiedUtf8.decode
  split
  · apply Ensures.pure
    have := utf8ByteSize_ofList_le (bytes.map fun b => Char.ofNat b.toNat)
    rwa [List.length_map] at this
  · apply Ensures.bind (length_units bytes)
    intro units few
    apply Ensures.pure
    have chars := length_decodeOnto [] units
    have size := utf8ByteSize_ofList_le (Utf16.decodeOnto [] units)
    simp only [List.length_nil] at chars
    show (String.ofList (Utf16.decodeOnto [] units)).utf8ByteSize ≤ _
    omega

end Text

/-! ## Entries and pools -/

namespace Entry

open Read (Gives)

/-- The length of a text fits a word. -/
def Short (e : Entry) : Prop :=
  ∀ s ∈ e.text?, Hash.Fits s

theorem short_of_readText : Gives readText Hash.Fits := by
  apply Gives.behind
  intro length
  apply Gives.bind (.length_bytes _)
  intro encoded size
  apply Gives.lift
  apply (Text.utf8ByteSize_decode encoded).mono
  intro s few
  have := length.toNat_lt
  show s.utf8ByteSize < 2 ^ 64
  omega

theorem Short.of_text?_none {e : Entry} (h : e.text? = none) : e.Short := by
  simp [Short, h]

theorem short_of_read (slot : Nat) : Gives (read slot) Short := by
  have single {α : Type} {p : Read α} {make : α → Entry} (plain : ∀ a, (make a).text? = none) :
      Gives (do return make (← p)) Short :=
    .behind fun a => .pure (.of_text?_none (plain a))
  have pair {make : UInt16 → UInt16 → Entry} (plain : ∀ a b, (make a b).text? = none) :
      Gives (do return make (← Read.u16) (← Read.u16)) Short :=
    .behind fun a => single (plain a)
  apply Gives.behind
  intro tag
  -- Only the first kind of entry has a text.
  unfold readFields
  split
  case h_1 =>
    apply Gives.bind short_of_readText
    intro text short
    apply Gives.pure
    simpa [Short, text?] using short
  case h_12 => exact .behind fun kind => single fun reference => rfl
  case h_18 => exact .throw _
  all_goals first | exact single fun _ => rfl | exact pair fun _ _ => rfl

end Entry

namespace Pool

open Read (Gives)

/-- The pool is that of no class, or its entries have been read from bytes. -/
def Loaded (p : Pool) : Prop :=
  p = {} ∨ ∃ count k k', read count k = .ok p k'

def Short (p : Pool) : Prop :=
  ∀ e, some e ∈ p.slots.toList → e.Short

theorem Short.push {p : Pool} (h : p.Short) {e : Entry} (he : e.Short) : (p.push e).Short := by
  intro e' mem
  rw [toList_push, List.mem_append] at mem
  rcases mem with mem | mem
  · exact h e' mem
  · have same : e' = e := by
      rw [Entry.slots] at mem
      split at mem <;> simpa using mem
    exact same ▸ he

theorem short_of_readInto {p : Pool} (h : p.Short) (room : Nat) : Gives (p.readInto room) Short := by
  -- A wide entry uses up two slots of the room at once.
  induction room using Nat.strong_induction_on generalizing p with
  | _ room ih =>
    cases room with
    | zero => exact .pure h
    | succ room =>
      unfold readInto
      apply Gives.bind (Entry.short_of_read p.size)
      intro e he
      by_cases wide : e.isWide
      · rw [if_pos wide]
        cases room with
        | zero => exact .throw _
        | succ room => exact ih room (by omega) (h.push he)
      · rw [if_neg wide]
        exact ih room (by omega) (h.push he)

theorem Loaded.short {p : Pool} (h : p.Loaded) : p.Short := by
  rcases h with rfl | ⟨count, k, k', taken⟩
  · simp [Short]
  · have gives : Gives (read count) Short := by
      unfold read
      split
      · exact .throw _
      · exact short_of_readInto (by simp [Short, start]) _
    exact gives.of_ok taken

/-- **The texts of a loaded pool are short.** -/
theorem Loaded.utf8 {p : Pool} (h : p.Loaded) (index : UInt16) :
    Ensures (p.utf8 index) Hash.Fits := by
  unfold Pool.utf8
  split
  · next text known =>
    apply Ensures.pure
    have there := Option.join_eq_some_iff.mp known
    rw [← Array.getElem?_toList] at there
    exact h.short _ (List.mem_of_getElem? there) text rfl
  · exact .throw _

/-! ## Look-ups -/

namespace Loaded

variable {p : Pool} (h : p.Loaded) (index : UInt16)

include h

theorem className : Ensures (p.className index) Hash.Fits := by
  unfold Pool.className
  split
  · exact h.utf8 _
  · exact .throw _

theorem nameAndType : Ensures (p.nameAndType index) fun r => Hash.Fits r.1 ∧ Hash.Fits r.2 := by
  unfold Pool.nameAndType
  split
  · next name descriptor known =>
    apply (h.utf8 name).bind
    intro name hname
    apply (h.utf8 descriptor).bind
    intro descriptor hdescriptor
    exact .pure ⟨hname, hdescriptor⟩
  · exact .throw _

theorem member : Ensures (p.member index) fun m => ∀ s ∈ m.texts, Hash.Fits s := by
  unfold Pool.member
  split
  · next kind owner signature known =>
    apply (h.nameAndType signature).bind
    intro signature hsignature
    apply (h.className owner).bind
    intro owner howner
    apply Ensures.pure
    simp only [Member.texts, List.forall_mem_cons]
    exact ⟨howner, hsignature.1, hsignature.2, List.forall_mem_nil _⟩
  · exact .throw _

theorem methodHandle : Ensures (p.methodHandle index) fun k => ∀ s ∈ k.texts, Hash.Fits s := by
  unfold Pool.methodHandle
  split
  · next kind reference known =>
    apply (h.member reference).bind
    intro m hm
    apply Ensures.pure
    simp only [Member.texts, List.forall_mem_cons] at hm
    simp only [Handle.ofMember, Handle.texts, List.forall_mem_cons]
    exact ⟨hm.2.1, hm.1, hm.2.2⟩
  · exact .throw _

/-- There is no entry for the constant without a value. -/
theorem loadable (table : List Bootstrap) :
    Ensures (p.loadable table index) fun c => c ≠ .null ∧ ∀ s ∈ c.texts, Hash.Fits s := by
  apply (Ensures.any _).bind
  intro entry _
  have text {make : String → Constant} (i : UInt16)
      (is : ∀ s, make s ≠ .null ∧ (make s).texts = [s]) :
      Ensures (do return make (← p.utf8 i)) fun c => c ≠ .null ∧ ∀ s ∈ c.texts, Hash.Fits s := by
    apply (h.utf8 i).bind
    intro s hs
    apply Ensures.pure
    rw [(is s).2]
    exact ⟨(is s).1, by simpa using hs⟩
  cases entry with
  | integer value => exact .pure ⟨nofun, List.forall_mem_nil _⟩
  | float bits => exact .pure ⟨nofun, List.forall_mem_nil _⟩
  | long value => exact .pure ⟨nofun, List.forall_mem_nil _⟩
  | double bits => exact .pure ⟨nofun, List.forall_mem_nil _⟩
  | string i => exact text i fun s => ⟨nofun, rfl⟩
  | classRef i => exact text i fun s => ⟨nofun, rfl⟩
  | methodType i => exact text i fun s => ⟨nofun, rfl⟩
  | methodHandle =>
    apply (h.methodHandle index).bind
    intro k hk
    exact .pure ⟨nofun, hk⟩
  | dynamic bootstrap signature =>
    apply (h.nameAndType signature).bind
    intro signature hsignature
    dsimp only
    split
    · exact .throw _
    · next row _ =>
      apply (h.methodHandle row.method).bind
      intro k hk
      apply Ensures.pure
      refine ⟨nofun, ?_⟩
      simp only [Constant.texts, List.forall_mem_cons]
      exact ⟨hsignature.1, hsignature.2, hk⟩
  | _ => exact .throw _

end Loaded

end Pool

end Recompose
