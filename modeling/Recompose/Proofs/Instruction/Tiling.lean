import Recompose.Proofs.Instruction.Renumber

/-!
Where decoded instructions stand: one behind the other, from the first byte of the code to the last,
so their offsets ascend and each is the start of some bytes.
-/

namespace Recompose

open Bytes

namespace Located

/-- The instructions take the places from `start` to `stop`, each of them at least one, without a gap. -/
def Tiles (stop : Nat) : Nat → List Located → Prop
  | start, [] => start = stop
  | start, l :: code => l.offset = start ∧ 0 < l.size ∧ Tiles stop (start + l.size) code

namespace Tiles

variable {start stop : Nat} {code : List Located}

theorem le (h : Tiles stop start code) : start ≤ stop := by
  induction code generalizing start with
  | nil => exact Nat.le_of_eq h
  | cons l code ih => exact Nat.le_trans (Nat.le_add_right _ _) (ih h.2.2)

/-- Every instruction starts within the places. -/
theorem bounds (h : Tiles stop start code) : ∀ l ∈ code, start ≤ l.offset ∧ l.offset < stop := by
  induction code generalizing start with
  | nil => exact List.forall_mem_nil _
  | cons l code ih =>
    obtain ⟨here, some, rest⟩ := h
    have behind := rest.le
    refine List.forall_mem_cons.mpr ⟨by omega, fun l' mem => ?_⟩
    have := ih rest l' mem
    omega

/-- The offsets and the end ascend. -/
theorem ascending (h : Tiles stop start code) :
    (code.map (·.offset) ++ [stop]).Pairwise (· < ·) := by
  induction code generalizing start with
  | nil => exact List.pairwise_singleton _ _
  | cons l code ih =>
    obtain ⟨here, some, rest⟩ := h
    rw [List.map_cons, List.cons_append, List.pairwise_cons]
    refine ⟨fun place mem => ?_, ih rest⟩
    have behind := rest.le
    rcases List.mem_append.mp mem with earlier | last
    · obtain ⟨l', inside, rfl⟩ := List.mem_map.mp earlier
      have := rest.bounds l' inside
      omega
    · obtain rfl := List.mem_singleton.mp last
      omega

end Tiles

end Located

namespace Instruction

variable (c : CodeContext)

open Read (Gives SplitsAt)

variable {c} in
/-- What holds of every instruction that is read holds of all that are read one after another. -/
theorem forall_readAllOnto {P : Located → Prop} (one : Gives (read c) P) {done : List Located}
    (before : ∀ l ∈ done, P l) (k : Cursor) :
    Ensures (readAllOnto c done k) fun code => ∀ l ∈ code, P l := by
  fun_induction readAllOnto c done k with
  | case1 done k _ l k' first ih =>
    exact ih (List.forall_mem_cons.mpr ⟨one.of_ok first, before⟩)
  | case2 => exact .throw _
  | case3 done k => exact .pure fun l mem => before l (List.mem_reverse.mp mem)

/-- An instruction takes the bytes that are read for it. -/
theorem splitsAt_read {pos : Nat} :
    SplitsAt pos (read c) fun used l =>
      l.offset = pos ∧ l.size = used.length ∧ 0 < used.length := by
  refine .bind .position ?_
  rintro _ offset ⟨rfl, rfl⟩
  refine .bind (.of .u8) fun _ opcode h => h ▸ ?_
  unfold readBehind
  split
  · exact .throw _
  · next operand _ =>
    have same : ∀ index : UInt8, ∃ index' : UInt8, index'.toUInt16 = id index.toUInt16 :=
      fun index => ⟨index, rfl⟩
    refine .bind (exists_renumbered_of_readOperand id _ c _ same operand) fun bytes _ _ => ?_
    refine (SplitsAt.map .position _).mono ?_
    rintro _ _ ⟨_, ⟨rfl, rfl⟩, rfl⟩
    rw [List.append_nil]
    refine ⟨rfl, ?_, Nat.succ_pos _⟩
    show offset + 1 + bytes.length - offset = bytes.length + 1
    omega

theorem tiles_readAllOnto (done : List Located) (k : Cursor) :
    Ensures (readAllOnto c done k) fun code =>
      ∃ later, code = done.reverse ++ later ∧ Located.Tiles (k.pos + k.rest.length) k.pos later := by
  fun_induction readAllOnto c done k with
  | case1 done k _ l k' first ih =>
    obtain ⟨used, split, stop, here, size, some⟩ := (splitsAt_read c).of_ok first
    refine ih.mono ?_
    rintro _ ⟨later, rfl, rest⟩
    have ends : k'.pos + k'.rest.length = k.pos + k.rest.length := by
      rw [stop, split, List.length_append, Nat.add_assoc]
    rw [ends, stop, ← size] at rest
    refine ⟨l :: later, ?_, here, size ▸ some, rest⟩
    rw [List.reverse_cons, List.append_assoc, List.singleton_append]
  | case2 => exact .throw _
  | case3 done k ends =>
    have nothing : k.rest = [] := by simpa [Cursor.hasMore] using ends
    refine .pure ⟨[], (List.append_nil _).symm, ?_⟩
    rw [nothing]
    rfl

/-- **Decoded instructions tile the code.** -/
theorem tiles_readAll (pool : Pool) (bootstraps : List Bootstrap) (bytes : List UInt8) :
    Ensures (readAll pool bootstraps bytes) (Located.Tiles bytes.length 0) := by
  refine (tiles_readAllOnto ⟨pool, bootstraps, bytes.length⟩ [] (.ofBytes bytes)).mono ?_
  rintro _ ⟨code, rfl, tiles⟩
  have ends : (Cursor.ofBytes bytes).pos + (Cursor.ofBytes bytes).rest.length = bytes.length :=
    Nat.zero_add _
  rwa [ends] at tiles

end Instruction

end Recompose
