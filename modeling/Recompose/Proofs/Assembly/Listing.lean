import Mathlib.Data.List.Sort
import Recompose.Assembly.Body
import Recompose.Instruction.Listing
import Recompose.Proofs.Ascending
import Recompose.Proofs.Assembly.Op

/-!
What a body should be listed as, told without bytes: positions are counted in instructions, a label
stands at each position that a jump or a guard refers to, and its number is that of the positions
referred to before it. Offsets grow with positions, so labels by offset are the same.
-/

namespace Recompose

namespace LabeledGuard

def labels (g : LabeledGuard) : List Nat :=
  [g.start, g.stop, g.handler]

end LabeledGuard

namespace Op

/-- The operations before the last one that places a label, if one does. -/
def before? (label : Nat) : List Op → Option (List Op)
  | [] => none
  | op :: ops =>
    match before? label ops with
    | some earlier => some (op :: earlier)
    | none => if op = place label then some [] else none

end Op

namespace Body

/-- The instructions of the operations, without labels. -/
def instructions (b : Body) : List Instruction :=
  b.ops.filterMap Op.instruction?

/-- How many instructions stand before a label; all if it is never placed. -/
def positionOf (b : Body) (label : Nat) : Nat :=
  (((Op.before? label b.ops).getD b.ops).filterMap Op.instruction?).length

/-- The positions that jumps and guards refer to. -/
def positions (b : Body) : List Nat :=
  (b.ops.filterMap Op.target? ++ b.guards.flatMap LabeledGuard.labels).map b.positionOf

/-- The label at a position, if it is referred to; labels are numbered by ascending position. -/
def labelAt (b : Body) (position : Nat) : List Instruction :=
  if position ∈ b.positions then
    [.label ((List.range position).countP (· ∈ b.positions))]
  else
    []

/-- The instructions of the operations in order, with the labels. -/
def listing (b : Body) : List Instruction :=
  b.instructions.zipIdx.flatMap (fun (i, position) => b.labelAt position ++ [i]) ++
    b.labelAt b.instructions.length

end Body

theorem Op.prefix_of_before? {label : Nat} {ops earlier : List Op}
    (h : Op.before? label ops = some earlier) : earlier <+: ops := by
  induction ops generalizing earlier with
  | nil => cases h
  | cons op ops ih =>
    rw [Op.before?] at h
    split at h
    · next found =>
      cases h
      exact List.cons_prefix_cons.mpr ⟨rfl, ih found⟩
    · split at h
      · cases h
        exact List.nil_prefix
      · cases h

/-- No label stands behind more instructions than there are. -/
theorem Body.positionOf_le (b : Body) (label : Nat) : b.positionOf label ≤ b.instructions.length := by
  rw [Body.positionOf, Body.instructions]
  cases found : Op.before? label b.ops with
  | none => exact Nat.le_refl _
  | some earlier => exact ((Op.prefix_of_before? found).filterMap _).length_le

theorem Body.le_of_mem_positions {b : Body} {position : Nat} (h : position ∈ b.positions) :
    position ≤ b.instructions.length := by
  obtain ⟨label, -, rfl⟩ := List.mem_map.mp h
  exact b.positionOf_le label

/-! ## Labels by offset -/

namespace Located

section

variable {used : List Nat} {offset : Nat → Nat} {n : Nat}

/-- Where offsets grow with positions, the points in order are the used positions in order. -/
theorem ofList_map (grows : ∀ i j, i < j → j ≤ n → offset i < offset j)
    (bounded : ∀ u ∈ used, u ≤ n) :
    Ascending.ofList (used.map offset) =
      ((List.range (n + 1)).filter (· ∈ used)).map offset := by
  have points : (Ascending.ofList (used.map offset)).Pairwise (· < ·) :=
    (Ascending.pairwise_ofList _).imp Nat.compare_eq_lt.mp
  have positions : (((List.range (n + 1)).filter (· ∈ used)).map offset).Pairwise (· < ·) := by
    refine List.pairwise_map.mpr ((List.pairwise_lt_range.filter _).imp_of_mem ?_)
    intro i j _ mem less
    exact grows i j less (Nat.le_of_lt_succ (List.mem_range.mp (List.mem_filter.mp mem).1))
  refine points.eq_of_mem_iff positions fun point => ?_
  rw [Ascending.mem_ofList, List.mem_map, List.mem_map]
  refine exists_congr fun u => and_congr_left fun _ => ?_
  rw [List.mem_filter, List.mem_range, decide_eq_true_iff]
  exact ⟨fun mem => ⟨Nat.lt_succ_of_le (bounded u mem), mem⟩, And.right⟩

/-- The label at the offset of a position is numbered by the used positions before it. -/
theorem labelAt_ofList (grows : ∀ i j, i < j → j ≤ n → offset i < offset j)
    (bounded : ∀ u ∈ used, u ≤ n) {k : Nat} (le : k ≤ n) :
    labelAt (Ascending.ofList (used.map offset)) (offset k) =
      if k ∈ used then [.label ((List.range k).countP (· ∈ used))] else [] := by
  have split : List.range (n + 1) = List.range k ++ k :: List.range' (k + 1) (n - k) := by
    have parts := List.range'_append_1 (s := 0) (m := k) (n := n - k + 1)
    rw [Nat.zero_add, List.range'_succ, show k + (n - k + 1) = n + 1 by omega] at parts
    rw [List.range_eq_range', List.range_eq_range', ← parts]
  have distinct : ∀ i ≤ n, i ≠ k → (offset i == offset k) = false := by
    intro i inside other
    rw [beq_eq_false_iff_ne]
    rcases Nat.lt_or_gt_of_ne other with less | more
    · exact Nat.ne_of_lt (grows i k less le)
    · exact Nat.ne_of_gt (grows k i more inside)
  -- Neither the points before this one nor those behind it are found in its place.
  have earlier : (((List.range k).filter (· ∈ used)).map offset).findIdx? (· == offset k) =
      none := by
    rw [List.findIdx?_eq_none_iff]
    intro point mem
    obtain ⟨i, filtered, rfl⟩ := List.mem_map.mp mem
    have less := List.mem_range.mp (List.mem_filter.mp filtered).1
    exact distinct i (by omega) (by omega)
  have later : (((List.range' (k + 1) (n - k)).filter (· ∈ used)).map offset).findIdx?
      (· == offset k) = none := by
    rw [List.findIdx?_eq_none_iff]
    intro point mem
    obtain ⟨i, filtered, rfl⟩ := List.mem_map.mp mem
    have more := List.mem_range'_1.mp (List.mem_filter.mp filtered).1
    exact distinct i (by omega) (by omega)
  rw [labelAt, ofList_map grows bounded, split, List.filter_append, List.map_append, List.idxOf?,
    List.findIdx?_append, earlier, List.length_map, ← List.countP_eq_length_filter]
  by_cases mem : k ∈ used
  · have here : (k :: List.range' (k + 1) (n - k)).filter (· ∈ used) =
        k :: (List.range' (k + 1) (n - k)).filter (· ∈ used) :=
      List.filter_cons_of_pos (decide_eq_true mem)
    rw [here, List.map_cons, List.findIdx?_cons, if_pos (beq_self_eq_true _), if_pos mem]
    simp
  · have here : (k :: List.range' (k + 1) (n - k)).filter (· ∈ used) =
        (List.range' (k + 1) (n - k)).filter (· ∈ used) :=
      List.filter_cons_of_neg (by simpa using mem)
    rw [here, later, if_neg mem]
    rfl

end

end Located

end Recompose
