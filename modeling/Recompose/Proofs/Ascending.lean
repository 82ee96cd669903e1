import Mathlib.Data.List.Sort
import Recompose.Ascending

/-!
Ascending lists hold what was put in, each element once and in order.
-/

namespace Recompose.Ascending

variable {α : Type} [Ord α]

section Members

variable [Std.LawfulEqOrd α]

theorem mem_insert {a b : α} {l : List α} : a ∈ insert b l ↔ a = b ∨ a ∈ l := by
  induction l with
  | nil => simp [insert]
  | cons c l ih =>
    rw [insert]
    split
    · exact List.mem_cons
    · next same =>
      rw [Std.LawfulEqOrd.eq_of_compare same, List.mem_cons]
      exact ⟨.inr, Or.rec .inl id⟩
    · rw [List.mem_cons, ih, List.mem_cons]
      exact or_left_comm

@[simp] theorem mem_ofList {a : α} {l : List α} : a ∈ ofList l ↔ a ∈ l := by
  have general : ∀ (l sorted : List α),
      a ∈ l.foldl (fun sorted a => insert a sorted) sorted ↔ a ∈ l ∨ a ∈ sorted := by
    intro l
    induction l with
    | nil => simp
    | cons b l ih =>
      intro sorted
      rw [List.foldl_cons, ih, mem_insert, List.mem_cons]
      exact or_left_comm.trans or_assoc.symm
  exact (general l []).trans (or_iff_left List.not_mem_nil)

end Members

section Order

variable [Std.LawfulEqOrd α] [Std.TransOrd α]

theorem pairwise_insert (a : α) {l : List α} (h : l.Pairwise (compare · · = .lt)) :
    (insert a l).Pairwise (compare · · = .lt) := by
  induction l with
  | nil => exact List.pairwise_singleton _ _
  | cons b l ih =>
    obtain ⟨first, later⟩ := List.pairwise_cons.mp h
    rw [insert]
    split
    · next before =>
      refine .cons (fun c mem => ?_) h
      rcases List.mem_cons.mp mem with rfl | mem
      · exact before
      · exact Std.TransCmp.lt_trans before (first c mem)
    · exact h
    · next behind =>
      refine .cons (fun c mem => ?_) (ih later)
      rcases mem_insert.mp mem with rfl | mem
      · exact Std.OrientedCmp.lt_of_gt behind
      · exact first c mem

theorem pairwise_ofList (l : List α) : (ofList l).Pairwise (compare · · = .lt) := by
  have general : ∀ (l sorted : List α), sorted.Pairwise (compare · · = .lt) →
      (l.foldl (fun sorted a => insert a sorted) sorted).Pairwise (compare · · = .lt) := by
    intro l
    induction l with
    | nil => exact fun _ h => h
    | cons a l ih => exact fun sorted h => ih _ (pairwise_insert a h)
  exact general l [] .nil

/-- The same where the order is that of a comparison. -/
theorem pairwise_lt_ofList [LT α] [LE α] [Std.LawfulOrderOrd α] [Std.LawfulOrderLT α]
    (l : List α) : (ofList l).Pairwise (· < ·) :=
  (pairwise_ofList l).imp Std.compare_eq_lt.mp

/-- An ascending list is known by its elements. -/
theorem eq_of_mem_iff {l l' : List α} (h : l.Pairwise (compare · · = .lt))
    (h' : l'.Pairwise (compare · · = .lt)) (same : ∀ a, a ∈ l ↔ a ∈ l') : l = l' := by
  have irrefl : Std.Irrefl fun a b : α => compare a b = .lt := by
    constructor
    intro a before
    rw [Std.ReflOrd.compare_self] at before
    cases before
  have antisymm : Std.Antisymm fun a b : α => compare a b = .lt := by
    constructor
    intro a b before behind
    exact absurd (Std.TransCmp.lt_trans before behind) (irrefl.irrefl a)
  exact List.Pairwise.eq_of_mem_iff h h' same

/-- Only the elements count, not how often or in which order they were put in. -/
theorem ofList_congr {l l' : List α} (h : ∀ a, a ∈ l ↔ a ∈ l') : ofList l = ofList l' := by
  refine eq_of_mem_iff (pairwise_ofList l) (pairwise_ofList l') fun a => ?_
  rw [mem_ofList, mem_ofList, h]

end Order

end Recompose.Ascending
