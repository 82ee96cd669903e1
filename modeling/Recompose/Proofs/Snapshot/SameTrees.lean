import Recompose.Proofs.Snapshot.Merge
import Recompose.Proofs.Snapshot.Tables

/-!
Snapshots with the same trees for each method. They differ at most in where the trees of one method
stand among those of the others, and no question to a snapshot or to a merge with it is answered by
that.
-/

namespace Recompose

namespace Snapshot

/-- Every method has the same trees in both, in the same order. -/
def SameTrees (s s' : Snapshot) : Prop :=
  ∀ m, s.treesOf m = s'.treesOf m

namespace SameTrees

variable {s s' u u' : Snapshot}

theorem refl (s : Snapshot) : s.SameTrees s := fun _ => rfl

/-- All trees are the same, apart from their order. -/
theorem perm (h : s.SameTrees s') : s.trees.Perm s'.trees := by
  rw [List.perm_iff_count]
  intro t
  have own (s : Snapshot) : (s.treesOf t.method).count t = s.trees.count t :=
    List.count_filter (by simp)
  calc
    s.trees.count t = (s.treesOf t.method).count t := (own s).symm
    _ = (s'.treesOf t.method).count t := by rw [h]
    _ = s'.trees.count t := own s'

theorem hasMethod (h : s.SameTrees s') (m : MethodId) : s.hasMethod m = s'.hasMethod m := by
  rw [Bool.eq_iff_iff, ← not_iff_not, Bool.not_eq_true, Bool.not_eq_true, hasMethod_eq_false_iff,
    hasMethod_eq_false_iff, h]

theorem resolve (h : s.SameTrees s') (key : GroupKey) : s.resolve key = s'.resolve key :=
  resolve_eq_of_perm h.perm

theorem diff (h : s.SameTrees s') (h' : u.SameTrees u') : s.diff u = s'.diff u' :=
  diff_eq_of_perm h.perm h'.perm

theorem merge (h : s.SameTrees s') (h' : u.SameTrees u') : (s.merge u).SameTrees (s'.merge u') := by
  intro m
  rw [treesOf_merge, treesOf_merge, h m, h' m, h'.hasMethod]

/-- A merge that brings each of its methods the trees that are there changes none. -/
theorem merge_of_unchanged (h : ∀ m ∈ u.methods, s.treesOf m = u.treesOf m) :
    (s.merge u).SameTrees s := by
  intro m
  rw [treesOf_merge]
  split
  · next has =>
    exact (h m (mem_methods.mpr (exists_tree_of_hasMethod has))).symm
  · rfl

/-- Merges of snapshots without a common method may be done in either order. -/
theorem merge_swap (apart : ∀ m, u.hasMethod m = true → u'.hasMethod m = false) :
    ((s.merge u).merge u').SameTrees ((s.merge u').merge u) := by
  intro m
  rw [treesOf_merge, treesOf_merge, treesOf_merge, treesOf_merge]
  cases has : u.hasMethod m with
  | true => simp [apart m has]
  | false => simp

end SameTrees

/-! ## The laws of merging -/

/-- **Merging as an operation.** It is associative, the empty snapshot is neutral on both sides, and
what was merged in last may be merged in again; all this holds of the trees in their order and so of
the tables, which are filled in from them. Without a common method the sides may change places, but
for the order of the trees of different methods. -/
theorem merge_laws (a b c : Snapshot) :
    ((a.merge b).merge c = a.merge (b.merge c) ∧
        ((a.merge b).merge c).tables = (a.merge (b.merge c)).tables) ∧
      ({} : Snapshot).merge a = a ∧ a.merge {} = a ∧ a.merge a = a ∧
      (a.merge b).merge b = a.merge b ∧
      ((∀ m, a.hasMethod m = true → b.hasMethod m = false) →
        (a.merge b).SameTrees (b.merge a)) := by
  refine ⟨⟨merge_assoc a b c, ?_⟩, empty_merge a, merge_empty a, merge_self a, ?_, fun apart => ?_⟩
  · rw [merge_assoc]
  · rw [merge_assoc, merge_self]
  · -- Both are merges of the two sides into the empty snapshot.
    have swapped := SameTrees.merge_swap (s := {}) apart
    rwa [empty_merge, empty_merge] at swapped

/-- Two versions of a method. -/
def twoVersions : Snapshot :=
  ⟨[⟨⟨"A", "f", "()V"⟩, ⟨.methodRoot, some 3, 5, []⟩, .nil⟩,
    ⟨⟨"A", "f", "()V"⟩, ⟨.methodRoot, some 4, 6, []⟩, .nil⟩]⟩

/-- A method of its own. -/
def besideVersions : Snapshot :=
  ⟨[⟨⟨"B", "g", "()V"⟩, ⟨.methodRoot, none, 7, []⟩, .nil⟩]⟩

/-- The versions keep their order, but not their places. -/
theorem merge_laws_twoVersions :
    (∀ m, twoVersions.hasMethod m = true → besideVersions.hasMethod m = false) ∧
      twoVersions.merge besideVersions ≠ besideVersions.merge twoVersions ∧
      (twoVersions.merge besideVersions).SameTrees (besideVersions.merge twoVersions) := by
  have apart : ∀ m, twoVersions.hasMethod m = true → besideVersions.hasMethod m = false := by
    intro m has
    obtain ⟨t, mem, rfl⟩ := exists_tree_of_hasMethod has
    have others : ∀ t ∈ twoVersions.trees, besideVersions.hasMethod t.method = false := by decide
    exact others t mem
  exact ⟨apart, by decide,
    (merge_laws twoVersions besideVersions {}).2.2.2.2.2 apart⟩

end Snapshot

end Recompose
