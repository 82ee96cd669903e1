import Recompose.Snapshot

/-!
What a merge holds for each method: the incoming trees where there are any, and the trees there were
before otherwise. Where snapshots are merged over and over this view, method by method, is what is
carried along.
-/

namespace Recompose

namespace Snapshot

theorem hasMethod_of_mem {s : Snapshot} {t : ScopeTree} (h : t ∈ s.trees) :
    s.hasMethod t.method = true :=
  List.any_eq_true.mpr ⟨t, h, beq_self_eq_true _⟩

theorem exists_tree_of_hasMethod {s : Snapshot} {m : MethodId} (h : s.hasMethod m = true) :
    ∃ t ∈ s.trees, t.method = m := by
  obtain ⟨t, mem, same⟩ := List.any_eq_true.mp h
  exact ⟨t, mem, eq_of_beq same⟩

/-- A method is unknown exactly if the list of its trees is empty. -/
theorem hasMethod_eq_false_iff {s : Snapshot} {m : MethodId} :
    s.hasMethod m = false ↔ s.treesOf m = [] := by
  simp [hasMethod, treesOf, List.filter_eq_nil_iff]

/-- **The view of a merge**: a method with incoming trees has these, and any other the trees it
had. -/
theorem treesOf_merge (s incoming : Snapshot) (m : MethodId) :
    (s.merge incoming).treesOf m =
      if incoming.hasMethod m then incoming.treesOf m else s.treesOf m := by
  have kept : (s.trees.filter fun t => !incoming.hasMethod t.method).filter (·.method == m) =
      if incoming.hasMethod m then [] else s.treesOf m := by
    rw [List.filter_filter]
    split
    · next has =>
      rw [List.filter_eq_nil_iff]
      intro t _
      by_cases same : t.method = m
      · simp [same, has]
      · simp [same]
    · next has =>
      refine List.filter_congr fun t _ => ?_
      by_cases same : t.method = m
      · simp [same, has]
      · simp [same]
  show (_ ++ incoming.trees).filter _ = _
  rw [List.filter_append, kept]
  split
  · rfl
  · next has =>
    have none : incoming.treesOf m = [] := hasMethod_eq_false_iff.mp (by simpa using has)
    show s.treesOf m ++ incoming.treesOf m = s.treesOf m
    rw [none, List.append_nil]

@[simp] theorem merge_empty (s : Snapshot) : s.merge {} = s := by
  have all : s.trees.filter (fun t => !({} : Snapshot).hasMethod t.method) = s.trees :=
    List.filter_eq_self.mpr fun _ _ => rfl
  show Snapshot.mk (_ ++ []) = s
  rw [all, List.append_nil]

@[simp] theorem empty_merge (s : Snapshot) : ({} : Snapshot).merge s = s := rfl

/-- A snapshot that is merged into itself replaces each of its trees. -/
@[simp] theorem merge_self (s : Snapshot) : s.merge s = s := by
  have dropped : s.trees.filter (fun t => !s.hasMethod t.method) = [] := by
    rw [List.filter_eq_nil_iff]
    intro t mem
    simp [hasMethod_of_mem mem]
  show Snapshot.mk (_ ++ s.trees) = s
  rw [dropped, List.nil_append]

/-- A merge knows the methods of both sides. -/
theorem hasMethod_merge (s incoming : Snapshot) (m : MethodId) :
    (s.merge incoming).hasMethod m = (s.hasMethod m || incoming.hasMethod m) := by
  show (_ ++ incoming.trees).any _ = _
  rw [List.any_append]
  show (_ || incoming.hasMethod m) = _
  cases has : incoming.hasMethod m with
  | true => rw [Bool.or_true, Bool.or_true]
  | false =>
    -- The trees that are left out are of other methods.
    rw [Bool.or_false, Bool.or_false, List.any_filter]
    refine List.any_congr rfl fun t => ?_
    by_cases same : t.method = m
    · simp [same, has]
    · simp [same]

/-- **It does not matter which merge is done first**, not even for the order of the trees. -/
theorem merge_assoc (a b c : Snapshot) : (a.merge b).merge c = a.merge (b.merge c) := by
  have kept : (a.trees.filter fun t => !b.hasMethod t.method).filter
        (fun t => !c.hasMethod t.method) =
      a.trees.filter fun t => !(b.merge c).hasMethod t.method := by
    rw [List.filter_filter]
    refine List.filter_congr fun t _ => ?_
    rw [hasMethod_merge, Bool.not_or, Bool.and_comm]
  show Snapshot.mk ((_ ++ b.trees).filter _ ++ c.trees) = ⟨_ ++ (_ ++ c.trees)⟩
  rw [List.filter_append, kept, List.append_assoc]

end Snapshot

end Recompose
