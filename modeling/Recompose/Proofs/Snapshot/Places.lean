import Mathlib.Data.List.Nodup
import Recompose.Proofs.Scope.Numbering
import Recompose.Snapshot

/-!
The places of a snapshot: the list of all placed scopes has each place once, with the scope found
there.
-/

namespace Recompose

/-- Places in the order of their trees, and in a tree of their numbers. -/
def ScopeRef.Before (a b : ScopeRef) : Prop :=
  a.tree < b.tree ∨ a.tree = b.tree ∧ a.scope < b.scope

theorem ScopeRef.Before.ne {a b : ScopeRef} (h : a.Before b) : a ≠ b := by
  rintro rfl
  rcases h with earlier | ⟨-, earlier⟩
  · exact Nat.lt_irrefl _ earlier
  · exact Nat.lt_irrefl _ earlier

/-- The indices of the items of a list ascend. -/
theorem indices_pairwise {α : Type} (l : List α) : (l.zipIdx.map (·.2)).Pairwise (· < ·) := by
  rw [List.zipIdx_map_snd]
  exact List.pairwise_lt_range' 1 Nat.one_pos

namespace Snapshot

/-- The list of placed scopes has exactly the scopes that can be looked up. -/
theorem mem_placed_iff {s : Snapshot} {ref : ScopeRef} {scope : PlacedScope} :
    (ref, scope) ∈ s.placed ↔ s.scope? ref = some scope := by
  simp only [placed, List.mem_flatMap, List.mem_map, Prod.exists, List.mem_zipIdx_iff_getElem?]
  constructor
  · rintro ⟨t, i, atTree, p, n, atScope, ⟨⟩⟩
    show (s.trees[i]?).bind (·.placed[n]?) = _
    rw [atTree]
    exact atScope
  · intro h
    obtain ⟨t, atTree, atScope⟩ := Option.bind_eq_some_iff.mp h
    exact ⟨t, ref.tree, atTree, scope, ref.scope, atScope, rfl⟩

/-- The places are listed by tree and then by number. -/
theorem ascending_places (s : Snapshot) : (s.placed.map (·.1)).Pairwise ScopeRef.Before := by
  rw [placed, List.map_flatMap, List.pairwise_flatMap]
  constructor
  · rintro ⟨t, i⟩ -
    rw [List.map_map, List.pairwise_map]
    exact (List.pairwise_map.mp (indices_pairwise t.placed)).imp fun earlier => .inr ⟨rfl, earlier⟩
  · -- A later tree stands at a later index, which its places carry along.
    refine (List.pairwise_map.mp (indices_pairwise s.trees)).imp ?_
    rintro ⟨t, i⟩ ⟨u, j⟩ earlier ref mem ref' mem'
    have here : ref.tree = i := by
      simp only [List.mem_map, Prod.exists] at mem
      obtain ⟨_, _, ⟨_, _, -, ⟨⟩⟩, rfl⟩ := mem
      rfl
    have there : ref'.tree = j := by
      simp only [List.mem_map, Prod.exists] at mem'
      obtain ⟨_, _, ⟨_, _, -, ⟨⟩⟩, rfl⟩ := mem'
      rfl
    exact .inl (here ▸ there ▸ earlier)

/-- No place is listed twice. -/
theorem nodup_places (s : Snapshot) : (s.placed.map (·.1)).Nodup :=
  s.ascending_places.imp ScopeRef.Before.ne

/-- A scope of a tree of the snapshot has a place there. -/
theorem exists_place_of_mem {s : Snapshot} {t : ScopeTree} {scope : Scope} (ht : t ∈ s.trees)
    (hs : scope ∈ t.scopes) :
    ∃ ref placed, s.tree? ref = some t ∧ s.scope? ref = some placed ∧ placed.toScope = scope := by
  rw [← t.map_toScope_placed] at hs
  obtain ⟨placed, mem, rfl⟩ := List.mem_map.mp hs
  obtain ⟨i, atTree⟩ := List.mem_iff_getElem?.mp ht
  obtain ⟨n, atScope⟩ := List.mem_iff_getElem?.mp mem
  exact ⟨⟨i, n⟩, placed, atTree, Option.bind_eq_some_iff.mpr ⟨t, atTree, atScope⟩, rfl⟩

end Snapshot

end Recompose
