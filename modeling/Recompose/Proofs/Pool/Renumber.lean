import Recompose.Pool.Lookup
import Recompose.Proofs.Bytes.Results

/-!
Pools whose entries have moved. A renumbering gives every slot its new number; where each entry of a
pool stands in another one at its new slot, with its references renumbered, whatever is looked up in
the first is found in the second.
-/

namespace Recompose

namespace Entry

/-- The entry with its references renumbered; rows of the bootstrap table keep their numbers. -/
def renumber (r : UInt16 → UInt16) : Entry → Entry
  | classRef name => classRef (r name)
  | string text => string (r text)
  | member kind owner signature => member kind (r owner) (r signature)
  | nameAndType name descriptor => nameAndType (r name) (r descriptor)
  | methodHandle kind reference => methodHandle kind (r reference)
  | methodType descriptor => methodType (r descriptor)
  | dynamic bootstrap signature => dynamic bootstrap (r signature)
  | callSite bootstrap signature => callSite bootstrap (r signature)
  | moduleRef name => moduleRef (r name)
  | packageRef name => packageRef (r name)
  | e => e

end Entry

namespace Bootstrap

def renumber (r : UInt16 → UInt16) (row : Bootstrap) : Bootstrap :=
  ⟨r row.method, row.arguments.map r⟩

end Bootstrap

namespace Pool

theorem get_eq_ok_iff {p : Pool} {index : UInt16} {e : Entry} :
    p.get index = .ok e ↔ p.get? index = some e := by
  rw [get]
  cases p.get? index <;> simp

theorem get_of_get? {p : Pool} {index : UInt16} {e : Entry} (h : p.get? index = some e) :
    p.get index = .ok e :=
  get_eq_ok_iff.mpr h

theorem utf8_eq_ok_iff {p : Pool} {index : UInt16} {text : String} :
    p.utf8 index = .ok text ↔ p.get? index = some (.utf8 text) := by
  rw [utf8]
  split
  · next found => simp [found]
  · next other => exact ⟨nofun, fun known => absurd known (other text)⟩

/-- Every entry of `p` stands in `q` at its new slot, with its references renumbered. -/
structure Renumbered (r : UInt16 → UInt16) (p q : Pool) : Prop where
  moved : ∀ {index e}, p.get? index = some e → q.get? (r index) = some (e.renumber r)

theorem renumbered_iff {r : UInt16 → UInt16} {p q : Pool} :
    p.Renumbered r q ↔ ∀ k < p.size, ∀ e ∈ p.get? (UInt16.ofNat k),
      q.get? (r (UInt16.ofNat k)) = some (e.renumber r) := by
  refine ⟨fun h k _ e known => h.moved known, fun h => ⟨fun {index e} known => ?_⟩⟩
  obtain ⟨inside, -⟩ := Array.getElem?_eq_some_iff.mp (Option.join_eq_some_iff.mp known)
  have same : UInt16.ofNat index.toNat = index := UInt16.ofNat_toNat
  have moved := h index.toNat inside e
  rw [same] at moved
  exact moved known

instance (r : UInt16 → UInt16) (p q : Pool) : Decidable (p.Renumbered r q) :=
  decidable_of_iff' _ renumbered_iff

namespace Renumbered

variable {r : UInt16 → UInt16} {p q : Pool} (h : Renumbered r p q) (index : UInt16)

include h

theorem utf8 : Agrees (p.utf8 index) (q.utf8 (r index)) := by
  unfold Pool.utf8
  split
  · next text known =>
    rw [h.moved known]
    exact .refl _
  · exact .throw _

theorem className : Agrees (p.className index) (q.className (r index)) := by
  unfold Pool.className
  split
  · next name known =>
    rw [h.moved known]
    exact h.utf8 name
  · exact .throw _

theorem nameAndType : Agrees (p.nameAndType index) (q.nameAndType (r index)) := by
  unfold Pool.nameAndType
  split
  · next name descriptor known =>
    rw [h.moved known]
    exact .bind (h.utf8 name) fun _ => .bind (h.utf8 descriptor) fun _ => .refl _
  · exact .throw _

theorem member : Agrees (p.member index) (q.member (r index)) := by
  unfold Pool.member
  split
  · next kind owner signature known =>
    rw [h.moved known]
    exact .bind (h.nameAndType signature) fun _ => .bind (h.className owner) fun _ => .refl _
  · exact .throw _

theorem methodHandle : Agrees (p.methodHandle index) (q.methodHandle (r index)) := by
  unfold Pool.methodHandle
  split
  · next kind reference known =>
    rw [h.moved known]
    exact .bind (h.member reference) fun _ => .refl _
  · exact .throw _

/-- A constant does not tell where its parts stand. -/
theorem loadable (table : List Bootstrap) :
    Agrees (p.loadable table index) (q.loadable (table.map (.renumber r)) (r index)) := by
  unfold Pool.loadable
  cases known : p.get? index with
  | none =>
    rw [get, known]
    exact .throw _
  | some e =>
    refine .bind_of_ok (get_of_get? known) (get_of_get? (h.moved known)) ?_
    cases e with
    | integer | float | long | double => exact .refl _
    | string text => exact .bind (h.utf8 text) fun _ => .refl _
    | classRef name => exact .bind (h.utf8 name) fun _ => .refl _
    | methodType descriptor => exact .bind (h.utf8 descriptor) fun _ => .refl _
    | methodHandle => exact .bind (h.methodHandle index) fun _ => .refl _
    | dynamic bootstrap signature =>
      refine .bind (h.nameAndType signature) fun (name, descriptor) => ?_
      dsimp only
      rw [List.getElem?_map]
      cases table[bootstrap.toNat]? with
      | none => exact .throw _
      | some row => exact .bind (h.methodHandle row.method) fun _ => .refl _
    | _ => exact .throw _

end Renumbered

end Pool

end Recompose
