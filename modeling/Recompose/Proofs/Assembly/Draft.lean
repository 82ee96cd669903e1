import Mathlib.Tactic.MkIffOfInductiveProp
import Recompose.Proofs.Pool.Layout

/-!
What the steps of an assembly are good for. A step only adds to the tables, and what it answers it
would answer again in any tables that have grown from there; so its answers can be judged by the
final tables, those of the whole class.
-/

namespace Recompose

open Bytes

namespace Draft

/-- The tables `d'` have what `d` has, in the same places. What is new in the bootstrap table are
rows of lambdas, of three arguments each. -/
structure Grows (d d' : Draft) : Prop where
  pool : ∃ entries, d'.pool = d.pool.extend entries
  bootstraps : ∃ rows : List Bootstrap, d'.bootstraps = d.bootstraps ++ rows ∧
    ∀ row ∈ rows, row.arguments.length = 3

/-- The tables keep to the limits of a class file. -/
@[mk_iff]
structure Fits (d : Draft) : Prop where
  slots : d.pool.size ≤ 65535
  entries : ∀ e ∈ d.pool.entries, e.Fits
  bootstraps : d.bootstraps.length ≤ 65535

instance (d : Draft) : Decidable d.Fits :=
  decidable_of_iff' _ (fits_iff d)

/-- The tables of a whole class: grown from nothing, within the limits. -/
structure Final (d : Draft) : Prop where
  grown : Grows {} d
  fits : d.Fits

namespace Grows

variable {d d' d'' : Draft}

theorem refl (d : Draft) : Grows d d :=
  ⟨⟨[], rfl⟩, [], (List.append_nil _).symm, nofun⟩

theorem trans (h : Grows d d') (h' : Grows d' d'') : Grows d d'' := by
  obtain ⟨first, eq⟩ := h.pool
  obtain ⟨second, eq'⟩ := h'.pool
  obtain ⟨rows, same, three⟩ := h.bootstraps
  obtain ⟨rows', same', three'⟩ := h'.bootstraps
  refine ⟨⟨first ++ second, ?_⟩, rows ++ rows', ?_, List.forall_mem_append.mpr ⟨three, three'⟩⟩
  · rw [eq', eq, Pool.extend_append]
  · rw [same', same, List.append_assoc]

theorem idxOf? {e : Entry} {k : Nat} (h : Grows d d')
    (found : d.pool.slots.idxOf? (some e) = some k) :
    d'.pool.slots.idxOf? (some e) = some k := by
  obtain ⟨entries, eq⟩ := h.pool
  rw [eq]
  exact Pool.idxOf?_extend found entries

theorem bootstrapIdxOf? {row : Bootstrap} {k : Nat} (h : Grows d d')
    (found : d.bootstraps.idxOf? row = some k) : d'.bootstraps.idxOf? row = some k := by
  obtain ⟨rows, same, -⟩ := h.bootstraps
  rw [List.idxOf?] at found
  rw [same, List.idxOf?, List.findIdx?_append, found]
  rfl

end Grows

namespace Final

variable {d : Draft}

/-- A slot of an entry can be told by a number of two bytes, and it is not slot zero. -/
theorem get?_of_idxOf? {e : Entry} {k : Nat} (h : d.Final)
    (found : d.pool.slots.idxOf? (some e) = some k) :
    d.pool.get? (UInt16.ofNat k) = some e ∧ UInt16.ofNat k ≠ 0 := by
  have here := Pool.getElem?_of_idxOf? found
  have inside : k < d.pool.size := (Array.getElem?_eq_some_iff.mp here).1
  have number : (UInt16.ofNat k).toNat = k :=
    UInt16.toNat_ofNat_of_lt' (Nat.lt_of_lt_of_le inside (Nat.le_succ_of_le h.fits.slots))
  refine ⟨by rw [Pool.get?, number, here]; rfl, fun zero => ?_⟩
  -- Slot zero holds nothing from the start.
  obtain ⟨entries, eq⟩ := h.grown.pool
  have empty : d.pool.slots[0]? = some none := by
    rw [eq]
    exact Pool.getElem?_extend (p := .start) rfl entries
  rw [zero] at number
  rw [← number] at here
  have := empty.symm.trans here
  cases this

theorem getElem?_of_idxOf? {row : Bootstrap} {k : Nat} (h : d.Final)
    (found : d.bootstraps.idxOf? row = some k) :
    d.bootstraps[(UInt16.ofNat k).toNat]? = some row := by
  obtain ⟨inside, same, -⟩ := List.idxOf?_eq_some_iff.mp found
  have number : (UInt16.ofNat k).toNat = k :=
    UInt16.toNat_ofNat_of_lt' (Nat.lt_of_lt_of_le inside (Nat.le_succ_of_le h.fits.bootstraps))
  rw [number, List.getElem?_eq_getElem inside, same]

theorem three_arguments (h : d.Final) : ∀ row ∈ d.bootstraps, row.arguments.length = 3 := by
  obtain ⟨rows, same, three⟩ := h.grown.bootstraps
  rw [same]
  exact three

theorem takes_pool (h : d.Final) :
    Read.Takes (Pool.read (UInt16.ofNat d.pool.size)) d.pool.layout d.pool := by
  obtain ⟨entries, eq⟩ := h.grown.pool
  have eq : d.pool = Pool.start.extend entries := eq
  have fits : ∀ e ∈ entries, e.Fits := by
    have fits := h.fits.entries
    rwa [eq, Pool.entries_extend] at fits
  have slots := h.fits.slots
  rw [eq] at slots ⊢
  exact Pool.takes_read fits slots

end Final

/-! ## Steps -/

variable {α β : Type}

theorem forall_mem_of_forall₂ {R : α → β → Prop} {Q : β → Prop} (h : ∀ a b, R a b → Q b)
    {as : List α} {bs : List β} (each : List.Forall₂ R as bs) : ∀ b ∈ bs, Q b := by
  induction each with
  | nil => nofun
  | cons first _ ih => exact List.forall_mem_cons.mpr ⟨h _ _ first, ih⟩

/-- The step only adds to the tables, answers the same in all tables grown from there, and its answer
is right by the final ones. -/
structure Yields (m : Assemble α) (P : Draft → α → Prop) : Prop where
  grows : ∀ d, Grows d (m d).2
  settled : ∀ d D, Grows (m d).2 D → m D = ((m d).1, D)
  holds : ∀ d D, Grows (m d).2 D → D.Final → P D (m d).1

namespace Yields

theorem pure {P : Draft → α → Prop} {a : α} (h : ∀ D, D.Final → P D a) :
    Yields (Pure.pure a) P :=
  ⟨Grows.refl, fun _ _ _ => rfl, fun _ D _ final => h D final⟩

theorem bind {P : Draft → α → Prop} {Q : Draft → β → Prop} {m : Assemble α}
    {f : α → Assemble β} (hm : Yields m P)
    (hf : ∀ a, Yields (f a) fun D b => D.Final → P D a → Q D b) : Yields (m >>= f) Q where
  grows d := (hm.grows d).trans ((hf (m d).1).grows (m d).2)
  settled d D grown := by
    have first := hm.settled d D (((hf (m d).1).grows (m d).2).trans grown)
    show f (m D).1 (m D).2 = (f (m d).1 (m d).2 |>.1, D)
    rw [first]
    exact (hf (m d).1).settled (m d).2 D grown
  holds d D grown final :=
    (hf (m d).1).holds (m d).2 D grown final final
      (hm.holds d D (((hf (m d).1).grows (m d).2).trans grown) final)

theorem imp {P Q : Draft → α → Prop} {m : Assemble α} (hm : Yields m P)
    (h : ∀ D a, D.Final → P D a → Q D a) : Yields m Q :=
  ⟨hm.grows, hm.settled, fun d D grown final => h D _ final (hm.holds d D grown final)⟩

/-- A step whose answer is passed on in another form. -/
theorem map {P : Draft → α → Prop} {Q : Draft → β → Prop} {m : Assemble α} {f : α → β}
    (hm : Yields m P) (h : ∀ D a, D.Final → P D a → Q D (f a)) :
    Yields (do return f (← m)) Q :=
  hm.bind fun a => .pure fun D final _ holds => h D a final holds

theorem mapM {P : Draft → α → β → Prop} {f : α → Assemble β} {l : List α}
    (h : ∀ a ∈ l, Yields (f a) (P · a)) :
    Yields (l.mapM f) fun D answers => List.Forall₂ (P D) l answers := by
  induction l with
  | nil =>
    rw [List.mapM_nil]
    exact .pure fun _ _ => .nil
  | cons a l ih =>
    rw [List.mapM_cons]
    refine .bind (h a List.mem_cons_self) fun b => ?_
    refine (ih fun a mem => h a (List.mem_cons_of_mem _ mem)).map fun D rest _ later => ?_
    exact fun _ first => .cons first later

/-- By the final tables the step would give the same answer and add nothing. -/
theorem answers {P : Draft → α → Prop} {m : Assemble α} (hm : Yields m P) :
    Yields m fun D a => m D = (a, D) ∧ P D a :=
  ⟨hm.grows, hm.settled, fun d D grown final =>
    ⟨hm.settled d D grown, hm.holds d D grown final⟩⟩

/-- Where all answers are of one kind. -/
theorem mapM_mem {P : Draft → β → Prop} {f : α → Assemble β} {l : List α}
    (h : ∀ a ∈ l, Yields (f a) P) :
    Yields (l.mapM f) fun D answers => answers.length = l.length ∧ ∀ b ∈ answers, P D b := by
  exact (mapM (P := fun D _ b => P D b) h).imp fun D answers _ each =>
    ⟨each.length_eq.symm, forall_mem_of_forall₂ (Q := P D) (fun _ _ holds => holds) each⟩

/-- A step that answers the place of something: where it is already, and otherwise where the step has
put it. Places never change. -/
theorem ofPlace {place : Draft → Option Nat} {m : Assemble UInt16}
    (stable : ∀ {d D k}, Grows d D → place d = some k → place D = some k)
    (known : ∀ d k, place d = some k → m d = (UInt16.ofNat k, d))
    (new : ∀ d, place d = none → Grows d (m d).2 ∧
      ∃ k, place (m d).2 = some k ∧ (m d).1 = UInt16.ofNat k) :
    Yields m fun D n => ∃ k, place D = some k ∧ n = UInt16.ofNat k := by
  -- Either way it has a place afterwards, which is the answer.
  have placed : ∀ d, Grows d (m d).2 ∧ ∃ k, place (m d).2 = some k ∧ (m d).1 = UInt16.ofNat k := by
    intro d
    cases found : place d with
    | none => exact new d found
    | some k =>
      rw [known d k found]
      exact ⟨.refl d, k, found, rfl⟩
  refine ⟨fun d => (placed d).1, fun d D grown => ?_, fun d D grown _ => ?_⟩
  · obtain ⟨-, k, found, answer⟩ := placed d
    rw [answer]
    exact known D k (stable grown found)
  · obtain ⟨-, k, found, answer⟩ := placed d
    exact ⟨k, stable grown found, answer⟩

end Yields

/-! ## Entries and rows -/

theorem intern_yields (e : Entry) :
    Yields (intern e) fun D index => D.pool.get? index = some e ∧ index ≠ 0 := by
  have place : Yields (intern e) fun D n =>
      ∃ k, D.pool.slots.idxOf? (some e) = some k ∧ n = UInt16.ofNat k := by
    refine .ofPlace Grows.idxOf? (fun d k found => ?_) fun d absent => ?_
    · rw [intern, found]
    · have answer : intern e d = (UInt16.ofNat d.pool.size, { d with pool := d.pool.push e }) := by
        rw [intern, absent]
      rw [answer]
      exact ⟨⟨⟨[e], rfl⟩, [], (List.append_nil _).symm, nofun⟩, _, Pool.idxOf?_push absent, rfl⟩
  refine place.imp fun D index final holds => ?_
  obtain ⟨k, found, rfl⟩ := holds
  exact final.get?_of_idxOf? found

theorem bootstrap_yields {row : Bootstrap} (three : row.arguments.length = 3) :
    Yields (bootstrap row) fun D n => D.bootstraps[n.toNat]? = some row := by
  have place : Yields (bootstrap row) fun D n =>
      ∃ k, D.bootstraps.idxOf? row = some k ∧ n = UInt16.ofNat k := by
    refine .ofPlace Grows.bootstrapIdxOf? (fun d k found => ?_) fun d absent => ?_
    · rw [bootstrap, found]
    · have answer : bootstrap row d = (UInt16.ofNat d.bootstraps.length,
          { d with bootstraps := d.bootstraps ++ [row] }) := by
        rw [bootstrap, absent]
      rw [answer]
      refine ⟨⟨⟨[], rfl⟩, [row], rfl, List.forall_mem_singleton.mpr three⟩, _, ?_, rfl⟩
      rw [List.idxOf?] at absent ⊢
      rw [List.findIdx?_append, absent]
      simp [List.findIdx?_cons]
  refine place.imp fun D n final holds => ?_
  obtain ⟨k, found, rfl⟩ := holds
  exact final.getElem?_of_idxOf? found

end Draft

end Recompose
