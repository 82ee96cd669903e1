import Recompose.Proofs.Bytes.Splits

/-!
Readers with a format. A format says how a thing is laid out and what it means, which may be an
error; its reader takes layouts only, and gives what they mean. A table of such things is such a
thing again.
-/

namespace Recompose.Bytes.Read

variable {α β γ : Type}

/-! ## What comes of bytes -/

/-- On the bytes, wherever they stand and whatever follows, the reader takes them all and gives the
value, or fails with the error. -/
def Yields (p : Read α) (bytes : List UInt8) : Except Error α → Prop
  | .ok a => Takes p bytes a
  | .error e => ∀ pos rest, ∃ k, p ⟨pos, bytes ++ rest⟩ = .error e k

namespace Yields

variable {first second : List UInt8}

theorem lift (e : Except Error α) : Yields (liftM e : Read α) [] e := by
  cases e with
  | ok a => exact .pure a
  | error e => exact fun pos rest => ⟨_, rfl⟩

/-- The second part counts only where the first one gives a value. -/
theorem bind {p : Read α} {f : α → Read β} {e : Except Error α} {g : α → Except Error β}
    (hp : Yields p first e) (hf : ∀ a, e = .ok a → Yields (f a) second (g a)) :
    Yields (p >>= f) (first ++ second) (e >>= g) := by
  cases e with
  | ok a =>
    have behind := hf a rfl
    show Yields _ _ (g a)
    cases ends : g a with
    | ok b =>
      rw [ends] at behind
      exact Takes.bind hp behind
    | error e =>
      rw [ends] at behind
      intro pos rest
      rw [List.append_assoc, bind_of_ok (hp pos _)]
      exact behind _ rest
  | error e =>
    intro pos rest
    obtain ⟨k, fails⟩ := hp pos (second ++ rest)
    refine ⟨k, ?_⟩
    rw [List.append_assoc, bind_of_error fails]

theorem bind_takes {p : Read α} {f : α → Read β} {a : α} {e : Except Error β}
    (hp : Takes p first a) (hf : Yields (f a) second e) :
    Yields (p >>= f) (first ++ second) e :=
  bind (e := .ok a) (g := fun _ => e) hp fun _ same => Except.ok.inj same ▸ hf

theorem bind_lift {e : Except Error α} {f : α → Read β} {g : α → Except Error β}
    (hf : ∀ a, e = .ok a → Yields (f a) second (g a)) :
    Yields (liftM e >>= f) second (e >>= g) :=
  bind (lift e) hf

theorem bind_last {p : Read α} {f : α → Read β} {e : Except Error α} {g : α → Except Error β}
    (hp : Yields p first e) (hf : ∀ a, e = .ok a → Yields (f a) [] (g a)) :
    Yields (p >>= f) first (e >>= g) := by
  have whole := bind hp hf
  rwa [List.append_nil] at whole

end Yields

/-! ## Formats -/

/-- The reader takes layouts only, of things that fit, and gives what they mean. -/
structure Decodes (p : Read α) (layout : γ → List UInt8) (Fits : γ → Prop)
    (meaning : γ → Except Error α) : Prop where
  splits : Splits p fun used a => ∃ x, used = layout x ∧ Fits x ∧ meaning x = .ok a
  yields : ∀ x, Fits x → Yields p (layout x) (meaning x)

namespace Decodes

variable {p : Read α} {layout : γ → List UInt8} {Fits : γ → Prop} {meaning : γ → Except Error α}

theorem yields_timesOnto (hp : Decodes p layout Fits meaning) {xs : List γ} (h : ∀ x ∈ xs, Fits x)
    (done : List α) :
    Yields (timesOnto p done xs.length) (xs.map layout).flatten do
      return done.reverse ++ (← xs.mapM meaning) := by
  induction xs generalizing done with
  | nil =>
    show Takes (pure done.reverse) [] (done.reverse ++ [])
    rw [List.append_nil]
    exact .pure _
  | cons x xs ih =>
    have later := ih (fun x mem => h x (List.mem_cons_of_mem _ mem))
    have whole : (do return done.reverse ++ (← (x :: xs).mapM meaning)) = (do
        let a ← meaning x
        return (a :: done).reverse ++ (← xs.mapM meaning) : Except Error (List α)) := by
      simp [List.mapM_cons]
    rw [whole]
    exact .bind (hp.yields x (h x List.mem_cons_self)) fun a _ => later (a :: done)

/-- A table has a format if its rows do. -/
theorem counted (hp : Decodes p layout Fits meaning) :
    Decodes (Read.counted p) (fun xs : List γ => Draft.table (xs.map layout))
      (fun xs => xs.length ≤ 65535 ∧ ∀ x ∈ xs, Fits x) (·.mapM meaning) := by
  refine ⟨(Splits.counted hp.splits).mono ?_, ?_⟩
  · rintro _ values ⟨rows, rfl, few, each⟩
    have raw : ∃ xs : List γ, xs.map layout = rows ∧ (∀ x ∈ xs, Fits x) ∧
        xs.mapM meaning = .ok values := by
      clear few
      induction each with
      | nil => exact ⟨[], rfl, List.forall_mem_nil _, rfl⟩
      | cons first _ ih =>
        obtain ⟨x, rfl, fits, known⟩ := first
        obtain ⟨xs, rfl, all, rest⟩ := ih
        refine ⟨x :: xs, rfl, List.forall_mem_cons.mpr ⟨fits, all⟩, ?_⟩
        rw [List.mapM_cons, known, rest]
        rfl
    obtain ⟨xs, rfl, all, known⟩ := raw
    rw [List.length_map] at few
    exact ⟨xs, rfl, ⟨few, all⟩, known⟩
  · rintro xs ⟨few, all⟩
    have count : (UInt16.ofNat xs.length).toNat = xs.length :=
      UInt16.toNat_ofNat_of_lt' (Nat.lt_succ_of_le few)
    rw [Draft.table, List.length_map]
    refine .bind_takes (.u16 _) ?_
    rw [count]
    have rows : Yields (times xs.length p) _ _ := hp.yields_timesOnto all []
    simpa using rows

end Decodes

end Recompose.Bytes.Read
