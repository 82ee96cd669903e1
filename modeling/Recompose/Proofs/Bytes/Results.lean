import Recompose.Bytes.Cursor

/-!
What is known of every value that a computation gives, and when one computation gives what another
one does. The rules follow the shape of the computation: a sequence passes on what its first part
gives.
-/

namespace Recompose

variable {α β : Type} {P : α → Prop} {Q : β → Prop}

/-- Where a sequence gives a value, so does its first part, and the second goes on with that. -/
theorem exists_ok_of_bind {e : Except Error α} {f : α → Except Error β} {b : β}
    (h : e >>= f = .ok b) : ∃ a, e = .ok a ∧ f a = .ok b := by
  cases e with
  | ok a => exact ⟨a, rfl, h⟩
  | error _ => cases h

/-- Every value that the computation gives has the property. -/
structure Ensures (e : Except Error α) (P : α → Prop) : Prop where
  of_ok : ∀ {a}, e = .ok a → P a

namespace Ensures

theorem pure {a : α} (h : P a) : Ensures (Pure.pure a) P := by
  refine ⟨fun same => ?_⟩
  cases same
  exact h

theorem throw (e : Error) : Ensures (MonadExcept.throw e) P := ⟨nofun⟩

theorem bind {e : Except Error α} {f : α → Except Error β} (he : Ensures e P)
    (hf : ∀ a, P a → Ensures (f a) Q) : Ensures (e >>= f) Q := by
  refine ⟨fun same => ?_⟩
  cases ends : e with
  | ok a =>
    rw [ends] at same
    exact (hf a (he.of_ok ends)).of_ok same
  | error _ =>
    rw [ends] at same
    cases same

theorem any (e : Except Error α) : Ensures e fun _ => True :=
  ⟨fun _ => trivial⟩

theorem mono {e : Except Error α} {R : α → Prop} (he : Ensures e P) (h : ∀ a, P a → R a) :
    Ensures e R :=
  ⟨fun same => h _ (he.of_ok same)⟩

theorem mapM {f : α → Except Error β} (h : ∀ a, Ensures (f a) Q) (l : List α) :
    Ensures (l.mapM f) fun l' => ∀ b ∈ l', Q b := by
  induction l with
  | nil => exact pure (by simp)
  | cons a l ih =>
    rw [List.mapM_cons]
    refine bind (h a) fun b hb => bind ih fun l' hl' => pure ?_
    simp only [List.forall_mem_cons]
    exact ⟨hb, hl'⟩

end Ensures

/-- What the first computation gives, the second gives as well. -/
structure Agrees (e e' : Except Error α) : Prop where
  of_ok : ∀ {a}, e = .ok a → e' = .ok a

namespace Agrees

theorem refl (e : Except Error α) : Agrees e e := ⟨id⟩

theorem throw (e : Error) {e' : Except Error α} : Agrees (MonadExcept.throw e) e' := ⟨nofun⟩

theorem bind {e e' : Except Error α} {f f' : α → Except Error β} (he : Agrees e e')
    (hf : ∀ a, Agrees (f a) (f' a)) : Agrees (e >>= f) (e' >>= f') := by
  refine ⟨fun same => ?_⟩
  obtain ⟨a, first, rest⟩ := exists_ok_of_bind same
  rw [he.of_ok first]
  exact (hf a).of_ok rest

/-- Where the first parts give different values, what follows has to make up for it. -/
theorem bind_of_ok {γ : Type} {e : Except Error α} {e' : Except Error γ} {f : α → Except Error β}
    {f' : γ → Except Error β} {a : α} {a' : γ} (he : e = .ok a) (he' : e' = .ok a')
    (hf : Agrees (f a) (f' a')) : Agrees (e >>= f) (e' >>= f') := by
  subst he he'
  exact hf

theorem mapM_map {γ : Type} {f : α → Except Error β} {f' : γ → Except Error β} {r : α → γ}
    (h : ∀ a, Agrees (f a) (f' (r a))) (l : List α) : Agrees (l.mapM f) ((l.map r).mapM f') := by
  induction l with
  | nil => exact refl _
  | cons a l ih =>
    rw [List.map_cons, List.mapM_cons, List.mapM_cons]
    exact bind (h a) fun _ => bind ih fun _ => refl _

end Agrees

namespace Bytes.Read

/-- Every value that the reader gives has the property. -/
structure Gives (p : Read α) (P : α → Prop) : Prop where
  of_ok : ∀ {k a k'}, p k = .ok a k' → P a

namespace Gives

theorem pure {a : α} (h : P a) : Gives (Pure.pure a) P := by
  refine ⟨fun same => ?_⟩
  cases same
  exact h

theorem throw (e : Error) : Gives (MonadExcept.throw e) P := ⟨nofun⟩

theorem bind {p : Read α} {f : α → Read β} (hp : Gives p P) (hf : ∀ a, P a → Gives (f a) Q) :
    Gives (p >>= f) Q := by
  refine ⟨fun {k b k'} same => ?_⟩
  change EStateM.bind p f k = .ok b k' at same
  unfold EStateM.bind at same
  split at same
  · next a between first => exact (hf a (hp.of_ok first)).of_ok same
  · cases same

theorem any (p : Read α) : Gives p fun _ => True :=
  ⟨fun _ => trivial⟩

/-- A reader in front whose value does not matter. -/
theorem behind {p : Read α} {f : α → Read β} (hf : ∀ a, Gives (f a) Q) : Gives (p >>= f) Q :=
  bind (any p) fun a _ => hf a

theorem lift {e : Except Error α} (h : Ensures e P) : Gives (liftM e : Read α) P := by
  cases e with
  | ok a => exact pure (h.of_ok rfl)
  | error e => exact throw e

theorem timesOnto {p : Read α} (hp : Gives p P) {done : List α} (before : ∀ a ∈ done, P a)
    (n : Nat) : Gives (Read.timesOnto p done n) fun all => ∀ a ∈ all, P a := by
  induction n generalizing done with
  | zero => exact pure fun a mem => before a (List.mem_reverse.mp mem)
  | succ n ih => exact bind hp fun a ha => ih (List.forall_mem_cons.mpr ⟨ha, before⟩)

/-- What each reading gives holds of all values read. -/
theorem times {p : Read α} (hp : Gives p P) (n : Nat) :
    Gives (Read.times n p) fun all => ∀ a ∈ all, P a :=
  timesOnto hp (List.forall_mem_nil _) n

theorem length_bytes (n : Nat) : Gives (bytes n) fun taken => taken.length = n := by
  refine ⟨fun same => ?_⟩
  dsimp only [bytes] at same
  split at same
  · next enough =>
    cases same
    exact enough
  · cases same

end Gives

end Bytes.Read

end Recompose
