/-!
A cell that several writers replace. Every value put into the world gets an identity of its own, so
equal values stay apart; a replacement goes in only if the cell still holds the very object that it
was computed from.
-/

namespace Recompose

/-- A value with its identity. -/
@[ext]
structure Stamped (α : Type) where
  id : Nat
  value : α
deriving DecidableEq, Repr

/-- A cell, and the identities not given away yet: those from `fresh` on. -/
structure Cell (α : Type) where
  held : Stamped α
  fresh : Nat
deriving DecidableEq, Repr

namespace Cell

variable {α : Type}

def new (value : α) : Cell α :=
  ⟨⟨0, value⟩, 1⟩

/-- Gives a value an identity; the cell keeps what it holds. -/
def stamp (c : Cell α) (value : α) : Stamped α × Cell α :=
  (⟨c.fresh, value⟩, { c with fresh := c.fresh + 1 })

/-- Puts an object in place of the one held, which is returned. -/
def swap (c : Cell α) (new : Stamped α) : Stamped α × Cell α :=
  (c.held, { c with held := new })

/-- Puts an object in place of `current` if that is held; otherwise returns what is held. -/
def compareAndSwap (c : Cell α) (current new : Stamped α) : Except (Stamped α) Unit × Cell α :=
  if c.held.id = current.id then
    (.ok (), { c with held := new })
  else
    (.error c.held, c)

/-! ## Updates under interference -/

/-- What an update did: the object it started from, the one it put in, and how often it computed. -/
structure Update (α : Type) where
  previous : Stamped α
  updated : Stamped α
  calls : Nat
deriving DecidableEq, Repr

/-- What another writer does: it puts a new object into a cell, or one that has been there before,
or it makes a new object and does not put it in. -/
inductive Write (α : Type) where
  | value (value : α)
  | object (object : Stamped α)
  | spare (value : α)
deriving DecidableEq, Repr

def write (c : Cell α) : Write α → Cell α
  | .value value => let (new, c) := c.stamp value; (c.swap new).2
  | .object object => (c.swap object).2
  | .spare value => (c.stamp value).2

def interfere (c : Cell α) (writes : List (Write α)) : Cell α :=
  writes.foldl write c

/-- The end of a computation from `previous`, the one behind `calls` others: its result goes in if
`previous` is still held; otherwise what is held is returned. -/
def finish (f : α → α) (previous : Stamped α) (calls : Nat) (c : Cell α) :
    Except (Stamped α) (Update α) × Cell α :=
  let (new, c) := c.stamp (f previous.value)
  match c.compareAndSwap previous new with
  | (.ok (), c) => (.ok ⟨previous, new, calls + 1⟩, c)
  | (.error actual, c) => (.error actual, c)

/-- Computes from `previous`, which the cell holds, and tries to put the result in; whoever loses
starts again from what was found. The script has the writes of others during each computation. -/
def attempt (f : α → α) (previous : Stamped α) (calls : Nat) (c : Cell α) :
    (script : List (List (Write α))) → Update α × Cell α
  | [] =>
    let (new, c) := c.stamp (f previous.value)
    (⟨previous, new, calls + 1⟩, (c.compareAndSwap previous new).2)
  | writes :: script =>
    match (c.interfere writes).finish f previous calls with
    | (.ok update, c) => (update, c)
    | (.error actual, c) => attempt f actual (calls + 1) c script

/-- Replaces the value by what `f` makes of it. During the first computation others make the first
writes of the script, during the second the second ones, and none once it is used up. -/
def update (f : α → α) (c : Cell α) (script : List (List (Write α))) : Update α × Cell α :=
  attempt f c.held 0 c script

end Cell

end Recompose
