import Recompose.Dependency
import Recompose.Hash.Words
import Recompose.Instruction.Listing
import Recompose.Scope

/-!
From instructions to scopes, in one walk. Each instruction is taken into the hash of every open
scope, its dependency goes to the innermost one, and then a marker call opens or closes scopes; so
the call that opens a scope lies outside it and the call that closes it lies inside. A scope's group
key is the last integer among the constants loaded right before the call that opens it.
-/

namespace Recompose

/-- An open scope: what is known of it so far, and the scopes closed inside it, last one first. -/
structure Frame where
  kind : ScopeKind
  group : Option GroupKey
  hash : Hash
  dependencies : List MethodId
  closed : List (Scope × Forest)
deriving DecidableEq, Repr

namespace Frame

def start (kind : ScopeKind) (group : Option GroupKey) : Frame :=
  ⟨kind, group, Hash.basis, [], []⟩

def feed (words : List UInt64) (f : Frame) : Frame :=
  { f with hash := Hash.mixAll f.hash words }

/-- Adds a dependency unless the scope has it. -/
def depend (method : MethodId) (f : Frame) : Frame :=
  if f.dependencies.contains method then
    f
  else
    { f with dependencies := f.dependencies ++ [method] }

def scope (f : Frame) : Scope :=
  ⟨f.kind, f.group, f.hash, f.dependencies⟩

def nested (f : Frame) : Forest :=
  Forest.ofReversed f.closed

/-- Closes `inner` as the last scope inside `f`. -/
def adopt (f inner : Frame) : Frame :=
  { f with closed := (inner.scope, inner.nested) :: f.closed }

/-- Closes all frames inside `f`, given outermost first, each in the one around it. -/
def closeAll (f : Frame) : List Frame → Frame
  | [] => f
  | inner :: frames => f.adopt (inner.closeAll frames)

end Frame

/-- The state of a walk over a method's instructions. -/
structure Walk where
  root : Frame
  /-- The other open scopes, innermost first. -/
  inner : List Frame
  /-- The last integer of the constants loaded just now. -/
  key : Option GroupKey
  /-- The kinds of the exits that found no open scope, last one first. -/
  unmatched : List ScopeKind
deriving DecidableEq, Repr

namespace Walk

def start (group : Option GroupKey) : Walk :=
  ⟨.start .methodRoot group, [], none, []⟩

def feed (w : Walk) (words : List UInt64) : Walk :=
  { w with root := w.root.feed words, inner := w.inner.map (Frame.feed words) }

/-- Changes the innermost open scope. -/
def onInnermost (w : Walk) (change : Frame → Frame) : Walk :=
  match w.inner with
  | [] => { w with root := change w.root }
  | f :: inner => { w with inner := change f :: inner }

def depend (w : Walk) : Option MethodId → Walk
  | some method => w.onInnermost (Frame.depend method)
  | none => w

def enter (w : Walk) (kind : ScopeKind) : Walk :=
  { w with inner := .start kind w.key :: w.inner }

/-- Closes the innermost open scope of a kind and all scopes open inside it. -/
def exit (w : Walk) (kind : ScopeKind) : Walk :=
  match w.inner.span (·.kind != kind) with
  | (_, []) => { w with unmatched := kind :: w.unmatched }
  | (above, f :: inner) =>
    ({ w with inner }).onInnermost fun outer => outer.adopt (f.closeAll above.reverse)

def forgetKey (w : Walk) : Walk :=
  { w with key := none }

/-- Takes one instruction; fails, with the state so far, if it opens a scope too many. -/
def step (profile : Profile) (w : Walk) (i : Instruction) : Except Walk Walk :=
  let w := (w.feed i.words).depend (i.dependency? profile)
  if i.isLabel then
    .ok w
  else if i.isConstantLoad then
    .ok { w with key := i.int? <|> w.key }
  else
    match i.action? profile with
    | some (.enter kind) =>
      if profile.maxDepth ≤ w.inner.length then .error w else .ok (w.enter kind).forgetKey
    | some (.exit kind) => .ok (w.exit kind).forgetKey
    | none => .ok w.forgetKey

/-- The scopes of the method, those still open closed at the end. -/
def tree (w : Walk) (method : MethodId) : ScopeTree :=
  let root := w.root.closeAll w.inner.reverse
  ⟨method, root.scope, root.nested⟩

def events (w : Walk) (method : MethodId) : List Event :=
  w.unmatched.reverse.map fun kind => .unmatchedExit kind method

end Walk

namespace ScopeTree

/-- The walk over all instructions of a method whose own group key is `group`. -/
def walk (profile : Profile) (group : Option GroupKey) (instructions : List Instruction) :
    Except Walk Walk :=
  instructions.foldlM (Walk.step profile) (Walk.start group)

/-- The scopes of a method. -/
def build (profile : Profile) (method : MethodId) (group : Option GroupKey)
    (instructions : List Instruction) : Except Error ScopeTree :=
  match walk profile group instructions with
  | .ok w => .ok (w.tree method)
  | .error _ => .error (.scopesTooDeep method profile.maxDepth)

/-- The scopes of a method and what happened while they were found. -/
def buildLogged (profile : Profile) (method : MethodId) (group : Option GroupKey)
    (instructions : List Instruction) : Except Error ScopeTree × List Event :=
  match walk profile group instructions with
  | .ok w => (.ok (w.tree method), w.events method)
  | .error w => (.error (.scopesTooDeep method profile.maxDepth), w.events method)

theorem buildLogged_fst (profile : Profile) (method : MethodId) (group : Option GroupKey)
    (instructions : List Instruction) :
    (buildLogged profile method group instructions).1 =
      build profile method group instructions := by
  unfold buildLogged build
  split <;> rfl

end ScopeTree

end Recompose
