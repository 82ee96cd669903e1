import Recompose.Scope.Build

/-!
The scopes of all methods of a class. A method whose code or whose scopes are refused is set aside
with the reason and leaves the others as they are.
-/

namespace Recompose

structure ClassScopes where
  className : String
  /-- In the order of the methods. -/
  trees : List ScopeTree
  failures : List (MethodId × Error)
  events : List Event
deriving Repr

namespace ClassScopes

def empty (className : String) : ClassScopes :=
  ⟨className, [], [], []⟩

/-- The scopes of one method of a class and what happened while they were found. -/
def ofMethod (profile : Profile) (c : ClassFile) (m : Method) :
    Except Error ScopeTree × List Event :=
  match m.instructions c with
  | .ok instructions =>
    ScopeTree.buildLogged profile m.id (m.key? profile.keyAnnotation) instructions
  | .error e => (.error e, [])

/-- Adds the result for one more method. -/
def add (a : ClassScopes) (method : MethodId) :
    Except Error ScopeTree × List Event → ClassScopes
  | (.ok tree, events) =>
    { a with trees := a.trees ++ [tree], events := a.events ++ events }
  | (.error e, events) =>
    { a with
      failures := a.failures ++ [(method, e)]
      events := a.events ++ events ++ [.methodSkipped method e] }

def ofClass (profile : Profile) (c : ClassFile) : ClassScopes :=
  c.methods.foldl (fun a m => a.add m.id (ofMethod profile c m)) (empty c.name)

end ClassScopes

end Recompose
