import Recompose.Snapshot

/-!
A snapshot for the eye: the trees by class, classes in the order of their first trees, scopes
indented by their depth.
-/

namespace Recompose

namespace Forest

/-- What a scope is called in a rendering; a method's own scope bears its name. -/
def title (method : MethodId) : ScopeKind → String
  | .methodRoot => method.name
  | .restart => "RestartGroup"
  | .replace => "ReplaceGroup"
  | .marker => "SourceInformationMarker"

def indent (depth : Nat) : String :=
  String.ofList (List.replicate (4 * depth) ' ')

/-- The lines between a scope's opening brace and the first scope nested in it. -/
def headLines (method : MethodId) (scope : Scope) : List String :=
  (if scope.kind = .methodRoot then ["desc: " ++ method.descriptor] else []) ++
    ["key: " ++ (match scope.group with
      | some key => toString key
      | none => "null"),
      "codeHash: " ++ toString scope.hash] ++
    (if scope.dependencies.isEmpty then
      ["dependencies: []"]
    else
      ["dependencies: ["] ++ scope.dependencies.map (fun m => indent 1 ++ m.text) ++ ["]"])

/-- The lines of scopes side by side, each led by an empty line. -/
def lines (method : MethodId) (depth : Nat) : Forest → List String
  | nil => []
  | cons scope nested rest =>
    ("" :: (indent depth ++ title method scope.kind ++ " \x7b") ::
      (headLines method scope).map (indent (depth + 1) ++ ·)) ++
      nested.lines method (depth + 1) ++
      [indent depth ++ "\x7d"] ++
      rest.lines method depth

end Forest

namespace ScopeTree

/-- The lines of a method, led by an empty line. -/
def lines (t : ScopeTree) : List String :=
  (Forest.cons t.root t.nested .nil).lines t.method 1

end ScopeTree

namespace Snapshot

def classNames (s : Snapshot) : List String :=
  (s.trees.map (·.method.className)).eraseDups

/-- The lines of a class, led by an empty line. -/
def classLines (s : Snapshot) (className : String) : List String :=
  ["", className ++ " \x7b"] ++
    ((s.trees.filter (·.method.className == className)).flatMap ScopeTree.lines).drop 1 ++
    ["\x7d"]

def render (s : Snapshot) : String :=
  String.join (((s.classNames.flatMap s.classLines).drop 1).map (· ++ "\n"))

end Snapshot

end Recompose
