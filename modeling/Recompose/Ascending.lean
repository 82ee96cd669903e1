/-!
Lists in strictly ascending order, which hold each element once.
-/

namespace Recompose.Ascending

variable {α : Type} [Ord α]

/-- Puts an element in its place unless it is there. -/
def insert (a : α) : List α → List α
  | [] => [a]
  | b :: l =>
    match compare a b with
    | .lt => a :: b :: l
    | .eq => b :: l
    | .gt => b :: insert a l

/-- The elements of a list, each once, in ascending order. -/
def ofList (l : List α) : List α :=
  l.foldl (fun sorted a => insert a sorted) []

end Recompose.Ascending
