/-!
The identity of a method: the internal name of its class, its name and its descriptor. Identities
are ordered by class, then name, then descriptor; strings compare by code point.
-/

namespace Recompose

structure MethodId where
  className : String
  name : String
  descriptor : String
deriving DecidableEq, Repr, Inhabited

namespace MethodId

/-- The full text: class, a point, name and descriptor. -/
def text (m : MethodId) : String :=
  m.className ++ "." ++ m.name ++ m.descriptor

/-- The text without the descriptor. -/
def shortText (m : MethodId) : String :=
  m.className ++ "." ++ m.name

instance : Ord MethodId where
  compare a b :=
    (compare a.className b.className).then <|
      (compare a.name b.name).then (compare a.descriptor b.descriptor)

end MethodId

end Recompose
