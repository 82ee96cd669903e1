/-!
What an analysis goes by: which classes to leave out, which calls count as dependencies, which calls
open and close groups, and where a method's own group key is found. The preset `composition` fits
the composition runtime.
-/

namespace Recompose

/-- What a scope stands for. -/
inductive ScopeKind where
  | methodRoot
  | restart
  | replace
  | marker
deriving DecidableEq, Repr

namespace ScopeKind

def name : ScopeKind → String
  | methodRoot => "MethodRoot"
  | restart => "RestartScope"
  | replace => "ReplaceScope"
  | marker => "MarkerScope"

def all : List ScopeKind := [methodRoot, restart, replace, marker]

end ScopeKind

/-- What a marker call does to the scopes. -/
inductive MarkerAction where
  | enter (kind : ScopeKind)
  /-- Leaves the innermost open scope of the kind. -/
  | exit (kind : ScopeKind)
deriving DecidableEq, Repr

/-- The signature of a marker call. -/
structure Marker where
  owner : String
  name : String
  descriptor : String
  action : MarkerAction
deriving DecidableEq, Repr

structure Profile where
  /-- Classes whose names start so are not analyzed. -/
  excludedClasses : List String
  /-- Calls of methods of classes whose names start so are no dependencies. -/
  excludedDependencies : List String
  markers : List Marker
  /-- Owner and name of the bootstrap methods whose second argument is the body of a lambda. -/
  lambdaBootstraps : List (String × String)
  /-- The type of the annotation that carries a method's own group key. -/
  keyAnnotation : String
  /-- How many scopes may be open at once, the method's own not counted. -/
  maxDepth : Nat
deriving DecidableEq, Repr

namespace Profile

def composer : String := "androidx/compose/runtime/Composer"

def composerFacade : String := "androidx/compose/runtime/ComposerKt"

def lambdaFactory : String := "java/lang/invoke/LambdaMetafactory"

def compositionMarkers : List Marker :=
  [⟨composer, "startRestartGroup", "(I)Landroidx/compose/runtime/Composer;", .enter .restart⟩,
    ⟨composer, "endRestartGroup", "()Landroidx/compose/runtime/ScopeUpdateScope;",
      .exit .restart⟩,
    ⟨composer, "startReplaceGroup", "(I)V", .enter .replace⟩,
    ⟨composer, "endReplaceGroup", "()V", .exit .replace⟩,
    ⟨composer, "startReplaceableGroup", "(I)V", .enter .replace⟩,
    ⟨composer, "endReplaceableGroup", "()V", .exit .replace⟩,
    ⟨composerFacade, "sourceInformationMarkerStart",
      "(Landroidx/compose/runtime/Composer;ILjava/lang/String;)V", .enter .marker⟩,
    ⟨composerFacade, "sourceInformationMarkerEnd", "(Landroidx/compose/runtime/Composer;)V",
      .exit .marker⟩]

/-- The composition runtime, without the classes of the platform, its language and libraries. -/
def composition : Profile where
  excludedClasses := ["java/", "javax/", "jdk/", "sun/", "kotlin/", "kotlinx/", "androidx/"]
  excludedDependencies := ["androidx/compose/", "android/", "java/", "kotlin/"]
  markers := compositionMarkers
  lambdaBootstraps := [(lambdaFactory, "metafactory"), (lambdaFactory, "altMetafactory")]
  keyAnnotation := "Landroidx/compose/runtime/internal/FunctionKeyMeta;"
  maxDepth := 256

/-- The composition runtime, with nothing left out. -/
def permissive : Profile :=
  { composition with excludedClasses := [], excludedDependencies := [] }

def startsWithAny (name : String) (starts : List String) : Bool :=
  starts.any fun start => start.toList.isPrefixOf name.toList

def excludesClass (p : Profile) (className : String) : Bool :=
  startsWithAny className p.excludedClasses

/-- Whether calls of the owner's methods are no dependencies. -/
def excludesDependency (p : Profile) (owner : String) : Bool :=
  startsWithAny owner p.excludedDependencies

def isLambdaBootstrap (p : Profile) (owner name : String) : Bool :=
  p.lambdaBootstraps.contains (owner, name)

/-- What a call of a method does to the scopes: the first marker of its signature decides. -/
def actionOf? (p : Profile) (owner name descriptor : String) : Option MarkerAction :=
  (p.markers.find? fun m =>
    m.name == name && m.owner == owner && m.descriptor == descriptor).map (·.action)

end Profile

end Recompose
