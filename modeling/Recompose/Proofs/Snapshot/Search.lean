import Recompose.Proofs.Snapshot.Tables
import Recompose.Proofs.Snapshot.Unrelated

/-!
Searching what a group reaches, place by place. Places that were found wait on a stack; the one on
top is taken off and its dependencies are looked up, each method once, and each of their scopes that
was not found before goes on the stack. Which place comes next depends on where the trees stand.
Main results: whatever the way, the search ends with the closure of the group, and so nothing that
is computed from a snapshot shows the order of its trees.
-/

namespace Recompose

/-- A search that is under way. -/
structure Search where
  /-- The places found. -/
  members : Finset ScopeRef
  /-- The methods looked up. -/
  visited : Finset MethodId
  /-- The places found whose dependencies were not looked up yet, the last one found first. -/
  pending : List ScopeRef

namespace Snapshot

/-- The places of all scopes of a method, tree by tree. -/
def placesOf (s : Snapshot) (m : MethodId) : List ScopeRef :=
  (s.tables.methods.items m).flatMap fun i => (s.trees[i]?).elim [] (·.places i)

/-- What the scope at a place depends on; nothing if there is no scope. -/
def dependenciesAt (s : Snapshot) (ref : ScopeRef) : List MethodId :=
  (s.scope? ref).elim [] (·.dependencies)

def allPlaces (s : Snapshot) : Finset ScopeRef :=
  (s.placed.map (·.1)).toFinset

end Snapshot

namespace Search

variable {s : Snapshot} {f g : Search}

/-- Takes a place in, unless it was found before. -/
def find (f : Search) (ref : ScopeRef) : Search :=
  if ref ∈ f.members then f else ⟨insert ref f.members, f.visited, ref :: f.pending⟩

/-- Takes in the scopes of a method, unless it was looked up before. -/
def visit (s : Snapshot) (f : Search) (m : MethodId) : Search :=
  if m ∈ f.visited then
    f
  else
    (s.placesOf m).foldl find { f with visited := insert m f.visited }

/-- Looks up the dependencies of a place. -/
def follow (s : Snapshot) (f : Search) (ref : ScopeRef) : Search :=
  (s.dependenciesAt ref).foldl (visit s) f

/-! ## A search ends -/

/-- The places of a method are those in its trees. -/
theorem mem_placesOf {m : MethodId} {ref : ScopeRef} :
    ref ∈ s.placesOf m ↔
      ∃ t scope, s.tree? ref = some t ∧ t.method = m ∧ s.scope? ref = some scope := by
  simp only [Snapshot.placesOf, List.mem_flatMap, Snapshot.mem_items_methods]
  constructor
  · rintro ⟨i, ⟨t, atTree, own⟩, mem⟩
    rw [atTree] at mem
    obtain ⟨rfl, inside⟩ := ScopeTree.mem_places.mp mem
    obtain ⟨scope, here⟩ := (t.exists_scope?_iff ref.scope).mpr inside
    exact ⟨t, scope, atTree, own, Option.bind_eq_some_iff.mpr ⟨t, atTree, here⟩⟩
  · rintro ⟨t, scope, atTree, own, here⟩
    refine ⟨ref.tree, ⟨t, atTree, own⟩, ?_⟩
    have atTree : s.trees[ref.tree]? = some t := atTree
    rw [atTree]
    rw [Snapshot.scope?_of_tree? atTree] at here
    exact ScopeTree.mem_places.mpr ⟨rfl, (t.exists_scope?_iff ref.scope).mp ⟨scope, here⟩⟩

theorem mem_allPlaces_of_mem_placesOf {m : MethodId} {ref : ScopeRef} (h : ref ∈ s.placesOf m) :
    ref ∈ s.allPlaces := by
  obtain ⟨-, scope, -, -, here⟩ := mem_placesOf.mp h
  rw [Snapshot.allPlaces, List.mem_toFinset]
  exact List.mem_map_of_mem (Snapshot.mem_placed_iff.mpr here)

/-- What may still come: the places not found yet and those that wait. -/
def remaining (s : Snapshot) (f : Search) : Nat :=
  (s.allPlaces \ f.members).card + f.pending.length

/-- A place that is taken in goes from those not found to those that wait. -/
theorem remaining_find {ref : ScopeRef} (known : ref ∈ s.allPlaces) :
    (f.find ref).remaining s = f.remaining s := by
  rw [find]
  split
  · rfl
  · next new =>
    have mem : ref ∈ s.allPlaces \ f.members := Finset.mem_sdiff.mpr ⟨known, new⟩
    have count := Finset.card_erase_add_one mem
    rw [← Finset.sdiff_insert] at count
    simp only [remaining, List.length_cons]
    omega

theorem remaining_foldl_find {refs : List ScopeRef} (known : ∀ ref ∈ refs, ref ∈ s.allPlaces) :
    (refs.foldl find f).remaining s = f.remaining s := by
  induction refs generalizing f with
  | nil => rfl
  | cons ref refs ih =>
    obtain ⟨first, others⟩ := List.forall_mem_cons.mp known
    rw [List.foldl_cons, ih others, remaining_find first]

theorem remaining_visit (m : MethodId) : (f.visit s m).remaining s = f.remaining s := by
  rw [visit]
  split
  · rfl
  · rw [remaining_foldl_find fun ref mem => mem_allPlaces_of_mem_placesOf mem]
    rfl

theorem remaining_follow (ref : ScopeRef) : (f.follow s ref).remaining s = f.remaining s := by
  rw [follow]
  induction s.dependenciesAt ref generalizing f with
  | nil => rfl
  | cons m methods ih => rw [List.foldl_cons, ih, remaining_visit]

/-- Takes places off the stack until none waits. -/
def run (s : Snapshot) (f : Search) : Search :=
  match _waits : f.pending with
  | [] => f
  | ref :: later => run s (follow s { f with pending := later } ref)
termination_by f.remaining s
decreasing_by
  rw [remaining_follow, remaining, remaining, _waits]
  exact Nat.lt_succ_self _

/-- The search for a group starts from its own scopes. -/
def start (s : Snapshot) (key : GroupKey) : Search :=
  ⟨(s.group key).toFinset, ∅, (s.group key).reverse⟩

/-! ## One search grown from another -/

/-- More was found and looked up; what is found anew waits, and nothing else does. -/
structure Grows (f g : Search) : Prop where
  members : ∀ ref ∈ f.members, ref ∈ g.members
  visited : ∀ m ∈ f.visited, m ∈ g.visited
  pending : ∀ ref ∈ f.pending, ref ∈ g.pending
  new : ∀ ref ∈ g.members, ref ∈ f.members ∨ ref ∈ g.pending
  waits : ∀ ref ∈ g.pending, ref ∈ f.pending ∨ ref ∈ g.members

namespace Grows

theorem refl (f : Search) : Grows f f where
  members _ mem := mem
  visited _ mem := mem
  pending _ mem := mem
  new _ mem := .inl mem
  waits _ mem := .inl mem

theorem trans {h : Search} (first : Grows f g) (second : Grows g h) : Grows f h where
  members ref mem := second.members ref (first.members ref mem)
  visited m mem := second.visited m (first.visited m mem)
  pending ref mem := second.pending ref (first.pending ref mem)
  new ref mem := by
    rcases second.new ref mem with mem | waits
    · exact (first.new ref mem).imp_right (second.pending ref)
    · exact .inr waits
  waits ref mem := by
    rcases second.waits ref mem with mem | found
    · exact (first.waits ref mem).imp_right (second.members ref)
    · exact .inr found

theorem foldl {α : Type} {act : Search → α → Search} (step : ∀ f a, Grows f (act f a))
    (l : List α) (f : Search) : Grows f (l.foldl act f) := by
  induction l generalizing f with
  | nil => exact .refl f
  | cons a l ih => exact (step f a).trans (ih _)

end Grows

theorem grows_find (f : Search) (ref : ScopeRef) : Grows f (f.find ref) := by
  rw [find]
  split
  · exact .refl f
  · constructor <;> simp <;> tauto

theorem grows_visit (f : Search) (m : MethodId) : Grows f (f.visit s m) := by
  rw [visit]
  split
  · exact .refl f
  · have marked : Grows f { f with visited := insert m f.visited } := by
      constructor <;> simp <;> tauto
    exact marked.trans (.foldl grows_find _ _)

theorem grows_follow (f : Search) (ref : ScopeRef) : Grows f (f.follow s ref) :=
  .foldl grows_visit _ f

/-! ## What is found -/

theorem mem_members_find {ref ref' : ScopeRef} :
    ref' ∈ (f.find ref).members ↔ ref' = ref ∨ ref' ∈ f.members := by
  rw [find]
  split
  · next found => exact ⟨.inr, Or.rec (· ▸ found) id⟩
  · exact Finset.mem_insert

theorem mem_members_foldl_find {refs : List ScopeRef} {ref : ScopeRef} :
    ref ∈ (refs.foldl find f).members ↔ ref ∈ refs ∨ ref ∈ f.members := by
  induction refs generalizing f with
  | nil => simp
  | cons ref' refs ih =>
    rw [List.foldl_cons, ih, mem_members_find, List.mem_cons]
    tauto

theorem visited_foldl_find (refs : List ScopeRef) (f : Search) :
    (refs.foldl find f).visited = f.visited := by
  induction refs generalizing f with
  | nil => rfl
  | cons ref refs ih =>
    rw [List.foldl_cons, ih, find]
    split <;> rfl

theorem visited_visit (m : MethodId) : (f.visit s m).visited = insert m f.visited := by
  rw [visit]
  split
  · next done => exact (Finset.insert_eq_of_mem done).symm
  · exact visited_foldl_find _ _

/-- All scopes of a method that was looked up were found. -/
def Looked (s : Snapshot) (f : Search) : Prop :=
  ∀ m ∈ f.visited, ∀ ref ∈ s.placesOf m, ref ∈ f.members

theorem Looked.visit (h : Looked s f) (m : MethodId) : Looked s (f.visit s m) := by
  intro m' done ref mem
  rw [visited_visit, Finset.mem_insert] at done
  by_cases before : m' ∈ f.visited
  · exact (grows_visit f m).members ref (h m' before ref mem)
  · obtain rfl := done.resolve_right before
    rw [Search.visit, if_neg before]
    exact mem_members_foldl_find.mpr (.inl mem)

theorem Looked.foldl (h : Looked s f) (methods : List MethodId) :
    Looked s (methods.foldl (Search.visit s) f) := by
  induction methods generalizing f with
  | nil => exact h
  | cons m methods ih => exact ih (h.visit m)

/-- After a place is followed its dependencies are looked up. -/
theorem mem_visited_foldl {methods : List MethodId} {m : MethodId} :
    m ∈ (methods.foldl (visit s) f).visited ↔ m ∈ methods ∨ m ∈ f.visited := by
  induction methods generalizing f with
  | nil => simp
  | cons m' methods ih =>
    rw [List.foldl_cons, ih, visited_visit, Finset.mem_insert, List.mem_cons]
    tauto

/-- What is found by looking methods up was found before or is a scope of one of them. -/
theorem mem_members_foldl_visit {methods : List MethodId} {ref : ScopeRef}
    (found : ref ∈ (methods.foldl (visit s) f).members) :
    ref ∈ f.members ∨ ∃ m ∈ methods, ref ∈ s.placesOf m := by
  induction methods generalizing f with
  | nil => exact .inl found
  | cons m methods ih =>
    rcases ih found with found | ⟨m', mem, place⟩
    · rw [visit] at found
      split at found
      · exact .inl found
      · rcases mem_members_foldl_find.mp found with place | found
        · exact .inr ⟨m, List.mem_cons_self, place⟩
        · exact .inl found
    · exact .inr ⟨m', List.mem_cons_of_mem _ mem, place⟩

/-! ## The whole search -/

/-- What holds all along a search for a group. -/
structure Inv (s : Snapshot) (key : GroupKey) (f : Search) : Prop where
  tagged : ∀ ref ∈ s.group key, ref ∈ f.members
  sound : ∀ ref ∈ f.members, ref ∈ s.closure key
  pending : ∀ ref ∈ f.pending, ref ∈ f.members
  looked : Looked s f
  /-- What was found waits, or its dependencies were looked up. -/
  followed : ∀ ref ∈ f.members, ref ∈ f.pending ∨ ∀ m ∈ s.dependenciesAt ref, m ∈ f.visited

namespace Inv

variable {key : GroupKey}

theorem start (s : Snapshot) (key : GroupKey) : Inv s key (start s key) where
  tagged ref mem := List.mem_toFinset.mpr mem
  sound ref mem := by
    obtain ⟨scope, here, group⟩ := Snapshot.mem_group.mp (List.mem_toFinset.mp mem)
    exact fun _ closed => closed.tagged ref scope here group
  pending ref mem := List.mem_toFinset.mpr (List.mem_reverse.mp mem)
  looked m done := absurd done (Finset.notMem_empty m)
  followed ref mem := .inl (List.mem_reverse.mpr (List.mem_toFinset.mp mem))

/-- The scopes of a dependency belong to the closure with the dependent one. -/
theorem mem_closure_of_dependency {ref next : ScopeRef} {m : MethodId}
    (mem : ref ∈ s.closure key) (depends : m ∈ s.dependenciesAt ref) (place : next ∈ s.placesOf m) :
    next ∈ s.closure key := by
  obtain ⟨t, inner, atTree, own, there⟩ := mem_placesOf.mp place
  cases here : s.scope? ref with
  | none =>
    rw [Snapshot.dependenciesAt, here] at depends
    cases depends
  | some scope =>
    rw [Snapshot.dependenciesAt, here] at depends
    exact fun places closed =>
      closed.follow ref (mem places closed) scope here m depends next t inner atTree own there

/-- **One round**: the place on top is taken off and followed. -/
theorem follow {ref : ScopeRef} {later : List ScopeRef} (h : Inv s key f)
    (waits : f.pending = ref :: later) :
    Inv s key (Search.follow s { f with pending := later } ref) := by
  have grows := grows_follow (s := s) { f with pending := later } ref
  have held : ∀ next ∈ ref :: later, next ∈ f.members := waits ▸ h.pending
  constructor
  case tagged => exact fun next mem => grows.members next (h.tagged next mem)
  case sound =>
    intro next mem
    rcases mem_members_foldl_visit mem with before | ⟨m, depends, place⟩
    · exact h.sound next before
    · exact mem_closure_of_dependency (h.sound ref (held ref List.mem_cons_self)) depends place
  case pending =>
    intro next mem
    rcases grows.waits next mem with before | found
    · exact grows.members next (held next (List.mem_cons_of_mem _ before))
    · exact found
  case looked => exact Looked.foldl (f := { f with pending := later }) h.looked _
  case followed =>
    intro next mem
    rcases grows.new next mem with before | new
    · rcases h.followed next before with still | done
      · rw [waits] at still
        rcases List.mem_cons.mp still with rfl | still
        · exact .inr fun m depends => mem_visited_foldl.mpr (.inl depends)
        · exact .inl (grows.pending next still)
      · exact .inr fun m depends => grows.visited m (done m depends)
    · exact .inl new

/-- All rounds. -/
theorem run (h : Inv s key f) : Inv s key (Search.run s f) ∧ (Search.run s f).pending = [] := by
  fun_induction Search.run s f with
  | case1 f none => exact ⟨h, none⟩
  | case2 f ref later waits ih => exact ih (h.follow waits)

/-- A search that is over has found the closure. -/
theorem members_eq (h : Inv s key f) (ended : f.pending = []) : ↑f.members = s.closure key := by
  refine Set.Subset.antisymm h.sound (Set.sInter_subset_of_mem ⟨?_, ?_⟩)
  · intro ref scope here group
    exact h.tagged ref (Snapshot.mem_group.mpr ⟨scope, here, group⟩)
  · intro ref mem scope here m depends next t inner atTree own there
    have place : next ∈ s.placesOf m := mem_placesOf.mpr ⟨t, inner, atTree, own, there⟩
    have depends : m ∈ s.dependenciesAt ref := by
      rw [Snapshot.dependenciesAt, here]
      exact depends
    rcases h.followed ref mem with waits | done
    · rw [ended] at waits
      cases waits
    · exact h.looked m (done m depends) next place

end Inv

end Search

namespace Snapshot

variable {s s' : Snapshot}

/-- The fingerprint of a group by searching what it reaches: the spread hashes at the places found,
summed up in whatever order. -/
def searched (s : Snapshot) (key : GroupKey) : Option UInt64 :=
  if s.group key = [] then none else some (s.sumAt (Search.run s (.start s key)).members)

/-- **Searching finds what a group reaches**, so it comes to the fingerprint of the group. -/
theorem searched_eq_resolve (s : Snapshot) (key : GroupKey) : s.searched key = s.resolve key := by
  obtain ⟨inv, ended⟩ := (Search.Inv.start s key).run
  have found : (Search.run s (.start s key)).members = s.coveredPlaces key := by
    rw [← Finset.coe_inj, inv.members_eq ended, closure_eq]
  by_cases none : s.group key = []
  · rw [searched, if_pos none, resolve, if_neg fun has => hasGroup_iff_group_ne_nil.mp has none]
  · rw [searched, if_neg none, resolve_of_hasGroup (hasGroup_iff_group_ne_nil.mpr none), found]

/-- **The order of the trees does not show.** Two snapshots that hold the same trees in different
orders have the same groups with the same fingerprints, also where these are searched for place by
place, and comparisons of any other snapshot with them, either way, list the same. -/
theorem alike_of_perm (h : s.trees.Perm s'.trees) :
    s.groupKeys = s'.groupKeys ∧ (∀ key, s.resolve key = s'.resolve key) ∧
      (∀ key, s.searched key = s'.searched key) ∧
      ∀ other : Snapshot, s.diff other = s'.diff other ∧ other.diff s = other.diff s' := by
  refine ⟨groupKeys_eq_of_perm h, fun key => resolve_eq_of_perm h, fun key => ?_, fun other => ?_⟩
  · rw [searched_eq_resolve, searched_eq_resolve, resolve_eq_of_perm h]
  · exact ⟨diff_eq_of_perm h (.refl _), diff_eq_of_perm (.refl _) h⟩

/-- The pair, with the method beside it behind it. -/
def pairInFront : Snapshot :=
  ⟨pairBeside.trees.rotate 1⟩

/-- The group stands at another place, and so do the methods that it reaches. -/
theorem alike_pairInFront :
    pairBeside.group 3 = [⟨1, 0⟩] ∧ pairInFront.group 3 = [⟨0, 0⟩] ∧
      pairBeside.trees.Perm pairInFront.trees ∧ pairBeside.groupKeys = pairInFront.groupKeys ∧
      (∀ key, pairBeside.resolve key = pairInFront.resolve key) ∧
      (∀ key, pairBeside.searched key = pairInFront.searched key) ∧
      ∀ other : Snapshot, pairBeside.diff other = pairInFront.diff other ∧
        other.diff pairBeside = other.diff pairInFront := by
  have perm : pairBeside.trees.Perm pairInFront.trees := (List.rotate_perm _ _).symm
  exact ⟨by decide, by decide, perm, alike_of_perm perm⟩

end Snapshot

end Recompose
