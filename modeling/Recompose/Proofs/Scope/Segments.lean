import Mathlib.Data.List.Nodup
import Recompose.Dependency
import Recompose.Hash.Words
import Recompose.Proofs.Scope.Numbering

/-!
Segments of instructions. A scope opened by a call owns the instructions behind that call, up to the
call that closes it or the end. Which scopes are open where is told by the marker calls alone, and
what a scope should hold by its segment and those of the scopes directly inside.
-/

namespace Recompose

/-- The positions from `start` on and before `stop`. -/
structure Segment where
  start : Nat
  stop : Nat
deriving DecidableEq, Repr, Inhabited

namespace Segment

def positions (s : Segment) : List Nat :=
  List.range' s.start (s.stop - s.start)

def contains (s : Segment) (position : Nat) : Bool :=
  s.start ≤ position && position < s.stop

/-- The instructions of the segment. -/
def slice (s : Segment) (instructions : List Instruction) : List Instruction :=
  (instructions.take s.stop).drop s.start

/-- The positions of the segment outside the segments given. -/
def ownPositions (s : Segment) (inner : List Segment) : List Nat :=
  s.positions.filter fun position => inner.all fun i => !i.contains position

end Segment

/-- An open scope: the position of the call that opened it, and its kind. -/
structure Opening where
  position : Nat
  kind : ScopeKind
deriving DecidableEq, Repr

section Markers

variable (profile : Profile) (instructions : List Instruction)

/-- What the instruction at a position does to the scopes. -/
def actionAt (position : Nat) : Option MarkerAction :=
  instructions[position]?.bind (·.action? profile)

/-- The open scopes after an action, innermost first: an exit closes the innermost open scope of its
kind and all open inside it, and nothing if there is none. -/
def openBehind (opened : List Opening) (position : Nat) : Option MarkerAction → List Opening
  | some (.enter kind) => ⟨position, kind⟩ :: opened
  | some (.exit kind) =>
    match opened.dropWhile (·.kind != kind) with
    | [] => opened
    | _ :: outer => outer
  | none => opened

/-- The scopes open after the first instructions, innermost first. -/
def openAfter : (count : Nat) → List Opening
  | 0 => []
  | n + 1 => openBehind (openAfter n) n (actionAt profile instructions n)

/-- Whether the scope that the call at a position opens is open after the first instructions. -/
def IsOpen (position count : Nat) : Prop :=
  ∃ o ∈ openAfter profile instructions count, o.position = position

/-- Whether the instruction at a position opens a scope. -/
def entersAt (position : Nat) : Bool :=
  match actionAt profile instructions position with
  | some (.enter _) => true
  | _ => false

/-- The positions of the calls among the first instructions that open scopes. -/
def enterCalls (count : Nat) : List Nat :=
  (List.range count).filter (entersAt profile instructions)

/-- The scope opened at a position stays open up to `stop`, where the instructions end or the exit
just before has closed it. -/
structure ClosesAt (position stop : Nat) : Prop where
  behind : position < stop
  inside : stop ≤ instructions.length
  stays : ∀ count, position < count → count < stop → IsOpen profile instructions position count
  ends : stop = instructions.length ∨
    (∃ kind, actionAt profile instructions (stop - 1) = some (.exit kind)) ∧
      ¬IsOpen profile instructions position stop

/-- The methods that the instructions at some positions depend on, each once. -/
def dependenciesAt (positions : List Nat) : List MethodId :=
  (positions.filterMap fun position =>
    instructions[position]?.bind (·.dependency? profile)).eraseDups

/-- What a scope should be whose segment and whose directly nested segments are given. -/
structure Holds (scope : Scope) (segment : Segment) (inner : List Segment) : Prop where
  hash : scope.hash = Hash.ofInstructions (segment.slice instructions)
  dependencies : scope.dependencies =
    dependenciesAt profile instructions (segment.ownPositions inner)

/-- The scope was opened by the call at a position and owns the segment behind it up to `stop`. -/
structure Owns (scope : Scope) (position stop : Nat) (inner : List Segment) : Prop where
  opened : actionAt profile instructions position = some (.enter scope.kind)
  closes : ClosesAt profile instructions position stop
  holds : Holds profile instructions scope ⟨position + 1, stop⟩ inner

end Markers

/-! ## Segments that grow -/

namespace Segment

theorem contains_iff {s : Segment} {position : Nat} :
    s.contains position = true ↔ s.start ≤ position ∧ position < s.stop := by
  simp [contains]

theorem slice_succ {instructions : List Instruction} {start n : Nat} {i : Instruction}
    (le : start ≤ n) (here : instructions[n]? = some i) :
    (⟨start, n + 1⟩ : Segment).slice instructions =
      (⟨start, n⟩ : Segment).slice instructions ++ [i] := by
  have inside : n < instructions.length := (List.getElem?_eq_some_iff.mp here).1
  have whole : (instructions.take n).length = n := by
    rw [List.length_take]
    omega
  have split : instructions.take (n + 1) = instructions.take n ++ [i] := by
    rw [List.take_add_one, here]
    rfl
  show (instructions.take (n + 1)).drop start = (instructions.take n).drop start ++ [i]
  rw [split, List.drop_append_of_le_length (by omega)]

theorem slice_self (instructions : List Instruction) (n : Nat) :
    (⟨n, n⟩ : Segment).slice instructions = [] := by
  rw [slice, List.drop_eq_nil_iff, List.length_take]
  exact Nat.min_le_left _ _

/-- A new position belongs to a segment itself if all segments inside stop before it. -/
theorem ownPositions_succ {start n : Nat} {inner : List Segment} (le : start ≤ n)
    (before : ∀ s ∈ inner, s.stop ≤ n) :
    (⟨start, n + 1⟩ : Segment).ownPositions inner =
      (⟨start, n⟩ : Segment).ownPositions inner ++ [n] := by
  have grow : (⟨start, n + 1⟩ : Segment).positions = (⟨start, n⟩ : Segment).positions ++ [n] := by
    show List.range' start (n + 1 - start) = List.range' start (n - start) ++ [n]
    rw [show n + 1 - start = n - start + 1 by omega, List.range'_concat,
      show start + 1 * (n - start) = n by omega]
  have outside : (inner.all fun s => !s.contains n) = true := by
    rw [List.all_eq_true]
    intro s mem
    have := before s mem
    rw [Bool.not_eq_true', ← Bool.not_eq_true, contains_iff]
    omega
  have last : [n].filter (fun position => inner.all fun s => !s.contains position) = [n] :=
    List.filter_cons_of_pos outside
  rw [ownPositions, grow, List.filter_append, last]
  rfl

/-- Positions taken up by a last segment inside are nobody else's. -/
theorem ownPositions_close {start stop cut : Nat} {inner : List Segment} (le : start ≤ cut)
    (le' : cut ≤ stop) :
    (⟨start, stop⟩ : Segment).ownPositions (inner ++ [⟨cut, stop⟩]) =
      (⟨start, cut⟩ : Segment).ownPositions inner := by
  have halves : (⟨start, stop⟩ : Segment).positions =
      (⟨start, cut⟩ : Segment).positions ++ List.range' cut (stop - cut) := by
    show List.range' start (stop - start) = List.range' start (cut - start) ++ _
    have cutAt : List.range' cut (stop - cut) =
        List.range' (start + (cut - start)) (stop - cut) := by
      rw [show start + (cut - start) = cut by omega]
    rw [cutAt, List.range'_append_1]
    congr 1
    omega
  -- Before the cut the last segment has no say, and behind it nothing remains.
  have first : ∀ position ∈ (⟨start, cut⟩ : Segment).positions,
      ((inner ++ [(⟨cut, stop⟩ : Segment)]).all fun s => !s.contains position) =
        inner.all fun s => !s.contains position := by
    intro position mem
    have before : start ≤ position ∧ position < start + (cut - start) := List.mem_range'_1.mp mem
    have outside : (⟨cut, stop⟩ : Segment).contains position = false := by
      rw [← Bool.not_eq_true, contains_iff]
      show ¬(cut ≤ position ∧ position < stop)
      omega
    simp [outside]
  have second : ∀ position ∈ List.range' cut (stop - cut),
      ¬((inner ++ [(⟨cut, stop⟩ : Segment)]).all fun s => !s.contains position) = true := by
    intro position mem
    have behind := List.mem_range'_1.mp mem
    have taken : (⟨cut, stop⟩ : Segment).contains position = true := by
      rw [contains_iff]
      show cut ≤ position ∧ position < stop
      omega
    simp [taken]
  rw [ownPositions, halves, List.filter_append, List.filter_congr first,
    List.filter_eq_nil_iff.mpr second, List.append_nil]
  rfl

end Segment

theorem eraseDups_concat {α : Type} [DecidableEq α] (l : List α) (a : α) :
    (l ++ [a]).eraseDups = if a ∈ l then l.eraseDups else l.eraseDups ++ [a] := by
  rw [List.eraseDups_append]
  split
  · next mem => simp [List.removeAll, mem]
  · next new => simp [List.removeAll, new, List.eraseDups_cons]

/-- A new position adds what its instruction depends on, unless that is there. -/
theorem dependenciesAt_concat (profile : Profile) {instructions : List Instruction}
    (positions : List Nat) {n : Nat} {i : Instruction} (here : instructions[n]? = some i) :
    dependenciesAt profile instructions (positions ++ [n]) =
      match i.dependency? profile with
      | some m =>
        if m ∈ dependenciesAt profile instructions positions then
          dependenciesAt profile instructions positions
        else
          dependenciesAt profile instructions positions ++ [m]
      | none => dependenciesAt profile instructions positions := by
  unfold dependenciesAt
  rw [List.filterMap_append]
  cases depends : i.dependency? profile with
  | none => simp [here, depends]
  | some m =>
    rw [List.filterMap_cons_some (by rw [here]; exact depends), List.filterMap_nil,
      eraseDups_concat]
    simp only [List.mem_eraseDups]

/-! ## Where scopes are open -/

section Open

variable {profile : Profile} {instructions : List Instruction}

/-- A scope that is open now was open before or is opened by the last instruction. -/
theorem mem_openBehind {opened : List Opening} {position : Nat} {action : Option MarkerAction}
    {o : Opening} (h : o ∈ openBehind opened position action) :
    o ∈ opened ∨ o.position = position := by
  cases action with
  | none => exact .inl h
  | some action =>
    cases action with
    | enter kind =>
      rcases List.mem_cons.mp h with rfl | h
      · exact .inr rfl
      · exact .inl h
    | exit kind =>
      rw [openBehind] at h
      split at h
      · exact .inl h
      · next split =>
        exact .inl (List.dropWhile_sublist _ |>.mem (split ▸ List.mem_cons_of_mem _ h))

theorem position_lt_of_mem_openAfter {count : Nat} {o : Opening}
    (h : o ∈ openAfter profile instructions count) : o.position < count := by
  induction count with
  | zero => cases h
  | succ n ih =>
    rcases mem_openBehind h with h | h
    · exact Nat.lt_succ_of_lt (ih h)
    · omega

/-- Scopes further out were opened earlier. -/
theorem openAfter_descending (count : Nat) :
    (openAfter profile instructions count).Pairwise (·.position > ·.position) := by
  induction count with
  | zero => exact .nil
  | succ n ih =>
    show (openBehind _ n (actionAt profile instructions n)).Pairwise _
    match actionAt profile instructions n with
    | none => exact ih
    | some (.enter kind) => exact .cons (fun o mem => position_lt_of_mem_openAfter mem) ih
    | some (.exit kind) =>
      rw [openBehind]
      split
      · exact ih
      · next split =>
        exact ((split ▸ ih.sublist (List.dropWhile_sublist _)) : List.Pairwise _ (_ :: _)).tail

theorem eq_of_mem_openAfter {count : Nat} {o o' : Opening}
    (h : o ∈ openAfter profile instructions count)
    (h' : o' ∈ openAfter profile instructions count) (same : o.position = o'.position) :
    o = o' := by
  have distinct : ((openAfter profile instructions count).map (·.position)).Nodup :=
    List.pairwise_map.mpr ((openAfter_descending count).imp fun later => Nat.ne_of_gt later)
  exact List.inj_on_of_nodup_map distinct h h' same

/-- A scope that is open has been open ever since it was opened. -/
theorem isOpen_of_mem_openAfter {count : Nat} {o : Opening}
    (h : o ∈ openAfter profile instructions count) :
    ∀ n, o.position < n → n ≤ count → IsOpen profile instructions o.position n := by
  induction count with
  | zero => cases h
  | succ last ih =>
    intro n later le
    -- Either this is the moment looked at, or the scope was open one instruction earlier.
    by_cases same : n = last + 1
    · exact ⟨o, same ▸ h, rfl⟩
    · rcases mem_openBehind h with h | h
      · exact ih h n later (by omega)
      · omega

end Open

/-! ## Forests with their segments -/

/-- The segments of a forest, nested as its scopes are. -/
inductive Layout where
  | nil
  | cons (segment : Segment) (inside rest : Layout)

namespace Layout

/-- The segments of the outermost scopes. -/
def tops : Layout → List Segment
  | nil => []
  | cons segment _ rest => segment :: rest.tops

/-- All segments in the order of the scopes' numbers. -/
def list : Layout → List Segment
  | nil => []
  | cons segment inside rest => segment :: inside.list ++ rest.list

/-- The segment of the scope of a number, where the root has the segment `whole`. -/
def segment (whole : Segment) (l : Layout) (number : Nat) : Segment :=
  (whole :: l.list).getD number whole

theorem map_segment (whole : Segment) (l : Layout) :
    (List.range' 1 l.list.length).map (l.segment whole) = l.list := by
  refine List.ext_getElem (by simp) fun k _ inside => ?_
  simp [segment, Nat.add_comm 1 k, inside]

def append : Layout → Layout → Layout
  | nil, other => other
  | cons segment inside rest, other => cons segment inside (rest.append other)

theorem tops_append (l other : Layout) : (l.append other).tops = l.tops ++ other.tops := by
  induction l with
  | nil => rfl
  | cons segment inside rest _ ih => simp only [append, tops, ih, List.cons_append]

theorem list_append (l other : Layout) : (l.append other).list = l.list ++ other.list := by
  induction l with
  | nil => rfl
  | cons segment inside rest _ ih =>
    simp only [append, list, ih, List.cons_append, List.append_assoc]

end Layout

namespace Forest

def append : Forest → Forest → Forest
  | nil, other => other
  | cons scope nested rest, other => cons scope nested (rest.append other)

theorem append_assoc (f g h : Forest) : (f.append g).append h = f.append (g.append h) := by
  induction f with
  | nil => rfl
  | cons scope nested rest _ ih => simp only [append, ih]

/-- The scope closed last comes last. -/
theorem ofReversed_cons (scope : Scope) (nested : Forest) (closed : List (Scope × Forest)) :
    ofReversed ((scope, nested) :: closed) = (ofReversed closed).append (cons scope nested nil) := by
  -- Whatever follows the closed scopes stays behind them.
  have general : ∀ (closed : List (Scope × Forest)) (later : Forest),
      closed.foldl (fun rest c => cons c.1 c.2 rest) later = (ofReversed closed).append later := by
    intro closed
    induction closed with
    | nil => intro later; rfl
    | cons c closed ih =>
      intro later
      show closed.foldl _ (cons c.1 c.2 later) = (closed.foldl _ (cons c.1 c.2 nil)).append later
      rw [ih, ih, append_assoc]
      rfl
  exact general closed _

end Forest

/-- The outermost scopes of a forest lie one behind the other between two positions, each with its
own segment and with the scopes nested in it inside that. -/
inductive Spans (profile : Profile) (instructions : List Instruction) :
    Nat → Nat → Forest → Layout → Prop
  | nil {low high : Nat} : low ≤ high → Spans profile instructions low high .nil .nil
  | cons {low high position stop : Nat} {scope : Scope} {nested rest : Forest}
      {inside after : Layout} :
      low ≤ position → Owns profile instructions scope position stop inside.tops →
      Spans profile instructions (position + 1) stop nested inside →
      Spans profile instructions stop high rest after →
      Spans profile instructions low high (.cons scope nested rest)
        (.cons ⟨position + 1, stop⟩ inside after)

namespace Spans

variable {profile : Profile} {instructions : List Instruction}

theorem le {low high : Nat} {f : Forest} {l : Layout} (h : Spans profile instructions low high f l) :
    low ≤ high := by
  induction h with
  | nil le => exact le
  | cons le owns _ _ insideIh afterIh =>
    have := owns.closes.behind
    omega

theorem mono {low high : Nat} {f : Forest} {l : Layout} (h : Spans profile instructions low high f l)
    {high' : Nat} (more : high ≤ high') : Spans profile instructions low high' f l := by
  induction h with
  | nil le => exact .nil (Nat.le_trans le more)
  | cons le owns inside _ _ afterIh => exact .cons le owns inside (afterIh more)

/-- One more scope behind the others. -/
theorem snoc {low cut stop : Nat} {f nested : Forest} {l inside : Layout} {scope : Scope}
    (h : Spans profile instructions low cut f l)
    (owns : Owns profile instructions scope cut stop inside.tops)
    (inner : Spans profile instructions (cut + 1) stop nested inside) :
    Spans profile instructions low stop (f.append (.cons scope nested .nil))
      (l.append (.cons ⟨cut + 1, stop⟩ inside .nil)) := by
  generalize bound : cut = high at h
  induction h with
  | nil le =>
    subst bound
    exact .cons le owns inner (.nil (Nat.le_refl _))
  | cons le first within _ _ afterIh => exact .cons le first within (afterIh bound)

/-- Outermost segments stop where the forest's range does, at the latest, and start behind its
beginning. -/
theorem bounds_of_mem_tops {low high : Nat} {f : Forest} {l : Layout}
    (h : Spans profile instructions low high f l) :
    ∀ s ∈ l.tops, low < s.start ∧ s.stop ≤ high := by
  induction h with
  | nil _ => nofun
  | cons le owns _ after _ afterIh =>
    intro s mem
    have behind := owns.closes.behind
    rcases List.mem_cons.mp mem with rfl | mem
    · exact ⟨Nat.lt_succ_of_le le, after.le⟩
    · have := afterIh s mem
      exact ⟨by omega, this.2⟩

/-- Outermost segments are disjoint and in order. -/
theorem tops_pairwise {low high : Nat} {f : Forest} {l : Layout}
    (h : Spans profile instructions low high f l) :
    l.tops.Pairwise fun a b => a.stop < b.start := by
  induction h with
  | nil _ => exact .nil
  | cons _ _ _ after _ afterIh =>
    exact .cons (fun s mem => (after.bounds_of_mem_tops s mem).1) afterIh

theorem length_list {low high : Nat} {f : Forest} {l : Layout}
    (h : Spans profile instructions low high f l) : l.list.length = f.size := by
  induction h with
  | nil _ => rfl
  | cons _ _ _ _ insideIh afterIh =>
    simp only [Layout.list, Forest.size, List.cons_append, List.length_cons, List.length_append,
      insideIh, afterIh]

end Spans

/-! ## Segments by number -/

/-- The scope of a number in its place, seen with the segments of all numbers: a scope other than
the root lies behind the call that opened it up to where it closes, holds what its segment says, and
nests as its links say. -/
structure Nests (profile : Profile) (instructions : List Instruction) (seg : Nat → Segment)
    (number : Nat) (scope : PlacedScope) : Prop where
  opened : 0 < number → ∃ position, (seg number).start = position + 1 ∧
    actionAt profile instructions position = some (.enter scope.kind) ∧
    ClosesAt profile instructions position (seg number).stop
  holds : Holds profile instructions scope.toScope (seg number) (scope.children.map seg)
  inParent : ∀ parent, scope.parent = some parent →
    (seg parent).start < (seg number).start ∧ (seg number).stop ≤ (seg parent).stop
  aroundChildren : ∀ child ∈ scope.children,
    (seg number).start < (seg child).start ∧ (seg child).stop ≤ (seg number).stop
  apart : scope.children.Pairwise fun a b => (seg a).stop < (seg b).start

namespace Spans

variable {profile : Profile} {instructions : List Instruction} {seg : Nat → Segment}

/-- The numbers of a forest are shared out between its first scope and the two parts. -/
theorem numbers_cons {first : Nat} {segment : Segment} {scope : Scope} {nested rest : Forest}
    {inside after : Layout} (sizes : inside.list.length = nested.size)
    (h : (List.range' first (Forest.cons scope nested rest).size).map seg =
      (Layout.cons segment inside after).list) :
    seg first = segment ∧ (List.range' (first + 1) nested.size).map seg = inside.list ∧
      (List.range' (first + nested.size + 1) rest.size).map seg = after.list := by
  have split : List.range' first (nested.size + rest.size + 1) =
      first :: (List.range' (first + 1) nested.size ++
        List.range' (first + nested.size + 1) rest.size) := by
    rw [List.range'_succ, show first + nested.size + 1 = first + 1 + nested.size by omega,
      List.range'_append_1]
  rw [Forest.size, split, Layout.list, List.cons_append, List.map_cons, List.map_append] at h
  obtain ⟨head, tail⟩ := List.cons.inj h
  exact ⟨head, List.append_inj tail (by simp [sizes])⟩

/-- The numbers of the outermost scopes are those of the outermost segments. -/
theorem map_roots {low high : Nat} {f : Forest} {l : Layout}
    (h : Spans profile instructions low high f l) :
    ∀ first, (List.range' first f.size).map seg = l.list → (f.roots first).map seg = l.tops := by
  induction h with
  | nil _ => exact fun _ _ => rfl
  | cons _ _ within _ _ afterIh =>
    intro first numbers
    obtain ⟨head, -, tail⟩ := numbers_cons within.length_list numbers
    rw [Forest.roots, List.map_cons, head, afterIh _ tail]
    rfl

/-- **Segments nest as the links say.** -/
theorem nests {low high : Nat} {f : Forest} {l : Layout}
    (h : Spans profile instructions low high f l) :
    ∀ first parent parentGroup, 0 < first → (List.range' first f.size).map seg = l.list →
      (seg parent).start ≤ low → high ≤ (seg parent).stop →
      ∀ p ∈ (f.placed first parent parentGroup).zipIdx first,
        Nests profile instructions seg p.2 p.1 := by
  induction h with
  | nil _ => exact fun _ _ _ _ _ _ _ => nofun
  | @cons low high position stop scope nested rest inside after le owns within behind insideIh
      afterIh =>
    intro first parent parentGroup positive numbers parentStart parentStop
    obtain ⟨head, inner, tail⟩ := numbers_cons within.length_list numbers
    have children : (nested.roots (first + 1)).map seg = inside.tops := within.map_roots _ inner
    have later := owns.closes.behind
    have own : Nests profile instructions seg first
        ⟨scope, some parent, parentGroup, nested.roots (first + 1)⟩ := by
      refine ⟨fun _ => ⟨position, by rw [head], owns.opened, by rw [head]; exact owns.closes⟩,
        ?_, ?_, ?_, ?_⟩
      · rw [head, children]
        exact owns.holds
      · rintro _ ⟨⟩
        rw [head]
        exact ⟨Nat.lt_succ_of_le (Nat.le_trans parentStart le), Nat.le_trans behind.le parentStop⟩
      · intro child mem
        rw [head]
        exact within.bounds_of_mem_tops _ (children ▸ List.mem_map_of_mem mem)
      · have apart := within.tops_pairwise
        rw [← children] at apart
        exact List.pairwise_map.mp apart
    intro p mem
    rw [Forest.placed, List.cons_append, List.zipIdx_cons, List.mem_cons, List.zipIdx_append,
      List.mem_append] at mem
    rcases mem with rfl | mem | mem
    · exact own
    · refine insideIh (first + 1) first scope.group (Nat.succ_pos _) inner ?_ ?_ p mem
      · exact Nat.le_of_eq (by rw [head])
      · exact Nat.le_of_eq (by rw [head])
    · have size : (nested.placed (first + 1) first scope.group).length = nested.size := by
        rw [← List.length_map (·.toScope), Forest.map_toScope_placed, Forest.length_scopes]
      rw [size, show first + 1 + nested.size = first + nested.size + 1 by omega] at mem
      exact afterIh (first + nested.size + 1) parent parentGroup (Nat.succ_pos _) tail
        (by omega) parentStop p mem

end Spans

end Recompose
