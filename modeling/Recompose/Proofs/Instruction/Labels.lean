import Mathlib.Data.Finset.Card
import Recompose.Proofs.Ascending
import Recompose.Proofs.Instruction.Tiling

/-!
Where the labels of a listing stand. Main result: code is listed if and only if every place that a
jump or a guard refers to is the start of an instruction or the end; and then the listing is that of
the decoded instructions, with a label for each such place right in front of what stands there. The
offsets of the instructions and the places are both in ascending order, and so are the labels.
-/

namespace Recompose

open Bytes

/-! ## Decoded instructions -/

namespace Instruction

/-- The number of a label. -/
def ordinal? : Instruction → Option Nat
  | label ordinal => some ordinal
  | _ => none

theorem ordinal?_of_isLabel {i : Instruction} (h : i.isLabel = false) : i.ordinal? = none := by
  cases i with
  | label => cases h
  | _ => rfl

theorem isLabel_implied (opcode : UInt8) : (implied opcode).isLabel = false := by
  fun_cases implied opcode <;> rfl

variable (c : CodeContext)

theorem isLabel_callSite (index : UInt16) : Ensures (callSite c index) (·.isLabel = false) := by
  refine (Ensures.any _).bind fun entry _ => ?_
  split
  · split
    · exact .throw _
    · refine (Ensures.any _).bind fun signature _ => ?_
      refine (Ensures.any _).bind fun arguments _ => ?_
      exact (Ensures.any _).bind fun bootstrap _ => .pure rfl
  · exact .throw _

open Read (Gives)

theorem isLabel_readWide (offset : Nat) : Gives (readWide offset) (·.isLabel = false) := by
  refine .behind fun opcode => ?_
  split
  · exact .behind fun _ => .behind fun _ => .pure rfl
  · split
    · exact .behind fun _ => .pure rfl
    · exact .throw _

theorem isLabel_readOperand (offset : Nat) (opcode : UInt8) (operand : Operand) :
    Gives (readOperand c offset opcode operand) (·.1.isLabel = false) := by
  cases operand with
  | none => exact .pure (isLabel_implied opcode)
  | byte | short | arrayType | slot | classRef | multiArray | branchWide | tableSwitch
      | lookupSwitch =>
    exact .behind fun _ => .pure rfl
  | constantByte | constant | increment | branch | field | method =>
    exact .behind fun _ => .behind fun _ => .pure rfl
  | interfaceMethod => exact .behind fun _ => .behind fun _ => .behind fun _ => .pure rfl
  | dynamic =>
    exact .behind fun _ => .behind fun _ => .bind (.lift (isLabel_callSite c _)) fun _ h => .pure h
  | wide => exact .bind (isLabel_readWide offset) fun _ h => .pure h

theorem isLabel_read : Gives (read c) (·.instruction.isLabel = false) := by
  refine .behind fun offset => .behind fun opcode => ?_
  unfold readBehind
  split
  · exact .throw _
  · exact .bind (isLabel_readOperand c offset opcode _) fun _ h => .behind fun _ => .pure h

/-- Labels are not decoded; they are put in. -/
theorem isLabel_readAll (pool : Pool) (bootstraps : List Bootstrap) (bytes : List UInt8) :
    Ensures (readAll pool bootstraps bytes) fun code =>
      ∀ l ∈ code, l.instruction.isLabel = false :=
  forall_readAllOnto (isLabel_read _) (List.forall_mem_nil _) _

end Instruction

/-! ## Labels -/

namespace Located

/-- The places that jumps and guards refer to: where control can enter. -/
def boundaries (code : List Located) (guards : List Guard) : List Nat :=
  code.flatMap (·.targets) ++ guards.flatMap Guard.places

theorem mem_entryPoints {code : List Located} {guards : List Guard} {place : Nat} :
    place ∈ entryPoints code guards ↔ place ∈ boundaries code guards :=
  Ascending.mem_ofList

/-- The label stands right in front of the instruction at the place, or at the end if that is the
place. All other instructions are in front of it or behind it as they are in the code. -/
def LabelStandsAt (code : List Located) (stop : Nat) (listing : List Instruction)
    (place ordinal : Nat) : Prop :=
  (∃ front l back before behind, code = front ++ l :: back ∧ l.offset = place ∧
      listing = before ++ .label ordinal :: l.instruction :: behind ∧
      before.filter (!·.isLabel) = front.map (·.instruction) ∧
      behind.filter (!·.isLabel) = back.map (·.instruction)) ∨
    place = stop ∧ ∃ before, listing = before ++ [.label ordinal] ∧
      before.filter (!·.isLabel) = code.map (·.instruction)

/-- The listing is that of the code, with a label for each boundary; labels are numbered as they
appear. -/
structure Labeled (code : List Located) (guards : List Guard) (stop : Nat)
    (listing : List Instruction) : Prop where
  instructions : listing.filter (!·.isLabel) = code.map (·.instruction)
  ordinals : listing.filterMap Instruction.ordinal? =
    List.range (boundaries code guards).toFinset.card
  stands : ∀ place ∈ boundaries code guards, ∃ ordinal,
    LabelStandsAt code stop listing place ordinal

/-- What `withLabels` puts together. -/
def listed (points : List Nat) (code : List Located) : List Instruction :=
  code.flatMap fun l => labelAt points l.offset ++ [l.instruction]

variable {points : List Nat}

theorem exists_labelAt {place : Nat} (mem : place ∈ points) :
    ∃ ordinal, labelAt points place = [.label ordinal] := by
  cases found : points.idxOf? place with
  | none => exact absurd mem (List.idxOf?_eq_none_iff.mp found)
  | some ordinal => exact ⟨ordinal, by rw [labelAt, found]⟩

theorem filter_labelAt (place : Nat) : (labelAt points place).filter (!·.isLabel) = [] := by
  unfold labelAt
  split <;> rfl

theorem filterMap_labelAt (place : Nat) :
    (labelAt points place).filterMap Instruction.ordinal? = (points.idxOf? place).toList := by
  unfold labelAt
  split
  · next found =>
    rw [found]
    rfl
  · next missing =>
    rw [missing]
    rfl

theorem filter_listed {code : List Located} (unlabeled : ∀ l ∈ code, l.instruction.isLabel = false) :
    (listed points code).filter (!·.isLabel) = code.map (·.instruction) := by
  induction code with
  | nil => rfl
  | cons l code ih =>
    obtain ⟨first, later⟩ := List.forall_mem_cons.mp unlabeled
    rw [listed, List.flatMap_cons, List.filter_append, List.filter_append, filter_labelAt]
    rw [List.filter_cons_of_pos (by rw [first]; rfl), ← listed, ih later]
    rfl

/-- The numbers of the labels are those of the offsets among the points. -/
theorem filterMap_listed {code : List Located}
    (unlabeled : ∀ l ∈ code, l.instruction.isLabel = false) :
    (listed points code).filterMap Instruction.ordinal? =
      (code.map (·.offset)).filterMap (points.idxOf? ·) := by
  induction code with
  | nil => rfl
  | cons l code ih =>
    obtain ⟨first, later⟩ := List.forall_mem_cons.mp unlabeled
    rw [listed, List.flatMap_cons, List.filterMap_append, List.filterMap_append, filterMap_labelAt,
      List.filterMap_cons_none (Instruction.ordinal?_of_isLabel first), ← listed, ih later,
      List.map_cons, List.filterMap_cons]
    cases points.idxOf? l.offset <;> rfl

/-- Where all points are among the places, and both ascend, the places meet the points in order. -/
theorem filterMap_idxOf? {places : List Nat} (ascending : points.Pairwise (· < ·))
    (ascending' : places.Pairwise (· < ·)) (inside : points ⊆ places) :
    places.filterMap (points.idxOf? ·) = List.range points.length := by
  have found {place ordinal : Nat} (h : points.idxOf? place = some ordinal) :
      ∃ h : ordinal < points.length, points[ordinal] = place := by
    obtain ⟨h, here, -⟩ := List.idxOf?_eq_some_iff.mp h
    exact ⟨h, by simpa using here⟩
  have ordered : (places.filterMap (points.idxOf? ·)).Pairwise (· < ·) := by
    refine ascending'.filterMap _ fun a b less i hi j hj => ?_
    obtain ⟨inside, rfl⟩ := found hi
    obtain ⟨inside', rfl⟩ := found hj
    by_contra more
    rcases Nat.eq_or_lt_of_le (Nat.le_of_not_lt more) with same | before
    · subst same
      exact Nat.lt_irrefl _ less
    · exact Nat.lt_asymm less (List.pairwise_iff_getElem.mp ascending j i inside' inside before)
  refine ordered.eq_of_mem_iff List.pairwise_lt_range fun ordinal => ?_
  rw [List.mem_filterMap, List.mem_range]
  constructor
  · rintro ⟨place, -, h⟩
    exact (found h).1
  · intro h
    refine ⟨points[ordinal], inside (List.getElem_mem h), ?_⟩
    refine List.idxOf?_eq_some_iff.mpr ⟨h, rfl, fun i before => ?_⟩
    have less := List.pairwise_iff_getElem.mp ascending i ordinal (Nat.lt_trans before h) h before
    simpa using Nat.ne_of_lt less

/-! ## Where they stand -/

section

variable {code : List Located} {guards : List Guard} {stop : Nat} {listing : List Instruction}

/-- Labels are put in where all boundaries are starts of instructions or the end, and only there. -/
theorem withLabels_eq_ok :
    withLabels code guards stop = .ok listing ↔
      (∀ place ∈ boundaries code guards, place = stop ∨ ∃ l ∈ code, l.offset = place) ∧
        listing = listed (entryPoints code guards) code ++ labelAt (entryPoints code guards) stop := by
  have reads (place : Nat) :
      isBoundary code stop place = true ↔ place = stop ∨ ∃ l ∈ code, l.offset = place := by
    simp [isBoundary]
  have all : (entryPoints code guards).find? (fun place => !isBoundary code stop place) = none ↔
      ∀ place ∈ boundaries code guards, place = stop ∨ ∃ l ∈ code, l.offset = place := by
    rw [List.find?_eq_none]
    refine forall_congr' fun place => ?_
    rw [mem_entryPoints, ← reads]
    simp
  rw [← all]
  unfold withLabels
  dsimp only
  cases (entryPoints code guards).find? fun place => !isBoundary code stop place with
  | none => exact ⟨fun h => ⟨rfl, (Except.ok.inj h).symm⟩, fun h => congrArg _ h.2.symm⟩
  | some place =>
    constructor
    · intro h
      cases h
    · rintro ⟨h, -⟩
      cases h

/-- Labels are numbered as they appear, one for each boundary. -/
theorem ordinals_listed (tiles : Tiles stop 0 code)
    (unlabeled : ∀ l ∈ code, l.instruction.isLabel = false)
    (inside : ∀ place ∈ boundaries code guards, place = stop ∨ ∃ l ∈ code, l.offset = place) :
    (listed (entryPoints code guards) code ++
        labelAt (entryPoints code guards) stop).filterMap Instruction.ordinal? =
      List.range (boundaries code guards).toFinset.card := by
  have ascending : (entryPoints code guards).Pairwise (· < ·) :=
    (Ascending.pairwise_ofList _).imp Nat.compare_eq_lt.mp
  have places : entryPoints code guards ⊆ code.map (·.offset) ++ [stop] := by
    intro place mem
    have boundary := inside place (mem_entryPoints.mp mem)
    rw [List.mem_append, List.mem_map, List.mem_singleton]
    exact boundary.symm
  have count : (entryPoints code guards).length = (boundaries code guards).toFinset.card := by
    have same : (boundaries code guards).toFinset = (entryPoints code guards).toFinset :=
      List.toFinset.ext fun place => mem_entryPoints.symm
    rw [same, List.toFinset_card_of_nodup (ascending.imp Nat.ne_of_lt)]
  have numbers := filterMap_idxOf? ascending tiles.ascending places
  rw [List.filterMap_append] at numbers
  rw [List.filterMap_append, filterMap_listed unlabeled, filterMap_labelAt, ← count, ← numbers]
  rw [List.filterMap_cons]
  cases (entryPoints code guards).idxOf? stop <;> rfl

/-- Every point that is the start of an instruction or the end has its label. -/
theorem labelStandsAt_listed {place : Nat} (mem : place ∈ points)
    (unlabeled : ∀ l ∈ code, l.instruction.isLabel = false)
    (inside : place = stop ∨ ∃ l ∈ code, l.offset = place) :
    ∃ ordinal, LabelStandsAt code stop (listed points code ++ labelAt points stop) place ordinal := by
  obtain ⟨ordinal, label⟩ := exists_labelAt mem
  refine ⟨ordinal, ?_⟩
  rcases inside with rfl | ⟨l, here, rfl⟩
  · exact .inr ⟨rfl, listed points code, by rw [label], filter_listed unlabeled⟩
  · obtain ⟨front, back, rfl⟩ := List.append_of_mem here
    obtain ⟨before, behind⟩ := List.forall_mem_append.mp unlabeled
    obtain ⟨-, behind⟩ := List.forall_mem_cons.mp behind
    refine .inl ⟨front, l, back, listed points front, listed points back ++ labelAt points stop,
      rfl, rfl, ?_, filter_listed before, ?_⟩
    · rw [listed, List.flatMap_append, List.flatMap_cons, label]
      simp [listed]
    · rw [List.filter_append, filter_listed behind, filter_labelAt, List.append_nil]

theorem labeled_withLabels (tiles : Tiles stop 0 code)
    (unlabeled : ∀ l ∈ code, l.instruction.isLabel = false)
    (h : withLabels code guards stop = .ok listing) : Labeled code guards stop listing := by
  obtain ⟨inside, rfl⟩ := withLabels_eq_ok.mp h
  constructor
  case instructions =>
    rw [List.filter_append, filter_listed unlabeled, filter_labelAt, List.append_nil]
  case ordinals => exact ordinals_listed tiles unlabeled inside
  case stands =>
    exact fun place mem =>
      labelStandsAt_listed (mem_entryPoints.mpr mem) unlabeled (inside place mem)

end

end Located

/-! ## Listings -/

namespace Code

/-- **Labels stand where control can enter.** Code is listed if its instructions are decoded and every
boundary is the start of one of them or the end of the code. Only the bytes and the guards count. -/
theorem labels_at_boundaries (pool : Pool) (bootstraps : List Bootstrap) (code : Code) :
    ((∃ listing, code.instructions pool bootstraps = .ok listing) ↔
        ∃ located, Instruction.readAll pool bootstraps code.bytes = .ok located ∧
          ∀ place ∈ Located.boundaries located code.guards,
            place = code.bytes.length ∨ ∃ l ∈ located, l.offset = place) ∧
      (∀ located listing, Instruction.readAll pool bootstraps code.bytes = .ok located →
        code.instructions pool bootstraps = .ok listing →
          Located.Labeled located code.guards code.bytes.length listing) ∧
      ∀ other : Code, other.bytes = code.bytes → other.guards = code.guards →
        other.instructions pool bootstraps = code.instructions pool bootstraps := by
  have parts {located : List Located}
      (decoded : Instruction.readAll pool bootstraps code.bytes = .ok located) :
      code.instructions pool bootstraps =
        Located.withLabels located code.guards code.bytes.length := by
    rw [instructions, decoded]
    rfl
  refine ⟨⟨?_, ?_⟩, ?_, ?_⟩
  · rintro ⟨listing, h⟩
    obtain ⟨located, decoded, labeled⟩ := exists_ok_of_bind h
    exact ⟨located, decoded, (Located.withLabels_eq_ok.mp labeled).1⟩
  · rintro ⟨located, decoded, inside⟩
    exact ⟨_, (parts decoded).trans (Located.withLabels_eq_ok.mpr ⟨inside, rfl⟩)⟩
  · intro located listing decoded h
    rw [parts decoded] at h
    have tiles := (Instruction.tiles_readAll pool bootstraps code.bytes).of_ok decoded
    have unlabeled := (Instruction.isLabel_readAll pool bootstraps code.bytes).of_ok decoded
    exact Located.labeled_withLabels tiles unlabeled h
  · intro other bytes guards
    rw [instructions, instructions, bytes, guards]

/-- Jumps over a jump to its target or the instruction behind, all of it guarded. -/
def branchingCode : Code :=
  ⟨1, 0, [0x03, 0x99, 0, 6, 0xA7, 0, 4, 0x00, 0xB1], [⟨0, 9, 7, 0⟩], []⟩

def branchingLocated : List Located :=
  [⟨0, 1, [], .constant 0x03 (.int 0)⟩, ⟨1, 3, [7], .plain 0x99⟩, ⟨4, 3, [8], .plain 0xA7⟩,
    ⟨7, 1, [], .plain 0x00⟩, ⟨8, 1, [], .plain 0xB1⟩]

def branchingListing : List Instruction :=
  [.label 0, .constant 0x03 (.int 0), .plain 0x99, .plain 0xA7, .label 1, .plain 0x00, .label 2,
    .plain 0xB1, .label 3]

/-- The end of the guarded range is the end of the code and has a label too. -/
theorem labels_at_boundaries_branching :
    Instruction.readAll ⟨#[]⟩ [] branchingCode.bytes = .ok branchingLocated ∧
      branchingCode.instructions ⟨#[]⟩ [] = .ok branchingListing ∧
      Located.boundaries branchingLocated branchingCode.guards = [7, 8, 0, 9, 7] ∧
      branchingListing.filterMap Instruction.ordinal? = List.range 4 ∧
      ∀ place ∈ [0, 7, 8, 9], ∃ ordinal,
        Located.LabelStandsAt branchingLocated 9 branchingListing place ordinal := by
  have decoded : Instruction.readAll ⟨#[]⟩ [] branchingCode.bytes = .ok branchingLocated := by
    decide +kernel
  have listed : branchingCode.instructions ⟨#[]⟩ [] = .ok branchingListing := by decide +kernel
  have referred : ∀ place ∈ [0, 7, 8, 9],
      place ∈ Located.boundaries branchingLocated branchingCode.guards := by decide
  have labeled := (labels_at_boundaries ⟨#[]⟩ [] branchingCode).2.1 _ _ decoded listed
  exact ⟨decoded, listed, rfl, labeled.ordinals,
    fun place mem => labeled.stands place (referred place mem)⟩

/-- A place inside an instruction is rejected. -/
example : ({ branchingCode with guards := [⟨0, 9, 2, 0⟩] } : Code).instructions ⟨#[]⟩ [] =
    .error (.malformed (.labelInside 2)) := by
  decide +kernel

end Code

end Recompose
