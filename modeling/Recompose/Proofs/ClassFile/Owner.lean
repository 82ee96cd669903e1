import Recompose.Proofs.ClassFile.Payload

/-!
Whose the methods of a class are. The name that the bytes of a class start with is the one that the
class has once it is read, and every method in it and every tree that is found for one belongs to the
class of that name.
-/

namespace Recompose

open Bytes
open Read (Takes)

/-! ## Methods -/

namespace Method

variable {pool : Pool} {attributes : List Attribute}

theorem addAttribute_id (m : Method) (a : Attribute) :
    Ensures (addAttribute pool m a) fun m' => m'.id = m.id := by
  unfold addAttribute
  split
  · split
    · exact .throw _
    · exact (Ensures.any _).bind fun _ _ => .pure rfl
  · split
    · exact (Ensures.any _).bind fun _ _ => .pure rfl
    · exact .pure rfl

/-- No attribute changes which method it is. -/
theorem addAttributes_id (m : Method) :
    Ensures (addAttributes pool m attributes) fun m' => m'.id = m.id := by
  induction attributes generalizing m with
  | nil => exact .pure rfl
  | cons a attributes ih =>
    rw [addAttributes, List.foldlM_cons]
    exact (addAttribute_id m a).bind fun m₁ first => (ih m₁).mono fun _ rest => rest.trans first

end Method

theorem RawMethod.className_of_meaning {raw : RawMethod} {pool : Pool} {className : String}
    {m : Method} (h : raw.meaning pool className = .ok m) : m.id.className = className := by
  obtain ⟨name, -, h⟩ := exists_ok_of_bind h
  obtain ⟨descriptor, -, h⟩ := exists_ok_of_bind h
  obtain ⟨attributes, -, added⟩ := exists_ok_of_bind h
  rw [(Method.addAttributes_id _).of_ok added]

/-! ## Trees -/

namespace ClassScopes

variable {profile : Profile} {c : ClassFile}

theorem method_of_ofMethod {m : Method} {t : ScopeTree} (h : (ofMethod profile c m).1 = .ok t) :
    t.method = m.id := by
  unfold ofMethod at h
  split at h
  · rw [ScopeTree.buildLogged_fst] at h
    unfold ScopeTree.build at h
    split at h
    · cases h
      rfl
    · cases h
  · cases h

/-- Every tree is that of a method of the class. -/
theorem exists_method_of_mem_trees {t : ScopeTree} (h : t ∈ (ofClass profile c).trees) :
    ∃ m ∈ c.methods, t.method = m.id := by
  rw [collects_ofClass.trees, outcomes, List.filterMap_map] at h
  obtain ⟨m, mem, found⟩ := List.mem_filterMap.mp h
  refine ⟨m, mem, ?_⟩
  simp only [Function.comp] at found
  cases built : (ofMethod profile c m).1 with
  | ok tree =>
    rw [built] at found
    cases found
    exact method_of_ofMethod built
  | error e =>
    rw [built] at found
    cases found

end ClassScopes

/-! ## Files -/

namespace ClassFile

/-- The name that a front holds can be had without the rest of it. -/
theorem peekName_of_takes {front : List UInt8} {f : Front} (takes : Takes Front.read front f)
    (rest : List UInt8) : peekName (front ++ rest) = .ok f.header.name := by
  obtain ⟨first, k, early, late⟩ := Read.exists_of_bind_ok (takes 0 rest)
  split at late
  · next file =>
    obtain ⟨header, k', named, behind⟩ := Read.exists_of_bind_ok late
    obtain ⟨superName, _, -, behind⟩ := Read.exists_of_bind_ok behind
    obtain ⟨interfaces, _, -, behind⟩ := Read.exists_of_bind_ok behind
    obtain ⟨fields, _, -, behind⟩ := Read.exists_of_bind_ok behind
    cases behind
    rw [peekName, parseWith_of_long (Front.length_of_takes takes rest), Read.parse, Cursor.ofBytes,
      Read.bind_of_ok early, if_pos file, Read.bind_of_ok named]
    rfl
  · cases late

variable {bytes : List UInt8} {c : ClassFile}

/-- **The name of a class can be had from its start.** -/
theorem peekName_of_parse (accepted : parse bytes = .ok c) : peekName bytes = .ok c.name := by
  obtain ⟨front, f, raw, rfl, takes, -, meant⟩ := exists_sections accepted
  rw [peekName_of_takes takes, (RawClass.name_of_meaning meant).1]

/-- **The methods of a class are its own.** -/
theorem className_of_mem_methods (accepted : parse bytes = .ok c) :
    ∀ m ∈ c.methods, m.id.className = c.name := by
  obtain ⟨front, f, raw, rfl, -, -, meant⟩ := exists_sections accepted
  obtain ⟨named, known⟩ := RawClass.name_of_meaning meant
  intro m mem
  obtain ⟨k, there⟩ := List.mem_iff_getElem?.mp mem
  obtain ⟨rawMethod, -, meant⟩ := exists_source_of_mapM known there
  rw [named, RawMethod.className_of_meaning meant]

end ClassFile

end Recompose
