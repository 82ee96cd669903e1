import Mathlib.Data.Nat.Digits.Lemmas
import Recompose.Hash.Words

/-!
What the words of a hash tell. The words of a text, a handle or a constant can be told from whatever
follows them: they determine the value, apart from what is not hashed of it, and where it ends.
-/

namespace Recompose

namespace Hash

/-! ## Bytes -/

theorem digits_lt (bytes : List UInt8) : ∀ d ∈ bytes.map UInt8.toNat, d < 256 := by
  intro d mem
  obtain ⟨b, -, rfl⟩ := List.mem_map.mp mem
  exact b.toNat_lt

/-- Eight bytes fit a word. -/
theorem toNat_littleEndian {bytes : List UInt8} (few : bytes.length ≤ 8) :
    (littleEndian bytes).toNat = Nat.ofDigits 256 (bytes.map UInt8.toNat) := by
  induction bytes with
  | nil => rfl
  | cons b bytes ih =>
    have shorter : (bytes.map UInt8.toNat).length ≤ 7 := by
      rw [List.length_map]
      exact Nat.le_of_succ_le_succ few
    have small : Nat.ofDigits 256 (bytes.map UInt8.toNat) < 256 ^ 7 :=
      Nat.lt_of_lt_of_le (Nat.ofDigits_lt_base_pow_length (by decide) (digits_lt bytes))
        (Nat.pow_le_pow_right (by decide) shorter)
    have byte := b.toNat_lt
    have first : littleEndian (b :: bytes) = littleEndian bytes * 256 + b.toUInt64 := rfl
    rw [first, List.map_cons, Nat.ofDigits_cons, UInt64.toNat_add, UInt64.toNat_mul,
      ih (Nat.le_of_succ_le few), UInt8.toNat_toUInt64]
    show (_ * 256 % 2 ^ 64 + b.toNat) % 2 ^ 64 = b.toNat + 256 * _
    omega

theorem eq_of_littleEndian_eq {a b : List UInt8} (few : a.length ≤ 8) (same : a.length = b.length)
    (h : littleEndian a = littleEndian b) : a = b := by
  have values := congrArg UInt64.toNat h
  rw [toNat_littleEndian few, toNat_littleEndian (same ▸ few)] at values
  have numbers := Nat.ofDigits_inj_of_len_eq (by decide) (by simpa using same) (digits_lt a)
    (digits_lt b) values
  exact List.map_injective_iff.mpr (fun _ _ => UInt8.toNat_inj.mp) numbers

/-- The first eight bytes make a word, or all if they are fewer. -/
theorem chunks_of_ne_nil {bytes : List UInt8} (some : bytes ≠ []) :
    chunks bytes = littleEndian (bytes.take 8) :: chunks (bytes.drop 8) := by
  rcases bytes with
    _ | ⟨a, _ | ⟨b, _ | ⟨c, _ | ⟨d, _ | ⟨e, _ | ⟨f, _ | ⟨g, _ | ⟨h, rest⟩⟩⟩⟩⟩⟩⟩⟩
  · exact absurd rfl some
  all_goals rfl

variable {u v : List UInt64}

/-- Of bytes whose number is known the words tell each. -/
theorem chunks_append_inj {a b : List UInt8} (same : a.length = b.length)
    (h : chunks a ++ u = chunks b ++ v) : a = b ∧ u = v := by
  -- The induction takes off a word of each.
  induction size : a.length using Nat.strong_induction_on generalizing a b with
  | _ n ih =>
    by_cases none : a = []
    · subst none
      have none' : b = [] := List.length_eq_zero_iff.mp same.symm
      subst none'
      exact ⟨rfl, h⟩
    · have some' : b ≠ [] := by
        intro none'
        rw [none', List.length_nil, List.length_eq_zero_iff] at same
        exact none same
      rw [chunks_of_ne_nil none, chunks_of_ne_nil some'] at h
      obtain ⟨word, rest⟩ := List.cons.inj h
      have first : a.take 8 = b.take 8 :=
        eq_of_littleEndian_eq (by simp) (by simp [same]) word
      have fewer : (a.drop 8).length < n := by
        have := List.length_pos_of_ne_nil none
        rw [List.length_drop]
        omega
      obtain ⟨later, behind⟩ := ih _ fewer (by simp [same]) rest rfl
      refine ⟨?_, behind⟩
      rw [← List.take_append_drop 8 a, first, later, List.take_append_drop]

/-! ## Texts -/

/-- The length of a text fits a word. -/
def Fits (s : String) : Prop :=
  s.utf8ByteSize < 2 ^ 64

theorem ofText_append_inj {s t : String} (hs : Fits s) (ht : Fits t)
    (h : ofText s ++ u = ofText t ++ v) : s = t ∧ u = v := by
  obtain ⟨sizes, rest⟩ := List.cons.inj h
  have same : s.utf8ByteSize = t.utf8ByteSize := by
    rw [← UInt64.toNat_ofNat_of_lt' hs, sizes, UInt64.toNat_ofNat_of_lt' ht]
  obtain ⟨bytes, behind⟩ := chunks_append_inj (a := s.toUTF8.data.toList) same rest
  have arrays : s.toByteArray = t.toByteArray := ByteArray.ext (Array.toList_inj.mp bytes)
  exact ⟨String.toByteArray_inj.mp arrays, behind⟩

/-! ## Numbers -/

theorem ofInt64_append_inj {m n : Int64} (h : ofInt64 m ++ u = ofInt64 n ++ v) :
    m = n ∧ u = v := by
  obtain ⟨values, rest⟩ := List.cons.inj h
  exact ⟨Int64.toBitVec_inj.mp (congrArg UInt64.toBitVec values), rest⟩

theorem int32_toInt64_injective : Function.Injective Int32.toInt64 := by
  intro m n same
  rw [← Int32.toInt_inj, ← Int32.toInt_toInt64, same, Int32.toInt_toInt64]

theorem int16_toInt64_injective : Function.Injective Int16.toInt64 := by
  intro m n same
  rw [← Int16.toInt_inj, ← Int16.toInt_toInt64, same, Int16.toInt_toInt64]

theorem ofBool_append_inj {a b : Bool} (h : ofBool a ++ u = ofBool b ++ v) : a = b ∧ u = v := by
  cases a <;> cases b <;> simp_all [ofBool]

end Hash

/-! ## Handles and members -/

variable {u v : List UInt64}

open Hash

namespace Handle

/-- What is hashed of a handle. -/
def hashed (h : Handle) : Handle :=
  { h with isInterface := false }

def texts (h : Handle) : List String :=
  [h.name, h.owner, h.descriptor]

theorem words_append_inj {h k : Handle} (hh : ∀ s ∈ h.texts, Fits s) (hk : ∀ s ∈ k.texts, Fits s)
    (same : h.words ++ u = k.words ++ v) : h.hashed = k.hashed ∧ u = v := by
  obtain ⟨kind, owner, name, descriptor, isInterface⟩ := h
  obtain ⟨kind', owner', name', descriptor', isInterface'⟩ := k
  simp only [texts, List.forall_mem_cons] at hh hk
  simp only [words, List.append_assoc, List.singleton_append] at same
  obtain ⟨names, rest⟩ := ofText_append_inj hh.1 hk.1 same
  obtain ⟨owners, rest⟩ := ofText_append_inj hh.2.1 hk.2.1 rest
  obtain ⟨kinds, rest⟩ := List.cons.inj rest
  obtain ⟨descriptors, rest⟩ := ofText_append_inj hh.2.2.1 hk.2.2.1 rest
  refine ⟨?_, rest⟩
  rw [names, owners, UInt8.toUInt64_inj.mp kinds, descriptors]
  rfl

theorem eq_of_hashed_eq {h k : Handle} (same : h.hashed = k.hashed)
    (owners : h.isInterface = k.isInterface) : h = k := by
  cases h
  cases k
  simp_all [hashed]

/-- What is not hashed does not count. -/
@[simp] theorem words_hashed (h : Handle) : h.hashed.words = h.words := rfl

end Handle

namespace Member

def texts (m : Member) : List String :=
  [m.owner, m.name, m.descriptor]

theorem texts_append_inj {m n : Member} (hm : ∀ s ∈ m.texts, Fits s) (hn : ∀ s ∈ n.texts, Fits s)
    (same : ofText m.owner ++ (ofText m.name ++ (ofText m.descriptor ++ u)) =
      ofText n.owner ++ (ofText n.name ++ (ofText n.descriptor ++ v))) :
    m.owner = n.owner ∧ m.name = n.name ∧ m.descriptor = n.descriptor ∧ u = v := by
  simp only [texts, List.forall_mem_cons] at hm hn
  obtain ⟨owners, rest⟩ := ofText_append_inj hm.1 hn.1 same
  obtain ⟨names, rest⟩ := ofText_append_inj hm.2.1 hn.2.1 rest
  obtain ⟨descriptors, rest⟩ := ofText_append_inj hm.2.2.1 hn.2.2.1 rest
  exact ⟨owners, names, descriptors, rest⟩

end Member

/-! ## Constants -/

namespace Constant

/-- What is hashed of a constant. -/
def hashed : Constant → Constant
  | dynamic name descriptor bootstrap => dynamic name descriptor bootstrap.hashed
  | c => c

def texts : Constant → List String
  | string value => [value]
  | classRef name => [name]
  | methodType descriptor => [descriptor]
  | methodHandle handle => handle.texts
  | dynamic name descriptor bootstrap => name :: descriptor :: bootstrap.texts
  | _ => []

/-- The number of a constant's type. -/
def tag : Constant → UInt64
  | null => 0
  | int _ => 1
  | float _ => 2
  | long _ => 3
  | double _ => 4
  | string _ => 5
  | classRef _ => 6
  | methodType _ => 7
  | methodHandle _ => 8
  | dynamic .. => 9

theorem tag_bounds {c : Constant} (some : c ≠ null) : 1 ≤ c.tag ∧ c.tag ≤ 9 := by
  cases c with
  | null => exact absurd rfl some
  | _ => simp [tag]

theorem exists_words_eq_cons (c : Constant) : ∃ rest, c.words = c.tag :: rest := by
  cases c <;> exact ⟨_, rfl⟩

@[simp] theorem words_hashed (c : Constant) : c.hashed.words = c.words := by
  cases c <;> rfl

theorem words_append_inj {c d : Constant} (hc : ∀ s ∈ c.texts, Fits s)
    (hd : ∀ s ∈ d.texts, Fits s) (same : c.words ++ u = d.words ++ v) :
    c.hashed = d.hashed ∧ u = v := by
  have tags : c.tag = d.tag := by
    obtain ⟨rest, hrest⟩ := c.exists_words_eq_cons
    obtain ⟨rest', hrest'⟩ := d.exists_words_eq_cons
    rw [hrest, hrest'] at same
    exact (List.cons.inj same).1
  -- Two constants of different types differ in the first word.
  cases c <;> cases d <;> simp [tag] at tags
  case null.null => exact ⟨rfl, (List.cons.inj same).2⟩
  case int.int =>
    obtain ⟨values, rest⟩ := ofInt64_append_inj (List.cons.inj same).2
    exact ⟨congrArg int (int32_toInt64_injective values), rest⟩
  case float.float =>
    obtain ⟨bits, rest⟩ := List.cons.inj (List.cons.inj same).2
    exact ⟨congrArg float (UInt32.toUInt64_inj.mp bits), rest⟩
  case long.long =>
    obtain ⟨values, rest⟩ := ofInt64_append_inj (List.cons.inj same).2
    exact ⟨congrArg long values, rest⟩
  case double.double =>
    obtain ⟨bits, rest⟩ := List.cons.inj (List.cons.inj same).2
    exact ⟨congrArg double bits, rest⟩
  case string.string =>
    obtain ⟨values, rest⟩ :=
      ofText_append_inj (hc _ (.head _)) (hd _ (.head _)) (List.cons.inj same).2
    exact ⟨congrArg string values, rest⟩
  case classRef.classRef =>
    obtain ⟨names, rest⟩ :=
      ofText_append_inj (hc _ (.head _)) (hd _ (.head _)) (List.cons.inj same).2
    exact ⟨congrArg classRef names, rest⟩
  case methodType.methodType =>
    obtain ⟨descriptors, rest⟩ :=
      ofText_append_inj (hc _ (.head _)) (hd _ (.head _)) (List.cons.inj same).2
    exact ⟨congrArg methodType descriptors, rest⟩
  case methodHandle.methodHandle h k =>
    simp only [words, List.cons_append, List.append_assoc, List.cons.injEq, true_and] at same
    obtain ⟨handles, rest⟩ := Handle.words_append_inj hc hd same
    obtain ⟨owners, rest⟩ := ofBool_append_inj rest
    exact ⟨congrArg methodHandle (Handle.eq_of_hashed_eq handles owners), rest⟩
  case dynamic.dynamic =>
    simp only [words, List.cons_append, List.append_assoc, List.cons.injEq, true_and] at same
    simp only [texts, List.forall_mem_cons] at hc hd
    obtain ⟨names, rest⟩ := ofText_append_inj hc.1 hd.1 same
    obtain ⟨descriptors, rest⟩ := ofText_append_inj hc.2.1 hd.2.1 rest
    obtain ⟨bootstraps, rest⟩ := Handle.words_append_inj hc.2.2 hd.2.2 rest
    refine ⟨?_, rest⟩
    rw [hashed, hashed, names, descriptors, bootstraps]

end Constant

end Recompose
