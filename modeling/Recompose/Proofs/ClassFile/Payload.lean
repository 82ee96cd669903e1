import Recompose.Proofs.ClassFile.Sections
import Recompose.Scope.Analysis

/-!
Bodies exchanged in the bytes of a class. A body is taken apart when its class is read, and its code
is decoded when its method is analyzed: a payload that is no body refuses the whole class, and any
other one, whatever its code, changes what comes of its own method alone.
-/

namespace Recompose

open Bytes
open Read (Takes)

/-! ## Tables of results -/

section

variable {α β : Type} {f : α → Except Error β} {l : List α} {results : List β}

/-- Results stand where what they come from does. -/
theorem rel_getElem?_of_mapM (h : l.mapM f = .ok results) (k : Nat) :
    Option.Rel (fun a b => f a = .ok b) l[k]? results[k]? := by
  induction l generalizing results k with
  | nil =>
    cases h
    exact .none
  | cons a l ih =>
    rw [List.mapM_cons] at h
    obtain ⟨b, first, h⟩ := exists_ok_of_bind h
    obtain ⟨results', rest, h⟩ := exists_ok_of_bind h
    cases h
    cases k with
    | zero => exact .some first
    | succ k => exact ih rest k

theorem exists_result_of_mapM (h : l.mapM f = .ok results) {k : Nat} {a : α}
    (there : l[k]? = some a) : ∃ b, results[k]? = some b ∧ f a = .ok b := by
  have rel := rel_getElem?_of_mapM h k
  rw [there] at rel
  generalize results[k]? = result at rel ⊢
  cases rel with
  | some same => exact ⟨_, rfl, same⟩

theorem exists_source_of_mapM (h : l.mapM f = .ok results) {k : Nat} {b : β}
    (there : results[k]? = some b) : ∃ a, l[k]? = some a ∧ f a = .ok b := by
  have rel := rel_getElem?_of_mapM h k
  rw [there] at rel
  generalize l[k]? = source at rel ⊢
  cases rel with
  | some same => exact ⟨_, rfl, same⟩

theorem modify_eq_set {k : Nat} {a : α} (there : l[k]? = some a) (g : α → α) :
    l.modify k g = l.set k (g a) := by
  rw [List.modify_eq_set_getElem?, there]
  rfl

theorem forall_mem_modify {P : α → Prop} (h : ∀ x ∈ l, P x) {k : Nat} {a : α}
    (there : l[k]? = some a) {g : α → α} (changed : P (g a)) : ∀ x ∈ l.modify k g, P x := by
  rw [modify_eq_set there]
  intro x mem
  rcases List.mem_or_eq_of_mem_set mem with old | rfl
  · exact h x old
  · exact changed

/-- Where one item is changed, so is its result, and no other. -/
theorem mapM_modify (h : l.mapM f = .ok results) {k : Nat} {a : α} (there : l[k]? = some a)
    (g : α → α) : (l.modify k g).mapM f = (f (g a)).map (results.set k ·) := by
  induction l generalizing results k with
  | nil => cases there
  | cons a' l ih =>
    rw [List.mapM_cons] at h
    obtain ⟨b, first, h⟩ := exists_ok_of_bind h
    obtain ⟨results', rest, h⟩ := exists_ok_of_bind h
    cases h
    cases k with
    | zero =>
      cases there
      rw [List.modify_zero_cons, List.mapM_cons, rest]
      cases f (g a) <;> rfl
    | succ k =>
      rw [List.modify_succ_cons, List.mapM_cons, first, ih rest there]
      cases f (g a) <;> rfl

end

/-! ## Methods -/

namespace Method

def withCode (m : Method) (code : Code) : Method :=
  { m with code := some code }

variable {pool : Pool} {m m' : Method} {attributes : List Attribute}

theorem addAttribute_withCode {a : Attribute} (other : a.name ≠ Attribute.codeName) (m : Method)
    (code : Code) :
    addAttribute pool (m.withCode code) a = (addAttribute pool m a).map (·.withCode code) := by
  unfold addAttribute
  rw [if_neg other, if_neg other]
  split
  · cases Annotation.parseAll pool a.data <;> rfl
  · rfl

/-- Other attributes do not look at the body. -/
theorem addAttributes_withCode (others : ∀ a ∈ attributes, a.name ≠ Attribute.codeName) (m : Method)
    (code : Code) :
    addAttributes pool (m.withCode code) attributes =
      (addAttributes pool m attributes).map (·.withCode code) := by
  induction attributes generalizing m with
  | nil => rfl
  | cons a attributes ih =>
    obtain ⟨other, others⟩ := List.forall_mem_cons.mp others
    rw [addAttributes, addAttributes, List.foldlM_cons, List.foldlM_cons,
      addAttribute_withCode other]
    cases addAttribute pool m a with
    | ok m₁ => exact ih others m₁
    | error e => rfl

theorem addAttribute_code {a : Attribute} (other : a.name ≠ Attribute.codeName) (m : Method) :
    Ensures (addAttribute pool m a) fun m' => m'.code = m.code := by
  rw [addAttribute, if_neg other]
  split
  · exact (Ensures.any _).bind fun _ _ => .pure rfl
  · exact .pure rfl

/-- A method that has a body takes no second one. -/
theorem others_of_addAttributes (h : addAttributes pool m attributes = .ok m')
    (held : m.code.isSome) : ∀ a ∈ attributes, a.name ≠ Attribute.codeName := by
  induction attributes generalizing m with
  | nil => exact List.forall_mem_nil _
  | cons a attributes ih =>
    rw [addAttributes, List.foldlM_cons] at h
    obtain ⟨m₁, first, rest⟩ := exists_ok_of_bind h
    have other : a.name ≠ Attribute.codeName := by
      intro second
      rw [addAttribute, if_pos second, if_pos held] at first
      cases first
    have kept := (addAttribute_code other m).of_ok first
    exact List.forall_mem_cons.mpr ⟨other, ih rest (kept ▸ held)⟩

/-- A body comes from an attribute. -/
theorem exists_code_of_addAttributes (h : addAttributes pool m attributes = .ok m')
    (bare : m.code = none) (held : m'.code.isSome) :
    ∃ (k : Nat) (a : Attribute), attributes[k]? = some a ∧ a.name = Attribute.codeName := by
  induction attributes generalizing m with
  | nil =>
    cases h
    rw [bare] at held
    cases held
  | cons a attributes ih =>
    by_cases code : a.name = Attribute.codeName
    · exact ⟨0, a, rfl, code⟩
    · rw [addAttributes, List.foldlM_cons] at h
      obtain ⟨m₁, first, rest⟩ := exists_ok_of_bind h
      have kept := (addAttribute_code code m).of_ok first
      obtain ⟨k, a', there, code'⟩ := ih rest (kept.trans bare)
      exact ⟨k + 1, a', there, code'⟩

/-- Another payload of the body is another body of the method, or refused with the method. -/
theorem addAttributes_set (h : addAttributes pool m attributes = .ok m') {k : Nat} {a : Attribute}
    (there : attributes[k]? = some a) (code : a.name = Attribute.codeName) (data : List UInt8) :
    addAttributes pool m (attributes.set k { a with data }) =
      (Code.parse pool data).map m'.withCode := by
  induction attributes generalizing m k with
  | nil => cases there
  | cons a' attributes ih =>
    rw [addAttributes, List.foldlM_cons] at h
    obtain ⟨m₁, first, rest⟩ := exists_ok_of_bind h
    cases k with
    | zero =>
      cases there
      rw [addAttribute, if_pos code] at first
      split at first
      · cases first
      · next free =>
        obtain ⟨old, -, same⟩ := exists_ok_of_bind first
        cases same
        have others := others_of_addAttributes rest rfl
        have exchanged (new : Code) :
            addAttributes pool (m.withCode new) attributes = .ok (m'.withCode new) :=
          (addAttributes_withCode others (m.withCode old) new).trans (congrArg (Except.map _) rest)
        rw [List.set_cons_zero, addAttributes, List.foldlM_cons, addAttribute, if_pos code,
          if_neg free]
        cases Code.parse pool data with
        | error e => rfl
        | ok new => exact exchanged new
    | succ k =>
      rw [List.set_cons_succ, addAttributes, List.foldlM_cons, first]
      exact ih rest there

end Method

/-! ## Payloads exchanged -/

namespace RawMethod

/-- The method with another payload in one of its attributes. -/
def withPayload (m : RawMethod) (k : Nat) (data : List UInt8) : RawMethod :=
  { m with attributes := m.attributes.modify k fun a => { a with data } }

variable {pool : Pool} {className : String} {raw : RawMethod} {m : Method}

/-- A method with a body has an attribute that holds it. -/
theorem exists_code_of_meaning (h : raw.meaning pool className = .ok m) (held : m.code.isSome) :
    ∃ (k : Nat) (a : RawAttribute), raw.attributes[k]? = some a ∧
      pool.utf8 a.name = .ok Attribute.codeName := by
  obtain ⟨name, named, h⟩ := exists_ok_of_bind h
  obtain ⟨descriptor, typed, h⟩ := exists_ok_of_bind h
  obtain ⟨attributes, known, added⟩ := exists_ok_of_bind h
  obtain ⟨k, a, there, code⟩ := Method.exists_code_of_addAttributes added rfl held
  obtain ⟨a', there', meant⟩ := exists_source_of_mapM known there
  obtain ⟨text, named', same⟩ := exists_ok_of_bind meant
  cases same
  exact ⟨k, a', there', named'.trans (congrArg _ code)⟩

theorem meaning_withPayload (h : raw.meaning pool className = .ok m) {k : Nat} {a : RawAttribute}
    (there : raw.attributes[k]? = some a) (code : pool.utf8 a.name = .ok Attribute.codeName)
    (data : List UInt8) :
    (raw.withPayload k data).meaning pool className = (Code.parse pool data).map m.withCode := by
  obtain ⟨name, named, h⟩ := exists_ok_of_bind h
  obtain ⟨descriptor, typed, h⟩ := exists_ok_of_bind h
  obtain ⟨attributes, known, added⟩ := exists_ok_of_bind h
  have meant (data : List UInt8) :
      RawAttribute.meaning pool { a with data } = .ok ⟨Attribute.codeName, data⟩ := by
    rw [RawAttribute.meaning, code]
    rfl
  obtain ⟨_, there', same⟩ := exists_result_of_mapM known there
  cases (meant a.data).symm.trans same
  have changed := mapM_modify known there fun a => { a with data }
  rw [meant] at changed
  have exchanged := Method.addAttributes_set added there' rfl data
  dsimp only [meaning, withPayload]
  rw [named, typed, changed]
  exact exchanged

theorem Fits.withPayload (h : raw.Fits) {k : Nat} {a : RawAttribute}
    (there : raw.attributes[k]? = some a) {data : List UInt8} (short : data.length < 2 ^ 32) :
    (raw.withPayload k data).Fits :=
  ⟨(List.length_modify ..).trans_le h.1, forall_mem_modify h.2 there short⟩

end RawMethod

namespace ClassFile

/-- The class with another body of the method at `j`. -/
def withCode (c : ClassFile) (j : Nat) (code : Code) : ClassFile :=
  { c with methods := c.methods.modify j (·.withCode code) }

def withMethods (c : ClassFile) (methods : List Method) : ClassFile :=
  { c with methods }

/-- The attributes of a class do not look at its methods. -/
theorem addAttributes_withMethods (c : ClassFile) (methods : List Method)
    (attributes : List Attribute) :
    (c.withMethods methods).addAttributes attributes =
      (c.addAttributes attributes).map (·.withMethods methods) := by
  induction attributes generalizing c with
  | nil => rfl
  | cons a attributes ih =>
    have first : (c.withMethods methods).addAttribute a =
        (c.addAttribute a).map (·.withMethods methods) := by
      unfold addAttribute
      split
      · cases Bootstrap.parseTable a.data <;> rfl
      · rfl
    rw [addAttributes, addAttributes, List.foldlM_cons, List.foldlM_cons, first]
    cases c.addAttribute a with
    | ok c₁ => exact ih c₁
    | error e => rfl

end ClassFile

namespace RawClass

open ClassFile (Front)

/-- The class with another payload in attribute `k` of method `j`. -/
def withPayload (c : RawClass) (j k : Nat) (data : List UInt8) : RawClass :=
  { c with methods := c.methods.modify j (·.withPayload k data) }

variable {f : Front} {raw : RawClass} {c : ClassFile}

/-- **Another payload of a body is another body of its method, or refuses the class.** -/
theorem meaning_withPayload (h : raw.meaning f = .ok c) {j k : Nat} {m : RawMethod}
    {a : RawAttribute} (method : raw.methods[j]? = some m) (body : m.attributes[k]? = some a)
    (code : c.pool.utf8 a.name = .ok Attribute.codeName) (data : List UInt8) :
    (raw.withPayload j k data).meaning f = (Code.parse c.pool data).map (c.withCode j) := by
  obtain ⟨methods, known, h⟩ := exists_ok_of_bind h
  obtain ⟨attributes, known', added⟩ := exists_ok_of_bind h
  obtain ⟨-, pool, same⟩ := (ClassFile.addAttributes_keeps _ _).of_ok added
  obtain ⟨m', there, meant⟩ := exists_result_of_mapM known method
  rw [pool] at code ⊢
  have changed := mapM_modify known method (·.withPayload k data)
  rw [RawMethod.meaning_withPayload meant body code] at changed
  have exchanged (new : Code) :
      (f.bare (methods.set j (m'.withCode new))).addAttributes attributes =
        .ok (c.withCode j new) := by
    have others := ClassFile.addAttributes_withMethods (f.bare methods)
      (methods.set j (m'.withCode new)) attributes
    rw [added] at others
    rw [ClassFile.withCode, same]
    show _ = Except.ok (c.withMethods (methods.modify j (·.withCode new)))
    rw [modify_eq_set there]
    exact others
  dsimp only [meaning, withPayload]
  rw [changed, known']
  show _ = (Code.parse f.header.pool data).map (c.withCode j)
  cases Code.parse f.header.pool data with
  | ok new => exact exchanged new
  | error e => rfl

/-- A method of the class comes from one in the table. -/
theorem exists_method_of_meaning (h : raw.meaning f = .ok c) {j : Nat} {m : Method}
    (there : c.methods[j]? = some m) : ∃ rawMethod, raw.methods[j]? = some rawMethod ∧
      rawMethod.meaning c.pool f.header.name = .ok m := by
  obtain ⟨methods, known, h⟩ := exists_ok_of_bind h
  obtain ⟨attributes, -, added⟩ := exists_ok_of_bind h
  obtain ⟨-, pool, same⟩ := (ClassFile.addAttributes_keeps _ _).of_ok added
  rw [same] at there
  rw [pool]
  exact exists_source_of_mapM known there

theorem Fits.withPayload (h : raw.Fits) {j k : Nat} {m : RawMethod} {a : RawAttribute}
    (method : raw.methods[j]? = some m) (body : m.attributes[k]? = some a) {data : List UInt8}
    (short : data.length < 2 ^ 32) : (raw.withPayload j k data).Fits := by
  have changed := RawMethod.Fits.withPayload (h.1.2 m (List.mem_of_getElem? method)) body short
  exact ⟨⟨(List.length_modify ..).trans_le h.1.1, forall_mem_modify h.1.2 method changed⟩, h.2⟩

end RawClass

/-! ## Outcomes -/

namespace ClassScopes

variable {profile : Profile} {c : ClassFile}

/-- What came of each method of a class, in order. -/
def outcomes (profile : Profile) (c : ClassFile) : List (MethodId × Except Error ScopeTree) :=
  c.methods.map fun m => (m.id, (ofMethod profile c m).1)

def tree? : MethodId × Except Error ScopeTree → Option ScopeTree
  | (_, .ok tree) => some tree
  | (_, .error _) => none

def failure? : MethodId × Except Error ScopeTree → Option (MethodId × Error)
  | (_, .ok _) => none
  | (method, .error e) => some (method, e)

/-- The trees and the failures are those of the outcomes. -/
structure Collects (a : ClassScopes) (outcomes : List (MethodId × Except Error ScopeTree)) :
    Prop where
  trees : a.trees = outcomes.filterMap tree?
  failures : a.failures = outcomes.filterMap failure?

theorem Collects.add {a : ClassScopes} {outcomes : List (MethodId × Except Error ScopeTree)}
    (h : a.Collects outcomes) (method : MethodId) (result : Except Error ScopeTree × List Event) :
    (a.add method result).Collects (outcomes ++ [(method, result.1)]) := by
  obtain ⟨outcome, events⟩ := result
  constructor
  · cases outcome <;> simp [ClassScopes.add, h.trees, tree?]
  · cases outcome <;> simp [ClassScopes.add, h.failures, failure?]

theorem collects_ofClass : (ofClass profile c).Collects (outcomes profile c) := by
  -- The fold from any start collects the outcomes behind those of the start.
  have behind (methods : List Method) : ∀ (a : ClassScopes) before, a.Collects before →
      (methods.foldl (fun a m => a.add m.id (ofMethod profile c m)) a).Collects
        (before ++ methods.map fun m => (m.id, (ofMethod profile c m).1)) := by
    induction methods with
    | nil =>
      intro a before h
      rwa [List.map_nil, List.append_nil]
    | cons m methods ih =>
      intro a before h
      have next := ih _ _ (h.add m.id (ofMethod profile c m))
      rwa [List.append_assoc] at next
  exact behind c.methods (empty c.name) [] ⟨rfl, rfl⟩

theorem outcomes_withCode {j : Nat} {m : Method} (there : c.methods[j]? = some m) (code : Code) :
    outcomes profile (c.withCode j code) =
      (outcomes profile c).set j (m.id, (ofMethod profile c (m.withCode code)).1) := by
  have methods : (c.withCode j code).methods = c.methods.set j (m.withCode code) :=
    modify_eq_set there _
  rw [outcomes, methods, List.map_set]
  rfl

end ClassScopes

/-! ## Files -/

namespace ClassFile

open ClassScopes

/-- **What a payload in place of a body does to a class.** In a file that is accepted every method
with a body has an attribute that holds it. Another payload there refuses the whole file if it is no
body; if it is one, the file is accepted, and what comes of the other methods stays. -/
theorem parse_withPayload {bytes : List UInt8} {c : ClassFile} (h : parse bytes = .ok c) :
    ∃ front f raw, bytes = front ++ RawClass.layout raw ∧ Takes Front.read front f ∧ raw.Fits ∧
      ∀ j m, c.methods[j]? = some m → m.code.isSome →
        ∃ rawMethod k a, raw.methods[j]? = some rawMethod ∧ rawMethod.attributes[k]? = some a ∧
          c.pool.utf8 a.name = .ok Attribute.codeName ∧ ∀ data, data.length < 2 ^ 32 →
            (∀ e, Code.parse c.pool data = .error e →
              parse (front ++ (raw.withPayload j k data).layout) = .error e) ∧
            ∀ code, Code.parse c.pool data = .ok code →
              parse (front ++ (raw.withPayload j k data).layout) = .ok (c.withCode j code) ∧
                ∀ profile, (ofClass profile c).Collects (outcomes profile c) ∧
                  (ofClass profile (c.withCode j code)).Collects ((outcomes profile c).set j
                    (m.id, (ofMethod profile c (m.withCode code)).1)) := by
  obtain ⟨front, f, raw, rfl, takes, fits, meant⟩ := exists_sections h
  refine ⟨front, f, raw, rfl, takes, fits, fun j m there held => ?_⟩
  obtain ⟨rawMethod, method, rawMethodMeant⟩ := raw.exists_method_of_meaning meant there
  obtain ⟨k, a, body, code⟩ := RawMethod.exists_code_of_meaning rawMethodMeant held
  refine ⟨rawMethod, k, a, method, body, code, fun data short => ?_⟩
  have parsed := parse_sections takes (fits.withPayload method body short)
  rw [RawClass.meaning_withPayload meant method body code] at parsed
  refine ⟨fun e refused => ?_, fun new accepted => ⟨?_, fun profile => ⟨collects_ofClass, ?_⟩⟩⟩
  · rw [parsed, refused]
    rfl
  · rw [parsed, accepted]
    rfl
  · rw [← outcomes_withCode there]
    exact collects_ofClass

/-- The front of a class App whose pool has the names of two methods, run and stop. -/
def appFront : List UInt8 :=
  [0xCA, 0xFE, 0xBA, 0xBE, 0, 0, 0, 52, 0, 7, 1, 0, 3, 0x41, 0x70, 0x70, 7, 0, 1, 1, 0, 4, 0x43, 0x6F,
    0x64, 0x65, 1, 0, 3, 0x72, 0x75, 0x6E, 1, 0, 4, 0x73, 0x74, 0x6F, 0x70, 1, 0, 3, 0x28, 0x29, 0x56,
    0, 0x20, 0, 2, 0, 0, 0, 0, 0, 0]

/-- Its two methods return at once. -/
def appTables : RawClass :=
  ⟨[⟨9, 4, 6, [⟨3, [0, 0, 0, 0, 0, 0, 0, 1, 0xB1, 0, 0, 0, 0]⟩]⟩,
    ⟨9, 5, 6, [⟨3, [0, 0, 0, 0, 0, 0, 0, 1, 0xB1, 0, 0, 0, 0]⟩]⟩], []⟩

theorem exists_parse_app : ∃ c, parse (appFront ++ appTables.layout) = .ok c ∧
    c.pool.utf8 3 = .ok Attribute.codeName ∧ ∃ m, c.methods[0]? = some m ∧ m.code.isSome := by
  have known : (parse (appFront ++ appTables.layout)).toOption.any (fun c =>
      c.pool.utf8 3 = .ok Attribute.codeName && c.methods[0]?.any (·.code.isSome)) = true := by
    decide +kernel
  cases accepted : parse (appFront ++ appTables.layout) with
  | error e =>
    rw [accepted] at known
    cases known
  | ok c =>
    rw [accepted] at known
    obtain ⟨code, held⟩ := Bool.and_eq_true_iff.mp known
    cases there : c.methods[0]? with
    | none =>
      rw [there] at held
      cases held
    | some m =>
      rw [there] at held
      exact ⟨c, rfl, of_decide_eq_true code, m, there, held⟩

theorem exists_takes_appFront : ∃ f, Takes Front.read appFront f := by
  have whole : (match Front.read ⟨0, appFront⟩ with
      | .ok _ k => k.rest.isEmpty
      | .error _ _ => false) = true := by
    decide +kernel
  split at whole
  · next f k read =>
    obtain ⟨used, split, takes, -⟩ := Front.length_read.of_ok read
    rw [List.isEmpty_iff.mp whole, List.append_nil] at split
    obtain rfl : appFront = used := split
    exact ⟨f, takes⟩
  · cases whole

/-- Without any bytes in place of a body the class is refused; a body of a reserved opcode is taken. -/
theorem parse_withPayload_app :
    ∃ c front raw k, parse (appFront ++ appTables.layout) = .ok c ∧
      appFront ++ appTables.layout = front ++ RawClass.layout raw ∧
      parse (front ++ (raw.withPayload 0 k []).layout) = .error .outOfBounds ∧
      parse (front ++ (raw.withPayload 0 k [0, 0, 0, 0, 0, 0, 0, 1, 0xFF, 0, 0, 0, 0]).layout) =
        .ok (c.withCode 0 ⟨0, 0, [0xFF], [], []⟩) := by
  obtain ⟨c, accepted, -, m, there, held⟩ := exists_parse_app
  obtain ⟨front, f, raw, same, -, -, each⟩ := parse_withPayload accepted
  obtain ⟨-, k, -, -, -, -, payloads⟩ := each 0 m there held
  have refused := (payloads [] (by decide)).1 .outOfBounds rfl
  have taken := (payloads [0, 0, 0, 0, 0, 0, 0, 1, 0xFF, 0, 0, 0, 0] (by decide)).2
    ⟨0, 0, [0xFF], [], []⟩ rfl
  exact ⟨c, front, raw, k, accepted, same, refused, taken.1⟩

/-- **A body that is none costs all methods of its class**, not its own alone. -/
theorem body_not_isolated :
    ¬∀ front f raw c, Takes Front.read front f → RawClass.Fits raw →
      parse (front ++ raw.layout) = .ok c → ∀ j k m a data, raw.methods[j]? = some m →
        m.attributes[k]? = some a → c.pool.utf8 a.name = .ok Attribute.codeName →
        data.length < 2 ^ 32 →
        ∃ c', parse (front ++ (raw.withPayload j k data).layout) = .ok c' ∧
          ∀ profile, ∃ outcome,
            (ofClass profile c').Collects ((outcomes profile c).set j outcome) := by
  intro claim
  obtain ⟨c, accepted, code, -⟩ := exists_parse_app
  obtain ⟨f, takes⟩ := exists_takes_appFront
  have fits : appTables.Fits := by decide
  obtain ⟨c', taken, -⟩ := claim appFront f appTables c takes fits accepted 0 0 _ _ [] rfl rfl code
    (by decide)
  have refused : (parse (appFront ++ (appTables.withPayload 0 0 []).layout)).toOption.isNone := by
    decide +kernel
  rw [taken] at refused
  cases refused

end ClassFile

end Recompose
