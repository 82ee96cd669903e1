import Recompose.Proofs.Instruction.Regular

/-!
How far the words of a hash tell sequences of instructions apart. They tell where each instruction
ends, with one exception: nothing marks the end of a call site's arguments, so an instruction behind
it may have the words of one more argument. Main result: two decoded sequences of the same words
agree in all that is hashed, or they part at such a call site.
-/

namespace Recompose

variable {u v : List UInt64}

namespace Constant

/-- The second list has more constants, whose words follow those of the first list. -/
def Overlap (cs ds : List Constant) (u v : List UInt64) : Prop :=
  ∃ c more, c ≠ .null ∧ ds.map hashed = cs.map hashed ++ (c :: more).map hashed ∧
    u = (c :: more).flatMap words ++ v

theorem Overlap.cons {c d : Constant} {cs ds : List Constant} (same : c.hashed = d.hashed)
    (h : Overlap cs ds u v) : Overlap (c :: cs) (d :: ds) u v := by
  obtain ⟨e, more, some, longer, run⟩ := h
  refine ⟨e, more, some, ?_, run⟩
  rw [List.map_cons, List.map_cons, longer, same, List.cons_append]

/-- The words of two lists of constants tell all but where the shorter list ends. -/
theorem flatMap_words_append {cs ds : List Constant}
    (hc : ∀ c ∈ cs, c ≠ .null ∧ ∀ s ∈ c.texts, Hash.Fits s)
    (hd : ∀ d ∈ ds, d ≠ .null ∧ ∀ s ∈ d.texts, Hash.Fits s)
    (same : cs.flatMap words ++ u = ds.flatMap words ++ v) :
    (cs.map hashed = ds.map hashed ∧ u = v) ∨ Overlap cs ds u v ∨ Overlap ds cs v u := by
  induction cs generalizing ds with
  | nil =>
    cases ds with
    | nil => exact .inl ⟨rfl, same⟩
    | cons d ds => exact .inr (.inl ⟨d, ds, (hd d List.mem_cons_self).1, rfl, same⟩)
  | cons c cs ih =>
    cases ds with
    | nil => exact .inr (.inr ⟨c, cs, (hc c List.mem_cons_self).1, rfl, same.symm⟩)
    | cons d ds =>
      rw [List.forall_mem_cons] at hc hd
      rw [List.flatMap_cons, List.flatMap_cons, List.append_assoc, List.append_assoc] at same
      obtain ⟨first, rest⟩ := words_append_inj hc.1.2 hd.1.2 same
      rcases ih hc.2 hd.2 rest with ⟨later, behind⟩ | overlap | overlap
      · refine .inl ⟨?_, behind⟩
        rw [List.map_cons, List.map_cons, first, later]
      · exact .inr (.inl (overlap.cons first))
      · exact .inr (.inr (overlap.cons first.symm))

end Constant

namespace Instruction

/-- What is hashed of an instruction. -/
def hashed : Instruction → Instruction
  | constant opcode value => constant opcode value.hashed
  | dynamic name descriptor bootstrap arguments =>
    dynamic name descriptor bootstrap.hashed (arguments.map Constant.hashed)
  | field opcode target => field opcode { target with isInterface := false }
  | i => i

@[simp] theorem words_hashed (i : Instruction) : i.hashed.words = i.words := by
  cases i with
  | constant opcode value =>
    show opcode.toUInt64 :: value.hashed.words = opcode.toUInt64 :: value.words
    rw [Constant.words_hashed]
  | dynamic name descriptor bootstrap arguments =>
    simp [words, hashed, opcodeWord, opcode?, operandWords, List.flatMap_map]
  | _ => rfl

@[simp] theorem opcodeWord_hashed (i : Instruction) : i.hashed.opcodeWord = i.opcodeWord := by
  cases i <;> rfl

/-! ## Single instructions -/

/-- No opcode is taken for a label. -/
theorem Regular.shape_eq_of_opcodeWord {i j : Instruction} (hi : i.Regular) (hj : j.Regular)
    (same : i.opcodeWord = j.opcodeWord) : i.shape = j.shape := by
  have noLabel (opcode : UInt8) : opcode.toUInt64 ≠ 0xFFFFFFFFFFFFFFFF := by
    intro same
    have number : opcode.toNat = 2 ^ 64 - 1 := congrArg UInt64.toNat same
    have := opcode.toNat_lt
    omega
  have ofLabel {i : Instruction} (none : i.opcode? = none) : i.shape = .label := by
    cases i <;> first | rfl | cases none
  unfold opcodeWord at same
  split at same
  · next opcode known =>
    split at same
    · next opcode' known' =>
      rw [hi.shape_eq known, hj.shape_eq known', UInt8.toUInt64_inj.mp same]
    · exact absurd same (noLabel opcode)
  · next none =>
    split at same
    · next opcode' known' => exact absurd same.symm (noLabel opcode')
    · next none' => rw [ofLabel none, ofLabel none']

/-- But for call sites, words tell all that is hashed of an instruction, and where it ends. -/
theorem words_append_inj {i j : Instruction} (hi : i.Regular) (hj : j.Regular)
    (noSite : i.shape ≠ .dynamic) (same : i.words ++ u = j.words ++ v) :
    i.hashed = j.hashed ∧ u = v := by
  obtain ⟨opcodes, operands⟩ :
      i.opcodeWord = j.opcodeWord ∧ i.operandWords ++ u = j.operandWords ++ v := List.cons.inj same
  have shapes := hi.shape_eq_of_opcodeWord hj opcodes
  -- Instructions of one shape are compared operand by operand.
  cases i <;> cases j <;> simp only [shape, reduceCtorEq, Shape.slot.injEq] at shapes
  case call.call opcode m opcode' n =>
    obtain rfl := UInt8.toUInt64_inj.mp opcodes
    simp only [operandWords, List.append_assoc] at operands
    obtain ⟨owners, names, descriptors, rest⟩ := Member.texts_append_inj hi.2 hj.2 operands
    obtain ⟨kinds, rest⟩ := Hash.ofBool_append_inj rest
    refine ⟨?_, rest⟩
    cases m
    cases n
    simp_all
  case field.field opcode m opcode' n =>
    obtain rfl := UInt8.toUInt64_inj.mp opcodes
    simp only [operandWords, List.append_assoc] at operands
    obtain ⟨owners, names, descriptors, rest⟩ := Member.texts_append_inj hi.2 hj.2 operands
    refine ⟨?_, rest⟩
    rw [hashed, hashed, owners, names, descriptors]
  case constant.constant opcode c opcode' d =>
    obtain rfl := UInt8.toUInt64_inj.mp opcodes
    obtain ⟨values, rest⟩ := Constant.words_append_inj hi.2 hj.2 operands
    refine ⟨?_, rest⟩
    rw [hashed, hashed, values]
  case dynamic.dynamic => exact absurd rfl noSite
  case immediate.immediate opcode m opcode' n =>
    obtain rfl := UInt8.toUInt64_inj.mp opcodes
    obtain ⟨values, rest⟩ := Hash.ofInt64_append_inj operands
    exact ⟨congrArg (immediate opcode) (Hash.int32_toInt64_injective values), rest⟩
  case slot.slot opcode index step opcode' index' step' =>
    obtain rfl := UInt8.toUInt64_inj.mp opcodes
    cases step <;> cases step' <;> simp at shapes
    case none.none =>
      obtain ⟨indices, rest⟩ := List.cons.inj operands
      exact ⟨congrArg (slot opcode · none) (UInt16.toUInt64_inj.mp indices), rest⟩
    case some.some step step' =>
      obtain ⟨indices, rest⟩ := List.cons.inj operands
      obtain ⟨steps, rest⟩ := Hash.ofInt64_append_inj rest
      refine ⟨?_, rest⟩
      rw [UInt16.toUInt64_inj.mp indices, Hash.int16_toInt64_injective steps]
  case label.label n m =>
    obtain ⟨ordinals, rest⟩ := List.cons.inj operands
    refine ⟨congrArg label ?_, rest⟩
    rw [← UInt64.toNat_ofNat_of_lt' hi, ordinals, UInt64.toNat_ofNat_of_lt' hj]
  case plain.plain opcode opcode' =>
    exact ⟨congrArg plain (UInt8.toUInt64_inj.mp opcodes), operands⟩

/-- A call site and a longer one, whose further arguments make words that follow the first. -/
def Outruns (i j : Instruction) (u v : List UInt64) : Prop :=
  ∃ name descriptor bootstrap cs ds,
    i.hashed = dynamic name descriptor bootstrap (cs.map Constant.hashed) ∧
      j.hashed = dynamic name descriptor bootstrap (ds.map Constant.hashed) ∧
      Constant.Overlap cs ds u v

/-- The words of call sites tell all but where the shorter list of arguments ends. -/
theorem callSite_words_append {name descriptor name' descriptor' : String}
    {bootstrap bootstrap' : Handle} {cs ds : List Constant}
    (hi : (dynamic name descriptor bootstrap cs).Regular)
    (hj : (dynamic name' descriptor' bootstrap' ds).Regular)
    (same : (dynamic name descriptor bootstrap cs).words ++ u =
      (dynamic name' descriptor' bootstrap' ds).words ++ v) :
    ((dynamic name descriptor bootstrap cs).hashed =
        (dynamic name' descriptor' bootstrap' ds).hashed ∧ u = v) ∨
      Outruns (dynamic name descriptor bootstrap cs) (dynamic name' descriptor' bootstrap' ds) u v ∨
      Outruns (dynamic name' descriptor' bootstrap' ds) (dynamic name descriptor bootstrap cs) v u := by
  obtain ⟨texts, hc⟩ := hi
  obtain ⟨texts', hd⟩ := hj
  simp only [List.forall_mem_cons] at texts texts'
  have operands := (List.cons.inj same).2
  simp only [operandWords, List.append_eq, List.append_assoc] at operands
  obtain ⟨names, rest⟩ := Hash.ofText_append_inj texts.1 texts'.1 operands
  obtain ⟨descriptors, rest⟩ := Hash.ofText_append_inj texts.2.1 texts'.2.1 rest
  obtain ⟨bootstraps, rest⟩ := Handle.words_append_inj texts.2.2 texts'.2.2 rest
  rcases Constant.flatMap_words_append hc hd rest with ⟨arguments, rest⟩ | overlap | overlap
  · refine .inl ⟨?_, rest⟩
    rw [hashed, hashed, names, descriptors, bootstraps, arguments]
  · refine .inr (.inl ⟨name, descriptor, _, cs, ds, rfl, ?_, overlap⟩)
    rw [hashed, names, descriptors, bootstraps]
  · refine .inr (.inr ⟨name, descriptor, _, ds, cs, ?_, rfl, overlap⟩)
    rw [hashed, names, descriptors, bootstraps]

theorem words_append {i j : Instruction} (hi : i.Regular) (hj : j.Regular)
    (same : i.words ++ u = j.words ++ v) :
    (i.hashed = j.hashed ∧ u = v) ∨ Outruns i j u v ∨ Outruns j i v u := by
  by_cases site : i.shape = .dynamic
  · have shapes := hi.shape_eq_of_opcodeWord hj (List.cons.inj same).1
    rw [site] at shapes
    cases i <;> cases site
    cases j <;> cases shapes
    exact callSite_words_append hi hj same
  · exact .inl (words_append_inj hi hj site same)

/-! ## Sequences -/

/-- The sequences agree up to a call site that has more arguments in the second one. The first goes
on with an instruction whose opcode, from `aconst_null` to `lconst_0`, is also the number of a
constant's type. -/
def RunsInto (is js : List Instruction) : Prop :=
  ∃ before name descriptor bootstrap arguments more next rest rest',
    is.map hashed = before ++ dynamic name descriptor bootstrap arguments :: next :: rest ∧
      js.map hashed = before ++ dynamic name descriptor bootstrap (arguments ++ more) :: rest' ∧
      more ≠ [] ∧ 1 ≤ next.opcodeWord ∧ next.opcodeWord ≤ 9

theorem RunsInto.cons {i j : Instruction} {is js : List Instruction} (same : i.hashed = j.hashed)
    (h : RunsInto is js) : RunsInto (i :: is) (j :: js) := by
  obtain ⟨before, name, descriptor, bootstrap, arguments, more, next, rest, rest', first, second,
    ends⟩ := h
  refine ⟨i.hashed :: before, name, descriptor, bootstrap, arguments, more, next, rest, rest', ?_,
    ?_, ends⟩
  · rw [List.map_cons, first, List.cons_append]
  · rw [List.map_cons, second, same, List.cons_append]

/-- The words of a further argument start with those of the next instruction. -/
theorem Outruns.runsInto {i j : Instruction} {is js : List Instruction}
    (h : Outruns i j (is.flatMap words) v) : RunsInto (i :: is) (j :: js) := by
  obtain ⟨name, descriptor, bootstrap, cs, ds, first, second, c, more, some, longer, run⟩ := h
  obtain ⟨payload, tagged⟩ := c.exists_words_eq_cons
  cases is with
  | nil =>
    rw [List.flatMap_cons, tagged] at run
    cases run
  | cons next is =>
    have opcodes : next.opcodeWord = c.tag := by
      rw [List.flatMap_cons, List.flatMap_cons, tagged] at run
      exact (List.cons.inj run).1
    refine ⟨[], name, descriptor, bootstrap, cs.map Constant.hashed,
      (c :: more).map Constant.hashed, next.hashed, is.map hashed, js.map hashed, ?_, ?_,
      List.cons_ne_nil _ _, ?_⟩
    · rw [List.map_cons, List.map_cons, first, List.nil_append]
    · rw [List.map_cons, second, longer, List.nil_append]
    · rw [opcodeWord_hashed, opcodes]
      exact Constant.tag_bounds some

theorem hashed_eq_or_runsInto_of_regular {is js : List Instruction} (hi : ∀ i ∈ is, i.Regular)
    (hj : ∀ j ∈ js, j.Regular) (same : is.flatMap words = js.flatMap words) :
    is.map hashed = js.map hashed ∨ RunsInto is js ∨ RunsInto js is := by
  induction is generalizing js with
  | nil =>
    cases js with
    | nil => exact .inl rfl
    | cons j js => cases same
  | cons i is ih =>
    cases js with
    | nil => cases same
    | cons j js =>
      rw [List.forall_mem_cons] at hi hj
      rcases words_append hi.1 hj.1 same with ⟨first, rest⟩ | overlap | overlap
      · rcases ih hi.2 hj.2 rest with later | runs | runs
        · refine .inl ?_
          rw [List.map_cons, List.map_cons, first, later]
        · exact .inr (.inl (runs.cons first))
        · exact .inr (.inr (runs.cons first.symm))
      · exact .inr (.inl overlap.runsInto)
      · exact .inr (.inr overlap.runsInto)

/-- The sequences that bodies of methods are decoded to. -/
def Listed (is : List Instruction) : Prop :=
  ∃ (pool : Pool) (bootstraps : List Bootstrap) (code : Code),
    pool.Loaded ∧ code.bytes.length < 2 ^ 32 ∧ code.instructions pool bootstraps = .ok is

/-- **Words tell decoded sequences apart, but for the end of a call site's arguments.** Sequences of
the same words agree instruction by instruction in all that is hashed, or one runs into the other at
a call site. -/
theorem hashed_eq_or_runsInto {is js : List Instruction} (hi : Listed is) (hj : Listed js)
    (same : is.flatMap words = js.flatMap words) :
    is.map hashed = js.map hashed ∨ RunsInto is js ∨ RunsInto js is := by
  obtain ⟨pool, bootstraps, code, loaded, few, decoded⟩ := hi
  obtain ⟨pool', bootstraps', code', loaded', few', decoded'⟩ := hj
  have regular := (code.regular_instructions loaded bootstraps few).of_ok decoded
  have regular' := (code'.regular_instructions loaded' bootstraps' few').of_ok decoded'
  exact hashed_eq_or_runsInto_of_regular regular regular' same

/-! ## Two sequences of the same words -/

/-- The entries of a class with a call site; the last one is a number. -/
def siteEntries : List Entry :=
  [.utf8 "App", .classRef 1, .utf8 "link", .utf8 "([Ljava/lang/Object;)Ljava/lang/invoke/CallSite;",
    .nameAndType 3 4, .member .method 2 5, .methodHandle 6 6, .utf8 "run", .utf8 "()V",
    .nameAndType 8 9, .callSite 0 10, .integer 0]

def siteBootstrap : Handle :=
  ⟨6, "App", "link", "([Ljava/lang/Object;)Ljava/lang/invoke/CallSite;", false⟩

/-- The number is an argument of the call site. -/
def siteWithNumber : List Instruction :=
  [.dynamic "run" "()V" siteBootstrap [.int 0], .plain 0xB1]

/-- The call site has no arguments, and a null constant follows. -/
def siteBeforeNull : List Instruction :=
  [.dynamic "run" "()V" siteBootstrap [], .constant Opcode.aconstNull .null, .plain 0xB1]

theorem loaded_sitePool : (Pool.start.extend siteEntries).Loaded := by
  have fits : ∀ e ∈ siteEntries, e.Fits := by decide +kernel
  have few : (Pool.start.extend siteEntries).size ≤ 65535 := by decide +kernel
  exact .inr ⟨_, _, _, Pool.takes_read fits few 0 []⟩

theorem listed_siteWithNumber : Listed siteWithNumber := by
  refine ⟨Pool.start.extend siteEntries, [⟨7, [12]⟩],
    ⟨0, 0, [0xBA, 0, 11, 0, 0, 0xB1], [], []⟩, loaded_sitePool, by decide, ?_⟩
  decide +kernel

theorem listed_siteBeforeNull : Listed siteBeforeNull := by
  refine ⟨Pool.start.extend siteEntries, [⟨7, []⟩],
    ⟨1, 0, [0xBA, 0, 11, 0, 0, 0x01, 0xB1], [], []⟩, loaded_sitePool, by decide, ?_⟩
  decide +kernel

theorem words_siteBeforeNull :
    siteBeforeNull.flatMap words = siteWithNumber.flatMap words := by
  decide +kernel

/-- What follows the longer call site is no further argument. -/
theorem not_runsInto_siteWithNumber : ¬RunsInto siteWithNumber siteBeforeNull := by
  rintro ⟨before, name, descriptor, bootstrap, arguments, more, next, rest, rest', first, -, -, -,
    high⟩
  cases before with
  | nil =>
    obtain ⟨-, behind⟩ := List.cons.inj first
    obtain ⟨rfl, -⟩ := List.cons.inj behind
    exact absurd high (by decide)
  | cons i before =>
    have lengths := congrArg List.length first
    simp [siteWithNumber] at lengths
    omega

/-- The words of the null constant are those of the number as one more argument. -/
theorem runsInto_siteWithNumber :
    Listed siteBeforeNull ∧ Listed siteWithNumber ∧
      siteBeforeNull.flatMap words = siteWithNumber.flatMap words ∧
      RunsInto siteBeforeNull siteWithNumber := by
  refine ⟨listed_siteBeforeNull, listed_siteWithNumber, words_siteBeforeNull, ?_⟩
  rcases hashed_eq_or_runsInto listed_siteBeforeNull listed_siteWithNumber words_siteBeforeNull with
    same | runs | runs
  · exact absurd (congrArg List.length same) (by decide)
  · exact runs
  · exact absurd runs not_runsInto_siteWithNumber

/-- **Words do not tell how many instructions there are.** -/
theorem words_ambiguous :
    ¬∀ is js : List Instruction, Listed is → Listed js →
      is.flatMap words = js.flatMap words → is.length = js.length := by
  intro claim
  have lengths := claim _ _ listed_siteBeforeNull listed_siteWithNumber words_siteBeforeNull
  cases lengths

end Instruction

end Recompose
