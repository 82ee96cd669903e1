import Recompose.Proofs.ClassFile.Payload

/-!
Class files that are cut off or that go on. Reading a class needs each of its bytes, wherever the cut
falls: in an entry of the pool, in a payload that is taken before it is looked into, or between two
attributes. Main result: no file that is accepted is a proper prefix of another one, and how either
is refused.
-/

namespace Recompose

open Bytes
open Read (Whole Starves Takes)

/-! ## Readers of a class -/

theorem Method.whole_read (pool : Pool) (className : String) : Whole (read pool className) := by
  refine .bind .u16 fun flags => .bind .u16 fun name => .bind (.lift _) fun _ => ?_
  refine .bind .u16 fun descriptor => .bind (.lift _) fun _ => ?_
  exact .bind (Attribute.whole_readTable pool) fun _ => .lift _

namespace ClassFile

theorem Header.whole_read : Whole read := by
  refine .bind .u16 fun minor => .bind .u16 fun major => .bind .u16 fun count => ?_
  refine .bind (Pool.whole_read count) fun pool => .bind .u16 fun flags => ?_
  exact .bind .u16 fun index => .bind (.lift _) fun name => .pure _

theorem Front.whole_read : Whole read := by
  refine .bind .u32 fun first => ?_
  split
  · refine .bind Header.whole_read fun header => .bind (whole_readSuper _) fun superName => ?_
    refine .bind (.counted (whole_readInterface _)) fun interfaces => ?_
    exact .bind (.counted (whole_readField _)) fun _ => .pure _
  · exact .throw _

theorem Front.whole_readTables (f : Front) : Whole f.readTables := by
  refine .bind (.counted (Method.whole_read _ _)) fun methods => ?_
  exact .bind (Attribute.whole_readTable _) fun attributes => .lift _

/-! ## Files -/

/-- Why a file is refused that is cut off after so many bytes. -/
def truncation (length : Nat) : Error :=
  if length = 0 then
    .empty
  else if length < preambleLength then
    .notSupported
  else
    .outOfBounds

/-- Too few bytes are refused without a look at them. -/
theorem parse_of_few {bytes : List UInt8} (few : bytes.length < preambleLength) :
    parse bytes = .error (truncation bytes.length) := by
  unfold parse parseWith truncation
  by_cases none : bytes = []
  · simp [none]
  · simp [none, few]

/-- A file that is accepted is read in two steps, up to its last byte. -/
theorem exists_takes_of_parse {bytes : List UInt8} {c : ClassFile} (accepted : parse bytes = .ok c) :
    ∃ front f tables, bytes = front ++ tables ∧ Takes Front.read front f ∧
      Takes f.readTables tables c ∧ c.name = f.header.name := by
  obtain ⟨front, f, raw, same, takes, fits, meant⟩ := exists_sections accepted
  have tables := (RawClass.decodes_readTables f).yields raw fits
  rw [meant] at tables
  exact ⟨front, f, raw.layout, same, takes, tables, (RawClass.name_of_meaning meant).1⟩

theorem Front.close_of_more (f : Front) (file : ClassFile) (pos : Nat) {more : List UInt8}
    (some : more ≠ []) :
    f.close file ⟨pos, more⟩ =
      .error (.malformed (.trailingBytes more.length f.header.name)) ⟨pos, more⟩ := by
  have left : more.length ≠ 0 := by simpa using some
  show (if more.length = 0 then pure file else throw _ : Read ClassFile) ⟨pos, more⟩ = _
  rw [if_neg left]
  rfl

/-- **No file that is accepted begins another one.** A file that is cut off anywhere is refused: as
empty, as no class file where not even the preamble is there, and otherwise because it ends too early.
A file that goes on is refused for the bytes behind its class. -/
theorem parse_prefixFree {bytes : List UInt8} {c : ClassFile} (accepted : parse bytes = .ok c) :
    (∀ cut, cut <+: bytes → cut ≠ bytes → parse cut = .error (truncation cut.length)) ∧
      ∀ longer, bytes <+: longer → longer ≠ bytes →
        parse longer =
          .error (.malformed (.trailingBytes (longer.length - bytes.length) c.name)) := by
  obtain ⟨front, f, tables, rfl, takes, takes', named⟩ := exists_takes_of_parse accepted
  constructor
  · intro cut before short
    by_cases few : cut.length < preambleLength
    · exact parse_of_few few
    · -- The cut lies in the front or in the tables; whether more follows is not even asked.
      have early := Front.whole_read.holds_of_takes takes
      have late := (Front.whole_readTables f).holds_of_takes takes'
      have whole : Starves (do let f ← Front.read; f.close (← f.readTables)) (front ++ tables) :=
        early.bind takes late.bind_front
      obtain ⟨k, fails⟩ := whole 0 cut before short
      have some : cut.length ≠ 0 := by
        intro none
        simp [none, preambleLength] at few
      rw [parse_eq (Nat.not_lt.mp few), Read.parse, Cursor.ofBytes, fails, truncation, if_neg some,
        if_neg few]
  · rintro _ ⟨more, rfl⟩ other
    have some : more ≠ [] := by simpa using other
    have count : (front ++ tables ++ more).length - (front ++ tables).length = more.length := by
      rw [List.length_append, Nat.add_sub_cancel_left]
    rw [count, named, List.append_assoc, parse_eq (Front.length_of_takes takes _), Read.parse,
      Cursor.ofBytes, Read.bind_of_ok (takes 0 _), Read.bind_of_ok (takes' _ more),
      f.close_of_more c _ some]

/-- The front of a class alone, and a class with a byte behind. -/
theorem parse_prefixFree_app :
    ∃ c, parse (appFront ++ appTables.layout) = .ok c ∧
      parse appFront = .error .outOfBounds ∧
      parse (appFront ++ appTables.layout ++ [0]) =
        .error (.malformed (.trailingBytes 1 c.name)) := by
  obtain ⟨c, accepted, -⟩ := exists_parse_app
  obtain ⟨cut, longer⟩ := parse_prefixFree accepted
  have begins : appFront <+: appFront ++ appTables.layout := List.prefix_append ..
  have goesOn : appFront ++ appTables.layout <+: appFront ++ appTables.layout ++ [0] :=
    List.prefix_append ..
  exact ⟨c, accepted, cut appFront begins (by decide), longer _ goesOn (by decide)⟩

end ClassFile

end Recompose
