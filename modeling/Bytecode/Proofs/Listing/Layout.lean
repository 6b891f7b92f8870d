import Bytecode.Proofs.Code.Tiling
import Bytecode.Proofs.Listing.Rows
import Bytecode.Proofs.Pool.Spelling
import Mathlib.Data.List.TFAE

/-!
# How a listing is laid out

A listing is meant to have one line for each instruction, which starts with the place of the
instruction, and below the line of a switch one indented line for each of its entries
(`Listing.LaysOut`).  Descriptions of constants are the only texts in a listing that can bring a
newline of their own, and they are shown as far as they go before they are cut.  So the lines are as
they are meant to be exactly if no description that is shown has a newline
(`Listing.tfae_laysOut`), and more lines than that if one has.
-/

namespace Bytecode

open Text (unit)

/-! ## Counting lines -/

namespace Text

theorem length_lines_eq_one_iff {t : Text} : (lines t).length = 1 ↔ unit '\n' ∉ t := by
  constructor
  · intro hlength hn
    obtain ⟨s, r, rfl⟩ := List.append_of_mem hn
    have hs := List.length_pos_of_ne_nil (lines_ne_nil s)
    have hr := List.length_pos_of_ne_nil (lines_ne_nil r)
    rw [lines_append_newline, List.length_append] at hlength
    omega
  · intro hn
    rw [lines_eq_singleton hn, List.length_singleton]

theorem length_le_length_flatMap_lines (parts : List Text) :
    parts.length ≤ (parts.flatMap lines).length := by
  induction parts with
  | nil => exact Nat.le_refl _
  | cons part parts ih =>
    have hpart := List.length_pos_of_ne_nil (lines_ne_nil part)
    rw [List.flatMap_cons, List.length_append, List.length_cons]
    omega

/-- Joined texts have as many lines as there are texts exactly if none of them has a newline. -/
theorem length_lines_join_eq_iff {parts : List Text} (hne : parts ≠ []) :
    (lines (join "\n" parts)).length = parts.length ↔ ∀ part ∈ parts, unit '\n' ∉ part := by
  rw [lines_join_eq_flatMap hne]
  clear hne
  induction parts with
  | nil => simp
  | cons part parts ih =>
    have hpart := List.length_pos_of_ne_nil (lines_ne_nil part)
    have hparts := length_le_length_flatMap_lines parts
    rw [List.forall_mem_cons, ← ih, ← length_lines_eq_one_iff, List.flatMap_cons,
      List.length_append, List.length_cons]
    omega

end Text

/-! ## What the lines of a listing are meant to be -/

/-- The number of entries in the table of a switch. -/
def Operands.entryCount : Operands → Nat
  | tableSwitch _ _ _ jumps => jumps.length
  | lookupSwitch _ _ cases => cases.length
  | _ => 0

theorem Operands.length_table (o : Operands) : o.table.length = o.entryCount := by
  cases o <;> simp [table, entryCount]

namespace Instruction

/-- How the line of an instruction starts. -/
def place (i : Instruction) : Text :=
  "Offset " ++ (Text.ofInt i.offset).padLeft 4 '0' ++ ": opcode ["

/-- An instruction that shows no newline of a constant. -/
def Plain (describe : Int → Text) (i : Instruction) : Prop :=
  ∀ index : Nat, i.poolIndex? = some index → unit '\n' ∉ Line.truncate (describe index)

theorem place_isPrefix_firstRow (describe? : Option (Int → Text)) (i : Instruction) :
    i.place <+: i.firstRow describe? := by
  rw [firstRow]
  cases hp : i.poolIndex? with
  | none =>
    simp only [Line.render, line, hp, Option.map_none, place, List.append_assoc,
      List.prefix_append_right_inj, List.prefix_append]
  | some index =>
    cases describe? <;>
      simp only [Line.render, line, hp, Option.map_some, place, List.append_assoc,
        List.prefix_append_right_inj, List.prefix_append]

theorem Occupies.length_table {i : Instruction} {b : List UInt8} (h : i.Occupies b) :
    i.table.length = i.operands.entryCount := by
  cases h with
  | known he =>
    rw [table, he]
    exact i.operands.length_table
  | unknown he _ ho =>
    rw [table, he, ho]
    rfl

theorem Occupies.newline_notMem_firstRow_iff {i : Instruction} {b : List UInt8} (h : i.Occupies b)
    {describe : Int → Text} :
    unit '\n' ∉ i.firstRow (some describe) ↔ i.Plain describe := by
  rw [firstRow, Line.newline_mem_render_iff rfl i.opcode.toNat_lt]
  simp [h.newline_notMem_head, line, Plain]

end Instruction

namespace Listing

/-- The lines of some instructions: each instruction has a line that tells its place, the table of a
switch one indented line for each entry, and there is no other line. -/
inductive LaysOut : List Instruction → List Text → Prop where
  | nil : LaysOut [] []
  | cons {i : Instruction} {is : List Instruction} {line : Text} {entries rest : List Text}
    (hline : i.place <+: line) (hcount : entries.length = i.operands.entryCount)
    (hentries : ∀ entry ∈ entries, Text.ofString "    " <+: entry) (tail : LaysOut is rest) :
    LaysOut (i :: is) (line :: (entries ++ rest))

theorem LaysOut.length_eq {is : List Instruction} {lines : List Text} (h : LaysOut is lines) :
    lines.length = (is.map fun i ↦ i.operands.entryCount + 1).sum := by
  induction h with
  | nil => rfl
  | cons _ hcount _ _ ih =>
    rw [List.length_cons, List.length_append, hcount, ih, List.map_cons, List.sum_cons]
    omega

section Rows

variable {is : List Instruction} (his : ∀ i ∈ is, ∃ b, i.Occupies b)
include his

theorem laysOut_rows (describe? : Option (Int → Text)) :
    LaysOut is (is.flatMap (·.rows describe?)) := by
  induction is with
  | nil => exact .nil
  | cons i is ih =>
    rw [List.forall_mem_cons] at his
    obtain ⟨⟨b, hb⟩, his⟩ := his
    refine .cons (i.place_isPrefix_firstRow describe?) ?_ ?_ (ih his)
    · rw [List.length_map, hb.length_table]
    · intro entry hentry
      obtain ⟨part, -, rfl⟩ := List.mem_map.mp hentry
      exact List.prefix_append _ _

theorem newline_notMem_rows_iff {describe : Int → Text} :
    (∀ row ∈ is.flatMap (·.rows (some describe)), unit '\n' ∉ row) ↔
      ∀ i ∈ is, i.Plain describe := by
  constructor
  · intro h i hi
    obtain ⟨b, hb⟩ := his i hi
    exact hb.newline_notMem_firstRow_iff.mp (h _ (List.mem_flatMap.mpr ⟨i, hi, List.mem_cons_self⟩))
  · intro h row hrow
    obtain ⟨i, hi, hrow⟩ := List.mem_flatMap.mp hrow
    obtain ⟨b, hb⟩ := his i hi
    rcases List.mem_cons.mp hrow with rfl | hrow
    · exact hb.newline_notMem_firstRow_iff.mpr (h i hi)
    · exact i.newline_notMem_caseRows row hrow

/-- The lines of a listing are laid out as they are meant to be exactly if they are the rows of the
instructions, and that is so exactly if no newline is shown. -/
theorem tfae_laysOut (hne : is ≠ []) (describe : Int → Text) :
    [LaysOut is (ofInstructions (some describe) is).lines,
      (ofInstructions (some describe) is).lines = is.flatMap (·.rows (some describe)),
      ∀ i ∈ is, i.Plain describe].TFAE := by
  have hrows : is.flatMap (·.rows (some describe)) ≠ [] := by
    obtain ⟨i, is, rfl⟩ := List.exists_cons_of_ne_nil hne
    exact List.cons_ne_nil _ _
  rw [ofInstructions_eq_join]
  tfae_have 1 → 3 := fun h ↦ by
    rw [← newline_notMem_rows_iff his, ← Text.length_lines_join_eq_iff hrows]
    exact h.length_eq.trans (laysOut_rows his _).length_eq.symm
  tfae_have 3 → 2 := fun h ↦ Text.lines_join ((newline_notMem_rows_iff his).mpr h) hrows
  tfae_have 2 → 1 := fun h ↦ by
    rw [h]
    exact laysOut_rows his _
  tfae_finish

end Rows

/-- The listing of a code array with the constants of a pool.  Without instructions it is empty.
Otherwise it has one line for each instruction, one indented line for each entry of a switch and no
other line exactly if no description has a newline among the code units that are shown, and then the
lines are the rows of the instructions.  A newline in a description comes from a text of the pool
that is neither quoted nor cut off: numbers, strings and broken references bring none. -/
theorem laysOut_decode_iff (policy : Code.Policy) (code : Window) (pool : Pool) :
    let is := (Code.decode policy code).instructions
    let listing := ofInstructions (some pool.describe) is
    (is = [] → listing = []) ∧
    (is ≠ [] → [LaysOut is listing.lines, listing.lines = is.flatMap (·.rows (some pool.describe)),
      ∀ i ∈ is, i.Plain pool.describe].TFAE) ∧
    ∀ index, unit '\n' ∈ pool.describe index ↔
      ∃ text, pool.Spells index text ∧ unit '\n' ∈ text := by
  intro is listing
  refine ⟨fun h ↦ ?_, fun hne ↦ ?_, fun index ↦ Pool.newline_mem_describe_iff⟩
  · have hempty : listing = ofInstructions (some pool.describe) [] :=
      congrArg (ofInstructions (some pool.describe)) h
    rw [hempty]
    rfl
  · exact tfae_laysOut (Code.exists_occupies_of_mem_decode policy code) hne _

/-- A class whose name has a second line, which starts like the line of an instruction. -/
def forgingPool : Raw.Pool where
  count := 3
  constants := [.named .classInfo 2,
    .utf8 ⟨[65, 10, 79, 102, 102, 115, 101, 116, 32, 50], by decide⟩]
  fills := ⟨by decide, by decide, Nat.le_refl 3⟩

/-- A single instruction that refers to the class has two lines, and both start with an offset. -/
theorem laysOut_decode_forged :
    Pool.read (Window.ofList
      [0, 3, 7, 0, 2, 1, 0, 10, 65, 10, 79, 102, 102, 115, 101, 116, 32, 50]) =
        .ok (forgingPool.value, 18) ∧
    Code.decode .resume (Window.ofList [0x12, 1]) = ⟨[⟨0, 0x12, .constant 1, 2⟩], none⟩ ∧
    (ofInstructions (some forgingPool.value.describe) [⟨0, 0x12, .constant 1, 2⟩]).lines =
      [Text.ofString "Offset 0000: opcode [12] ldc 1 - A", Text.ofString "Offset 2"] ∧
    ¬ LaysOut [⟨0, 0x12, .constant 1, 2⟩]
      (ofInstructions (some forgingPool.value.describe) [⟨0, 0x12, .constant 1, 2⟩]).lines := by
  have hbytes : (Window.ofList
      [0, 3, 7, 0, 2, 1, 0, 10, 65, 10, 79, 102, 102, 115, 101, 116, 32, 50]).toList =
        forgingPool.encode ++ [] := by decide +kernel
  have hlines : (ofInstructions (some forgingPool.value.describe)
      [⟨0, 0x12, .constant 1, 2⟩]).lines =
        [Text.ofString "Offset 0000: opcode [12] ldc 1 - A", Text.ofString "Offset 2"] := by
    decide +kernel
  refine ⟨Pool.decodes_read.apply hbytes ⟨forgingPool, rfl, rfl⟩, by decide +kernel, hlines, ?_⟩
  rw [hlines]
  exact fun h ↦ absurd h.length_eq (by decide)

end Listing

end Bytecode
