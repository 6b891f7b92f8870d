import Bytecode.Listing
import Bytecode.Proofs.Assembly.Operands
import Bytecode.Proofs.Code.Run
import Bytecode.Proofs.Text.Lines
import Bytecode.Proofs.Text.Numeral

/-!
# The rows of a listing

An instruction has a row of its own, which starts with its offset, and one indented row for each
entry of its switch table.  A listing joins the rows of its instructions
(`Listing.ofInstructions_eq_join`).  Decoded instructions put no newline into a row, so the rows are
the lines of the listing (`Listing.lines_ofInstructions`).
-/

namespace Bytecode

/-! ## Rows -/

namespace Operands

/-- The text of an instruction without the entries of a switch. -/
def head (name : Text) : Operands → Text
  | tableSwitch default low high _ =>
    name ++ " " ++ Text.ofInt low ++ " to " ++ Text.ofInt high ++ ": default=" ++ Text.ofInt default
  | lookupSwitch default _ _ => name ++ ": default=" ++ Text.ofInt default
  | o => o.text name

/-- The entries of a switch. -/
def table : Operands → List Text
  | tableSwitch _ _ _ jumps => jumps.map Text.ofInt
  | lookupSwitch _ _ cases =>
    cases.map fun (value, jump) ↦ "case " ++ Text.ofInt value ++ ": " ++ Text.ofInt jump
  | _ => []

/-- The row of an entry. -/
def caseRow (part : Text) : Text := "    " ++ part

theorem caseLines_eq_flatMap (parts : List Text) :
    caseLines parts = (parts.map caseRow).flatMap (Text.ofString "\n" ++ ·) := by
  rw [List.flatMap_map]
  rfl

theorem text_eq_head_append (name : Text) (o : Operands) :
    o.text name = o.head name ++ caseLines o.table := by
  cases o with
  | tableSwitch | lookupSwitch => rfl
  | _ => exact (List.append_nil _).symm

/-- No instruction has both a switch table and a reference to the constant pool. -/
theorem table_eq_nil_of_poolIndex? {o : Operands} {index : Nat} (h : o.poolIndex? = some index) :
    o.table = [] := by
  cases o with
  | tableSwitch | lookupSwitch => cases h
  | _ => rfl

end Operands

namespace Instruction

/-- The text of an instruction without the entries of a switch. -/
def head (i : Instruction) : Text :=
  match i.entry? with
  | some e => i.operands.head e.display
  | none => Operands.unknownOpcode

/-- The entries of the switch, if the instruction is one. -/
def table (i : Instruction) : List Text :=
  match i.entry? with
  | some _ => i.operands.table
  | none => []

theorem text_eq_head_append (i : Instruction) :
    i.text = i.head ++ Operands.caseLines i.table := by
  rw [text, head, table]
  cases i.entry? with
  | some e => exact i.operands.text_eq_head_append e.display
  | none => exact (List.append_nil _).symm

theorem table_eq_nil_of_poolIndex? {i : Instruction} {index : Nat}
    (h : i.poolIndex? = some index) : i.table = [] := by
  rw [table]
  split
  · exact Operands.table_eq_nil_of_poolIndex? h
  · rfl

/-- The row of the instruction itself. -/
def firstRow (describe? : Option (Int → Text)) (i : Instruction) : Text :=
  { i.line with text := i.head }.render describe?

/-- The rows of an instruction. -/
def rows (describe? : Option (Int → Text)) (i : Instruction) : List Text :=
  i.firstRow describe? :: i.table.map Operands.caseRow

theorem render_line_eq_join (describe? : Option (Int → Text)) (i : Instruction) :
    i.line.render describe? = Text.join "\n" (i.rows describe?) := by
  rw [rows, Text.join_cons, ← Operands.caseLines_eq_flatMap, firstRow]
  cases hp : i.poolIndex? with
  | none =>
    simp only [Line.render, line, hp, Option.map_none, text_eq_head_append, List.append_assoc]
  | some index =>
    have htext := i.text_eq_head_append
    simp only [table_eq_nil_of_poolIndex? hp, Operands.caseLines, List.flatMap_nil,
      List.append_nil] at htext ⊢
    simp only [line, htext]

end Instruction

theorem Listing.ofInstructions_eq_join (describe? : Option (Int → Text)) (is : List Instruction) :
    ofInstructions describe? is = Text.join "\n" (is.flatMap (·.rows describe?)) := by
  have hrender : (is.map (·.line)).map (·.render describe?) =
      is.map fun i ↦ Text.join "\n" (i.rows describe?) := by
    rw [List.map_map]
    exact List.map_congr_left fun i _ ↦ i.render_line_eq_join describe?
  rw [ofInstructions, render, hrender]
  exact Text.join_map_join "\n" fun i _ ↦ List.cons_ne_nil _ _

/-! ## Rows hold no newline -/

open Text (unit)

theorem Catalog.standard.newline_notMem_display :
    ∀ e ∈ standard.entries, unit '\n' ∉ e.display := by decide +kernel

/-- The mnemonics that can stand behind a wide prefix. -/
def widenedMnemonics : List String := "iinc" :: widenedLocals

theorem Entry.mnemonic_mem_widenedMnemonics {e : Entry} (h : e.widening ≠ .unsupported) :
    e.mnemonic ∈ widenedMnemonics := by
  rw [Ne, widening_eq_unsupported_iff] at h
  rw [widenedMnemonics, List.mem_cons]
  tauto

theorem newline_notMem_widenedMnemonics :
    ∀ m ∈ widenedMnemonics, unit '\n' ∉ Text.ofString m := by decide

theorem newline_notMem_arrayTypeName (typeCode : Nat) :
    unit '\n' ∉ Text.ofString ((arrayTypeName? typeCode).getD Operands.unknownArrayType) := by
  fun_cases arrayTypeName? typeCode <;> decide

namespace Operands

theorem Layout.newline_notMem_head {position : Nat} {shape : Shape} {o : Operands}
    {b : List UInt8} (h : Layout position shape o b) {name : Text} (hname : unit '\n' ∉ name) :
    unit '\n' ∉ o.head name := by
  have hi := Text.notMem_ofInt (u := unit '\n') rfl
  have hn := Text.notMem_ofNat (u := unit '\n') rfl
  cases h with
  | newArrayPrimitive =>
    simp +decide [head, text, hname, newline_notMem_arrayTypeName]
  | widePrefixed _ ho =>
    cases ho with
    | @localIndex target _ _ _ hw | @increment target _ _ _ _ _ hw =>
      have hm := newline_notMem_widenedMnemonics _
        (target.mnemonic_mem_widenedMnemonics (by simp [hw]))
      simp +decide [head, text, incrementText, hm, hi, hn]
    | unsupported => exact (by decide : unit '\n' ∉ Text.ofString unknownWideOpcode)
  | _ => simp +decide [head, text, incrementText, hname, hi, hn]

theorem newline_notMem_table (o : Operands) : ∀ part ∈ o.table, unit '\n' ∉ part := by
  have hi := Text.notMem_ofInt (u := unit '\n') rfl
  cases o with
  | tableSwitch => simp [table, hi]
  | lookupSwitch =>
    intro part hpart
    obtain ⟨_, -, rfl⟩ := List.mem_map.mp hpart
    simp +decide [hi]
  | _ => simp [table]

end Operands

namespace Line

theorem newline_notMem_opcode {n : Nat} (hn : n < 256) :
    unit '\n' ∉ (Text.upperHex n).padLeft 2 '0' := by
  have hall : ∀ n < 256, unit '\n' ∉ (Text.upperHex (n : Nat)).padLeft 2 '0' := by decide +kernel
  exact hall n hn

/-- A line has a newline only from its text or from the description that it shows. -/
theorem newline_mem_render_iff {describe? : Option (Int → Text)} {l : Line} {n : Nat}
    (hopcode : l.opcode = n) (hn : n < 256) :
    unit '\n' ∈ l.render describe? ↔
      unit '\n' ∈ l.text ∨
        ∃ describe ∈ describe?, ∃ index ∈ l.reference, unit '\n' ∈ truncate (describe index) := by
  have hi := Text.notMem_ofInt (u := unit '\n') rfl
  have hhex := newline_notMem_opcode hn
  obtain ⟨offset, _, text, reference⟩ := l
  subst hopcode
  have hoffset : unit '\n' ∉ (Text.ofInt offset).padLeft 4 '0' := by
    simp +decide [Text.padLeft, hi]
  cases reference with
  | none => simp +decide [render, hoffset, hhex]
  | some index =>
    cases describe? with
    | none => simp +decide [render, hoffset, hhex, hi]
    | some describe => simp +decide [render, hoffset, hhex, hi]

theorem newline_notMem_render {describe? : Option (Int → Text)} {l : Line} {n : Nat}
    (hdescribe : ∀ describe ∈ describe?, ∀ index, unit '\n' ∉ describe index)
    (hopcode : l.opcode = n) (hn : n < 256) (htext : unit '\n' ∉ l.text) :
    unit '\n' ∉ l.render describe? := by
  rw [newline_mem_render_iff hopcode hn, not_or]
  refine ⟨htext, ?_⟩
  rintro ⟨describe, hd, index, -, h⟩
  exact hdescribe describe hd index (List.mem_of_mem_take h)

end Line

namespace Instruction

theorem Occupies.newline_notMem_head {i : Instruction} {b : List UInt8} (h : i.Occupies b) :
    unit '\n' ∉ i.head := by
  cases h with
  | known he _ hl =>
    have hmem := (Catalog.standard.lookup_eq_some_iff.mp he).1
    rw [head, he]
    exact hl.newline_notMem_head (Catalog.standard.newline_notMem_display _ hmem)
  | unknown he =>
    rw [head, he]
    exact (by decide : unit '\n' ∉ Text.ofString Operands.unknownOpcode)

theorem newline_notMem_table (i : Instruction) : ∀ part ∈ i.table, unit '\n' ∉ part := by
  rw [table]
  split
  · exact i.operands.newline_notMem_table
  · simp

theorem newline_notMem_caseRows (i : Instruction) :
    ∀ row ∈ i.table.map Operands.caseRow, unit '\n' ∉ row := by
  intro row hrow
  obtain ⟨part, hpart, rfl⟩ := List.mem_map.mp hrow
  simp +decide [Operands.caseRow, i.newline_notMem_table part hpart]

/-- Decoded instructions have no newline inside a row, unless a description brings one in. -/
theorem Occupies.newline_notMem_rows {i : Instruction} {b : List UInt8} (h : i.Occupies b)
    {describe? : Option (Int → Text)}
    (hdescribe : ∀ describe ∈ describe?, ∀ index, unit '\n' ∉ describe index) :
    ∀ row ∈ i.rows describe?, unit '\n' ∉ row := by
  intro row hrow
  rcases List.mem_cons.mp hrow with rfl | hrow
  · exact Line.newline_notMem_render hdescribe rfl i.opcode.toNat_lt h.newline_notMem_head
  · exact i.newline_notMem_caseRows row hrow

end Instruction

/-- The lines of a listing are the rows of its instructions. -/
theorem Listing.lines_ofInstructions {describe? : Option (Int → Text)} {is : List Instruction}
    (hdescribe : ∀ describe ∈ describe?, ∀ index, unit '\n' ∉ describe index)
    (his : ∀ i ∈ is, ∃ b, i.Occupies b) (hne : is ≠ []) :
    (ofInstructions describe? is).lines = is.flatMap (·.rows describe?) := by
  rw [ofInstructions_eq_join]
  refine Text.lines_join (fun row hrow ↦ ?_) ?_
  · obtain ⟨i, hi, hrow⟩ := List.mem_flatMap.mp hrow
    obtain ⟨b, hb⟩ := his i hi
    exact hb.newline_notMem_rows hdescribe row hrow
  · obtain ⟨i, is, rfl⟩ := List.exists_cons_of_ne_nil hne
    exact List.cons_ne_nil _ _

end Bytecode
