import Bytecode.Proofs.Code.Tiling
import Bytecode.Proofs.Listing.Rows

/-!
# What a listing tells

A listing without descriptions tells its instructions apart: where two listings are the same, so are
the instructions, up to the operands that are shown as unknown and the count of an empty switch.
The rows of a listing tell where each instruction starts (`Instruction.forall₂_alike_of_rows`), its
first row tells its place and its opcode (`Instruction.firstRow_inj`), and what follows them tells
the operands (`Operands.Layout.alike`).
-/

namespace Bytecode

open Text Assembly

/-! ## Operands -/

namespace Operands

/-- Operands that are written in the same way: they are the same, or both name no type of an array,
no instruction that can be widened, or no case of a switch. -/
inductive Alike : Operands → Operands → Prop where
  | refl (o : Operands) : Alike o o
  | arrayOf {code code' : Nat} (h : arrayTypeName? code = Option.none)
    (h' : arrayTypeName? code' = Option.none) : Alike (.arrayOf code) (.arrayOf code')
  | wideUnknown (opcode opcode' : Nat) : Alike (.wideUnknown opcode) (.wideUnknown opcode')
  | lookupSwitch {default count count' : Int} (h : count ≤ 0) (h' : count' ≤ 0) :
    Alike (.lookupSwitch default count []) (.lookupSwitch default count' [])

/-- The reference to the constant pool behind the text of an instruction. -/
def reference (o : Operands) : Text := o.poolIndex?.elim [] fun index ↦ " " ++ ofInt index

/-- The number of bytes that operands of a shape take up from `position` on. -/
def size (position : Nat) (shape : Shape) : Operands → Nat
  | tableSwitch _ _ _ jumps => padding position + 4 * (jumps.length + 3)
  | lookupSwitch _ _ cases => padding position + 4 * (2 * cases.length + 2)
  | wideLocal .. => 3
  | wideIncrement .. => 5
  | wideUnknown .. => 1
  | _ => (((fields? shape).getD []).map Field.width).sum + (trailer shape).length

theorem Alike.size_eq {position : Nat} {shape : Shape} {o o' : Operands} (h : o.Alike o') :
    o.size position shape = o'.size position shape := by cases h <;> rfl

theorem Alike.text_eq {o o' : Operands} (h : o.Alike o') (name : Text) :
    o.text name = o'.text name := by
  cases h with
  | arrayOf h h' => rw [text, text, h, h']
  | _ => rfl

theorem Alike.poolIndex?_eq {o o' : Operands} (h : o.Alike o') : o.poolIndex? = o'.poolIndex? := by
  cases h <;> rfl

theorem Layout.length_eq {position : Nat} {shape : Shape} {o : Operands} {b : List UInt8}
    (h : Layout position shape o b) : b.length = o.size position shape := by
  cases h with
  | none => rfl
  | u8 h | u16 h | s16 h | s32 h | constantPoolU8 h | constantPoolU16 h | newArrayPrimitive h =>
    exact Field.length_of_write h
  | localIndexAndConst h₁ h₂ | multiArray h₁ h₂ =>
    rw [List.length_append, Field.length_of_write h₁, Field.length_of_write h₂]
    rfl
  | invokeInterface h₁ h₂ hs =>
    rw [List.length_append, List.length_append, Field.length_of_write h₁, Field.length_of_write h₂,
      hs]
    rfl
  | invokeDynamic h hs =>
    rw [List.length_append, Field.length_of_write h, hs]
    rfl
  | tableSwitch hs _ h =>
    rw [List.length_append, hs, length_sequence (fun _ _ ↦ Field.length_of_write) h]
    rfl
  | lookupSwitch hs _ h =>
    rw [List.length_append, hs, length_sequence (fun _ _ ↦ Field.length_of_write) h,
      List.length_cons, List.length_cons, length_flatMap_pairs]
    rfl
  | widePrefixed h ho =>
    rw [List.length_append, Field.length_of_write h]
    cases ho with
    | localIndex _ _ h => rw [Field.length_of_write h]; rfl
    | increment _ _ h₁ h₂ =>
      rw [List.length_append, Field.length_of_write h₁, Field.length_of_write h₂]
      rfl
    | unsupported => rfl

/-! ### What the text of operands tells -/

theorem arrayTypeName_inj {code code' : Nat}
    (h : ofString ((arrayTypeName? code).getD unknownArrayType) =
      ofString ((arrayTypeName? code').getD unknownArrayType)) :
    code = code' ∨ arrayTypeName? code = Option.none ∧ arrayTypeName? code' = Option.none := by
  revert h
  fun_cases arrayTypeName? code <;> fun_cases arrayTypeName? code' <;> simp +decide

/-- The word behind the wide prefix. -/
def widened : Operands → String
  | wideLocal target _ | wideIncrement target _ _ => target.mnemonic
  | _ => "[Unknown"

/-- What the wide prefix does to the instruction of that name. -/
def widening : Operands → Widening
  | wideLocal .. => .localIndex
  | wideIncrement .. => .increment
  | _ => .unsupported

/-- What stands behind that word. -/
def widenedTail : Operands → Text
  | wideLocal _ index => ofNat index
  | wideIncrement _ index amount => "index = " ++ ofNat index ++ " const = " ++ ofInt amount
  | _ => "opcode]"

section Widened

variable {opcode : Nat} {o : Operands} {b : List UInt8}

theorem Widened.head_eq (h : Widened opcode o b) (name : Text) :
    o.head name = "wide " ++ (ofString o.widened ++ (" " ++ o.widenedTail)) := by
  cases h with
  | localIndex => simp only [head, text, widened, widenedTail, List.append_assoc]
  | increment =>
    simp only [head, text, incrementText, widened, widenedTail, List.append_assoc]
    rfl
  | unsupported =>
    show ofString unknownWideOpcode =
      "wide " ++ (ofString "[Unknown" ++ (" " ++ ofString "opcode]"))
    decide

theorem Widened.reference_eq_nil (h : Widened opcode o b) : o.reference = [] := by
  cases h <;> rfl

theorem Widened.widened_mem (h : Widened opcode o b) :
    o.widened ∈ "[Unknown" :: widenedMnemonics := by
  cases h with
  | @localIndex target _ _ _ hw | @increment target _ _ _ _ _ hw =>
    exact List.mem_cons_of_mem _ (target.mnemonic_mem_widenedMnemonics (by simp [hw]))
  | unsupported => exact List.mem_cons_self

theorem Widened.widening_eq (h : Widened opcode o b) :
    o.widening = Entry.widening ⟨0, o.widened, .none, false⟩ := by
  cases h with
  | localIndex _ hw | increment _ hw => exact hw.symm
  | unsupported =>
    show Widening.unsupported = Entry.widening ⟨0, "[Unknown", .none, false⟩
    decide

end Widened

theorem space_notMem_widenedWords :
    ∀ m ∈ "[Unknown" :: widenedMnemonics, unit ' ' ∉ ofString m := by decide

theorem widenedWords_nodup : (("[Unknown" :: widenedMnemonics).map ofString).Nodup := by decide

/-- What follows a wide prefix is told by its text, except for the opcode of an instruction that
cannot be widened. -/
theorem Widened.alike {opcode opcode' : Nat} {o o' : Operands} {b b' : List UInt8}
    (h : Widened opcode o b) (h' : Widened opcode' o' b') {name : Text}
    (hhead : o.head name = o'.head name) : o.Alike o' := by
  -- The word behind the prefix ends at the first space, so both texts have the same.
  have hspace : ∀ {opcode o b}, Widened opcode o b →
      ∀ u ∈ ofString o.widened, decide (u ≠ unit ' ') := by
    intro opcode o b h u hu
    rw [decide_eq_true_iff]
    rintro rfl
    exact space_notMem_widenedWords _ h.widened_mem hu
  rw [h.head_eq, h'.head_eq, List.append_cancel_left_eq,
    append_inj_of_head? (hspace h) (hspace h') rfl rfl, List.append_cancel_left_eq] at hhead
  have hword : o.widened = o'.widened :=
    List.inj_on_of_nodup_map widenedWords_nodup h.widened_mem h'.widened_mem hhead.1
  have htail : o.widenedTail = o'.widenedTail := hhead.2
  have hkind : o.widening = o'.widening := by rw [h.widening_eq, hword, h'.widening_eq]
  cases h with
  | localIndex ht _ _ =>
    cases h' with
    | localIndex ht' _ _ =>
      obtain rfl := Catalog.standard.eq_of_mnemonic_eq ht ht' hword
      obtain rfl := ofNat_inj.mp htail
      exact .refl _
    | increment | unsupported => cases hkind
  | increment ht _ _ _ =>
    cases h' with
    | increment ht' _ _ _ =>
      obtain rfl := Catalog.standard.eq_of_mnemonic_eq ht ht' hword
      simp only [widenedTail, List.append_assoc, List.append_cancel_left_eq] at htail
      rw [ofNat_append_inj rfl rfl, List.append_cancel_left_eq, ofInt_inj] at htail
      rw [htail.1, htail.2]
      exact .refl _
    | localIndex | unsupported => cases hkind
  | unsupported =>
    cases h' with
    | unsupported => exact .wideUnknown _ _
    | localIndex | increment => cases hkind

theorem caseText_injective : Function.Injective fun ((value, jump) : Int × Int) ↦
    ("case " ++ ofInt value ++ ": " ++ ofInt jump : Text) := by
  rintro ⟨value, jump⟩ ⟨value', jump'⟩ h
  simp only [List.append_assoc, List.append_cancel_left_eq] at h
  obtain ⟨rfl, hjump⟩ := (ofInt_append_inj rfl rfl).mp h
  obtain rfl := ofInt_inj.mp (List.append_cancel_left hjump)
  rfl

/-- The number of cases tells the count, unless there are none. -/
theorem alike_lookupSwitch {default count count' : Int} {cases : List (Int × Int)}
    (hn : cases.length = count.toNat) (hn' : cases.length = count'.toNat) :
    (lookupSwitch default count cases).Alike (lookupSwitch default count' cases) := by
  by_cases hpos : 0 < count
  · have hcount : count = count' := by omega
    rw [hcount]
    exact .refl _
  · obtain rfl : cases = [] := List.length_eq_zero_iff.mp (by omega)
    rw [List.length_nil] at hn'
    exact .lookupSwitch (by omega) (by omega)

/-- The operands of a shape are told by the first row and the table of the instruction. -/
theorem Layout.alike {position : Nat} {shape : Shape} {o o' : Operands} {b b' : List UInt8}
    (h : Layout position shape o b) (h' : Layout position shape o' b') {name : Text}
    (hrow : o.head name ++ o.reference = o'.head name ++ o'.reference)
    (htable : o.table = o'.table) : o.Alike o' := by
  cases h with
  | none =>
    cases h'
    exact .refl _
  | u8 | u16 | s16 | s32 =>
    cases h'
    simp only [head, text, reference, poolIndex?, Option.elim, List.append_nil,
      List.append_cancel_left_eq, ofInt_inj] at hrow
    rw [hrow]
    exact .refl _
  | localIndexAndConst =>
    cases h'
    simp only [head, text, incrementText, reference, poolIndex?, Option.elim, List.append_nil,
      List.append_assoc, List.append_cancel_left_eq] at hrow
    rw [ofNat_append_inj rfl rfl, List.append_cancel_left_eq, ofInt_inj] at hrow
    rw [hrow.1, hrow.2]
    exact .refl _
  | constantPoolU8 | constantPoolU16 | invokeDynamic =>
    cases h'
    simp only [head, text, reference, poolIndex?, Option.elim, List.append_cancel_left_eq,
      ofInt_inj, Int.natCast_inj] at hrow
    rw [hrow]
    exact .refl _
  | invokeInterface | multiArray =>
    cases h'
    simp only [head, text, reference, poolIndex?, Option.elim, List.append_assoc,
      List.append_cancel_left_eq] at hrow
    obtain ⟨rfl, hcount⟩ := (ofNat_append_inj rfl rfl).mp hrow
    obtain ⟨rfl, -⟩ := (ofNat_append_inj rfl rfl).mp (List.append_cancel_left hcount)
    exact .refl _
  | newArrayPrimitive =>
    cases h'
    simp only [head, text, reference, poolIndex?, Option.elim, List.append_nil,
      List.append_cancel_left_eq] at hrow
    obtain rfl | ⟨hcode, hcode'⟩ := arrayTypeName_inj hrow
    · exact .refl _
    · exact .arrayOf hcode hcode'
  | tableSwitch =>
    cases h'
    simp only [head, reference, poolIndex?, Option.elim, List.append_nil, List.append_assoc,
      List.append_cancel_left_eq] at hrow
    obtain ⟨rfl, hhigh⟩ := (ofInt_append_inj rfl rfl).mp hrow
    obtain ⟨rfl, hdefault⟩ := (ofInt_append_inj rfl rfl).mp (List.append_cancel_left hhigh)
    obtain rfl := ofInt_inj.mp (List.append_cancel_left hdefault)
    obtain rfl := List.map_injective_iff.mpr (fun _ _ ↦ ofInt_inj.mp) htable
    exact .refl _
  | lookupSwitch _ hn _ =>
    cases h' with
    | lookupSwitch _ hn' _ =>
      simp only [head, reference, poolIndex?, Option.elim, List.append_nil, List.append_assoc,
        List.append_cancel_left_eq, ofInt_inj] at hrow
      obtain rfl := hrow
      obtain rfl := List.map_injective_iff.mpr caseText_injective htable
      exact alike_lookupSwitch hn hn'
  | widePrefixed _ ho =>
    cases h' with
    | widePrefixed _ ho' =>
      rw [ho.reference_eq_nil, ho'.reference_eq_nil, List.append_nil, List.append_nil] at hrow
      exact ho.alike ho' hrow

end Operands

/-! ## Instructions -/

namespace Instruction

/-- Instructions that a listing does not tell apart. -/
structure Alike (i j : Instruction) : Prop where
  offset : i.offset = j.offset
  opcode : i.opcode = j.opcode
  text : i.text = j.text
  poolIndex? : i.poolIndex? = j.poolIndex?
  length : i.length = j.length
  operands : i.operands.Alike j.operands

theorem Alike.line_eq {i j : Instruction} (h : i.Alike j) : i.line = j.line := by
  rw [line, line, h.offset, h.opcode, h.text, h.poolIndex?]

theorem map_line_eq {is js : List Instruction} (h : List.Forall₂ Alike is js) :
    is.map (·.line) = js.map (·.line) := by
  induction h with
  | nil => rfl
  | cons h _ ih => rw [List.map_cons, List.map_cons, h.line_eq, ih]

/-- The text and the reference to the constant pool follow from the operands. -/
theorem Alike.of_operands {i j : Instruction} (hoffset : i.offset = j.offset)
    (hopcode : i.opcode = j.opcode) (hlength : i.length = j.length)
    (h : i.operands.Alike j.operands) : i.Alike j where
  offset := hoffset
  opcode := hopcode
  text := by
    rw [Instruction.text, Instruction.text, entry?, entry?, hopcode]
    split
    · exact h.text_eq _
    · rfl
  poolIndex? := h.poolIndex?_eq
  length := hlength
  operands := h

theorem firstRow_eq (i : Instruction) :
    i.firstRow none =
      "Offset " ++ (padLeft 4 '0' (ofNat i.offset) ++ (": opcode [" ++
        (padLeft 2 '0' (upperHex i.opcode.toNat) ++
          ("] " ++ (i.head ++ i.operands.reference))))) := by
  rw [← ofInt_natCast, firstRow, Operands.reference, ← poolIndex?]
  cases hp : i.poolIndex? with
  | none =>
    simp only [Line.render, line, hp, Option.map, Option.elim, List.append_assoc, List.append_nil]
  | some index =>
    simp only [Line.render, line, hp, Option.map, Option.elim, List.append_assoc]
    rfl

theorem firstRow_inj {i j : Instruction} :
    i.firstRow none = j.firstRow none ↔ i.offset = j.offset ∧ i.opcode = j.opcode ∧
      i.head ++ i.operands.reference = j.head ++ j.operands.reference := by
  rw [firstRow_eq, firstRow_eq, List.append_cancel_left_eq, padLeft_append_inj rfl rfl,
    List.append_cancel_left_eq, upperHex_append_inj i.opcode.toNat_lt j.opcode.toNat_lt,
    List.append_cancel_left_eq, UInt8.toNat_inj]

/-- Whether a row belongs to an entry of a switch. -/
def isCaseRow (row : Text) : Bool := row.head? = some (unit ' ')

theorem isCaseRow_firstRow (i : Instruction) : isCaseRow (i.firstRow none) = false := by
  rw [firstRow_eq]
  rfl

theorem isCaseRow_of_mem_table {i : Instruction} :
    ∀ row ∈ i.table.map Operands.caseRow, isCaseRow row := by
  intro row hrow
  obtain ⟨part, -, rfl⟩ := List.mem_map.mp hrow
  rfl

theorem isCaseRow_head?_flatMap (is : List Instruction) :
    (is.flatMap (·.rows none)).head?.any isCaseRow = false := by
  cases is with
  | nil => rfl
  | cons i is => exact i.isCaseRow_firstRow

/-- Instructions with the same rows are alike. -/
theorem Occupies.alike {i j : Instruction} {b c : List UInt8} (hi : i.Occupies b)
    (hj : j.Occupies c) (hrow : i.firstRow none = j.firstRow none) (htable : i.table = j.table) :
    i.Alike j := by
  obtain ⟨hoffset, hopcode, hrow⟩ := firstRow_inj.mp hrow
  have hentry : i.entry? = j.entry? := by
    unfold entry?
    rw [hopcode]
  cases hi with
  | @known e b he hn hl =>
    cases hj with
    | @known e' b' he' hn' hl' =>
      obtain rfl : e = e' := Option.some.inj (he.symm.trans (hentry.trans he'))
      rw [← hoffset] at hl'
      rw [head, head, he, he'] at hrow
      rw [table, table, he, he'] at htable
      have halike := hl.alike hl' hrow htable
      refine .of_operands hoffset hopcode ?_ halike
      rw [hn, hn', hl.length_eq, hl'.length_eq, halike.size_eq]
    | unknown he' => cases he.symm.trans (hentry.trans he')
  | unknown he hn ho =>
    cases hj with
    | known he' => cases he.symm.trans (hentry.trans he')
    | unknown he' hn' ho' =>
      refine .of_operands hoffset hopcode (hn.trans hn'.symm) ?_
      rw [ho, ho']
      exact .refl _

/-- The rows of instructions tell where each of them starts: the first row of an instruction is not
indented, and the rows after it are. -/
theorem forall₂_alike_of_rows {is js : List Instruction} (his : ∀ i ∈ is, ∃ b, i.Occupies b)
    (hjs : ∀ j ∈ js, ∃ b, j.Occupies b)
    (h : is.flatMap (·.rows none) = js.flatMap (·.rows none)) : List.Forall₂ Alike is js := by
  induction is generalizing js with
  | nil =>
    cases js with
    | nil => exact .nil
    | cons j js => cases h
  | cons i is ih =>
    cases js with
    | nil => cases h
    | cons j js =>
      -- The table of the first instruction ends in front of the first row that is not indented.
      rw [List.forall_mem_cons] at his hjs
      obtain ⟨⟨b, hi⟩, his⟩ := his
      obtain ⟨⟨c, hj⟩, hjs⟩ := hjs
      rw [List.flatMap_cons, List.flatMap_cons, rows, rows, List.cons_append, List.cons_append,
        List.cons.injEq, append_inj_of_head? isCaseRow_of_mem_table isCaseRow_of_mem_table
          (isCaseRow_head?_flatMap is) (isCaseRow_head?_flatMap js)] at h
      obtain ⟨hrow, htable, hrest⟩ := h
      have htable : i.table = j.table :=
        List.map_injective_iff.mpr (fun _ _ ↦ List.append_cancel_left) htable
      exact .cons (hi.alike hj hrow htable) (ih his hjs hrest)

end Instruction

/-! ## Listings -/

namespace Listing

open Code

theorem ofInstructions_eq_nil_iff {is : List Instruction} :
    ofInstructions none is = [] ↔ is = [] := by
  constructor
  · intro h
    cases is with
    | nil => rfl
    | cons i is =>
      rw [ofInstructions_eq_join, List.flatMap_cons, Instruction.rows, List.cons_append, join_cons,
        i.firstRow_eq] at h
      cases h
  · rintro rfl
    rfl

/-- The rows can be recovered from a listing. -/
theorem flatMap_rows_eq {is js : List Instruction} (his : ∀ i ∈ is, ∃ b, i.Occupies b)
    (hjs : ∀ j ∈ js, ∃ b, j.Occupies b) (h : ofInstructions none is = ofInstructions none js) :
    is.flatMap (·.rows none) = js.flatMap (·.rows none) := by
  -- Without instructions the listing has an empty line, and no row is empty.
  by_cases hne : is = []
  · obtain rfl := hne
    obtain rfl := ofInstructions_eq_nil_iff.mp (h.symm.trans (ofInstructions_eq_nil_iff.mpr rfl))
    rfl
  · have hne' : js ≠ [] := fun hjs ↦
      hne (ofInstructions_eq_nil_iff.mp (h.trans (ofInstructions_eq_nil_iff.mpr hjs)))
    rw [← lines_ofInstructions (by simp) his hne, h, lines_ofInstructions (by simp) hjs hne']

/-- Two code arrays have the same listing exactly where they decode to the same instructions, up to
operands that are shown as unknown and the count of an empty switch. -/
theorem ofInstructions_eq_iff_alike (policy policy' : Policy) (code code' : Window) :
    ofInstructions none (decode policy code).instructions =
        ofInstructions none (decode policy' code').instructions ↔
      List.Forall₂ Instruction.Alike (decode policy code).instructions
        (decode policy' code').instructions := by
  have his := exists_occupies_of_mem_decode policy code
  have hjs := exists_occupies_of_mem_decode policy' code'
  constructor
  · intro h
    exact Instruction.forall₂_alike_of_rows his hjs (flatMap_rows_eq his hjs h)
  · intro h
    rw [ofInstructions, ofInstructions, Instruction.map_line_eq h]

-- A negative count of cases is listed like a count of zero.
example :
    ofInstructions none (decode .resume (Window.ofList
      [0xAB, 0, 0, 0, 0, 0, 0, 9, 0, 0, 0, 0])).instructions =
    ofInstructions none (decode .resume (Window.ofList
      [0xAB, 0, 0, 0, 0, 0, 0, 9, 0xFF, 0xFF, 0xFF, 0xFF])).instructions := by
  decide +kernel

end Listing

end Bytecode
