import Bytecode.Proofs.ClassFile.Layout
import Bytecode.Proofs.ClassListing.Outline
import Bytecode.Proofs.Code.Policy

/-!
# Methods that are too long

Every instruction has at least one line, so there is no room for a method that has as many
instructions as a call has arguments (`Outline.not_fits`).  Nothing in a class file keeps a method
below that: every code array that fits into an attribute is the code of the only method of some
class (`ClassFile.parse_soleFile`), and if decoding finds too many instructions in it, then the
listing of that class exceeds a limit (`ClassListing.overruns_sole`).  A method of unknown opcodes
is such a method, but if decoding stops at the first of them, there is room for what is left
(`Outline.fits_unknowns`).
-/

namespace Bytecode

open Code (decode)

/-! ## Lines -/

theorem ClassListing.length_instructionLines_pos (pool : Pool) (i : Instruction) :
    0 < (instructionLines pool i).length := by
  rw [instructionLines, List.length_map, Text.lines_eq_splitOn, List.length_pos_iff]
  exact List.splitOn_ne_nil _ _

theorem ClassListing.length_le_length_flatMap_instructionLines (pool : Pool)
    (is : List Instruction) : is.length ≤ (is.flatMap (instructionLines pool)).length := by
  induction is with
  | nil => exact Nat.zero_le _
  | cons i is ih =>
    have hi := length_instructionLines_pos pool i
    rw [List.length_cons, List.flatMap_cons, List.length_append]
    omega

namespace Outline

variable {limits : Limits} {policy : Code.Policy} {pool : Pool} {o : Outline} {code : List UInt8}

/-- The lines of a method are those of its instructions, an empty one and the signature. -/
theorem length_instructions_add_two_le (policy : Code.Policy) (pool : Pool)
    (h : o.code = some code) :
    (decode policy (Window.ofList code)).instructions.length + 2 ≤
      (o.lines policy pool).length := by
  have hle := ClassListing.length_le_length_flatMap_instructionLines pool
    (decode policy (Window.ofList code)).instructions
  rw [lines, body, decoded, h, Option.map_some, List.length_cons, List.length_cons]
  dsimp only
  rw [ClassListing.allCodeLines, List.length_append]
  omega

theorem not_fits (h : o.code = some code)
    (hlong : limits.arguments ≤ (decode policy (Window.ofList code)).instructions.length) :
    ¬ o.Fits limits policy pool := by
  intro hfits
  have hlines := length_instructions_add_two_le policy pool h
  have harguments := hfits.arguments
  omega

end Outline

/-! ## Instructions of one byte -/

namespace Code

/-- An instruction of one byte. -/
def single (opcode : UInt8) (offset : Nat) : Instruction := ⟨offset, opcode, .none, 1⟩

/-- As many instructions are found as there are bytes. -/
theorem run_replicate {opcode : UInt8} (h : ∀ offset, (single opcode offset).Occupies [opcode])
    (offset n : Nat) :
    ∃ d, Run .resume offset (List.replicate n opcode) d ∧ d.instructions.length = n := by
  induction n generalizing offset with
  | zero => exact ⟨_, .done, rfl⟩
  | succ n ih =>
    obtain ⟨d, hd, hn⟩ := ih (offset + 1)
    exact ⟨d.cons (single opcode offset), .step (h offset) (by simp) hd, congrArg (· + 1) hn⟩

theorem length_decode_replicate {opcode : UInt8}
    (h : ∀ offset, (single opcode offset).Occupies [opcode]) (n : Nat) :
    (decode .resume (Window.ofList (List.replicate n opcode))).instructions.length = n := by
  obtain ⟨d, hd, hn⟩ := run_replicate h 0 n
  rw [decode, decodeFrom_of_run (by rwa [Window.toList_ofList]), hn]

/-- Code that does nothing. -/
def nops (n : Nat) : List UInt8 := List.replicate n 0

/-- Code without a known opcode. -/
def unknowns (n : Nat) : List UInt8 := List.replicate (n + 1) 0xCB

theorem length_nops (n : Nat) : (nops n).length = n := List.length_replicate

theorem length_unknowns (n : Nat) : (unknowns n).length = n + 1 := List.length_replicate

theorem length_decode_nops (n : Nat) :
    (decode .resume (Window.ofList (nops n))).instructions.length = n := by
  refine length_decode_replicate (fun offset ↦ ?_) n
  have he : Catalog.standard.lookup (0 : UInt8).toNat = some ⟨0, "nop", .none, false⟩ := by
    decide +kernel
  exact .known (i := single 0 offset) he rfl .none

theorem unknown_single (offset : Nat) : Instruction.entry? (single 0xCB offset) = none :=
  (by decide +kernel : Catalog.standard.lookup (0xCB : UInt8).toNat = none)

theorem occupies_unknown (offset : Nat) : (single 0xCB offset).Occupies [0xCB] :=
  .unknown (unknown_single offset) rfl rfl

theorem length_decode_unknowns (n : Nat) :
    (decode .resume (Window.ofList (unknowns n))).instructions.length = n + 1 :=
  length_decode_replicate occupies_unknown (n + 1)

/-- Decoding that stops at unknown opcodes finds one of them. -/
theorem decode_abort_unknowns (n : Nat) :
    decode .abort (Window.ofList (unknowns n)) = .stoppedAt [] (single 0xCB 0) := by
  refine decodeFrom_of_run ?_
  rw [Window.toList_ofList, unknowns, List.replicate_succ]
  exact .abort (i := single 0xCB 0) rfl (occupies_unknown 0) (unknown_single 0)

end Code

/-! ## A class for every code array -/

/-- The most bytes that the code array of an attribute can have. -/
def Raw.CodeAttribute.capacity : Nat := 256 ^ 4 - 13

variable (code : List UInt8) (h : code.length ≤ Raw.CodeAttribute.capacity)

namespace Raw

/-- A code attribute with nothing but a code array. -/
def CodeAttribute.sole : CodeAttribute where
  maxStack := ⟨0, by decide⟩
  maxLocals := ⟨0, by decide⟩
  code := ⟨code, by rw [capacity] at h; omega⟩
  handlers := ⟨[], by decide⟩
  attributes := ⟨[], by decide⟩

theorem CodeAttribute.length_encode_sole : (sole code h).encode.length < 256 ^ 4 := by
  have hlength : (sole code h).encode.length = code.length + 12 := by
    simp only [encode, sole, U.encode, Counted.encodeBytes, Counted.encode, List.length_append,
      Word.length_bytes, List.flatMap_nil, List.length_nil]
    omega
  rw [capacity] at h
  omega

/-- The constants are `A`, the class of that name, `f`, `()V` and `Code`. -/
def Pool.sole : Pool where
  count := ⟨6, by decide⟩
  constants := [.utf8 ⟨[65], by decide⟩, .named .classInfo ⟨1, by decide⟩,
    .utf8 ⟨[102], by decide⟩, .utf8 ⟨[40, 41, 86], by decide⟩,
    .utf8 ⟨[67, 111, 100, 101], by decide⟩]
  fills := by
    simp only [List.map_cons, List.map_nil, Fills]
    decide

/-- A method with a code attribute. -/
def Member.sole : Member where
  accessFlags := ⟨0, by decide⟩
  name := ⟨3, by decide⟩
  descriptor := ⟨4, by decide⟩
  attributes := ⟨[⟨⟨5, by decide⟩, _, CodeAttribute.length_encode_sole code h⟩],
    Nat.one_lt_pow (by decide) (by decide)⟩

/-- A class with one method. -/
def ClassFile.sole : ClassFile where
  minorVersion := ⟨0, by decide⟩
  majorVersion := ⟨52, by decide⟩
  pool := .sole
  accessFlags := ⟨0x20, by decide⟩
  thisClass := ⟨2, by decide⟩
  superClass := ⟨0, by decide⟩
  interfaces := ⟨[], by decide⟩
  fields := ⟨[], by decide⟩
  methods := ⟨[.sole code h], Nat.one_lt_pow (by decide) (by decide)⟩
  attributes := ⟨[], by decide⟩

end Raw

/-- The method of the class. -/
def Member.sole : Member where
  accessFlags := .ofValue .ofMethod 0
  name := "f"
  descriptor := "()V"
  attributes := [⟨"Code", (Raw.CodeAttribute.sole code h).encode⟩]

/-- The class. -/
def ClassFile.sole : ClassFile where
  minorVersion := 0
  majorVersion := 52
  pool := Raw.Pool.sole.value
  accessFlags := .ofValue .ofClass 0x20
  thisClass := "A"
  superClass := none
  interfaces := []
  fields := []
  methods := [.sole code h]
  attributes := []

theorem Raw.Pool.get?_sole :
    Raw.Pool.sole.value.get? 1 = some (.utf8 "A") ∧
    Raw.Pool.sole.value.get? 2 = some (.named .classInfo 1) ∧
    Raw.Pool.sole.value.get? 3 = some (.utf8 "f") ∧
    Raw.Pool.sole.value.get? 4 = some (.utf8 "()V") ∧
    Raw.Pool.sole.value.get? 5 = some (.utf8 "Code") := by
  decide +kernel

theorem Raw.Member.denotes_sole :
    (sole code h).Denotes .ofMethod Raw.Pool.sole.value (.sole code h) := by
  obtain ⟨-, -, hname, hdescriptor, hcode⟩ := Raw.Pool.get?_sole
  exact ⟨AccessFlags.says_ofValue _ _, hname, hdescriptor, .cons ⟨hcode, rfl⟩ .nil⟩

theorem Raw.ClassFile.denotes_sole : (sole code h).Denotes (.sole code h) := by
  obtain ⟨hname, hclass, -⟩ := Raw.Pool.get?_sole
  exact ⟨rfl, rfl, rfl, AccessFlags.says_ofValue _ _, ⟨1, hclass, hname⟩, .inl ⟨rfl, rfl⟩, .nil,
    .nil, .cons (Raw.Member.denotes_sole code h) .nil, .nil⟩

/-- The file of the class. -/
def ClassFile.soleFile : Array UInt8 := (Raw.ClassFile.sole code h).encode.toArray

theorem ClassFile.parse_soleFile :
    ClassFile.parse (Window.ofArray (soleFile code h)) = .ok (.sole code h) := by
  have hfile : (Window.ofArray (soleFile code h)).toList = (Raw.ClassFile.sole code h).encode := by
    rw [Window.toList_ofArray, soleFile]
  have hread := ClassFile.decodes_read.eq_ok_iff.mpr
    ⟨_, [], by rw [hfile, List.append_nil], rfl, Raw.ClassFile.denotes_sole code h⟩
  rw [parse, hread]

/-- The outline of the method. -/
def Outline.sole : Outline := ⟨"void f()", some code⟩

theorem Member.hasOutline_sole :
    (Member.sole code h).HasOutline Raw.Pool.sole.value "A" (.sole code) := by
  -- The attributes of a method are no part of its signature.
  have hsignature : (Member.sole code h).signature "A" = .ok "void f()" := by
    change Member.signature "A" ⟨.ofValue .ofMethod 0, "f", "()V", []⟩ = _
    decide +kernel
  have hread := (CodeAttribute.decodes_read Raw.Pool.sole.value).eq_ok_iff
    (w := Window.ofList (Raw.CodeAttribute.sole code h).encode)
    (a := ⟨0, 0, code, [], []⟩) |>.mpr
      ⟨_, [], by rw [Window.toList_ofList, List.append_nil], rfl, rfl, rfl, rfl, rfl, .nil⟩
  exact .coded hsignature rfl hread

theorem ClassListing.header_sole :
    header (.sole code h) = ["class A", "  minor version: 0", "  major version: 52"] := by
  change header (.sole [] (Nat.zero_le _)) = _
  decide +kernel

theorem ClassListing.hasOutlines_sole :
    HasOutlines (.sole code h) (ClassFile.sole code h).methods [.sole code] :=
  .cons (Member.hasOutline_sole code h) .nil

/-- Too many instructions make the listing exceed a limit. -/
theorem ClassListing.overruns_sole {limits : Limits} {policy : Code.Policy}
    (hlong : limits.arguments ≤ (decode policy (Window.ofList code)).instructions.length) :
    ∃ limit given, Overruns limits policy (.sole code h) limit given := by
  have hos := hasOutlines_sole code h
  rcases fits_or_overruns limits policy (List.append_nil _).symm hos with hfits | hover
  · exact absurd (hfits _ (List.mem_singleton_self _)) (Outline.not_fits rfl hlong)
  · exact hover

/-! ## The first unknown opcode -/

/-- Where decoding stops at an unknown opcode, there are four lines, however long the method is. -/
theorem Outline.lines_unknowns (n : Nat) :
    (Outline.sole (Code.unknowns n)).lines .abort Raw.Pool.sole.value =
      [[], "void f()", "  Offset 0000: opcode [CB] [Unknown opcode]",
        "  // decoding stopped at offset 0: Unknown opcode: 0xcb"] := by
  have hbody : (Outline.sole (Code.unknowns n)).body .abort Raw.Pool.sole.value =
      ["  Offset 0000: opcode [CB] [Unknown opcode]",
        "  // decoding stopped at offset 0: Unknown opcode: 0xcb"] := by
    rw [body, decoded, sole, Option.map_some, Code.decode_abort_unknowns]
    decide +kernel
  rw [lines, hbody]
  rfl

theorem Outline.fits_unknowns {limits : Limits} (n : Nat) (ha : 4 ≤ limits.arguments)
    (hu : 200 ≤ limits.units) :
    (Outline.sole (Code.unknowns n)).Fits limits .abort Raw.Pool.sole.value := by
  have hlisting : ((Outline.sole (Code.unknowns n)).listing .abort Raw.Pool.sole.value).length ≤
      200 := by
    rw [listing, decoded, sole, Option.map_some, Code.decode_abort_unknowns]
    decide +kernel
  exact ⟨hlisting.trans hu, by rwa [lines_unknowns]⟩

theorem ClassListing.length_wholeText_unknowns (n : Nat)
    (h : (Code.unknowns n).length ≤ Raw.CodeAttribute.capacity) :
    (wholeText .abort (.sole (Code.unknowns n) h) [.sole (Code.unknowns n)]).length ≤ 200 := by
  have hpool : (ClassFile.sole (Code.unknowns n) h).pool = Raw.Pool.sole.value := rfl
  rw [wholeText, header_sole, hpool, List.flatMap_singleton, Outline.lines_unknowns]
  decide +kernel

end Bytecode
