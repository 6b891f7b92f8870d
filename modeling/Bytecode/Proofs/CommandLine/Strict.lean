import Bytecode.Proofs.Code.Policy
import Bytecode.Proofs.Code.Tiling
import Bytecode.Proofs.CommandLine.Endings
import Bytecode.Proofs.Listing.Rows

/-!
# What `--strict` changes

Two runs about the same file, with and without `--strict`, read the file in the same way, and
whether a method has an outline does not depend on the option.  So they end alike, and their
listings differ only in the bodies of methods that hold an unknown opcode: with `--strict` such a
body ends below the line of the first unknown opcode (`Outline.sharpens`).  `CommandLine.run_strict`
is the statement about the whole runs.

Whether there is room for a listing does depend on the option, since one body can be longer than the
other.  Unless the limits are tiny or beyond the size of class files, there is a class that is
listed with `--strict` only (`CommandLine.exitCode_unknowns`,
`CommandLine.exitCode_strict_unknowns`).
-/

namespace Bytecode

open Code (decode Known unknowns)

namespace Outline

variable {pool : Pool} {o : Outline}

/-- No unknown opcode is met in the code array. -/
def IsKnown (o : Outline) : Prop :=
  ∀ code, o.code = some code → Known (decode .resume (Window.ofList code)).instructions

/-- The failure at an unknown opcode. -/
def unknownAt (p : Instruction) : Code.Failure := ⟨p.offset, .unknownOpcode p.opcode.toNat⟩

/-- What stopping at unknown opcodes changes about a method: nothing if none is met.  Otherwise the
body ends with the line of the first one, below which stands the line about the failure there, and
the warning is about this failure, whatever it was about before. -/
inductive Sharpens (pool : Pool) (o : Outline) : Prop where
  | same (hk : o.IsKnown) (hbody : o.body .abort pool = o.body .resume pool)
    (hwarning : o.warning? .abort = o.warning? .resume)
  | cut {code : List UInt8} {before : List Instruction} {p : Instruction}
    {after : List Instruction} {rest : List Text} (hc : o.code = some code)
    (hd : (decode .resume (Window.ofList code)).instructions = before ++ p :: after)
    (hk : Known before) (hp : p.entry? = none)
    (hresume : o.body .resume pool = before.flatMap (ClassListing.instructionLines pool) ++
      ClassListing.indent (p.line.render none) :: rest)
    (habort : o.body .abort pool = before.flatMap (ClassListing.instructionLines pool) ++
      [ClassListing.indent (p.line.render none), ClassListing.stopLine (unknownAt p)])
    (hwarning : o.warning? .abort = some ((unknownAt p).warning code.length))

theorem body_of_code {policy : Code.Policy} {code : List UInt8} (h : o.code = some code) :
    o.body policy pool = ClassListing.allCodeLines pool (decode policy (Window.ofList code)) := by
  rw [body, decoded, h]
  rfl

theorem warning?_of_code {policy : Code.Policy} {code : List UInt8} (h : o.code = some code) :
    o.warning? policy =
      (decode policy (Window.ofList code)).failure.map (·.warning code.length) := by
  rw [warning?, h]
  rfl

theorem isKnown_of_bare (h : o.code = none) : o.IsKnown := by
  intro code hc
  cases h.symm.trans hc

/-- A method meets no unknown opcode, or there is a first one. -/
theorem isKnown_or_exists_unknown (o : Outline) :
    o.IsKnown ∨ ∃ code before p after, o.code = some code ∧
      (decode .resume (Window.ofList code)).instructions = before ++ p :: after ∧
      Known before ∧ p.entry? = none := by
  cases hc : o.code with
  | none => exact .inl (isKnown_of_bare hc)
  | some code =>
    rcases Code.known_or_exists_unknown (decode .resume (Window.ofList code)).instructions with
      hk | ⟨before, p, after, hd, hk, hp⟩
    · refine .inl fun code' hc' ↦ ?_
      cases hc.symm.trans hc'
      exact hk
    · exact .inr ⟨code, before, p, after, rfl, hd, hk, hp⟩

theorem decoded_abort_of_known (h : o.IsKnown) : o.decoded .abort = o.decoded .resume := by
  cases hc : o.code with
  | none => rw [decoded, decoded, hc, Option.map_none, Option.map_none]
  | some code => rw [decoded, decoded, hc, Option.map_some, Option.map_some,
      Code.decode_abort_of_known (h code hc)]

theorem warning?_abort_of_known (h : o.IsKnown) : o.warning? .abort = o.warning? .resume := by
  cases hc : o.code with
  | none =>
    rw [warning?, warning?, hc]
    rfl
  | some code =>
    rw [warning?_of_code hc, warning?_of_code hc, Code.decode_abort_of_known (h code hc)]

end Outline

/-- An unknown opcode has a single line, and no description stands in it. -/
theorem ClassListing.instructionLines_unknown (pool : Pool) {p : Instruction} {b : List UInt8}
    (hb : p.Occupies b) (hp : p.entry? = none) :
    instructionLines pool p = [indent (p.line.render none)] := by
  cases hb with
  | known he => cases hp.symm.trans he
  | unknown _ _ ho =>
    have hrender : p.line.render (some pool.describe) = p.line.render none := by
      simp only [Instruction.line, Instruction.poolIndex?, ho, Operands.poolIndex?, Option.map_none,
        Line.render]
    have htext : Text.unit '\n' ∉ p.line.text := by
      change Text.unit '\n' ∉ p.text
      rw [Instruction.text, hp]
      exact (by decide : Text.unit '\n' ∉ Text.ofString Operands.unknownOpcode)
    have hline : Text.unit '\n' ∉ p.line.render none :=
      Line.newline_notMem_render (by simp) rfl p.opcode.toNat_lt htext
    rw [instructionLines, hrender, Text.lines_eq_singleton hline, List.map_singleton]

theorem Outline.sharpens (pool : Pool) (o : Outline) : o.Sharpens pool := by
  rcases o.isKnown_or_exists_unknown with hk | ⟨code, before, p, after, hc, hd, hk, hp⟩
  · refine .same hk ?_ (warning?_abort_of_known hk)
    rw [body, body, decoded_abort_of_known hk]
  · have hmem : p ∈ (decode .resume (Window.ofList code)).instructions := by simp [hd]
    obtain ⟨b, hb⟩ := Code.exists_occupies_of_mem_decode .resume _ p hmem
    have hline := ClassListing.instructionLines_unknown pool hb hp
    have habort := Code.decode_abort_of_unknown hd hk hp
    have hresume : o.body .resume pool = before.flatMap (ClassListing.instructionLines pool) ++
        ClassListing.indent (p.line.render none) ::
          (after.flatMap (ClassListing.instructionLines pool) ++
            (decode .resume (Window.ofList code)).failure.toList.map ClassListing.stopLine) := by
      rw [body_of_code hc, ClassListing.allCodeLines, hd, List.flatMap_append, List.flatMap_cons,
        hline, List.append_assoc, List.append_assoc, List.singleton_append]
    refine .cut hc hd hk hp hresume ?_ ?_
    · rw [body_of_code hc, habort, ClassListing.allCodeLines, Code.Decoded.stoppedAt,
        List.flatMap_append, List.flatMap_singleton, hline, List.append_assoc]
      rfl
    · rw [warning?_of_code hc, habort]
      rfl

namespace CommandLine

variable {file : String}

theorem parse_file (h : isOption file = false) : parse [file] = some ⟨file, .resume⟩ := by
  simp [parse, h]

theorem parse_strict_file (h : isOption file = false) :
    parse [strict, file] = some ⟨file, .abort⟩ := by
  have hs : isOption strict = true := by decide
  simp [parse, h, hs]

/-- Both runs list the class in a file, with the same header and the same signatures.  The bodies
and the warnings are those of the same methods in the same order, changed as `Outline.Sharpens` says.
-/
def ListAlike (s : Style) (content : Content) (lenient strictly : Outcome) : Prop :=
  ∃ (bytes : Array UInt8) (c : ClassFile) (os : List Outline), content = .ok bytes ∧
    ClassFile.parse (Window.ofArray bytes) = .ok c ∧
    List.Forall₂ (Member.HasOutline c.pool (sourceName c.thisClass)) c.methods os ∧
    lenient.stdout = [Text.join "\n" (ClassListing.header c ++
      os.flatMap fun o ↦ [] :: o.signature :: o.body .resume c.pool)] ∧
    strictly.stdout = [Text.join "\n" (ClassListing.header c ++
      os.flatMap fun o ↦ [] :: o.signature :: o.body .abort c.pool)] ∧
    lenient.stderr = (os.filterMap (·.warning? .resume)).map s.yellow ∧
    strictly.stderr = (os.filterMap (·.warning? .abort)).map s.yellow ∧
    ∀ o ∈ os, o.Sharpens c.pool

/-- Both runs print no listing and end with the same error. -/
def FailAlike (s : Style) (lenient strictly : Outcome) : Prop :=
  lenient.stdout = [] ∧ strictly.stdout = [] ∧ ∃ message,
    lenient.stderr.getLast? = some (s.error message) ∧
    strictly.stderr.getLast? = some (s.error message)

/-- No method of the class in a file meets an unknown opcode. -/
def IsKnownClass (content : Content) : Prop :=
  ∀ bytes c, content = .ok bytes → ClassFile.parse (Window.ofArray bytes) = .ok c →
    ∀ m ∈ c.methods, ∀ o, m.HasOutline c.pool (sourceName c.thisClass) o → o.IsKnown

/-- There is no room for the listing of the class in a file. -/
def Exceeds (limits : Limits) (policy : Code.Policy) (content : Content) : Prop :=
  ∃ (bytes : Array UInt8) (c : ClassFile) (limit : Overrun) (given : List Text),
    content = .ok bytes ∧ ClassFile.parse (Window.ofArray bytes) = .ok c ∧
      ClassListing.Overruns limits policy c limit given

/-- A run prints no listing and ends with an error about a limit. -/
def FailsOver (s : Style) (o : Outcome) : Prop :=
  o.exitCode = 1 ∧ o.stdout = [] ∧
    ∃ limit : Overrun, o.stderr.getLast? = some (s.error limit.message)

variable {limits : Limits} {s : Style} {content : Content}

theorem failsOver_of_exceeds {policy : Code.Policy} (h : Exceeds limits policy content) :
    FailsOver s (respond limits s policy content) := by
  obtain ⟨bytes, c, limit, given, rfl, hc, ho⟩ := h
  rw [respond_of_overruns hc ho]
  exact ⟨rfl, rfl, limit, List.getLast?_concat⟩

/-- A method without unknown opcodes is listed in the same way, if it is listed. -/
theorem method_abort_of_known {pool : Pool} {className : Text} {m : Member}
    (h : ∀ o, m.HasOutline pool className o → o.IsKnown) :
    ClassListing.method limits .abort pool className m =
      ClassListing.method limits .resume pool className m := by
  rcases m.exists_outline_or_fault pool className with ⟨o, ho⟩ | ⟨e, he⟩
  · have hknown := h o ho
    rw [ClassListing.method_of_outline limits .abort ho,
      ClassListing.method_of_outline limits .resume ho, Outline.listing, Outline.lines,
      Outline.body, Outline.decoded_abort_of_known hknown, Outline.warning?_abort_of_known hknown]
    rfl
  · rw [ClassListing.method_of_fault he, ClassListing.method_of_fault he]

theorem methods_abort_of_known {pool : Pool} {className : Text} {ms : List Member}
    (h : ∀ m ∈ ms, ∀ o, m.HasOutline pool className o → o.IsKnown) :
    ClassListing.methods limits .abort pool className ms =
      ClassListing.methods limits .resume pool className ms := by
  induction ms with
  | nil => rfl
  | cons m ms ih =>
    rw [List.forall_mem_cons] at h
    rw [ClassListing.methods, ClassListing.methods, method_abort_of_known h.1, ih h.2]

theorem respond_abort_of_known (h : IsKnownClass content) :
    respond limits s .abort content = respond limits s .resume content := by
  cases content with
  | error rejection => rfl
  | ok bytes =>
    have hlisting : listing limits .abort (Window.ofArray bytes) =
        listing limits .resume (Window.ofArray bytes) := by
      rw [listing, listing]
      cases hc : ClassFile.parse (Window.ofArray bytes) with
      | error e => rfl
      | ok c =>
        dsimp only
        rw [ClassListing.render, ClassListing.render, ClassListing.lines, ClassListing.lines,
          methods_abort_of_known (h bytes c rfl hc)]
    rw [respond, respond, hlisting]

/-- What the option changes once the file has been read, if there is room for both listings. -/
theorem respond_strict (hl : ¬ Exceeds limits .resume content)
    (hs : ¬ Exceeds limits .abort content) :
    let lenient := respond limits s .resume content
    let strictly := respond limits s .abort content
    lenient.exitCode = 1 ∧ strictly.exitCode = 1 ∧ FailAlike s lenient strictly ∨
      lenient.exitCode = 0 ∧ strictly.exitCode = 0 ∧ ListAlike s content lenient strictly := by
  intro lenient strictly
  cases content with
  | error rejection => exact .inl ⟨rfl, rfl, rfl, rfl, rejection.message, rfl, rfl⟩
  | ok bytes =>
    cases hc : ClassFile.parse (Window.ofArray bytes) with
    | error e =>
      have hlenient : lenient = _ := respond_of_malformed hc
      have hstrictly : strictly = _ := respond_of_malformed hc
      rw [hlenient, hstrictly]
      exact .inl ⟨rfl, rfl, rfl, rfl, e.message, rfl, rfl⟩
    | ok c =>
      have hroom {policy : Code.Policy} (h : ¬ Exceeds limits policy (.ok bytes)) {limit : Overrun}
          {given : List Text} : ¬ ClassListing.Overruns limits policy c limit given :=
        fun ho ↦ h ⟨bytes, c, limit, given, rfl, hc, ho⟩
      rcases ClassListing.exists_outlines_or_fault c with
        ⟨os, hos⟩ | ⟨before, os, m, after, e, hm, hos, he⟩
      · have hlenient : lenient = _ := respond_of_outlines hc hos
          (ClassListing.fits_of_room (hroom hl) (List.append_nil _).symm hos)
          (ClassListing.length_wholeText_of_room (hroom hl) hos)
        have hstrictly : strictly = _ := respond_of_outlines hc hos
          (ClassListing.fits_of_room (hroom hs) (List.append_nil _).symm hos)
          (ClassListing.length_wholeText_of_room (hroom hs) hos)
        rw [hlenient, hstrictly]
        exact .inr ⟨rfl, rfl, bytes, c, os, rfl, hc, hos, rfl, rfl, rfl, rfl,
          fun o _ ↦ o.sharpens c.pool⟩
      · have hlenient : lenient = _ :=
          respond_of_fault hc hm hos (ClassListing.fits_of_room (hroom hl) hm hos) he
        have hstrictly : strictly = _ :=
          respond_of_fault hc hm hos (ClassListing.fits_of_room (hroom hs) hm hos) he
        rw [hlenient, hstrictly]
        exact .inl ⟨rfl, rfl, rfl, rfl, e.message, List.getLast?_concat, List.getLast?_concat⟩

/-- With `--strict` and without it, the program reads the same file, and prints the same if no
unknown opcode is met.  If there is room for both listings, it ends with the same exit code: it
prints the same error and no listing, or it lists the same class, and only the bodies of methods
with unknown opcodes differ, and the warnings about them.  A run whose listing there is no room for
fails, whatever the other one does. -/
theorem run_strict (limits : Limits) (s : Style) (files : Files) (hf : isOption file = false) :
    let lenient := runOn limits s files [file]
    let strictly := runOn limits s files [strict, file]
    lenient.requested = [file] ∧ strictly.requested = [file] ∧
    (IsKnownClass (files file) → lenient = strictly) ∧
    (¬ Exceeds limits .resume (files file) → ¬ Exceeds limits .abort (files file) →
      lenient.exitCode = strictly.exitCode ∧ (lenient.exitCode = 0 ∨ lenient.exitCode = 1) ∧
      (lenient.exitCode = 1 → FailAlike s lenient.toOutcome strictly.toOutcome) ∧
      (lenient.exitCode = 0 →
        ListAlike s (files file) lenient.toOutcome strictly.toOutcome)) ∧
    (Exceeds limits .resume (files file) → FailsOver s lenient.toOutcome) ∧
    (Exceeds limits .abort (files file) → FailsOver s strictly.toOutcome) := by
  intro lenient strictly
  have hlenient : lenient = _ := runOn_of_parse (parse_file hf)
  have hstrictly : strictly = _ := runOn_of_parse (parse_strict_file hf)
  rw [hlenient, hstrictly]
  refine ⟨rfl, rfl, fun hk ↦ ?_, fun hl hs ↦ ?_, failsOver_of_exceeds, failsOver_of_exceeds⟩
  · rw [respond_abort_of_known hk]
  · rcases respond_strict (s := s) hl hs with ⟨hel, hes, hfail⟩ | ⟨hel, hes, hlist⟩
    · refine ⟨hel.trans hes.symm, .inr hel, fun _ ↦ hfail, fun h ↦ ?_⟩
      cases hel.symm.trans h
    · refine ⟨hel.trans hes.symm, .inl hel, fun h ↦ ?_, fun _ ↦ hlist⟩
      cases hel.symm.trans h

/-- The file of a class whose only method starts with an unknown opcode. -/
def unknownOpcodeClass : Array UInt8 :=
  #[0xCA, 0xFE, 0xBA, 0xBE, 0, 0, 0, 52,
    -- The constants are `A`, the class of that name, `f`, `()V` and `Code`.
    0, 6, 1, 0, 1, 65, 7, 0, 1, 1, 0, 1, 102, 1, 0, 3, 40, 41, 86, 1, 0, 4, 67, 111, 100, 101,
    0, 0x20, 0, 2, 0, 0, 0, 0, 0, 0,
    -- The code of `f` is the unknown opcode and a `nop`.
    0, 1, 0, 0, 0, 3, 0, 4, 0, 1, 0, 5, 0, 0, 0, 14,
    0, 0, 0, 0, 0, 0, 0, 2, 0xCB, 0, 0, 0, 0, 0, 0, 0]

/-- The class is listed by both runs, but only one of them has a warning. -/
theorem run_strict_unknownOpcode :
    let files : Files := fun _ ↦ .ok unknownOpcodeClass
    (runOn .usual .plain files ["A.class"]).exitCode = 0 ∧
      (runOn .usual .plain files ["A.class"]).stderr = [] ∧
      (runOn .usual .plain files [strict, "A.class"]).stderr =
        [Text.ofString "Decoding stopped at offset 0 of 2-byte code: Unknown opcode: 0xcb"] ∧
      ListAlike .plain (.ok unknownOpcodeClass) (runOn .usual .plain files ["A.class"]).toOutcome
        (runOn .usual .plain files [strict, "A.class"]).toOutcome := by
  intro files
  have hlenient : (runOn .usual .plain files ["A.class"]).exitCode = 0 := by decide +kernel
  have hstrictly : (runOn .usual .plain files [strict, "A.class"]).exitCode = 0 := by
    decide +kernel
  refine ⟨hlenient, by decide +kernel, by decide +kernel, ?_⟩
  have hfile : isOption "A.class" = false := by decide
  obtain ⟨-, -, -, halike, hl, hs⟩ := run_strict .usual .plain files hfile
  refine (halike (fun h ↦ ?_) fun h ↦ ?_).2.2.2 hlenient
  · cases hlenient.symm.trans (hl h).1
  · cases hstrictly.symm.trans (hs h).1

/-! ## Room for one of the two listings -/

section Unknowns

variable {n : Nat} (hn : (unknowns n).length ≤ Raw.CodeAttribute.capacity)

theorem exitCode_unknowns (ha : limits.arguments ≤ n + 1) :
    (respond limits s .resume (.ok (ClassFile.soleFile (unknowns n) hn))).exitCode = 1 := by
  have hlong := ha.trans (Code.length_decode_unknowns n).ge
  obtain ⟨limit, given, hover⟩ := ClassListing.overruns_sole (unknowns n) hn hlong
  rw [respond_of_overruns (ClassFile.parse_soleFile (unknowns n) hn) hover]

theorem exitCode_strict_unknowns (ha : 4 ≤ limits.arguments) (hu : 200 ≤ limits.units) :
    (respond limits s .abort (.ok (ClassFile.soleFile (unknowns n) hn))).exitCode = 0 := by
  have hfits := List.forall_mem_singleton.mpr (Outline.fits_unknowns n ha hu)
  have htext := (ClassListing.length_wholeText_unknowns n hn).trans hu
  rw [respond_of_outlines (ClassFile.parse_soleFile (unknowns n) hn)
    (ClassListing.hasOutlines_sole (unknowns n) hn) hfits htext]

end Unknowns

/-- The file of a class with a method of unknown opcodes only. -/
def unknownOpcodesClass : Array UInt8 :=
  ClassFile.soleFile (unknowns Limits.usual.arguments) (by rw [Code.length_unknowns]; decide)

/-- There is room for the first unknown opcode of a method, but not for all of them. -/
theorem exitCode_unknownOpcodesClass :
    let files : Files := fun _ ↦ .ok unknownOpcodesClass
    (runOn .usual .plain files ["A.class"]).exitCode = 1 ∧
      (runOn .usual .plain files [strict, "A.class"]).exitCode = 0 := by
  intro files
  have hn : (unknowns Limits.usual.arguments).length ≤ Raw.CodeAttribute.capacity := by
    rw [Code.length_unknowns]
    decide
  have hlenient := exitCode_unknowns (s := .plain) hn (Nat.le_succ Limits.usual.arguments)
  have hstrictly : (respond .usual .plain .abort (.ok unknownOpcodesClass)).exitCode = 0 :=
    exitCode_strict_unknowns hn (by decide) (by decide)
  have hfile : isOption "A.class" = false := by decide
  rw [runOn_of_parse (parse_file hfile), runOn_of_parse (parse_strict_file hfile)]
  exact ⟨hlenient, hstrictly⟩

end CommandLine

end Bytecode
