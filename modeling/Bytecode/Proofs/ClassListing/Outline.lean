import Bytecode.ClassListing
import Bytecode.Proofs.Text.Lines
import Mathlib.Data.List.Forall2

/-!
# What a listing needs of a method

The outline of a method is its signature and its code array.  Whether a method has one does not
depend on how its code is decoded: a method has either an outline or a fault
(`Member.exists_outline_or_fault`).  Whether there is room for the lines of a method does depend on
it.  The methods are listed one after another up to the first one that has a fault or for which
there is no room, which ends the listing (`ClassListing.methods_of_outlines`,
`ClassListing.methods_of_fault`, `ClassListing.methods_of_overruns`).  The lines of a code array are
the lines of its instructions one after another, and a line about the failure if there is one
(`ClassListing.codeLines_eq`).
-/

namespace Bytecode

/-- The signature of a method and its code array, if it has one. -/
structure Outline where
  signature : Text
  code : Option (List UInt8)

namespace Member

variable {pool : Pool} {className : Text} {m : Member}

/-- The outline that can be read of a method.  The code array is that of the first code attribute.
-/
inductive HasOutline (pool : Pool) (className : Text) (m : Member) : Outline → Prop where
  | bare {signature : Text} (hs : m.signature className = .ok signature)
    (ha : ∀ a ∈ m.attributes, a.name ≠ Text.ofString CodeAttribute.name) :
    HasOutline pool className m ⟨signature, none⟩
  | coded {signature : Text} {a : Attribute} {content : CodeAttribute} {n : Nat}
    (hs : m.signature className = .ok signature)
    (ha : Attribute.find? m.attributes CodeAttribute.name = some a)
    (hc : CodeAttribute.read pool (Window.ofList a.info) = .ok (content, n)) :
    HasOutline pool className m ⟨signature, some content.code⟩

/-- What is wrong with a method of which no outline can be read: its signature, or else its first
code attribute. -/
inductive HasFault (pool : Pool) (className : Text) (m : Member) : FormatFault → Prop where
  | signature {e : Descriptor.Error} (hs : m.signature className = .error e) :
    HasFault pool className m (.invalid (.descriptor e))
  | code {signature : Text} {a : Attribute} {e : FormatFault}
    (hs : m.signature className = .ok signature)
    (ha : Attribute.find? m.attributes CodeAttribute.name = some a)
    (hc : CodeAttribute.read pool (Window.ofList a.info) = .error e) :
    HasFault pool className m e

theorem find?_code_eq_none_iff :
    Attribute.find? m.attributes CodeAttribute.name = none ↔
      ∀ a ∈ m.attributes, a.name ≠ Text.ofString CodeAttribute.name := by
  simp [Attribute.find?]

theorem exists_outline_or_fault (pool : Pool) (className : Text) (m : Member) :
    (∃ o, m.HasOutline pool className o) ∨ ∃ e, m.HasFault pool className e := by
  cases hs : m.signature className with
  | error e => exact .inr ⟨_, .signature hs⟩
  | ok signature =>
    cases ha : Attribute.find? m.attributes CodeAttribute.name with
    | none => exact .inl ⟨_, .bare hs (find?_code_eq_none_iff.mp ha)⟩
    | some a =>
      cases hc : CodeAttribute.read pool (Window.ofList a.info) with
      | error e => exact .inr ⟨e, .code hs ha hc⟩
      | ok r => exact .inl ⟨_, .coded hs ha hc⟩

/-- The methods of a class all have an outline, or there is a first one with a fault. -/
theorem exists_outlines_or_fault (pool : Pool) (className : Text) (ms : List Member) :
    (∃ os, List.Forall₂ (HasOutline pool className) ms os) ∨
      ∃ before os m after e, ms = before ++ m :: after ∧
        List.Forall₂ (HasOutline pool className) before os ∧ m.HasFault pool className e := by
  induction ms with
  | nil => exact .inl ⟨[], .nil⟩
  | cons m ms ih =>
    rcases m.exists_outline_or_fault pool className with ⟨o, ho⟩ | ⟨e, he⟩
    · rcases ih with ⟨os, hos⟩ | ⟨before, os, m', after, e, rfl, hos, he⟩
      · exact .inl ⟨o :: os, .cons ho hos⟩
      · exact .inr ⟨m :: before, o :: os, m', after, e, rfl, .cons ho hos, he⟩
    · exact .inr ⟨[], [], m, ms, e, rfl, .nil, he⟩

end Member

namespace ClassListing

/-- The lines of an instruction.  There can be several: a switch has one for each entry, and a
description may hold newlines. -/
def instructionLines (pool : Pool) (i : Instruction) : List Text :=
  (i.line.render (some pool.describe)).lines.map indent

/-- The lines of a code array for which there is room. -/
def allCodeLines (pool : Pool) (d : Code.Decoded) : List Text :=
  d.instructions.flatMap (instructionLines pool) ++ d.failure.toList.map stopLine

end ClassListing

namespace Outline

open ClassListing (indent allCodeLines)

/-- The code array decoded, if there is one. -/
def decoded (policy : Code.Policy) (o : Outline) : Option Code.Decoded :=
  o.code.map fun code ↦ Code.decode policy (Window.ofList code)

/-- The listing of the instructions. -/
def listing (policy : Code.Policy) (pool : Pool) (o : Outline) : Text :=
  match o.decoded policy with
  | none => []
  | some d => Listing.ofInstructions (some pool.describe) d.instructions

/-- What stands below the signature. -/
def body (policy : Code.Policy) (pool : Pool) (o : Outline) : List Text :=
  match o.decoded policy with
  | none => [indent "// no code"]
  | some d => allCodeLines pool d

/-- The lines of a method. -/
def lines (policy : Code.Policy) (pool : Pool) (o : Outline) : List Text :=
  [] :: o.signature :: o.body policy pool

/-- The warning about a method whose code array cannot be decoded to its end. -/
def warning? (policy : Code.Policy) (o : Outline) : Option Text :=
  o.code.bind fun code ↦
    (Code.decode policy (Window.ofList code)).failure.map (·.warning code.length)

variable {limits : Limits} {policy : Code.Policy} {pool : Pool} {o : Outline}

/-- There is room for a method. -/
structure Fits (limits : Limits) (policy : Code.Policy) (pool : Pool) (o : Outline) : Prop where
  units : (o.listing policy pool).length ≤ limits.units
  arguments : (o.lines policy pool).length ≤ limits.arguments

/-- The first limit that a method exceeds, and the warnings about it that are given all the same. -/
inductive Overruns (limits : Limits) (policy : Code.Policy) (pool : Pool) (o : Outline) :
    Overrun → List Text → Prop where
  | units (h : limits.units < (o.listing policy pool).length) :
    Overruns limits policy pool o .units []
  | arguments (hu : (o.listing policy pool).length ≤ limits.units)
    (h : limits.arguments < (o.lines policy pool).length) :
    Overruns limits policy pool o .arguments (o.warning? policy).toList

theorem fits_or_overruns (limits : Limits) (policy : Code.Policy) (pool : Pool) (o : Outline) :
    o.Fits limits policy pool ∨ ∃ limit given, o.Overruns limits policy pool limit given := by
  rcases Nat.lt_or_ge limits.units (o.listing policy pool).length with hu | hu
  · exact .inr ⟨_, _, .units hu⟩
  · rcases Nat.lt_or_ge limits.arguments (o.lines policy pool).length with ha | ha
    · exact .inr ⟨_, _, .arguments hu ha⟩
    · exact .inl ⟨hu, ha⟩

theorem Overruns.not_fits {limit : Overrun} {given : List Text}
    (h : o.Overruns limits policy pool limit given) : ¬ o.Fits limits policy pool := by
  rintro ⟨hu, ha⟩
  cases h with
  | units h => exact absurd hu (Nat.not_le.mpr h)
  | arguments _ h => exact absurd ha (Nat.not_le.mpr h)

end Outline

namespace ClassListing

/-! ## Code arrays -/

theorem flatMap_instructionLines (pool : Pool) {is : List Instruction} (h : is ≠ []) :
    is.flatMap (instructionLines pool) =
      (Listing.ofInstructions (some pool.describe) is).lines.map indent := by
  have hne : (is.map (·.line)).map (·.render (some pool.describe)) ≠ [] := by simpa using h
  rw [Listing.ofInstructions, Listing.render, Text.lines_join_eq_flatMap hne, List.map_flatMap,
    List.flatMap_map, List.flatMap_map]
  rfl

theorem listed_eq (limits : Limits) (pool : Pool) (is : List Instruction) :
    listed limits pool is =
      if (Listing.ofInstructions (some pool.describe) is).length ≤ limits.units then
        .ok (is.flatMap (instructionLines pool))
      else .error (.overrun .units) := by
  cases is with
  | nil => exact (if_pos (Nat.zero_le _)).symm
  | cons i is =>
    rw [flatMap_instructionLines pool (List.cons_ne_nil i is), listed, if_neg (by simp),
      Limits.text]
    split <;> rfl

theorem codeLines_eq (limits : Limits) (pool : Pool) (d : Code.Decoded) :
    codeLines limits pool d =
      if (Listing.ofInstructions (some pool.describe) d.instructions).length ≤ limits.units then
        .ok (allCodeLines pool d)
      else .error (.overrun .units) := by
  rw [codeLines, listed_eq]
  split <;> rfl

/-! ## Methods -/

open Member

variable {limits : Limits} {policy : Code.Policy} {pool : Pool} {className : Text} {m : Member}
  {o : Outline} {e : FormatFault} {limit : Overrun} {given : List Text}

theorem method_of_outline (limits : Limits) (policy : Code.Policy)
    (h : m.HasOutline pool className o) :
    method limits policy pool className m =
      if (o.listing policy pool).length ≤ limits.units then
        .ok ⟨o.lines policy pool, o.warning? policy⟩
      else .error (.overrun .units) := by
  cases h with
  | bare hs ha =>
    rw [method, hs, body, find?_code_eq_none_iff.mpr ha]
    exact (if_pos (Nat.zero_le _)).symm
  | @coded _ _ content _ hs ha hc =>
    rw [method, hs, body, ha]
    dsimp only
    rw [hc]
    dsimp only
    rw [codeLines_eq]
    by_cases hu : (Listing.ofInstructions (some pool.describe)
        (Code.decode policy (Window.ofList content.code)).instructions).length ≤ limits.units
    · rw [if_pos hu]
      exact (if_pos hu).symm
    · rw [if_neg hu]
      exact (if_neg hu).symm

theorem method_of_fault (h : m.HasFault pool className e) :
    method limits policy pool className m = .error (.format e) := by
  cases h with
  | signature hs => rw [method, hs]
  | code hs ha hc => rw [method, hs, body, ha]; dsimp only; rw [hc]

/-- Methods for which there is room put their lines and their warnings in front of what follows. -/
theorem methods_append {before : List Member} {os : List Outline}
    (h : List.Forall₂ (HasOutline pool className) before os)
    (hfits : ∀ o ∈ os, o.Fits limits policy pool) (rest : List Member) :
    methods limits policy pool className (before ++ rest) =
      ⟨os.filterMap (·.warning? policy) ++ (methods limits policy pool className rest).warnings,
        (methods limits policy pool className rest).outcome.map
          (os.flatMap (·.lines policy pool) ++ ·)⟩ := by
  induction h with
  | nil =>
    rw [List.nil_append]
    obtain ⟨warnings, outcome⟩ := methods limits policy pool className rest
    cases outcome <;> rfl
  | @cons m o _ os ho _ ih =>
    rw [List.forall_mem_cons] at hfits
    rw [List.cons_append, methods, method_of_outline limits policy ho, if_pos hfits.1.units]
    dsimp only
    rw [Limits.call, if_pos hfits.1.arguments]
    dsimp only
    rw [ih hfits.2, List.filterMap_cons, List.flatMap_cons]
    obtain ⟨warnings, outcome⟩ := methods limits policy pool className rest
    cases o.warning? policy <;> cases outcome <;> simp [Except.map]

theorem methods_of_outlines {ms : List Member} {os : List Outline}
    (h : List.Forall₂ (HasOutline pool className) ms os)
    (hfits : ∀ o ∈ os, o.Fits limits policy pool) :
    methods limits policy pool className ms =
      ⟨os.filterMap (·.warning? policy), .ok (os.flatMap (·.lines policy pool))⟩ := by
  rw [← List.append_nil ms, methods_append h hfits, methods, List.append_nil, Except.map,
    List.append_nil]

section Ended

variable {before : List Member} {os : List Outline}
  (h : List.Forall₂ (HasOutline pool className) before os)
  (hfits : ∀ o ∈ os, o.Fits limits policy pool)
include h hfits

theorem methods_of_fault (hm : m.HasFault pool className e) (after : List Member) :
    methods limits policy pool className (before ++ m :: after) =
      ⟨os.filterMap (·.warning? policy), .error (.format e)⟩ := by
  have hrest : methods limits policy pool className (m :: after) = ⟨[], .error (.format e)⟩ := by
    rw [methods, method_of_fault hm]
  rw [methods_append h hfits, hrest, List.append_nil]
  rfl

theorem methods_of_overruns (hm : m.HasOutline pool className o)
    (ho : o.Overruns limits policy pool limit given) (after : List Member) :
    methods limits policy pool className (before ++ m :: after) =
      ⟨os.filterMap (·.warning? policy) ++ given, .error (.overrun limit)⟩ := by
  have hrest : methods limits policy pool className (m :: after) =
      ⟨given, .error (.overrun limit)⟩ := by
    rw [methods, method_of_outline limits policy hm]
    cases ho with
    | units hu => rw [if_neg (Nat.not_le.mpr hu)]
    | arguments hu ha =>
      rw [if_pos hu]
      dsimp only
      rw [Limits.call, if_neg (Nat.not_le.mpr ha)]
  rw [methods_append h hfits, hrest]
  rfl

end Ended

/-! ## Classes -/

/-- The outlines of the first methods of a class. -/
def HasOutlines (c : ClassFile) (ms : List Member) (os : List Outline) : Prop :=
  List.Forall₂ (HasOutline c.pool (sourceName c.thisClass)) ms os

/-- The text of a listing for which there is room. -/
def wholeText (policy : Code.Policy) (c : ClassFile) (os : List Outline) : Text :=
  Text.join "\n" (header c ++ os.flatMap (·.lines policy c.pool))

/-- The limit that the listing of a class exceeds and the warnings that are given before: there is
no room for a method, or none for the text as a whole. -/
inductive Overruns (limits : Limits) (policy : Code.Policy) (c : ClassFile) :
    Overrun → List Text → Prop where
  | method {before after : List Member} {m : Member} {os : List Outline} {o : Outline}
    {limit : Overrun} {given : List Text} (hc : c.methods = before ++ m :: after)
    (hos : HasOutlines c before os) (hfits : ∀ o ∈ os, o.Fits limits policy c.pool)
    (hm : m.HasOutline c.pool (sourceName c.thisClass) o)
    (ho : o.Overruns limits policy c.pool limit given) :
    Overruns limits policy c limit (os.filterMap (·.warning? policy) ++ given)
  | text {os : List Outline} (hos : HasOutlines c c.methods os)
    (hfits : ∀ o ∈ os, o.Fits limits policy c.pool)
    (h : limits.units < (wholeText policy c os).length) :
    Overruns limits policy c .units (os.filterMap (·.warning? policy))

section Class

variable {c : ClassFile} {before after : List Member} {os : List Outline}

/-- The methods of a class all have an outline, or there is a first one with a fault. -/
theorem exists_outlines_or_fault (c : ClassFile) :
    (∃ os, HasOutlines c c.methods os) ∨
      ∃ before os m after e, c.methods = before ++ m :: after ∧ HasOutlines c before os ∧
        m.HasFault c.pool (sourceName c.thisClass) e :=
  Member.exists_outlines_or_fault c.pool (sourceName c.thisClass) c.methods

/-- There is room for the first methods of a class, or the listing exceeds a limit. -/
theorem fits_or_overruns (limits : Limits) (policy : Code.Policy)
    (hc : c.methods = before ++ after) (hos : HasOutlines c before os) :
    (∀ o ∈ os, o.Fits limits policy c.pool) ∨
      ∃ limit given, Overruns limits policy c limit given := by
  -- The methods that have been found to fit are moved to the front one by one.
  suffices h : ∀ front fs, c.methods = front ++ (before ++ after) → HasOutlines c front fs →
      (∀ o ∈ fs, o.Fits limits policy c.pool) → _ from h [] [] hc .nil (by simp)
  intro front fs hfront hfs hfits
  clear hc
  induction hos generalizing front fs with
  | nil => exact .inl (by simp)
  | @cons m o ms os hm _ ih =>
    rcases o.fits_or_overruns limits policy c.pool with ho | ⟨limit, given, ho⟩
    · rcases ih (front ++ [m]) (fs ++ [o]) (by simpa using hfront)
        (List.rel_append hfs (.cons hm .nil)) (by simpa [or_imp, forall_and] using ⟨hfits, ho⟩) with
        h | h
      · exact .inl (List.forall_mem_cons.mpr ⟨ho, h⟩)
      · exact .inr h
    · exact .inr ⟨limit, _, .method hfront hfs hfits hm ho⟩

/-- A class is listed, or a method has a fault, or the listing exceeds a limit. -/
theorem listable_or_fault_or_overruns (limits : Limits) (policy : Code.Policy) (c : ClassFile) :
    (∃ os, HasOutlines c c.methods os ∧ (∀ o ∈ os, o.Fits limits policy c.pool) ∧
      (wholeText policy c os).length ≤ limits.units) ∨
    (∃ before os m after e, c.methods = before ++ m :: after ∧ HasOutlines c before os ∧
      (∀ o ∈ os, o.Fits limits policy c.pool) ∧
        m.HasFault c.pool (sourceName c.thisClass) e) ∨
    ∃ limit given, Overruns limits policy c limit given := by
  rcases exists_outlines_or_fault c with ⟨os, hos⟩ | ⟨before, os, m, after, e, hc, hos, hm⟩
  · rcases fits_or_overruns limits policy (List.append_nil _).symm hos with hfits | h
    · rcases Nat.lt_or_ge limits.units (wholeText policy c os).length with ht | ht
      · exact .inr (.inr ⟨_, _, .text hos hfits ht⟩)
      · exact .inl ⟨os, hos, hfits, ht⟩
    · exact .inr (.inr h)
  · rcases fits_or_overruns limits policy hc hos with hfits | h
    · exact .inr (.inl ⟨before, os, m, after, e, hc, hos, hfits, hm⟩)
    · exact .inr (.inr h)

section Room

variable (h : ∀ {limit : Overrun} {given : List Text}, ¬ Overruns limits policy c limit given)
include h

theorem fits_of_room (hc : c.methods = before ++ after) (hos : HasOutlines c before os) :
    ∀ o ∈ os, o.Fits limits policy c.pool := by
  rcases fits_or_overruns limits policy hc hos with hfits | ⟨limit, given, ho⟩
  · exact hfits
  · exact absurd ho h

theorem length_wholeText_of_room (hos : HasOutlines c c.methods os) :
    (wholeText policy c os).length ≤ limits.units := by
  have hfits := fits_of_room h (List.append_nil _).symm hos
  exact Nat.not_lt.mp fun ht ↦ h (.text hos hfits ht)

end Room

/-- There is room for a class: for each of its methods and for the text as a whole. -/
structure HasRoom (limits : Limits) (policy : Code.Policy) (c : ClassFile) : Prop where
  methods : ∀ m ∈ c.methods, ∀ o, m.HasOutline c.pool (sourceName c.thisClass) o →
    o.Fits limits policy c.pool
  text : ∀ os, HasOutlines c c.methods os → (wholeText policy c os).length ≤ limits.units

theorem HasRoom.not_overruns (h : HasRoom limits policy c) :
    ¬ Overruns limits policy c limit given := by
  intro ho
  cases ho with
  | method hc hos hfits hm ho => exact ho.not_fits (h.methods _ (by simp [hc]) _ hm)
  | text hos hfits ht => exact absurd (h.text _ hos) (Nat.not_le.mpr ht)

theorem lines_of_outlines (hos : HasOutlines c c.methods os)
    (hfits : ∀ o ∈ os, o.Fits limits policy c.pool) :
    lines limits policy c = ⟨os.filterMap (·.warning? policy),
      .ok (header c ++ os.flatMap (·.lines policy c.pool))⟩ := by
  rw [lines, methods_of_outlines hos hfits]
  rfl

theorem lines_of_fault (hc : c.methods = before ++ m :: after) (hos : HasOutlines c before os)
    (hfits : ∀ o ∈ os, o.Fits limits policy c.pool)
    (hm : m.HasFault c.pool (sourceName c.thisClass) e) :
    lines limits policy c = ⟨os.filterMap (·.warning? policy), .error (.format e)⟩ := by
  rw [lines, hc, methods_of_fault hos hfits hm]
  rfl

theorem render_of_outlines (hos : HasOutlines c c.methods os)
    (hfits : ∀ o ∈ os, o.Fits limits policy c.pool) :
    render limits policy c =
      ⟨os.filterMap (·.warning? policy), limits.text (wholeText policy c os)⟩ := by
  rw [render, lines_of_outlines hos hfits]
  rfl

theorem render_of_fault (hc : c.methods = before ++ m :: after) (hos : HasOutlines c before os)
    (hfits : ∀ o ∈ os, o.Fits limits policy c.pool)
    (hm : m.HasFault c.pool (sourceName c.thisClass) e) :
    render limits policy c = ⟨os.filterMap (·.warning? policy), .error (.format e)⟩ := by
  rw [render, lines_of_fault hc hos hfits hm]
  rfl

theorem render_of_overruns (h : Overruns limits policy c limit given) :
    render limits policy c = ⟨given, .error (.overrun limit)⟩ := by
  cases h with
  | method hc hos hfits hm ho =>
    rw [render, lines, hc, methods_of_overruns hos hfits hm ho]
    rfl
  | text hos hfits h => rw [render_of_outlines hos hfits, Limits.text, if_neg (Nat.not_le.mpr h)]

end Class

end ClassListing

end Bytecode
