import Bytecode.CommandLine
import Bytecode.Proofs.ClassListing.Overlong

/-!
# How a run of the program ends

A run prints its usage, or the listing of a class, or what is wrong with the file that it was asked
to list.  The listing is printed as a whole or not at all.  The warnings are about the methods that
have been listed by then, which are all of them unless a method has a fault.  There is a fourth way
to end: a class without a fault is not listed either if there is no room for its listing.  Every run
ends in exactly one of these ways, and with enough room in one of the first three
(`CommandLine.existsUnique_ending`).
-/

namespace Bytecode.CommandLine

open ClassListing (HasOutlines Overruns)

/-- The ways in which a run ends. -/
inductive Ending where
  | usage
  | success
  | failure
  | overrun
deriving DecidableEq, Repr

/-- What a run prints that fails about a file: no listing, some warnings and one error. -/
def failed (s : Style) (file : String) (given : List Text) (message : Text) : Session :=
  ⟨⟨1, [], given.map s.yellow ++ [s.red (s.bold "error") ++ ": " ++ message]⟩, [file]⟩

/-- `Ends limits s files arguments ending o` says when a run ends in a certain way, and that `o` is
what it prints and asks for then.  A failure is due to a file that cannot be read or is no class, or
to the first method of a class that has a fault. -/
inductive Ends (limits : Limits) (s : Style) (files : Files) (arguments : List String) :
    Ending → Session → Prop where
  | usage (hi : parse arguments = none) :
    Ends limits s files arguments .usage ⟨⟨1, [], [s.yellow CommandLine.usage]⟩, []⟩
  | listed {i : Invocation} {bytes : Array UInt8} {c : ClassFile} {os : List Outline} {text : Text}
    (hi : parse arguments = some i) (hb : files i.file = .ok bytes)
    (hc : ClassFile.parse (Window.ofArray bytes) = .ok c) (hos : HasOutlines c c.methods os)
    (ht : (ClassListing.render limits i.policy c).outcome = .ok text) :
    Ends limits s files arguments .success
      ⟨⟨0, [text], (os.filterMap (·.warning? i.policy)).map s.yellow⟩, [i.file]⟩
  | unreadable {i : Invocation} {message : Text} (hi : parse arguments = some i)
    (hb : files i.file = .error (.error message)) :
    Ends limits s files arguments .failure (failed s i.file [] message)
  | thrown {i : Invocation} {v : Value} (hi : parse arguments = some i)
    (hb : files i.file = .error (.value v)) :
    Ends limits s files arguments .failure (failed s i.file [] v.text)
  | malformed {i : Invocation} {bytes : Array UInt8} {e : FormatFault}
    (hi : parse arguments = some i) (hb : files i.file = .ok bytes)
    (hc : ClassFile.parse (Window.ofArray bytes) = .error e) :
    Ends limits s files arguments .failure (failed s i.file [] e.message)
  | faulty {i : Invocation} {bytes : Array UInt8} {c : ClassFile} {before after : List Member}
    {m : Member} {os : List Outline} {e : FormatFault} (hi : parse arguments = some i)
    (hb : files i.file = .ok bytes) (hc : ClassFile.parse (Window.ofArray bytes) = .ok c)
    (hm : c.methods = before ++ m :: after) (hos : HasOutlines c before os)
    (hfits : ∀ o ∈ os, o.Fits limits i.policy c.pool)
    (he : m.HasFault c.pool (sourceName c.thisClass) e) :
    Ends limits s files arguments .failure
      (failed s i.file (os.filterMap (·.warning? i.policy)) e.message)
  | overrun {i : Invocation} {bytes : Array UInt8} {c : ClassFile} {limit : Overrun}
    {given : List Text} (hi : parse arguments = some i) (hb : files i.file = .ok bytes)
    (hc : ClassFile.parse (Window.ofArray bytes) = .ok c)
    (h : Overruns limits i.policy c limit given) :
    Ends limits s files arguments .overrun (failed s i.file given limit.message)

/-- There is room for the listing that a run is asked for. -/
def HasRoom (limits : Limits) (files : Files) (arguments : List String) : Prop :=
  ∀ i bytes c, parse arguments = some i → files i.file = .ok bytes →
    ClassFile.parse (Window.ofArray bytes) = .ok c → ClassListing.HasRoom limits i.policy c

variable {limits : Limits} {s : Style} {files : Files} {arguments : List String} {i : Invocation}
  {policy : Code.Policy} {bytes : Array UInt8} {c : ClassFile}

/-! ## The answer to a file -/

theorem runOn_of_usage (hi : parse arguments = none) :
    runOn limits s files arguments = ⟨usageOutcome s, []⟩ := by
  rw [runOn, run, hi]
  rfl

theorem runOn_of_parse (hi : parse arguments = some i) :
    runOn limits s files arguments = ⟨respond limits s i.policy (files i.file), [i.file]⟩ := by
  rw [runOn, run, hi]
  rfl

theorem listing_of_parse (hc : ClassFile.parse (Window.ofArray bytes) = .ok c) :
    listing limits policy (Window.ofArray bytes) = ClassListing.render limits policy c := by
  rw [listing, hc]

theorem respond_of_ok {given : List Text} {text : Text}
    (h : listing limits policy (Window.ofArray bytes) = ⟨given, .ok text⟩) :
    respond limits s policy (.ok bytes) = ⟨0, [text], given.map s.yellow⟩ := by
  rw [respond, h]
  rfl

theorem respond_of_error {given : List Text} {e : ListingFault}
    (h : listing limits policy (Window.ofArray bytes) = ⟨given, .error e⟩) :
    respond limits s policy (.ok bytes) = ⟨1, [], given.map s.yellow ++ [s.error e.message]⟩ := by
  rw [respond, h]
  rfl

theorem respond_of_malformed {e : FormatFault}
    (hc : ClassFile.parse (Window.ofArray bytes) = .error e) :
    respond limits s policy (.ok bytes) = ⟨1, [], [s.error e.message]⟩ := by
  have hlisting : listing limits policy (Window.ofArray bytes) = ⟨[], .error (.format e)⟩ := by
    rw [listing, hc]
  exact respond_of_error hlisting

theorem respond_of_outlines {os : List Outline}
    (hc : ClassFile.parse (Window.ofArray bytes) = .ok c) (hos : HasOutlines c c.methods os)
    (hfits : ∀ o ∈ os, o.Fits limits policy c.pool)
    (ht : (ClassListing.wholeText policy c os).length ≤ limits.units) :
    respond limits s policy (.ok bytes) =
      ⟨0, [ClassListing.wholeText policy c os],
        (os.filterMap (·.warning? policy)).map s.yellow⟩ := by
  refine respond_of_ok ?_
  rw [listing_of_parse hc, ClassListing.render_of_outlines hos hfits, Limits.text, if_pos ht]

theorem respond_of_fault {before after : List Member} {m : Member} {os : List Outline}
    {e : FormatFault} (hc : ClassFile.parse (Window.ofArray bytes) = .ok c)
    (hm : c.methods = before ++ m :: after) (hos : HasOutlines c before os)
    (hfits : ∀ o ∈ os, o.Fits limits policy c.pool)
    (he : m.HasFault c.pool (sourceName c.thisClass) e) :
    respond limits s policy (.ok bytes) =
      ⟨1, [], (os.filterMap (·.warning? policy)).map s.yellow ++ [s.error e.message]⟩ := by
  refine respond_of_error (e := .format e) ?_
  rw [listing_of_parse hc, ClassListing.render_of_fault hm hos hfits he]

theorem respond_of_overruns {limit : Overrun} {given : List Text}
    (hc : ClassFile.parse (Window.ofArray bytes) = .ok c)
    (h : Overruns limits policy c limit given) :
    respond limits s policy (.ok bytes) =
      ⟨1, [], given.map s.yellow ++ [s.error limit.message]⟩ := by
  refine respond_of_error (e := .overrun limit) ?_
  rw [listing_of_parse hc, ClassListing.render_of_overruns h]

/-! ## Endings -/

/-- How a run ends, without what it prints. -/
def endingOf (limits : Limits) (files : Files) (arguments : List String) : Ending :=
  match parse arguments with
  | none => .usage
  | some i =>
    match files i.file with
    | .error _ => .failure
    | .ok bytes =>
      match (listing limits i.policy (Window.ofArray bytes)).outcome with
      | .ok _ => .success
      | .error (.format _) => .failure
      | .error (.overrun _) => .overrun

/-- The four ways exclude each other. -/
theorem Ends.ending_eq {ending : Ending} {o : Session}
    (h : Ends limits s files arguments ending o) : ending = endingOf limits files arguments := by
  cases h with
  | usage hi => simp only [endingOf, hi]
  | listed hi hb hc hos ht => simp only [endingOf, hi, hb, listing_of_parse hc, ht]
  | unreadable hi hb => simp only [endingOf, hi, hb]
  | thrown hi hb => simp only [endingOf, hi, hb]
  | malformed hi hb hc => simp only [endingOf, hi, hb, listing, hc]
  | faulty hi hb hc hm hos hfits he =>
    simp only [endingOf, hi, hb, listing_of_parse hc, ClassListing.render_of_fault hm hos hfits he]
  | overrun hi hb hc h =>
    simp only [endingOf, hi, hb, listing_of_parse hc, ClassListing.render_of_overruns h]

theorem exists_ends (limits : Limits) (s : Style) (files : Files) (arguments : List String) :
    ∃ ending, Ends limits s files arguments ending (runOn limits s files arguments) := by
  cases hi : parse arguments with
  | none =>
    rw [runOn_of_usage hi]
    exact ⟨_, .usage hi⟩
  | some i =>
    rw [runOn_of_parse hi]
    cases hb : files i.file with
    | error rejection =>
      cases rejection with
      | error message => exact ⟨_, .unreadable hi hb⟩
      | value v => exact ⟨_, .thrown hi hb⟩
    | ok bytes =>
      cases hc : ClassFile.parse (Window.ofArray bytes) with
      | error e =>
        rw [respond_of_malformed hc]
        exact ⟨_, .malformed hi hb hc⟩
      | ok c =>
        rcases ClassListing.listable_or_fault_or_overruns limits i.policy c with
          ⟨os, hos, hfits, ht⟩ | ⟨before, os, m, after, e, hm, hos, hfits, he⟩ | ⟨limit, given, h⟩
        · rw [respond_of_outlines hc hos hfits ht]
          refine ⟨_, .listed hi hb hc hos ?_⟩
          rw [ClassListing.render_of_outlines hos hfits, Limits.text, if_pos ht]
        · rw [respond_of_fault hc hm hos hfits he]
          exact ⟨_, .faulty hi hb hc hm hos hfits he⟩
        · rw [respond_of_overruns hc h]
          exact ⟨_, .overrun hi hb hc h⟩

/-- Every run ends in exactly one of the four ways.  If there is room for the listing, this is not
the fourth one. -/
theorem existsUnique_ending (limits : Limits) (s : Style) (files : Files)
    (arguments : List String) :
    (∃! ending, Ends limits s files arguments ending (runOn limits s files arguments)) ∧
    (HasRoom limits files arguments → ∀ o, ¬ Ends limits s files arguments .overrun o) := by
  constructor
  · obtain ⟨ending, h⟩ := exists_ends limits s files arguments
    exact ⟨ending, h, fun _ h' ↦ h'.ending_eq.trans h.ending_eq.symm⟩
  · intro hroom o h
    cases h with
    | overrun hi hb hc h => exact (hroom _ _ _ hi hb hc).not_overruns h

/-- The file of a class with a method that does nothing for too long. -/
def idleClass : Array UInt8 :=
  ClassFile.soleFile (Code.nops Limits.usual.arguments) (by rw [Code.length_nops]; decide)

/-- Nothing is wrong with the class, but it is not listed. -/
theorem ending_idleClass :
    let files : Files := fun _ ↦ .ok idleClass
    (∃ c os, ClassFile.parse (Window.ofArray idleClass) = .ok c ∧ HasOutlines c c.methods os) ∧
      (runOn .usual .plain files ["A.class"]).exitCode = 1 ∧
      (runOn .usual .plain files ["A.class"]).stdout = [] ∧
      ∀ ending, Ends .usual .plain files ["A.class"] ending
        (runOn .usual .plain files ["A.class"]) → ending = .overrun := by
  intro files
  have hn : (Code.nops Limits.usual.arguments).length ≤ Raw.CodeAttribute.capacity := by
    rw [Code.length_nops]
    decide
  have hi : parse ["A.class"] = some ⟨"A.class", .resume⟩ := by decide
  have hc := ClassFile.parse_soleFile (Code.nops Limits.usual.arguments) hn
  obtain ⟨limit, given, hover⟩ := ClassListing.overruns_sole _ hn
    (Code.length_decode_nops Limits.usual.arguments).ge
  have hends : Ends .usual .plain files ["A.class"] .overrun _ := .overrun hi rfl hc hover
  have hrun : runOn .usual .plain files ["A.class"] = failed .plain "A.class" given limit.message :=
    (runOn_of_parse hi).trans (congrArg (Session.mk · ["A.class"]) (respond_of_overruns hc hover))
  rw [hrun]
  exact ⟨⟨_, _, hc, ClassListing.hasOutlines_sole _ hn⟩, rfl, rfl,
    fun ending h ↦ h.ending_eq.trans hends.ending_eq.symm⟩

end Bytecode.CommandLine
