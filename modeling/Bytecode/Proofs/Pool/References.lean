import Bytecode.Pool
import Mathlib.Data.List.Lex
import Mathlib.Order.Bounds.Basic

/-!
# References between constants

A constant refers to others by index and expects certain kinds of constants there.  Below a list of
references hangs a tree: each reference leads to a constant and so to the references of that one.  A
place in the tree is a list of numbers, one for each reference on the way down, and the order of
places is lexicographic, which is the order of a walk from left to right that goes down first.

`Resolves` says that nothing is broken below a reference, and `FirstBroken` what is wrong with the
broken reference that such a walk comes to first.  `Checks` ties both to a computation: it fails
with the first broken reference and succeeds if there is none.
-/

namespace Bytecode

/-- An index, and the kinds of constants that may stand there. -/
structure Reference where
  index : Int
  kinds : List Kind
deriving DecidableEq, Repr

namespace Constant

/-- The references of a constant in the order of its fields. -/
def references : Constant → List Reference
  | .utf8 _ | .integer _ | .float _ | .long _ | .double _ => []
  | .named _ name => [⟨name, [.utf8]⟩]
  | .string value => [⟨value, [.utf8]⟩]
  | .member _ owner type => [⟨owner, [.classInfo]⟩, ⟨type, [.nameAndType]⟩]
  | .nameAndType name descriptor => [⟨name, [.utf8]⟩, ⟨descriptor, [.utf8]⟩]
  | .methodHandle _ reference => [⟨reference, [.fieldref, .methodref, .interfaceMethodref]⟩]
  | .methodType descriptor => [⟨descriptor, [.utf8]⟩]
  | .dynamic _ _ type => [⟨type, [.nameAndType]⟩]

end Constant

namespace Pool

variable (p : Pool)

/-! ## Whole and broken references -/

/-- A constant of an expected kind stands where a reference points. -/
def Meets (r : Reference) (c : Constant) : Prop := p.get? r.index = some c ∧ c.kind ∈ r.kinds

/-- Everything below a reference is as expected. -/
inductive Resolves : Reference → Prop where
  | intro {r : Reference} {c : Constant} : p.Meets r c → (∀ s ∈ c.references, Resolves s) →
      Resolves r

/-- What is wrong with a reference itself. -/
inductive Broken (r : Reference) : PoolError → Prop where
  | missing : p.get? r.index = none → Broken r (.noConstant r.index)
  | mismatch {c : Constant} : p.get? r.index = some c → c.kind ∉ r.kinds →
      Broken r (.wrongKind r.kinds r.index c.kind)

/-- What is wrong at a place below some references. -/
inductive BrokenAt : List Reference → List Nat → PoolError → Prop where
  | here {refs : List Reference} {k : Nat} {r : Reference} {e : PoolError} :
      refs[k]? = some r → p.Broken r e → BrokenAt refs [k] e
  | inside {refs : List Reference} {k : Nat} {r : Reference} {c : Constant} {place : List Nat}
      {e : PoolError} : refs[k]? = some r → p.Meets r c → BrokenAt c.references place e →
      BrokenAt refs (k :: place) e

/-- What is wrong at the first of all broken places below some references. -/
def FirstBroken (refs : List Reference) (e : PoolError) : Prop :=
  ∃ place, IsLeast {place | ∃ e, p.BrokenAt refs place e} place ∧ p.BrokenAt refs place e

variable {p : Pool} {r : Reference} {refs : List Reference} {e : PoolError}

theorem Meets.unique {c c' : Constant} (h : p.Meets r c) (h' : p.Meets r c') : c = c' :=
  Option.some.inj (h.1.symm.trans h'.1)

theorem Meets.not_broken {c : Constant} (h : p.Meets r c) : ¬ p.Broken r e := by
  rintro (hmissing | ⟨hget, hkind⟩)
  · cases h.1.symm.trans hmissing
  · cases h.1.symm.trans hget
    exact hkind h.2

theorem Broken.unique {e' : PoolError} (h : p.Broken r e) (h' : p.Broken r e') : e = e' := by
  cases h with
  | missing hmissing =>
    cases h' with
    | missing => rfl
    | mismatch hget => cases hmissing.symm.trans hget
  | mismatch hget =>
    cases h' with
    | missing hmissing => cases hget.symm.trans hmissing
    | mismatch hget' =>
      cases hget.symm.trans hget'
      rfl

theorem BrokenAt.unique {place : List Nat} {e' : PoolError} (h : p.BrokenAt refs place e)
    (h' : p.BrokenAt refs place e') : e = e' := by
  induction h with
  | here hr hbroken =>
    cases h' with
    | here hr' hbroken' =>
      cases hr.symm.trans hr'
      exact hbroken.unique hbroken'
    | inside _ _ hnil => cases hnil
  | inside hr hmeets hinside ih =>
    cases h' with
    | here => cases hinside
    | inside hr' hmeets' hinside' =>
      cases hr.symm.trans hr'
      cases hmeets.unique hmeets'
      exact ih hinside'

theorem FirstBroken.unique {e' : PoolError} (h : p.FirstBroken refs e)
    (h' : p.FirstBroken refs e') : e = e' := by
  obtain ⟨place, hleast, hbroken⟩ := h
  obtain ⟨place', hleast', hbroken'⟩ := h'
  cases hleast.unique hleast'
  exact hbroken.unique hbroken'

/-- Below references that resolve nothing is broken. -/
theorem not_brokenAt {place : List Nat} (h : ∀ r ∈ refs, p.Resolves r) :
    ¬ p.BrokenAt refs place e := by
  intro hbroken
  induction hbroken with
  | here hr hbroken =>
    obtain ⟨hmeets, -⟩ := h _ (List.mem_of_getElem? hr)
    exact hmeets.not_broken hbroken
  | inside hr hmeets _ ih =>
    obtain ⟨hmeets', hall⟩ := h _ (List.mem_of_getElem? hr)
    cases hmeets.unique hmeets'
    exact ih hall

/-! ## The first broken reference -/

/-- The first number of a place decides its order before all others. -/
theorem place_cons_le_iff {k k' : Nat} {place place' : List Nat} :
    k :: place ≤ k' :: place' ↔ k < k' ∨ k = k' ∧ place ≤ place' := by
  rw [le_iff_lt_or_eq, List.cons_lt_cons_iff, List.cons.injEq, le_iff_lt_or_eq]
  tauto

/-- The first number of a place decides which reference it is below. -/
theorem brokenAt_cons_iff {k : Nat} {place : List Nat} :
    p.BrokenAt refs (k :: place) e ↔
      ∃ r, refs[k]? = some r ∧
        (place = [] ∧ p.Broken r e ∨ ∃ c, p.Meets r c ∧ p.BrokenAt c.references place e) := by
  constructor
  · intro h
    cases h with
    | here hr hbroken => exact ⟨_, hr, .inl ⟨rfl, hbroken⟩⟩
    | inside hr hmeets hinside => exact ⟨_, hr, .inr ⟨_, hmeets, hinside⟩⟩
  · rintro ⟨r, hr, ⟨rfl, hbroken⟩ | ⟨c, hmeets, hinside⟩⟩
    · exact .here hr hbroken
    · exact .inside hr hmeets hinside

theorem brokenAt_cons_zero {place : List Nat} :
    p.BrokenAt (r :: refs) (0 :: place) e ↔ p.BrokenAt [r] (0 :: place) e := by
  rw [brokenAt_cons_iff, brokenAt_cons_iff, List.getElem?_cons_zero, List.getElem?_cons_zero]

theorem brokenAt_cons_succ {k : Nat} {place : List Nat} :
    p.BrokenAt (r :: refs) ((k + 1) :: place) e ↔ p.BrokenAt refs (k :: place) e := by
  rw [brokenAt_cons_iff, brokenAt_cons_iff, List.getElem?_cons_succ]

theorem not_brokenAt_singleton_succ {k : Nat} {place : List Nat} :
    ¬ p.BrokenAt [r] ((k + 1) :: place) e := by
  rw [brokenAt_cons_succ]
  exact not_brokenAt (by simp)

theorem firstBroken_iff :
    p.FirstBroken refs e ↔
      ∃ k place, p.BrokenAt refs (k :: place) e ∧
        ∀ k' place' e', p.BrokenAt refs (k' :: place') e' → k :: place ≤ k' :: place' := by
  constructor
  · rintro ⟨place, ⟨-, hleast⟩, hplace⟩
    cases place with
    | nil => cases hplace
    | cons k place => exact ⟨k, place, hplace, fun k' place' e' h ↦ hleast ⟨e', h⟩⟩
  · rintro ⟨k, place, hplace, hle⟩
    refine ⟨k :: place, ⟨⟨e, hplace⟩, ?_⟩, hplace⟩
    rintro (_ | ⟨k', place'⟩) ⟨e', h⟩
    · cases h
    · exact hle k' place' e' h

theorem Broken.firstBroken (h : p.Broken r e) : p.FirstBroken [r] e := by
  refine firstBroken_iff.mpr ⟨0, [], .here rfl h, fun k place e' h' ↦ ?_⟩
  cases k with
  | zero => exact place_cons_le_iff.mpr (.inr ⟨rfl, not_lt.mp (List.not_lt_nil place)⟩)
  | succ k => exact absurd h' not_brokenAt_singleton_succ

/-- A reference that is whole itself passes on what is broken below it. -/
theorem FirstBroken.inside {c : Constant} (hmeets : p.Meets r c)
    (h : p.FirstBroken c.references e) : p.FirstBroken [r] e := by
  obtain ⟨k, place, hplace, hle⟩ := firstBroken_iff.mp h
  refine firstBroken_iff.mpr ⟨0, k :: place, .inside rfl hmeets hplace, fun k' place' e' h' ↦ ?_⟩
  cases k' with
  | succ k' => exact absurd h' not_brokenAt_singleton_succ
  | zero =>
    cases h' with
    | here hr hbroken =>
      cases hr
      exact absurd hbroken hmeets.not_broken
    | inside hr hmeets' hinside =>
      cases hr
      cases hmeets.unique hmeets'
      cases place' with
      | nil => cases hinside
      | cons k' place' => exact place_cons_le_iff.mpr (.inr ⟨rfl, hle k' place' e' hinside⟩)

/-- What is broken below the first reference comes before everything below the others. -/
theorem FirstBroken.head (h : p.FirstBroken [r] e) : p.FirstBroken (r :: refs) e := by
  obtain ⟨k, place, hplace, hle⟩ := firstBroken_iff.mp h
  cases k with
  | succ k => exact absurd hplace not_brokenAt_singleton_succ
  | zero =>
    refine firstBroken_iff.mpr ⟨0, place, brokenAt_cons_zero.mpr hplace, fun k' place' e' h' ↦ ?_⟩
    cases k' with
    | zero => exact hle 0 place' e' (brokenAt_cons_zero.mp h')
    | succ k' => exact place_cons_le_iff.mpr (.inl k'.succ_pos)

/-- Where nothing is broken below the first reference, the others decide. -/
theorem FirstBroken.tail (hr : p.Resolves r) (h : p.FirstBroken refs e) :
    p.FirstBroken (r :: refs) e := by
  obtain ⟨k, place, hplace, hle⟩ := firstBroken_iff.mp h
  refine firstBroken_iff.mpr
    ⟨k + 1, place, brokenAt_cons_succ.mpr hplace, fun k' place' e' h' ↦ ?_⟩
  cases k' with
  | zero => exact absurd (brokenAt_cons_zero.mp h') (not_brokenAt (by simpa using hr))
  | succ k' =>
    have hle' := place_cons_le_iff.mp (hle k' place' e' (brokenAt_cons_succ.mp h'))
    exact place_cons_le_iff.mpr (by simpa using hle')

/-! ## Computations that follow references -/

/-- A computation succeeds if everything below some references is as expected, and fails with the
first broken reference if it is not. -/
structure Checks {α : Type} (p : Pool) (refs : List Reference) (x : Except PoolError α) : Prop where
  of_ok : ∀ a, x = .ok a → ∀ r ∈ refs, p.Resolves r
  of_error : ∀ e, x = .error e → p.FirstBroken refs e

namespace Checks

variable {α β : Type}

theorem ok (a : α) : p.Checks [] (.ok a) := ⟨by simp, fun _ h ↦ (by cases h)⟩

theorem error (h : p.FirstBroken refs e) : p.Checks refs (.error e : Except PoolError α) := by
  refine ⟨fun _ ha ↦ (by cases ha), fun e' he ↦ ?_⟩
  cases he
  exact h

/-- References are followed one after the other. -/
theorem cons {x : Except PoolError α} {f : α → Except PoolError β} (hx : p.Checks [r] x)
    (hf : ∀ a, p.Checks refs (f a)) : p.Checks (r :: refs) (x >>= f) := by
  cases hresult : x with
  | error e => exact .error (hx.of_error e hresult).head
  | ok a =>
    have hr : p.Resolves r := hx.of_ok a hresult r (List.mem_singleton_self r)
    exact ⟨fun b h ↦ List.forall_mem_cons.mpr ⟨hr, (hf a).of_ok b h⟩,
      fun e h ↦ ((hf a).of_error e h).tail hr⟩

/-- A reference is followed by looking at the kind of the constant and then at its references. -/
theorem get {f : Constant → Except PoolError α}
    (hmeets : ∀ c, p.Meets r c → p.Checks c.references (f c))
    (hmismatch : ∀ c, c.kind ∉ r.kinds → f c = .error (.wrongKind r.kinds r.index c.kind)) :
    p.Checks [r] (p.get r.index >>= f) := by
  rw [Pool.get]
  cases hget : p.get? r.index with
  | none => exact .error (Broken.missing hget).firstBroken
  | some c =>
    show p.Checks [r] (f c)
    by_cases hkind : c.kind ∈ r.kinds
    · have hc := hmeets c ⟨hget, hkind⟩
      refine ⟨fun a h ↦ ?_, fun e h ↦ .inside ⟨hget, hkind⟩ (hc.of_error e h)⟩
      rw [List.forall_mem_singleton]
      exact .intro ⟨hget, hkind⟩ (hc.of_ok a h)
    · rw [hmismatch c hkind]
      exact .error (Broken.mismatch hget hkind).firstBroken

end Checks

end Pool

end Bytecode
