import Bytecode.Descriptor
import Mathlib.Data.List.Basic

/-!
# The grammar of descriptors

`FieldType.written` is the text of a type in a descriptor.  A type is read from the front of a text
exactly where the text starts with a written type (`fieldType_eq_ok_iff`), and the parameters of a
method are read exactly where written types stand between the parentheses (`parameters_eq_ok_iff`).
-/

namespace Bytecode.Descriptor

open Text (unit)

/-! ## Written types -/

/-- The letter of a primitive type. -/
def Primitive.letter : Primitive → Char
  | .byte => 'B'
  | .char => 'C'
  | .double => 'D'
  | .float => 'F'
  | .int => 'I'
  | .long => 'J'
  | .short => 'S'
  | .boolean => 'Z'
  | .void => 'V'

namespace Element

/-- The text of an element in a descriptor. -/
def written : Element → Text
  | .primitive p => [unit p.letter]
  | .object internal => unit 'L' :: (internal ++ [unit ';'])

/-- The name of a class ends at the first semicolon and must not be empty. -/
def WellFormed : Element → Prop
  | .primitive _ => True
  | .object internal => internal ≠ [] ∧ unit ';' ∉ internal

end Element

namespace FieldType

/-- The text of a type in a descriptor. -/
def written (t : FieldType) : Text :=
  List.replicate t.dimensions (unit '[') ++ t.element.written

/-- The types that a parameter can have. -/
def IsParameter (t : FieldType) : Prop := t.element.WellFormed ∧ t.element.isVoid = false

end FieldType

/-! ## Reading an element -/

theorem Primitive.ofUnit?_eq_some_iff {u : UInt16} {p : Primitive} :
    ofUnit? u = some p ↔ u = unit p.letter := by
  constructor
  · fun_cases ofUnit? u <;> intro h <;> cases h <;> assumption
  · rintro rfl
    cases p <;> decide

theorem Primitive.letter_ne_object (p : Primitive) : unit p.letter ≠ unit 'L' := by
  cases p <;> decide

theorem className?_eq_some_iff {t name after : Text} :
    className? t = some (name, after) ↔ unit ';' ∉ name ∧ t = name ++ unit ';' :: after := by
  induction t generalizing name with
  | nil => simp [className?]
  | cons u rest ih =>
    rw [className?]
    split
    · next hu =>
      subst hu
      cases name with
      | nil => simp
      | cons v name => simp +contextual [eq_comm]
    · next hu =>
      rw [Option.map_eq_some_iff]
      constructor
      · rintro ⟨⟨name', after'⟩, h, he⟩
        cases he
        obtain ⟨hn, rfl⟩ := ih.mp h
        exact ⟨by simp [hn, Ne.symm hu], rfl⟩
      · rintro ⟨hn, he⟩
        cases name with
        | nil => exact absurd (List.cons.inj he).1 hu
        | cons v name =>
          obtain ⟨rfl, rfl⟩ := List.cons.inj he
          exact ⟨(name, after), ih.mpr ⟨fun h ↦ hn (List.mem_cons_of_mem _ h), rfl⟩, rfl⟩

theorem element_eq_ok_iff {t after : Text} {e : Element} :
    element t = .ok (e, after) ↔ e.WellFormed ∧ t = e.written ++ after := by
  constructor
  · fun_cases element t with
    | case1 | case2 | case3 | case6 =>
      intro h
      cases h
    | case4 rest name after' hne hn =>
      intro h
      cases h
      obtain ⟨hsemi, rfl⟩ := className?_eq_some_iff.mp hn
      exact ⟨⟨hne, hsemi⟩, by simp [Element.written]⟩
    | case5 u rest hu p hp =>
      intro h
      cases h
      exact ⟨trivial, by rw [Primitive.ofUnit?_eq_some_iff.mp hp]; rfl⟩
  · rintro ⟨hwf, rfl⟩
    cases e with
    | primitive p =>
      rw [Element.written, List.singleton_append, element, if_neg p.letter_ne_object,
        Primitive.ofUnit?_eq_some_iff.mpr rfl]
    | object internal =>
      obtain ⟨u, name, rfl⟩ := List.exists_cons_of_ne_nil hwf.1
      have hname : className? ((u :: name) ++ unit ';' :: after) = some (u :: name, after) :=
        className?_eq_some_iff.mpr ⟨hwf.2, rfl⟩
      rw [Element.written, List.cons_append, List.append_assoc, List.singleton_append, element,
        if_pos rfl, hname]

/-! ## Reading a type -/

theorem brackets_append (n : Nat) {rest : Text} (h : rest.head? ≠ some (unit '[')) :
    brackets (List.replicate n (unit '[') ++ rest) = (n, rest) := by
  induction n with
  | zero =>
    cases rest with
    | nil => rfl
    | cons u rest => rw [List.replicate_zero, List.nil_append, brackets, if_neg (by simpa using h)]
  | succ n ih => rw [List.replicate_succ, List.cons_append, brackets, if_pos rfl, ih]

theorem eq_of_brackets (t : Text) :
    t = List.replicate (brackets t).1 (unit '[') ++ (brackets t).2 := by
  induction t with
  | nil => rfl
  | cons u rest ih =>
    rw [brackets]
    split
    · next hu => rw [List.replicate_succ, List.cons_append, ← ih, hu]
    · rfl

/-- An element starts with a letter. -/
theorem Element.exists_written_eq_cons (e : Element) :
    ∃ u tail, e.written = u :: tail ∧ u ≠ unit '[' ∧ u ≠ unit ')' := by
  cases e with
  | primitive p => exact ⟨_, _, rfl, by cases p <;> decide, by cases p <;> decide⟩
  | object internal => exact ⟨_, _, rfl, by decide, by decide⟩

/-- A type is read where it is written at the front of a text, unless it is an array of `void` or
`void` is not allowed. -/
theorem fieldType_eq_ok_iff {allowVoid : Bool} {t after : Text} {ty : FieldType} :
    fieldType allowVoid t = .ok (ty, after) ↔
      ty.element.WellFormed ∧ (ty.element.isVoid → ty.dimensions = 0 ∧ allowVoid) ∧
        t = ty.written ++ after := by
  constructor
  · fun_cases fieldType allowVoid t with
    | case1 | case2 | case3 =>
      intro h
      cases h
    | case4 e after' he harray hvoid =>
      intro h
      cases h
      obtain ⟨hwf, hrest⟩ := element_eq_ok_iff.mp he
      refine ⟨hwf, fun hv ↦ ?_, ?_⟩
      · simpa [hv] using And.intro harray hvoid
      · rw [FieldType.written, List.append_assoc, ← hrest]
        exact eq_of_brackets t
  · rintro ⟨hwf, hvoid, rfl⟩
    obtain ⟨e, n⟩ := ty
    obtain ⟨u, tail, he, hu, -⟩ := e.exists_written_eq_cons
    have hb : brackets (FieldType.written ⟨e, n⟩ ++ after) = (n, e.written ++ after) := by
      rw [FieldType.written, List.append_assoc]
      exact brackets_append n (by simpa [he] using hu)
    rw [fieldType, hb, element_eq_ok_iff.mpr ⟨hwf, rfl⟩]
    by_cases hv : e.isVoid
    · obtain ⟨rfl, rfl⟩ := hvoid hv
      simp
    · simp [hv]

theorem fieldType_false_eq_ok_iff {t after : Text} {ty : FieldType} :
    fieldType false t = .ok (ty, after) ↔ ty.IsParameter ∧ t = ty.written ++ after := by
  rw [fieldType_eq_ok_iff, FieldType.IsParameter, and_assoc]
  simp

/-! ## Reading parameters -/

theorem FieldType.exists_written_eq_cons (ty : FieldType) :
    ∃ u tail, ty.written = u :: tail ∧ u ≠ unit ')' := by
  obtain ⟨e, n⟩ := ty
  cases n with
  | zero =>
    obtain ⟨u, tail, he, -, hu⟩ := e.exists_written_eq_cons
    exact ⟨u, tail, he, hu⟩
  | succ n => exact ⟨_, _, rfl, by decide⟩

/-- The types of the parameters are those that are written in front of the closing parenthesis. -/
theorem parametersFrom_eq_ok_iff {descriptor t : Text} {types : List FieldType} :
    parametersFrom descriptor t = .ok types ↔
      (∀ ty ∈ types, ty.IsParameter) ∧
        ∃ rest, t = types.flatMap FieldType.written ++ unit ')' :: rest := by
  constructor
  · intro h
    fun_induction parametersFrom descriptor t generalizing types with
    | case1 => cases h
    | case2 rest =>
      cases h
      exact ⟨by simp, rest, rfl⟩
    | case3 => cases h
    | case4 => cases h
    | case5 u rest hu ty after hty types' hrest ih =>
      cases h
      obtain ⟨hp, ht⟩ := fieldType_false_eq_ok_iff.mp hty
      obtain ⟨hall, rest', rfl⟩ := ih hrest
      exact ⟨List.forall_mem_cons.mpr ⟨hp, hall⟩, rest', by
        rw [ht, List.flatMap_cons, List.append_assoc]⟩
  · rintro ⟨hall, rest, rfl⟩
    induction types with
    | nil => rw [List.flatMap_nil, List.nil_append, parametersFrom, if_pos rfl]
    | cons ty types ih =>
      obtain ⟨hp, hall⟩ := List.forall_mem_cons.mp hall
      have hty : fieldType false (ty.written ++ (types.flatMap FieldType.written ++
          unit ')' :: rest)) = .ok (ty, types.flatMap FieldType.written ++ unit ')' :: rest) :=
        fieldType_false_eq_ok_iff.mpr ⟨hp, rfl⟩
      obtain ⟨u, tail, hu, hne⟩ := ty.exists_written_eq_cons
      rw [List.flatMap_cons, List.append_assoc]
      rw [hu, List.cons_append] at hty ⊢
      rw [parametersFrom, if_neg hne]
      split
      · next he => cases hty.symm.trans he
      · next he =>
        cases hty.symm.trans he
        rw [ih hall]

/-- The parameters of a method are read where written types stand between parentheses. -/
theorem parameters_eq_ok_iff {descriptor : Text} {types : List FieldType} :
    parameters descriptor = .ok types ↔
      (∀ ty ∈ types, ty.IsParameter) ∧
        ∃ rest, descriptor = unit '(' :: (types.flatMap FieldType.written ++ unit ')' :: rest) := by
  cases descriptor with
  | nil => simp [parameters]
  | cons u t =>
    rw [parameters]
    split
    · next hu => rw [parametersFrom_eq_ok_iff, hu]; simp
    · next hu => simp [hu]

end Bytecode.Descriptor
