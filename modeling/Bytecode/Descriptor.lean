import Bytecode.Text

/-!
# Descriptors

A field descriptor is a type; a method descriptor holds the types of the parameters between
parentheses and the type of the result after them.  An array type is its element type after one
bracket for each dimension.
-/

namespace Bytecode

/-- The name of a class with dots between its parts, as source code writes it. -/
def sourceName (internal : Text) : Text := internal.replace '/' '.'

namespace Descriptor

/-- A type that is not a class, or the absence of a result. -/
inductive Primitive where
  | byte
  | char
  | double
  | float
  | int
  | long
  | short
  | boolean
  | void
deriving DecidableEq, Repr

namespace Primitive

/-- The primitive type with a given letter. -/
def ofUnit? (u : UInt16) : Option Primitive :=
  if u = Text.unit 'B' then some .byte
  else if u = Text.unit 'C' then some .char
  else if u = Text.unit 'D' then some .double
  else if u = Text.unit 'F' then some .float
  else if u = Text.unit 'I' then some .int
  else if u = Text.unit 'J' then some .long
  else if u = Text.unit 'S' then some .short
  else if u = Text.unit 'Z' then some .boolean
  else if u = Text.unit 'V' then some .void
  else none

def name : Primitive → String
  | .byte => "byte"
  | .char => "char"
  | .double => "double"
  | .float => "float"
  | .int => "int"
  | .long => "long"
  | .short => "short"
  | .boolean => "boolean"
  | .void => "void"

end Primitive

/-- What an array type is an array of. -/
inductive Element where
  | primitive (p : Primitive)
  | object (internal : Text)
deriving DecidableEq, Repr

namespace Element

/-- The element as source code writes it. -/
def source : Element → Text
  | .primitive p => p.name
  | .object internal => sourceName internal

/-- A class called `void` counts as well. -/
def isVoid (e : Element) : Bool := e.source = Text.ofString "void"

end Element

/-- A type: an element and the number of array dimensions around it. -/
structure FieldType where
  element : Element
  dimensions : Nat
deriving DecidableEq, Repr

/-- The type as source code writes it. -/
def FieldType.source (t : FieldType) : Text :=
  t.element.source ++ (List.replicate t.dimensions (Text.ofString "[]")).flatten

/-- Why a text is not a descriptor. -/
inductive Error where
  | missingSemicolon
  /-- The code unit where a type should start, if the text goes on so far. -/
  | unexpected (u : Option UInt16)
  | voidArray
  | voidArgument
  | missingOpen (descriptor : Text)
  | missingClose (descriptor : Text)
  | notOneType (descriptor : Text)
deriving DecidableEq, Repr

def Error.message : Error → Text
  | .missingSemicolon => "Missing semicolon in descriptor"
  | .unexpected (some u) => "Unexpected character in descriptor: " ++ [u]
  | .unexpected none => "Unexpected character in descriptor: undefined"
  | .voidArray => "Cannot have array of type void"
  | .voidArgument => "Cannot have void arg"
  | .missingOpen descriptor => "Expected ( in " ++ descriptor
  | .missingClose descriptor => "Missing ) in " ++ descriptor
  | .notOneType descriptor => "Expected 1 type in " ++ descriptor

/-! ## Reading a type -/

/-- The number of opening brackets at the front, and what follows them. -/
def brackets : Text → Nat × Text
  | [] => (0, [])
  | u :: rest =>
    if u = Text.unit '[' then ((brackets rest).1 + 1, (brackets rest).2) else (0, u :: rest)

/-- Splits at the first semicolon, which belongs to neither part. -/
def className? : Text → Option (Text × Text)
  | [] => none
  | u :: rest =>
    if u = Text.unit ';' then some ([], rest)
    else (className? rest).map fun (name, after) ↦ (u :: name, after)

/-- The element at the front of a text, and what follows it.  The name of a class must not be
empty. -/
def element : Text → Except Error (Element × Text)
  | [] => .error (.unexpected none)
  | u :: rest =>
    if u = Text.unit 'L' then
      match className? rest with
      | none => .error .missingSemicolon
      | some ([], _) => .error (.unexpected (some u))
      | some (name, after) => .ok (.object name, after)
    else
      match Primitive.ofUnit? u with
      | some p => .ok (.primitive p, rest)
      | none => .error (.unexpected (some u))

/-- The type at the front of a text, and what follows it.  `void` has no arrays and stands only where
`allowVoid` says so. -/
def fieldType (allowVoid : Bool) (t : Text) : Except Error (FieldType × Text) :=
  match element (brackets t).2 with
  | .error e => .error e
  | .ok (e, after) =>
    if e.isVoid && (brackets t).1 ≠ 0 then .error .voidArray
    else if e.isVoid && !allowVoid then .error .voidArgument
    else .ok (⟨e, (brackets t).1⟩, after)

/-! ## Every type takes up some text -/

theorem length_brackets (t : Text) : (brackets t).2.length ≤ t.length := by
  induction t with
  | nil => simp [brackets]
  | cons u rest ih =>
    rw [brackets]
    split
    · simp only [List.length_cons]; omega
    · simp

theorem length_className? {t name after : Text} (h : className? t = some (name, after)) :
    after.length < t.length := by
  induction t generalizing name with
  | nil => simp [className?] at h
  | cons u rest ih =>
    rw [className?] at h
    split at h
    · simp only [Option.some.injEq, Prod.mk.injEq] at h
      simp [h.2]
    · obtain ⟨⟨n, a⟩, hn, he⟩ := Option.map_eq_some_iff.1 h
      simp only [Prod.mk.injEq] at he
      have := ih (he.2 ▸ hn)
      simp only [List.length_cons]
      omega

theorem length_element {t after : Text} {e : Element} (h : element t = .ok (e, after)) :
    after.length < t.length := by
  cases t with
  | nil => simp [element] at h
  | cons u rest =>
    rw [element] at h
    split at h
    · split at h
      · simp at h
      · simp at h
      · next name after' hne hn =>
        simp only [Except.ok.injEq, Prod.mk.injEq] at h
        have := length_className? hn
        simp only [List.length_cons, ← h.2]
        omega
    · split at h
      · simp only [Except.ok.injEq, Prod.mk.injEq] at h
        simp [h.2]
      · simp at h

theorem length_fieldType {allowVoid : Bool} {t after : Text} {ty : FieldType}
    (h : fieldType allowVoid t = .ok (ty, after)) : after.length < t.length := by
  rw [fieldType] at h
  split at h
  · simp at h
  · next e after' he =>
    have := length_element he
    have := length_brackets t
    split at h
    · simp at h
    · split at h
      · simp at h
      · simp only [Except.ok.injEq, Prod.mk.injEq] at h
        rw [← h.2]
        omega

/-! ## Descriptors -/

/-- The types up to the closing parenthesis.  `descriptor` is the text that an error shows. -/
def parametersFrom (descriptor : Text) (t : Text) : Except Error (List FieldType) :=
  match t with
  | [] => .error (.missingClose descriptor)
  | u :: rest =>
    if u = Text.unit ')' then .ok []
    else
      match _h : fieldType false (u :: rest) with
      | .error e => .error e
      | .ok (ty, after) =>
        match parametersFrom descriptor after with
        | .error e => .error e
        | .ok types => .ok (ty :: types)
termination_by t.length
decreasing_by exact length_fieldType _h

/-- The parameter types of a method descriptor. -/
def parameters (descriptor : Text) : Except Error (List FieldType) :=
  match descriptor with
  | [] => .error (.missingOpen descriptor)
  | u :: rest =>
    if u = Text.unit '(' then parametersFrom descriptor rest else .error (.missingOpen descriptor)

/-- The result type of a method descriptor, or the type of a field descriptor: the one type after the
first closing parenthesis, if there is one. -/
def result (descriptor : Text) : Except Error FieldType :=
  match fieldType true ((descriptor.afterFirst? ')').getD descriptor) with
  | .error e => .error e
  | .ok (ty, []) => .ok ty
  | .ok (_, _ :: _) => .error (.notOneType descriptor)

end Descriptor

end Bytecode
