import Bytecode.Text
import Mathlib.Data.List.Basic

/-!
# Lines and joined texts

Texts without a newline that are joined with newlines are the lines of the result, so a sequence of
lines can be recovered from the text that holds them one below the other.  Texts with newlines bring
all of their lines into the result.
-/

namespace Bytecode.Text

/-! ## Joining -/

theorem join_cons (separator part : Text) (parts : List Text) :
    join separator (part :: parts) = part ++ parts.flatMap (separator ++ ·) := by
  induction parts generalizing part with
  | nil => simp [join]
  | cons next parts ih =>
    rw [join, List.intercalate_cons_cons, ← join, ih, List.flatMap_cons, List.append_assoc,
      List.append_assoc]

theorem append_join (separator : Text) {parts : List Text} (h : parts ≠ []) :
    separator ++ join separator parts = parts.flatMap (separator ++ ·) := by
  cases parts with
  | nil => exact absurd rfl h
  | cons part parts => rw [join_cons, List.flatMap_cons, List.append_assoc]

/-- Parts that were joined themselves can be joined all at once. -/
theorem join_map_join {α : Type} (separator : Text) {f : α → List Text} {as : List α}
    (h : ∀ a ∈ as, f a ≠ []) :
    join separator (as.map fun a ↦ join separator (f a)) = join separator (as.flatMap f) := by
  have htail : ∀ {as : List α}, (∀ a ∈ as, f a ≠ []) →
      (as.map fun a ↦ join separator (f a)).flatMap (separator ++ ·) =
        (as.flatMap f).flatMap (separator ++ ·) := by
    intro as h
    rw [List.flatMap_map, List.flatMap_assoc]
    exact List.flatMap_congr fun a ha ↦ append_join separator (h a ha)
  cases as with
  | nil => rfl
  | cons a as =>
    obtain ⟨part, parts, hf⟩ := List.exists_cons_of_ne_nil (h a List.mem_cons_self)
    rw [List.map_cons, join_cons, htail fun a ha ↦ h a (List.mem_cons_of_mem _ ha),
      List.flatMap_cons, hf, join_cons, List.cons_append, join_cons, List.flatMap_append,
      List.append_assoc]

/-! ## Splitting -/

theorem lines_eq_splitOn (t : Text) : lines t = t.splitOn (unit '\n') := by
  induction t with
  | nil => rfl
  | cons u rest ih =>
    rw [lines, List.splitOn_cons_eq_if_modifyHead, ih]
    by_cases hu : u = unit '\n'
    · simp [hu]
    · simp only [hu, beq_iff_eq, if_false]
      cases hs : rest.splitOn (unit '\n') with
      | nil => exact absurd hs (List.splitOn_ne_nil _ _)
      | cons line more => rfl

/-- The lines of joined lines are these lines again. -/
theorem lines_join {parts : List Text} (hparts : ∀ part ∈ parts, unit '\n' ∉ part)
    (hne : parts ≠ []) : lines (join "\n" parts) = parts := by
  rw [lines_eq_splitOn]
  exact List.splitOn_intercalate (unit '\n') hparts hne

theorem lines_eq_singleton {t : Text} (h : unit '\n' ∉ t) : lines t = [t] := by
  have hjoin : lines (join "\n" [t]) = [t] := lines_join (by simpa using h) (List.cons_ne_nil _ _)
  rwa [join, List.intercalate_singleton] at hjoin

theorem lines_append_newline (s t : Text) : lines (s ++ unit '\n' :: t) = lines s ++ lines t := by
  induction s with
  | nil => rfl
  | cons u s ih =>
    rw [List.cons_append, lines, lines, ih]
    split
    · rfl
    · obtain ⟨line, more, hs⟩ := List.exists_cons_of_ne_nil (lines_ne_nil s)
      rw [hs]
      rfl

/-- The lines of joined texts are the lines of each text. -/
theorem lines_join_eq_flatMap {parts : List Text} (hne : parts ≠ []) :
    lines (join "\n" parts) = parts.flatMap lines := by
  induction parts with
  | nil => exact absurd rfl hne
  | cons part parts ih =>
    cases parts with
    | nil => rw [join, List.intercalate_singleton, List.flatMap_singleton]
    | cons next parts =>
      have hjoin : join "\n" (part :: next :: parts) =
          part ++ unit '\n' :: join "\n" (next :: parts) := by
        rw [join, List.intercalate_cons_cons, List.append_assoc]
        rfl
      rw [hjoin, lines_append_newline, ih (List.cons_ne_nil _ _)]
      rfl

end Bytecode.Text
