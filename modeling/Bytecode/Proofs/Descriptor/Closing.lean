import Bytecode.Proofs.Descriptor.Grammar

/-!
# Where the parameters of a method end

The parameters of a method are read type by type up to the closing parenthesis, while its result is
looked for behind the first closing parenthesis of the descriptor.  The two parentheses differ where
the name of a class holds one, and then no result is found: the semicolon that ends the name stands
behind that parenthesis, and more text follows the semicolon, which no single type has.
-/

namespace Bytecode

open Text (unit)

theorem Text.eq_of_replace_eq {old new : Char} {t w : Text} (h : t.replace old new = w)
    (hw : unit new ∉ w) : t = w := by
  have hkeep : ∀ u ∈ t, (if u = unit old then unit new else u) = u := by
    intro u hu
    split
    · next hold =>
      refine absurd ?_ hw
      rw [← h]
      exact List.mem_map.mpr ⟨u, hu, if_pos hold⟩
    · rfl
  rw [← h, replace, List.map_congr_left hkeep, List.map_id']

theorem Text.afterFirst?_append {c : Char} {front : Text} (h : unit c ∉ front) (rest : Text) :
    Text.afterFirst? c (front ++ unit c :: rest) = some rest := by
  induction front with
  | nil => rw [List.nil_append, afterFirst?, if_pos rfl]
  | cons u front ih =>
    rw [List.mem_cons, not_or] at h
    rw [List.cons_append, afterFirst?, if_neg (Ne.symm h.1), ih h.2]

namespace Descriptor

/-! ## Types of results -/

/-- The types that the result of a method can have: `void` has no arrays. -/
def FieldType.IsResult (t : FieldType) : Prop :=
  t.element.WellFormed ∧ (t.element = .primitive .void → t.dimensions = 0)

/-- An array of a class that is called like the absence of a result. -/
def FieldType.IsArrayOfVoidClass (t : FieldType) : Prop :=
  t.element = .object "void" ∧ t.dimensions ≠ 0

theorem Element.isVoid_iff {e : Element} :
    e.isVoid ↔ e = .primitive .void ∨ e = .object "void" := by
  rw [isVoid, decide_eq_true_iff]
  cases e with
  | primitive p => cases p <;> simp [source, Primitive.name] <;> decide
  | object internal =>
    simp only [source, reduceCtorEq, object.injEq, false_or]
    constructor
    · intro h
      exact Text.eq_of_replace_eq h (by decide)
    · rintro rfl
      decide

theorem fieldType_true_eq_ok_iff {t after : Text} {ty : FieldType} :
    fieldType true t = .ok (ty, after) ↔
      ty.IsResult ∧ ¬ ty.IsArrayOfVoidClass ∧ t = ty.written ++ after := by
  rw [fieldType_eq_ok_iff, Element.isVoid_iff, FieldType.IsResult, FieldType.IsArrayOfVoidClass]
  tauto

theorem result_eq_ok_iff {d : Text} {ty : FieldType} :
    result d = .ok ty ↔ fieldType true ((d.afterFirst? ')').getD d) = .ok (ty, []) := by
  rw [result]
  split <;> simp_all

theorem map_source_result_eq_ok_iff {d text : Text} :
    (result d).map FieldType.source = .ok text ↔ ∃ ty, result d = .ok ty ∧ text = ty.source := by
  cases result d <;> simp [Except.map, eq_comm]

/-! ## Parentheses in the names of classes -/

/-- The semicolon that ends the name of a class stands behind a parenthesis in the name. -/
theorem FieldType.semicolon_mem_of_written_eq {ty : FieldType} {front tail : Text}
    (h : ty.written = front ++ unit ')' :: tail) : unit ';' ∈ tail := by
  obtain ⟨e, n⟩ := ty
  cases e with
  | primitive p =>
    have hmem : unit ')' ∈ FieldType.written ⟨.primitive p, n⟩ := by simp [h]
    rcases List.mem_append.mp hmem with hm | hm
    · exact absurd (List.eq_of_mem_replicate hm) (by decide)
    · exact absurd (List.mem_singleton.mp hm) (by cases p <;> decide)
  | object internal =>
    have hlast : (front ++ unit ')' :: tail).getLast? = some (unit ';') := by
      rw [← h, written, Element.written, ← List.cons_append, ← List.append_assoc,
        List.getLast?_concat]
    rw [List.getLast?_append, List.getLast?_cons, Option.some_or, Option.some.injEq] at hlast
    cases ht : tail.getLast? with
    | none =>
      rw [ht] at hlast
      exact absurd hlast (by decide)
    | some u =>
      rw [ht] at hlast
      exact hlast ▸ List.mem_of_getLast? ht

theorem semicolon_mem_of_flatMap_written_eq {types : List FieldType} {front tail : Text}
    (h : types.flatMap FieldType.written = front ++ unit ')' :: tail) : unit ';' ∈ tail := by
  induction types generalizing front with
  | nil => simp at h
  | cons ty types ih =>
    rw [List.flatMap_cons, List.append_eq_append_iff] at h
    obtain ⟨as, -, h⟩ | ⟨bs, hty, h⟩ := h
    · exact ih h
    · obtain ⟨rfl, hrest⟩ | ⟨bs', rfl, rfl⟩ := List.append_eq_cons_iff.mp h.symm
      · exact ih (hrest.trans (List.nil_append _).symm)
      · exact List.mem_append_left _ (ty.semicolon_mem_of_written_eq hty)

/-- A type has a semicolon only at its end. -/
theorem FieldType.eq_nil_of_written_eq_append {ty : FieldType} (hwf : ty.element.WellFormed)
    {front rest : Text} (h : ty.written = front ++ rest) (hs : unit ';' ∈ front) : rest = [] := by
  obtain ⟨e, n⟩ := ty
  obtain ⟨body, last, hbody, hsemi⟩ :
      ∃ body last, FieldType.written ⟨e, n⟩ = body ++ [last] ∧ unit ';' ∉ body := by
    cases e with
    | primitive p => exact ⟨List.replicate n (unit '['), _, rfl, by simp +decide⟩
    | object internal =>
      refine ⟨List.replicate n (unit '[') ++ unit 'L' :: internal, unit ';', ?_, ?_⟩
      · rw [written, Element.written, List.append_assoc, List.cons_append]
      · have hname := hwf.2
        simp +decide [hname]
  rcases List.eq_nil_or_concat rest with rfl | ⟨rest, u, rfl⟩
  · rfl
  · rw [hbody, List.concat_eq_append, ← List.append_assoc] at h
    have hcut := (List.append_inj' h rfl).1
    exact absurd (hcut ▸ List.mem_append_left rest hs) hsemi

/-! ## Results -/

/-- The place of the closing parenthesis behind the parameters. -/
def closing (types : List FieldType) : Nat := (types.flatMap FieldType.written).length + 1

/-- No result is found behind a parenthesis that belongs to the name of a class. -/
theorem result_ne_ok_of_mem {types : List FieldType} {rest : Text} {ty : FieldType}
    (h : unit ')' ∈ types.flatMap FieldType.written) :
    result (unit '(' :: (types.flatMap FieldType.written ++ unit ')' :: rest)) ≠ .ok ty := by
  obtain ⟨front, tail, hsplit, hfront⟩ := List.eq_append_cons_of_mem h
  have hsemi := semicolon_mem_of_flatMap_written_eq hsplit
  have hafter : Text.afterFirst? ')'
      (unit '(' :: (types.flatMap FieldType.written ++ unit ')' :: rest)) =
        some (tail ++ unit ')' :: rest) := by
    rw [hsplit, List.append_assoc, List.cons_append, ← List.cons_append]
    exact Text.afterFirst?_append (by simp +decide [hfront]) _
  rw [Ne, result_eq_ok_iff, hafter, Option.getD_some, fieldType_true_eq_ok_iff, List.append_nil]
  rintro ⟨hty, -, hwritten⟩
  cases ty.eq_nil_of_written_eq_append hty.1 hwritten.symm hsemi

theorem result_eq_ok_iff_of_notMem {types : List FieldType} {rest : Text} {ty : FieldType}
    (h : unit ')' ∉ types.flatMap FieldType.written) :
    result (unit '(' :: (types.flatMap FieldType.written ++ unit ')' :: rest)) = .ok ty ↔
      ty.IsResult ∧ ¬ ty.IsArrayOfVoidClass ∧ rest = ty.written := by
  have hafter : Text.afterFirst? ')'
      (unit '(' :: (types.flatMap FieldType.written ++ unit ')' :: rest)) = some rest := by
    rw [← List.cons_append]
    exact Text.afterFirst?_append (by simp +decide [h]) rest
  rw [result_eq_ok_iff, hafter, Option.getD_some, fieldType_true_eq_ok_iff, List.append_nil]

/-- Where the parameters of a method can be read, its result is the one type behind the closing
parenthesis at which they end.  No result is found if there is another closing parenthesis in front
of it, or if the type is an array of a class that is called `void`. -/
theorem result_source_eq_ok_iff {d : Text} {types : List FieldType}
    (h : parameters d = .ok types) :
    d.take (closing types) = unit '(' :: types.flatMap FieldType.written ∧
    d[closing types]? = some (unit ')') ∧
    ∀ text, (result d).map FieldType.source = .ok text ↔
      unit ')' ∉ d.take (closing types) ∧
      ∃ ty : FieldType, ty.IsResult ∧ ¬ ty.IsArrayOfVoidClass ∧
        d.drop (closing types + 1) = ty.written ∧ text = ty.source := by
  obtain ⟨-, rest, rfl⟩ := parameters_eq_ok_iff.mp h
  have htake : (unit '(' :: (types.flatMap FieldType.written ++ unit ')' :: rest)).take
      (closing types) = unit '(' :: types.flatMap FieldType.written := by
    rw [closing, List.take_succ_cons, List.take_left]
  have hget : (unit '(' :: (types.flatMap FieldType.written ++ unit ')' :: rest))[closing types]? =
      some (unit ')') := by
    rw [closing, List.getElem?_cons_succ, List.getElem?_append_right (Nat.le_refl _), Nat.sub_self,
      List.getElem?_cons_zero]
  have hdrop : (unit '(' :: (types.flatMap FieldType.written ++ unit ')' :: rest)).drop
      (closing types + 1) = rest := by
    rw [closing, List.drop_succ_cons, List.drop_append, List.drop_of_length_le (Nat.le_succ _),
      Nat.add_sub_cancel_left]
    rfl
  refine ⟨htake, hget, fun text ↦ ?_⟩
  have hopen : unit ')' ∉ unit '(' :: types.flatMap FieldType.written ↔
      unit ')' ∉ types.flatMap FieldType.written := by simp +decide
  rw [htake, hdrop, hopen, map_source_result_eq_ok_iff]
  by_cases hmem : unit ')' ∈ types.flatMap FieldType.written
  · simp only [result_ne_ok_of_mem hmem, false_and, exists_false, hmem, not_true_eq_false]
  · simp only [result_eq_ok_iff_of_notMem hmem, hmem, not_false_eq_true, true_and, and_assoc]

/-- The result of a method with an array of a class among its parameters. -/
theorem result_source_array :
    parameters "([La/B;I)[J" = .ok [⟨.object "a/B", 1⟩, ⟨.primitive .int, 0⟩] ∧
      (result "([La/B;I)[J").map FieldType.source = .ok (Text.ofString "long[]") := by
  have h : parameters "([La/B;I)[J" = .ok [⟨.object "a/B", 1⟩, ⟨.primitive .int, 0⟩] := by
    decide +kernel
  refine ⟨h, ((result_source_eq_ok_iff h).2.2 _).mpr ⟨by decide +kernel, ⟨.primitive .long, 1⟩, ?_⟩⟩
  exact ⟨⟨trivial, by decide⟩, fun hv ↦ (by cases hv.1), by decide +kernel, by decide +kernel⟩

/-- A class whose name holds a closing parenthesis can be the type of a parameter, but hides the
result behind it, although `V` is a result. -/
theorem result_hidden_by_class_name :
    parameters "(La)b;)V" = .ok [⟨.object "a)b", 0⟩] ∧
      closing [⟨.object "a)b", 0⟩] = 6 ∧
      FieldType.IsResult ⟨.primitive .void, 0⟩ ∧
      (Text.ofString "(La)b;)V").drop 7 = FieldType.written ⟨.primitive .void, 0⟩ ∧
      result "(La)b;)V" = .error (.unexpected (some (unit 'b'))) := by
  refine ⟨by decide +kernel, by decide, ⟨trivial, fun _ ↦ rfl⟩, by decide, by decide +kernel⟩

/-- An array of the class `void` is no result, although it is written like one. -/
example : result "()[Lvoid;" = .error .voidArray := by decide +kernel

end Descriptor

end Bytecode
