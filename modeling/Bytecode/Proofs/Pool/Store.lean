import Bytecode.Proofs.Pool.References
import Mathlib.Data.List.Induction
import Mathlib.Logic.Relation

/-!
# What storing a constant changes

A constant can be stored at any integer and stays there until another one takes its place
(`stored?_set`).  Only the indices of a pool are looked at, so that an index of the pool holds the
constant that was last put there, and any other integer holds none, whatever is stored at it.  What
is said about an index depends only on the constants that can be reached from it by following
references, so a constant that is put elsewhere changes nothing about it (`store_frame`).
-/

namespace Bytecode.Pool

/-! ## The constant at an index -/

/-- The indices that can hold a constant. -/
def HasIndex (p : Pool) (i : Int) : Prop := 1 ≤ i ∧ i < p.count

instance (p : Pool) (i : Int) : Decidable (p.HasIndex i) :=
  inferInstanceAs (Decidable (1 ≤ i ∧ i < p.count))

/-- Puts constants into a pool, one after the other. -/
def setAll (p : Pool) (writes : List (Int × Constant)) : Pool :=
  writes.foldl (fun p w ↦ p.set w.1 w.2) p

/-- The constant that is put at an index last. -/
def LastAt (writes : List (Int × Constant)) (i : Int) (c : Constant) : Prop :=
  ∃ front back, writes = front ++ (i, c) :: back ∧ ∀ w ∈ back, w.1 ≠ i

section Writes

variable {p : Pool} {i j : Int} {c : Constant} {writes : List (Int × Constant)}

/-- Every integer keeps what is stored at it, be it an index of the pool or not. -/
theorem stored?_set (p : Pool) (i j : Int) (c : Constant) :
    (p.set i c).stored? j = if j = i then some c else p.stored? j := by
  rw [stored?, stored?, count_set, set]
  by_cases hi : 0 ≤ i ∧ i < p.count
  · rw [if_pos hi]
    by_cases hj : 0 ≤ j ∧ j < p.count
    · have hlt : j.toNat < p.slots.size := by
        have hcount := hj.2
        rw [count] at hcount
        omega
      rw [if_pos hj, if_pos hj]
      by_cases hij : j = i
      · subst hij
        rw [if_pos rfl, Array.getElem?_setIfInBounds_self_of_lt hlt]
        rfl
      · rw [if_neg hij, Array.getElem?_setIfInBounds_ne (by omega)]
    · have hij : j ≠ i := by
        rintro rfl
        exact hj hi
      rw [if_neg hj, if_neg hj, if_neg hij]
  · rw [if_neg hi]
    by_cases hj : 0 ≤ j ∧ j < p.count
    · have hij : j ≠ i := by
        rintro rfl
        exact hi hj
      rw [if_pos hj, if_pos hj, if_neg hij]
    · rw [if_neg hj, if_neg hj, List.lookup_cons]
      by_cases hij : j = i
      · rw [hij, if_pos rfl, beq_self_eq_true]
      · rw [if_neg hij, beq_false_of_ne hij]

theorem stored?_empty (count : Nat) (i : Int) : (empty count).stored? i = none := by
  rw [stored?]
  split
  · rw [empty, Array.getElem?_replicate]
    split <;> rfl
  · rfl

theorem get?_of_hasIndex (h : p.HasIndex i) : p.get? i = p.stored? i := if_pos h

theorem get?_of_not_hasIndex (h : ¬ p.HasIndex i) : p.get? i = none := if_neg h

theorem hasIndex_set : (p.set j c).HasIndex i ↔ p.HasIndex i := by
  rw [HasIndex, HasIndex, count_set]

theorem get?_set_self (h : p.HasIndex i) : (p.set i c).get? i = some c := by
  rw [get?_of_hasIndex (hasIndex_set.mpr h), stored?_set, if_pos rfl]

theorem get?_set_of_ne (h : i ≠ j) : (p.set j c).get? i = p.get? i := by
  rw [get?, get?, count_set, stored?_set, if_neg h]

/-- What is stored outside a pool is not found there. -/
theorem get?_set_of_not_hasIndex (h : ¬ p.HasIndex j) (i : Int) :
    (p.set j c).get? i = p.get? i := by
  by_cases hij : i = j
  · subst hij
    rw [get?_of_not_hasIndex h, get?_of_not_hasIndex (hasIndex_set.not.mpr h)]
  · exact get?_set_of_ne hij

theorem setAll_concat : p.setAll (writes ++ [(j, c)]) = (p.setAll writes).set j c := by
  rw [setAll, List.foldl_concat, ← setAll]

theorem get?_empty (count : Nat) (i : Int) : (empty count).get? i = none := by
  rw [get?, stored?_empty, ite_self]

theorem count_setAll : (p.setAll writes).count = p.count := by
  induction writes generalizing p with
  | nil => rfl
  | cons w writes ih => exact ih.trans (count_set ..)

theorem lastAt_concat_iff {d : Constant} :
    LastAt (writes ++ [(j, d)]) i c ↔ j = i ∧ d = c ∨ j ≠ i ∧ LastAt writes i c := by
  constructor
  · rintro ⟨front, back, h, hback⟩
    rcases List.eq_nil_or_concat back with rfl | ⟨back, w, rfl⟩
    · obtain ⟨-, hlast⟩ := List.append_inj' h rfl
      cases hlast
      exact .inl ⟨rfl, rfl⟩
    · rw [List.concat_eq_append, ← List.cons_append, ← List.append_assoc] at h
      obtain ⟨rfl, hlast⟩ := List.append_inj' h rfl
      cases hlast
      exact .inr ⟨hback (j, d) (by simp), front, back, rfl, fun w hw ↦ hback w (by simp [hw])⟩
  · rintro (⟨rfl, rfl⟩ | ⟨hne, front, back, rfl, hback⟩)
    · exact ⟨writes, [], rfl, by simp⟩
    · refine ⟨front, back ++ [(j, d)], by simp, fun w hw ↦ ?_⟩
      rcases List.mem_append.mp hw with hw | hw
      · exact hback w hw
      · rwa [List.mem_singleton.mp hw]

theorem exists_lastAt_iff : (∃ c, LastAt writes i c) ↔ ∃ w ∈ writes, w.1 = i := by
  induction writes using List.reverseRecOn with
  | nil => simp [LastAt]
  | append_singleton writes w ih =>
    obtain ⟨j, d⟩ := w
    simp only [lastAt_concat_iff, List.mem_append, List.mem_singleton]
    by_cases hij : j = i
    · exact iff_of_true ⟨d, .inl ⟨hij, rfl⟩⟩ ⟨(j, d), .inr rfl, hij⟩
    · simp [hij, ih, or_and_right, exists_or]

/-- After any writes an index that the pool has holds the last constant that was put there. -/
theorem get?_setAll_empty {count : Nat} :
    ((empty count).setAll writes).get? i = some c ↔
      (1 ≤ i ∧ i < count) ∧ LastAt writes i c := by
  induction writes using List.reverseRecOn with
  | nil => simp [setAll, get?_empty, LastAt]
  | append_singleton writes w ih =>
    obtain ⟨j, d⟩ := w
    rw [setAll_concat, lastAt_concat_iff]
    by_cases hij : j = i
    · subst hij
      have hindex : ((empty count).setAll writes).HasIndex j ↔ 1 ≤ j ∧ j < count := by
        rw [HasIndex, count_setAll, count_empty]
      by_cases hj : 1 ≤ j ∧ j < count
      · rw [get?_set_self (hindex.mpr hj)]
        simp [hj]
      · rw [get?_set_of_not_hasIndex (hindex.not.mpr hj), ih]
        simp [hj]
    · rw [get?_set_of_ne (Ne.symm hij), ih]
      simp [hij]

/-- Two pools in which the same constants are found stay so if the same constants are stored. -/
theorem get?_setAll_congr {q : Pool} (hcount : q.count = p.count)
    (h : ∀ i, q.get? i = p.get? i) (i : Int) :
    (q.setAll writes).get? i = (p.setAll writes).get? i := by
  induction writes generalizing p q with
  | nil => exact h i
  | cons w writes ih =>
    refine ih (by rw [count_set, count_set, hcount]) fun k ↦ ?_
    have hindex : q.HasIndex k ↔ p.HasIndex k := by rw [HasIndex, HasIndex, hcount]
    by_cases hk : k = w.1
    · subst hk
      by_cases hw : p.HasIndex w.1
      · rw [get?_set_self hw, get?_set_self (hindex.mpr hw)]
      · rw [get?_set_of_not_hasIndex hw, get?_set_of_not_hasIndex (hindex.not.mpr hw), h]
    · rw [get?_set_of_ne hk, get?_set_of_ne hk, h]

/-- Whether or not constants are stored outside a pool, the same ones are found in it. -/
theorem get?_setAll_filter (i : Int) :
    (p.setAll (writes.filter fun w ↦ p.HasIndex w.1)).get? i = (p.setAll writes).get? i := by
  induction writes generalizing p with
  | nil => rfl
  | cons w writes ih =>
    have hindices : (writes.filter fun v ↦ p.HasIndex v.1) =
        writes.filter fun v ↦ (p.set w.1 w.2).HasIndex v.1 :=
      List.filter_congr fun v _ ↦ decide_eq_decide.mpr hasIndex_set.symm
    by_cases hw : p.HasIndex w.1
    · rw [List.filter_cons_of_pos (by simpa using hw), hindices]
      exact ih
    · rw [List.filter_cons_of_neg (by simpa using hw), ih]
      exact (get?_setAll_congr (count_set ..) (get?_set_of_not_hasIndex hw) i).symm

end Writes

/-! ## What is said about an index -/

/-- The constant at an index refers to another index. -/
def Refers (p : Pool) (i j : Int) : Prop :=
  ∃ c, p.get? i = some c ∧ ∃ r ∈ c.references, r.index = j

/-- Nothing that can be asked about an index tells two pools apart. -/
structure SameAt (p q : Pool) (i : Int) : Prop where
  get : q.get i = p.get i
  utf8 : q.utf8 i = p.utf8 i
  className : q.className i = p.className i
  describe : q.describe i = p.describe i

/-- Two pools hold the same constants wherever references lead from an index. -/
def AgreeFrom (p q : Pool) (i : Int) : Prop :=
  ∀ j, Relation.ReflTransGen p.Refers i j → q.get? j = p.get? j

namespace AgreeFrom

variable {p q : Pool} {i : Int} {c : Constant}

theorem get_eq (h : p.AgreeFrom q i) : q.get i = p.get i := by
  rw [get, get, h i .refl]

theorem of_mem (h : p.AgreeFrom q i) (hc : p.get? i = some c) {r : Reference}
    (hr : r ∈ c.references) : p.AgreeFrom q r.index :=
  fun j hj ↦ h j (.head ⟨c, hc, r, hr, rfl⟩ hj)

/-- After the constant at an index only what it refers to matters. -/
theorem get_bind {α : Type} {f g : Constant → Except PoolError α} (h : p.AgreeFrom q i)
    (hfg : ∀ c, p.get? i = some c → g c = f c) : (q.get i >>= g) = (p.get i >>= f) := by
  rw [h.get_eq, get]
  cases hc : p.get? i with
  | none => rfl
  | some c => exact hfg c hc

theorem utf8_eq (h : p.AgreeFrom q i) : q.utf8 i = p.utf8 i := h.get_bind fun _ _ ↦ rfl

theorem className_eq (h : p.AgreeFrom q i) : q.className i = p.className i := by
  refine h.get_bind fun c hc ↦ ?_
  split
  · exact (h.of_mem hc (List.mem_singleton_self _)).utf8_eq
  · rfl

theorem nameAndType_eq (h : p.AgreeFrom q i) : q.nameAndType i = p.nameAndType i := by
  refine h.get_bind fun c hc ↦ ?_
  split
  · rw [(h.of_mem hc (List.mem_cons_self ..)).utf8_eq,
      (h.of_mem hc (List.mem_cons_of_mem _ (List.mem_singleton_self _))).utf8_eq]
  · rfl

theorem member_eq (h : p.AgreeFrom q i) : q.member i = p.member i := by
  refine h.get_bind fun c hc ↦ ?_
  split
  · rw [(h.of_mem hc (List.mem_cons_self ..)).className_eq,
      (h.of_mem hc (List.mem_cons_of_mem _ (List.mem_singleton_self _))).nameAndType_eq]
  · rfl

theorem describeConstant_eq (h : p.AgreeFrom q i) :
    q.describeConstant i = p.describeConstant i := by
  refine h.get_bind fun c hc ↦ ?_
  cases c with
  | utf8 | integer | float | long | double => rfl
  | named kind name => exact (h.of_mem hc (List.mem_singleton_self _)).utf8_eq
  | string value =>
    show q.utf8 value >>= _ = p.utf8 value >>= _
    rw [(h.of_mem hc (List.mem_singleton_self _)).utf8_eq]
  | member kind owner type => exact h.member_eq
  | nameAndType name descriptor => exact h.nameAndType_eq
  | methodHandle kind reference =>
    show q.member reference >>= _ = p.member reference >>= _
    rw [(h.of_mem hc (List.mem_singleton_self _)).member_eq]
  | methodType descriptor => exact (h.of_mem hc (List.mem_singleton_self _)).utf8_eq
  | dynamic kind bootstrap type =>
    show q.nameAndType type >>= _ = p.nameAndType type >>= _
    rw [(h.of_mem hc (List.mem_singleton_self _)).nameAndType_eq]

theorem sameAt (h : p.AgreeFrom q i) : p.SameAt q i where
  get := h.get_eq
  utf8 := h.utf8_eq
  className := h.className_eq
  describe := by rw [describe, describe, h.describeConstant_eq]

end AgreeFrom

theorem agreeFrom_set {p : Pool} {i j : Int} {c : Constant}
    (h : ¬ Relation.ReflTransGen p.Refers i j) : p.AgreeFrom (p.set j c) i := by
  intro k hk
  refine get?_set_of_ne ?_
  rintro rfl
  exact h hk

/-- Writes are stored at every integer.  After any of them to an empty pool an index holds the
constant that was put there last, if the pool has the index, and else none is found; writes to
indices that it does not have can be left out.  Whatever a pool holds, a write to an index that
cannot be reached from another one changes nothing that is said about that one. -/
theorem store_frame :
    (∀ (p : Pool) (i j : Int) (c : Constant),
      (p.set i c).stored? j = if j = i then some c else p.stored? j) ∧
    (∀ (count : Nat) (writes : List (Int × Constant)) (i : Int),
      (∀ c, ((empty count).setAll writes).get i = .ok c ↔
        (1 ≤ i ∧ i < count) ∧ LastAt writes i c) ∧
      ∀ e, ((empty count).setAll writes).get i = .error e ↔
        e = .noConstant i ∧ ¬ ((1 ≤ i ∧ i < count) ∧ ∃ w ∈ writes, w.1 = i)) ∧
    (∀ (p : Pool) (writes : List (Int × Constant)) (i : Int),
      (p.setAll (writes.filter fun w ↦ p.HasIndex w.1)).SameAt (p.setAll writes) i) ∧
    ∀ (p : Pool) (i j : Int) (c : Constant), ¬ Relation.ReflTransGen p.Refers i j →
      p.SameAt (p.set j c) i := by
  refine ⟨stored?_set, fun count writes i ↦ ?_, fun p writes i ↦ ?_,
    fun p i j c h ↦ (agreeFrom_set h).sameAt⟩
  · simp only [← exists_lastAt_iff, ← exists_and_left, ← get?_setAll_empty]
    rw [get]
    cases ((empty count).setAll writes).get? i with
    | none => simp [eq_comm]
    | some c => simp
  · refine AgreeFrom.sameAt fun j _ ↦ ?_
    rw [get?_setAll_filter]

/-- A class that is named after itself is not touched by what is put at other indices, be they in
the pool or not. -/
theorem store_frame_selfReference :
    ((empty 3).setAll [(1, .utf8 "A"), (7, .utf8 "B"), (1, .named .classInfo 1)]).get 1 =
        .ok (.named .classInfo 1) ∧
      ((empty 3).setAll [(1, .named .classInfo 1)]).SameAt
        (((empty 3).setAll [(1, .named .classInfo 1)]).set 2 (.utf8 "C")) 1 := by
  obtain ⟨-, hget, -, hframe⟩ := store_frame
  refine ⟨((hget 3 _ 1).1 _).mpr ⟨by decide, [(1, .utf8 "A"), (7, .utf8 "B")], [], rfl, by simp⟩,
    hframe _ 1 2 _ ?_⟩
  have hself : ∀ j, Relation.ReflTransGen
      ((empty 3).setAll [(1, .named .classInfo 1)]).Refers 1 j → j = 1 := by
    intro j hj
    induction hj with
    | refl => rfl
    | tail _ hrefers ih =>
      subst ih
      obtain ⟨c, hc, r, hr, rfl⟩ := hrefers
      cases hc
      rw [List.mem_singleton.mp hr]
  intro h
  exact absurd (hself 2 h) (by decide)

end Bytecode.Pool
