import Bytecode.Proofs.Assembly.Operands
import Mathlib.Data.List.Forall2

/-!
# Programs are assembled statement by statement

Whether a statement can be assembled depends on nothing but the statement: its mnemonic is known, and
its operands have the number and the ranges that their shape asks for.  `Statement.Acceptable` says so
without a word about bytes.  A program is assembled exactly if all of its statements are acceptable;
otherwise the first one that is not decides on the error, as if it stood alone.  Of the statements in
front, those behind depend on the number of bytes modulo four only (`Assembly.statementwise_assemble`).
-/

namespace Bytecode.Assembly

/-! ## Acceptable operands -/

/-- The number is in the range of the field. -/
def Field.Fits (f : Field) (v : Int) : Prop := f.least ≤ v ∧ v ≤ f.greatest

/-- An opcode; if it is in the catalog and more operands follow, an index; and for an increment an
amount. -/
def AcceptableWide : List Int → Prop
  | [] => False
  | opcode :: rest => Field.u1.Fits opcode ∧
    ∀ target index more, Catalog.standard.lookup opcode = some target → rest = index :: more →
      Field.u2.Fits index ∧
        (target.mnemonic = "iinc" → ∃ amount ∈ more.head?, Field.s2.Fits amount)

/-- Operands that have the number and the ranges that a shape asks for. -/
inductive Acceptable : Shape → List Int → Prop where
  | fields {shape : Shape} {fields : List Field} {vs : List Int} (hf : fields? shape = some fields)
    (h : List.Forall₂ Field.Fits fields vs) : Acceptable shape vs
  | tableSwitch {vs : List Int} (h : ∀ v ∈ vs, Field.s4.Fits v) : Acceptable .tableSwitch vs
  | lookupSwitch {vs : List Int} (h : ∀ v ∈ vs, Field.s4.Fits v) : Acceptable .lookupSwitch vs
  | widePrefixed {vs : List Int} (h : AcceptableWide vs) : Acceptable .widePrefixed vs

/-- A statement with a known mnemonic and acceptable operands. -/
def Statement.Acceptable (s : Statement) : Prop :=
  ∃ e, Catalog.standard.named? s.mnemonic = some e ∧ Assembly.Acceptable e.shape s.operands

/-! ## Acceptable operands are written -/

theorem exists_bind_eq_ok_iff {ε α β : Type} {x : Except ε α} {f : α → Except ε β} :
    (∃ b, (x >>= f) = .ok b) ↔ ∃ a, x = .ok a ∧ ∃ b, f a = .ok b := by
  simp only [except_bind_eq_ok]
  constructor
  · rintro ⟨b, a, ha, hb⟩
    exact ⟨a, ha, b, hb⟩
  · rintro ⟨a, ha, b, hb⟩
    exact ⟨b, a, ha, hb⟩

theorem Field.exists_write_iff {f : Field} {v : Int} : (∃ b, f.write v = .ok b) ↔ f.Fits v := by
  rw [write]
  by_cases h : f.least ≤ v ∧ v ≤ f.greatest
  · rw [if_pos h]
    exact iff_of_true ⟨_, rfl⟩ h
  · rw [if_neg h]
    exact iff_of_false (by rintro ⟨b, ⟨⟩⟩) h

section Written

variable {position : Nat} {vs : List Int} {mnemonic : String}

theorem exists_writeFields_iff {fields : List Field} (hn : vs.length = fields.length) :
    (∃ b, writeFields fields vs = .ok b) ↔ List.Forall₂ Field.Fits fields vs := by
  induction fields generalizing vs with
  | nil =>
    obtain rfl := List.length_eq_zero_iff.mp hn
    exact iff_of_true ⟨[], rfl⟩ .nil
  | cons f fields ih =>
    cases vs with
    | nil => cases hn
    | cons v vs =>
      rw [List.forall₂_cons, ← Field.exists_write_iff, ← ih (Nat.succ.inj hn)]
      simp only [writeFields_cons_eq_ok]
      constructor
      · rintro ⟨-, b₁, b₂, h₁, h₂, -⟩
        exact ⟨⟨b₁, h₁⟩, b₂, h₂⟩
      · rintro ⟨⟨b₁, h₁⟩, b₂, h₂⟩
        exact ⟨b₁ ++ b₂, b₁, b₂, h₁, h₂, rfl⟩

/-- The padding plays no part in whether a switch is written. -/
theorem writeSwitch_eq_map : writeSwitch position vs =
    (writeFields (List.replicate vs.length .s4) vs).map (List.replicate (padding position) 0 ++ ·) :=
  rfl

theorem exists_map_eq_ok_iff {ε α β : Type} {x : Except ε α} {f : α → β} :
    (∃ b, x.map f = .ok b) ↔ ∃ a, x = .ok a := by
  cases x with
  | error e => exact iff_of_false nofun nofun
  | ok a => exact iff_of_true ⟨_, rfl⟩ ⟨_, rfl⟩

theorem exists_writeSwitch_iff :
    (∃ b, writeSwitch position vs = .ok b) ↔ ∀ v ∈ vs, Field.s4.Fits v := by
  rw [writeSwitch_eq_map, exists_map_eq_ok_iff, exists_writeFields_iff (by simp),
    ← List.map_const', List.forall₂_map_left_iff, List.forall₂_same]

/-- Nothing but its opcode is written of an instruction without an entry. -/
theorem exists_writeWide_iff_of_none {opcode : Int} (ht : Catalog.standard.lookup opcode = none) :
    (∃ b, writeWide (opcode :: vs) = .ok b) ↔ Field.u1.Fits opcode := by
  rw [writeWide, exists_bind_eq_ok_iff, ← Field.exists_write_iff]
  simp only [ht, Except.ok.injEq, exists_eq', and_true]

theorem exists_writeWide_iff_of_some {opcode index : Int} {target : Entry}
    (ht : Catalog.standard.lookup opcode = some target) :
    (∃ b, writeWide (opcode :: index :: vs) = .ok b) ↔ Field.u1.Fits opcode ∧
      Field.u2.Fits index ∧
        (target.mnemonic = "iinc" → ∃ amount ∈ vs.head?, Field.s2.Fits amount) := by
  rw [writeWide, exists_bind_eq_ok_iff, ← Field.exists_write_iff, ← Field.exists_write_iff]
  simp only [ht, exists_bind_eq_ok_iff, ← exists_and_right]
  refine exists_congr fun prefixed ↦ and_congr_right fun _ ↦ ?_
  refine exists_congr fun indexBytes ↦ and_congr_right fun _ ↦ ?_
  by_cases hm : target.mnemonic = "iinc"
  · rw [if_pos hm, forall_prop_of_true hm]
    cases vs with
    | nil => simp
    | cons amount more =>
      simp only [exists_bind_eq_ok_iff, Except.ok.injEq, exists_eq', and_true, List.head?_cons,
        Option.mem_some, exists_eq_left', Field.exists_write_iff]
  · rw [if_neg hm]
    exact iff_of_true ⟨_, rfl⟩ fun h ↦ absurd h hm

theorem exists_writeWide_iff : (∃ b, writeWide vs = .ok b) ↔ AcceptableWide vs := by
  cases vs with
  | nil => exact iff_of_false (by rintro ⟨b, ⟨⟩⟩) id
  | cons opcode rest =>
    rw [AcceptableWide]
    cases ht : Catalog.standard.lookup opcode with
    | none => rw [exists_writeWide_iff_of_none ht, and_iff_left (by rintro target index more ⟨⟩)]
    | some target =>
      cases rest with
      | nil =>
        simp only [writeWide_bare_iff]
        rw [Field.exists_write_iff, and_iff_left (by rintro target index more - ⟨⟩)]
      | cons index more =>
        rw [exists_writeWide_iff_of_some ht]
        refine and_congr_right fun _ ↦ ?_
        constructor
        · rintro h t i m ⟨⟩ ⟨⟩
          exact h
        · intro h
          exact h target index more rfl rfl

theorem exists_writeOperands_iff {shape : Shape} :
    (∃ b, writeOperands position mnemonic vs shape = .ok b) ↔ Acceptable shape vs := by
  constructor
  · rintro ⟨b, hb⟩
    cases hf : fields? shape with
    | some fields =>
      obtain ⟨hn, b', hb', -⟩ := (writeOperands_fields_iff hf).mp hb
      exact .fields hf ((exists_writeFields_iff hn).mp ⟨b', hb'⟩)
    | none =>
      cases shape with
      | tableSwitch => exact .tableSwitch (exists_writeSwitch_iff.mp ⟨b, hb⟩)
      | lookupSwitch => exact .lookupSwitch (exists_writeSwitch_iff.mp ⟨b, hb⟩)
      | widePrefixed => exact .widePrefixed (exists_writeWide_iff.mp ⟨b, hb⟩)
      | _ => cases hf
  · intro h
    cases h with
    | fields hf h =>
      have hn := h.length_eq.symm
      obtain ⟨b, hb⟩ := (exists_writeFields_iff hn).mpr h
      exact ⟨_, (writeOperands_fields_iff hf).mpr ⟨hn, b, hb, rfl⟩⟩
    | tableSwitch h => exact exists_writeSwitch_iff.mpr h
    | lookupSwitch h => exact exists_writeSwitch_iff.mpr h
    | widePrefixed h => exact exists_writeWide_iff.mpr h

end Written

/-! ## Statements and their place -/

section Place

variable {m n : Nat} {vs : List Int} {mnemonic : String} {shape : Shape} {s : Statement} {e : Error}

theorem padding_congr (h : m % 4 = n % 4) : padding m = padding n := by
  simp only [padding, alignUp]
  omega

/-- What is written depends on the place modulo four. -/
theorem writeOperands_congr (h : m % 4 = n % 4) :
    writeOperands m mnemonic vs shape = writeOperands n mnemonic vs shape := by
  rw [writeOperands, writeOperands, writeSwitch, writeSwitch, padding_congr h]

/-- Why operands are not written does not depend on the place. -/
theorem writeOperands_error (h : writeOperands m mnemonic vs shape = .error e) :
    writeOperands n mnemonic vs shape = .error e := by
  rw [writeOperands] at h ⊢
  cases hf : fields? shape with
  | some fields =>
    rw [hf] at h
    exact h
  | none =>
    rw [hf] at h
    by_cases hs : shape = .widePrefixed
    · rw [if_pos hs] at h ⊢
      exact h
    · rw [if_neg hs, writeSwitch_eq_map] at h ⊢
      cases hw : writeFields (List.replicate vs.length .s4) vs with
      | error e' =>
        rw [hw] at h
        exact h
      | ok b =>
        rw [hw] at h
        cases h

theorem Statement.exists_write_iff : (∃ b, s.write m = .ok b) ↔ s.Acceptable := by
  simp only [write_eq_ok_iff, Statement.Acceptable]
  constructor
  · rintro ⟨-, entry, operands, he, ho, -⟩
    exact ⟨entry, he, exists_writeOperands_iff.mp ⟨operands, ho⟩⟩
  · rintro ⟨entry, he, h⟩
    obtain ⟨operands, ho⟩ := exists_writeOperands_iff.mpr h
    exact ⟨_, entry, operands, he, ho, rfl⟩

theorem Statement.write_congr (h : m % 4 = n % 4) : s.write m = s.write n := by
  have hnext : (m + 1) % 4 = (n + 1) % 4 := by omega
  simp only [write, writeOperands_congr hnext]

theorem Statement.write_error (h : s.write m = .error e) : s.write n = .error e := by
  rw [write] at h ⊢
  cases he : Catalog.standard.named? s.mnemonic with
  | none =>
    rw [he] at h
    exact h
  | some entry =>
    rw [he] at h
    dsimp only at h ⊢
    cases hw : writeOperands (m + 1) s.mnemonic s.operands entry.shape with
    | error e' =>
      rw [hw] at h
      rw [writeOperands_error hw]
      exact h
    | ok b =>
      rw [hw] at h
      cases h

end Place

/-! ## Programs -/

section Programs

variable {m n : Nat} {p q r : List Statement} {front : List UInt8} {e : Error}

theorem assembleFrom_cons (m : Nat) (s : Statement) (p : List Statement) :
    assembleFrom m (s :: p) = s.write m >>= fun first ↦
      (assembleFrom (m + first.length) p).map (first ++ ·) := rfl

/-- What stands behind other statements is assembled from the place where these end. -/
theorem assembleFrom_append (m : Nat) (q r : List Statement) :
    assembleFrom m (q ++ r) = assembleFrom m q >>= fun front ↦
      (assembleFrom (m + front.length) r).map (front ++ ·) := by
  induction q generalizing m with
  | nil =>
    show assembleFrom m r = (assembleFrom m r).map ([] ++ ·)
    cases assembleFrom m r <;> rfl
  | cons s q ih =>
    rw [List.cons_append, assembleFrom_cons, assembleFrom_cons]
    cases s.write m with
    | error e => rfl
    | ok first =>
      show (assembleFrom (m + first.length) (q ++ r)).map (first ++ ·) =
        (assembleFrom (m + first.length) q).map (first ++ ·) >>= fun front ↦
          (assembleFrom (m + front.length) r).map (front ++ ·)
      rw [ih]
      cases assembleFrom (m + first.length) q with
      | error e => rfl
      | ok front =>
        show ((assembleFrom (m + first.length + front.length) r).map (front ++ ·)).map (first ++ ·) =
          (assembleFrom (m + (first ++ front).length) r).map (first ++ front ++ ·)
        rw [List.length_append, ← Nat.add_assoc]
        cases assembleFrom (m + first.length + front.length) r with
        | error e => rfl
        | ok back => simp only [Except.map, List.append_assoc]

theorem assembleFrom_congr (h : m % 4 = n % 4) : assembleFrom m p = assembleFrom n p := by
  induction p generalizing m n with
  | nil => rfl
  | cons s p ih =>
    rw [assembleFrom_cons, assembleFrom_cons, s.write_congr h]
    refine bind_congr fun first ↦ ?_
    rw [ih (show (m + first.length) % 4 = (n + first.length) % 4 by omega)]

theorem exists_assembleFrom_iff :
    (∃ code, assembleFrom m p = .ok code) ↔ ∀ s ∈ p, s.Acceptable := by
  induction p generalizing m with
  | nil => exact iff_of_true ⟨[], rfl⟩ nofun
  | cons s p ih =>
    rw [assembleFrom_cons, exists_bind_eq_ok_iff, List.forall_mem_cons]
    simp only [exists_map_eq_ok_iff, ih]
    rw [exists_and_right, Statement.exists_write_iff]

/-- The first statement that is not written decides on the error, and it would do so at any place. -/
theorem exists_of_assembleFrom_error (h : assembleFrom m p = .error e) :
    ∃ before s after, p = before ++ s :: after ∧ (∀ t ∈ before, t.Acceptable) ∧
      s.write n = .error e := by
  induction p generalizing m with
  | nil => cases h
  | cons s p ih =>
    rw [assembleFrom_cons] at h
    cases hs : s.write m with
    | error e' =>
      rw [hs] at h
      cases h
      exact ⟨[], s, p, rfl, nofun, Statement.write_error hs⟩
    | ok first =>
      rw [hs] at h
      change (assembleFrom (m + first.length) p).map (first ++ ·) = .error e at h
      cases hp : assembleFrom (m + first.length) p with
      | ok bytes =>
        rw [hp] at h
        cases h
      | error e' =>
        rw [hp] at h
        cases h
        obtain ⟨before, t, after, rfl, hbefore, ht⟩ := ih hp
        refine ⟨s :: before, t, after, rfl, ?_, ht⟩
        rw [List.forall_mem_cons]
        exact ⟨Statement.exists_write_iff.mp ⟨first, hs⟩, hbefore⟩

theorem assemble_singleton (s : Statement) : assemble [s] = s.write 0 := by
  show (s.write 0 >>= fun first ↦ .ok (first ++ [])) = s.write 0
  cases s.write 0 with
  | error e => rfl
  | ok first => exact congrArg Except.ok (List.append_nil first)

end Programs

/-- How the outcome for a program is made up of the outcomes for its statements. -/
structure Statementwise (p : List Statement) : Prop where
  ok_iff : (∃ code, assemble p = .ok code) ↔ ∀ s ∈ p, s.Acceptable
  /-- The first statement that is not acceptable decides on the error, whatever stands around it. -/
  error (e : Error) : assemble p = .error e → ∃ before s after, p = before ++ s :: after ∧
    (∀ t ∈ before, t.Acceptable) ∧ ¬ s.Acceptable ∧ assemble [s] = .error e
  /-- What is assembled in front is kept, and what follows it stays the same behind any other
  statements whose number of bytes is the same modulo four. -/
  split (q r : List Statement) (code : List UInt8) : p = q ++ r → assemble p = .ok code →
    ∃ front back, assemble q = .ok front ∧ code = front ++ back ∧
      ∀ q' front', assemble q' = .ok front' → front'.length % 4 = front.length % 4 →
        assemble (q' ++ r) = .ok (front' ++ back)

/-- Every program is assembled statement by statement. -/
theorem statementwise_assemble (p : List Statement) : Statementwise p where
  ok_iff := exists_assembleFrom_iff
  error e h := by
    obtain ⟨before, s, after, hp, hbefore, hs⟩ := exists_of_assembleFrom_error (n := 0) h
    refine ⟨before, s, after, hp, hbefore, ?_, (assemble_singleton s).trans hs⟩
    intro hacceptable
    obtain ⟨b, hb⟩ := Statement.exists_write_iff.mpr hacceptable
    cases hs.symm.trans hb
  split q r code hp h := by
    subst hp
    rw [assemble, assembleFrom_append, except_bind_eq_ok] at h
    obtain ⟨front, hq, h⟩ := h
    rw [Nat.zero_add] at h
    cases hr : assembleFrom front.length r with
    | error e =>
      rw [hr] at h
      cases h
    | ok back =>
      rw [hr] at h
      cases h
      refine ⟨front, back, hq, rfl, fun q' front' hq' hmod ↦ ?_⟩
      rw [assemble] at hq'
      rw [assemble, assembleFrom_append, hq']
      show (assembleFrom (0 + front'.length) r).map (front' ++ ·) = .ok (front' ++ back)
      rw [Nat.zero_add, assembleFrom_congr hmod, hr]
      rfl

/-- Of two statements that are not acceptable, the first one decides, although its operands are out of
range and not merely missing. -/
theorem statementwise_assemble_range :
    let p : List Statement := [⟨"nop", []⟩, ⟨"wide", [132, -1]⟩, ⟨"bipush", []⟩]
    assemble p = .error .outOfRange ∧ ∃ before s after, p = before ++ s :: after ∧
      (∀ t ∈ before, t.Acceptable) ∧ ¬ s.Acceptable ∧ assemble [s] = .error .outOfRange := by
  intro p
  have h : assemble p = .error .outOfRange := by decide +kernel
  exact ⟨h, (statementwise_assemble p).error _ h⟩

end Bytecode.Assembly
