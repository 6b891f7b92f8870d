import Bytecode.Proofs.Operands.Layout

/-!
# Operands are written as they are laid out

The bytes that no operand depends on are written as zeros.  Up to these bytes, what is written for
the operands of an instruction is the only string that is laid out as these operands
(`Operands.Layout.canonical`), and what is written for some numbers is laid out as operands with
these numbers, provided that there are as many of them as the first ones announce
(`Assembly.exists_layout`).
-/

namespace Bytecode

open Assembly

/-! ## Ignored bytes -/

/-- Whether the byte at place `k` of a code array is ignored in operands that start at `position`.
-/
def Shape.ignores (shape : Shape) (position k : Nat) : Bool :=
  match shape with
  | .tableSwitch | .lookupSwitch => position ≤ k && k < position + padding position
  | .invokeInterface => k == position + 3
  | .invokeDynamic => k == position + 2 || k == position + 3
  | _ => false

/-- Bytes that start at a place of a code array, with zeros in all ignored places. -/
def clear (ignored : Nat → Bool) : Nat → List UInt8 → List UInt8
  | _, [] => []
  | place, x :: b => (if ignored place then 0 else x) :: clear ignored (place + 1) b

section Clear

variable {p q : Nat → Bool} {place : Nat} {b : List UInt8}

@[simp] theorem length_clear : (clear p place b).length = b.length := by
  induction b generalizing place with
  | nil => rfl
  | cons x b ih => simp [clear, ih]

theorem getElem?_clear (k : Nat) :
    (clear p place b)[k]? = b[k]?.map fun x ↦ if p (place + k) then 0 else x := by
  induction b generalizing place k with
  | nil => rfl
  | cons x b ih =>
    cases k with
    | zero => rfl
    | succ k => simp [clear, ih, Nat.add_assoc, Nat.add_comm 1 k]

theorem clear_append (b c : List UInt8) :
    clear p place (b ++ c) = clear p place b ++ clear p (place + b.length) c := by
  induction b generalizing place with
  | nil => rfl
  | cons x b ih => simp [clear, ih, Nat.add_assoc, Nat.add_comm 1 b.length]

theorem clear_congr (h : ∀ k, place ≤ k → k < place + b.length → p k = q k) :
    clear p place b = clear q place b := by
  induction b generalizing place with
  | nil => rfl
  | cons x b ih =>
    rw [List.length_cons] at h
    rw [clear, clear, h place (Nat.le_refl _) (by omega),
      ih fun k hk hk' ↦ h k (by omega) (by omega)]

theorem clear_eq_self (h : ∀ k, place ≤ k → k < place + b.length → p k = false) :
    clear p place b = b := by
  induction b generalizing place with
  | nil => rfl
  | cons x b ih =>
    rw [List.length_cons] at h
    rw [clear, h place (Nat.le_refl _) (by omega), if_neg Bool.false_ne_true,
      ih fun k hk hk' ↦ h k (by omega) (by omega)]

theorem clear_of_ignores_none (shape : Shape) (h : ∀ k, shape.ignores place k = false) :
    clear (shape.ignores place) place b = b := clear_eq_self fun k _ _ ↦ h k

theorem clear_eq_replicate (h : ∀ k, place ≤ k → k < place + b.length → p k = true) :
    clear p place b = List.replicate b.length 0 := by
  induction b generalizing place with
  | nil => rfl
  | cons x b ih =>
    rw [List.length_cons] at h
    rw [clear, h place (Nat.le_refl _) (by omega), if_pos rfl,
      ih fun k hk hk' ↦ h k (by omega) (by omega), List.length_cons, List.replicate_succ]

end Clear

/-- The padding of a switch is cleared and its table is left as it is. -/
theorem clear_switch {position : Nat} {shape : Shape} {skipped table : List UInt8}
    (hs : skipped.length = padding position) (h : shape = .tableSwitch ∨ shape = .lookupSwitch) :
    clear (shape.ignores position) position (skipped ++ table) =
      List.replicate (padding position) 0 ++ table := by
  have hignores : ∀ k, shape.ignores position k =
      (position ≤ k && k < position + padding position : Bool) := by
    rcases h with rfl | rfl <;> exact fun _ ↦ rfl
  rw [clear_append, hs, clear_eq_replicate, clear_eq_self, hs]
  · intro k hk _
    rw [hignores, Bool.and_eq_false_iff, decide_eq_false_iff_not, decide_eq_false_iff_not]
    omega
  · intro k hk hk'
    rw [hignores, Bool.and_eq_true, decide_eq_true_eq, decide_eq_true_eq]
    omega

theorem clear_invokeInterface {position : Nat} {b₁ b₂ skipped : List UInt8} (h₁ : b₁.length = 2)
    (h₂ : b₂.length = 1) (hs : skipped.length = 1) :
    clear (Shape.invokeInterface.ignores position) position (b₁ ++ (b₂ ++ skipped)) =
      b₁ ++ (b₂ ++ [0]) := by
  rw [clear_append, clear_append, h₁, h₂, clear_eq_self, clear_eq_self, clear_eq_replicate, hs]
  · rfl
  · intro k hk hk'
    rw [Shape.ignores, beq_iff_eq]
    omega
  · intro k hk hk'
    rw [Shape.ignores, beq_eq_false_iff_ne]
    omega
  · intro k hk hk'
    rw [Shape.ignores, beq_eq_false_iff_ne]
    omega

theorem clear_invokeDynamic {position : Nat} {b skipped : List UInt8} (h : b.length = 2)
    (hs : skipped.length = 2) :
    clear (Shape.invokeDynamic.ignores position) position (b ++ skipped) = b ++ [0, 0] := by
  rw [clear_append, h, clear_eq_self, clear_eq_replicate, hs]
  · rfl
  · intro k hk hk'
    rw [Shape.ignores, Bool.or_eq_true, beq_iff_eq, beq_iff_eq]
    omega
  · intro k hk hk'
    rw [Shape.ignores, Bool.or_eq_false_iff, beq_eq_false_iff_ne, beq_eq_false_iff_ne]
    omega

/-- Only places of the operands are ignored. -/
theorem Operands.Layout.range_of_ignores {position k : Nat} {shape : Shape} {o : Operands}
    {b : List UInt8} (h : Layout position shape o b) (hk : shape.ignores position k) :
    position ≤ k ∧ k < position + b.length := by
  cases h with
  | invokeInterface h₁ h₂ hs =>
    have hl₁ := Field.length_of_write h₁
    have hl₂ := Field.length_of_write h₂
    simp only [Shape.ignores, beq_iff_eq] at hk
    simp only [List.length_append, hl₁, hl₂, hs, Field.width]
    omega
  | invokeDynamic h hs =>
    have hl := Field.length_of_write h
    simp only [Shape.ignores, beq_iff_eq, Bool.or_eq_true] at hk
    simp only [List.length_append, hl, hs, Field.width]
    omega
  | tableSwitch hs | lookupSwitch hs =>
    simp only [Shape.ignores, Bool.and_eq_true, decide_eq_true_eq] at hk
    rw [List.length_append, hs]
    omega
  | _ => cases hk

/-! ## What is written -/

namespace Assembly

variable {position : Nat} {mnemonic : String} {shape : Shape} {vs : List Int} {b : List UInt8}

theorem writeOperands_fields_iff {fields : List Field} (hf : fields? shape = some fields) :
    writeOperands position mnemonic vs shape = .ok b ↔
      vs.length = fields.length ∧
        ∃ b', writeFields fields vs = .ok b' ∧ b = b' ++ trailer shape := by
  rw [writeOperands, hf]
  dsimp only
  split
  · next hn => simp [hn]
  · next hn =>
    simp only [except_bind_eq_ok, Except.ok.injEq, Decidable.not_not.mp hn, true_and]
    constructor
    · rintro ⟨b', hb', rfl⟩
      exact ⟨b', hb', rfl⟩
    · rintro ⟨b', hb', rfl⟩
      exact ⟨b', hb', rfl⟩

theorem writeOperands_one_iff {f : Field} (hf : fields? shape = some [f]) :
    writeOperands position mnemonic vs shape = .ok b ↔
      ∃ v b₁, vs = [v] ∧ f.write v = .ok b₁ ∧ b = b₁ ++ trailer shape := by
  rw [writeOperands_fields_iff hf]
  constructor
  · rintro ⟨hn, b', hw, rfl⟩
    obtain ⟨v, rfl⟩ := List.length_eq_one_iff.mp hn
    obtain ⟨b₁, b₂, h₁, h₂, rfl⟩ := writeFields_cons_eq_ok.mp hw
    cases h₂
    exact ⟨v, b₁, rfl, h₁, by rw [List.append_nil]⟩
  · rintro ⟨v, b₁, rfl, h₁, rfl⟩
    exact ⟨rfl, b₁, writeFields_cons_eq_ok.mpr ⟨b₁, [], h₁, rfl, List.append_nil _⟩, rfl⟩

theorem writeOperands_two_iff {f g : Field} (hf : fields? shape = some [f, g]) :
    writeOperands position mnemonic vs shape = .ok b ↔
      ∃ v w b₁ b₂, vs = [v, w] ∧ f.write v = .ok b₁ ∧ g.write w = .ok b₂ ∧
        b = b₁ ++ (b₂ ++ trailer shape) := by
  rw [writeOperands_fields_iff hf]
  constructor
  · rintro ⟨hn, b', hw, rfl⟩
    obtain ⟨v, w, rfl⟩ := List.length_eq_two.mp hn
    obtain ⟨b₁, b', h₁, hw', rfl⟩ := writeFields_cons_eq_ok.mp hw
    obtain ⟨b₂, b₃, h₂, h₃, rfl⟩ := writeFields_cons_eq_ok.mp hw'
    cases h₃
    exact ⟨v, w, b₁, b₂, rfl, h₁, h₂, by rw [List.append_nil, List.append_assoc]⟩
  · rintro ⟨v, w, b₁, b₂, rfl, h₁, h₂, rfl⟩
    have h₂' : writeFields [g] [w] = .ok b₂ :=
      writeFields_cons_eq_ok.mpr ⟨b₂, [], h₂, rfl, List.append_nil _⟩
    exact ⟨rfl, b₁ ++ b₂, writeFields_cons_eq_ok.mpr ⟨b₁, b₂, h₁, h₂', rfl⟩,
      (List.append_assoc ..).symm⟩

theorem writeOperands_one_iff_of_trailer {f : Field} (hf : fields? shape = some [f])
    (ht : trailer shape = []) :
    writeOperands position mnemonic vs shape = .ok b ↔ ∃ v, vs = [v] ∧ f.write v = .ok b := by
  simp only [writeOperands_one_iff hf, ht, List.append_nil]
  constructor
  · rintro ⟨v, b₁, rfl, h₁, rfl⟩
    exact ⟨v, rfl, h₁⟩
  · rintro ⟨v, rfl, h⟩
    exact ⟨v, b, rfl, h, rfl⟩

theorem writeOperands_two_iff_of_trailer {f g : Field} (hf : fields? shape = some [f, g])
    (ht : trailer shape = []) :
    writeOperands position mnemonic vs shape = .ok b ↔
      ∃ v w b₁ b₂, vs = [v, w] ∧ f.write v = .ok b₁ ∧ g.write w = .ok b₂ ∧ b = b₁ ++ b₂ := by
  simp only [writeOperands_two_iff hf, ht, List.append_nil]

theorem writeSwitch_eq_ok_iff :
    writeSwitch position vs = .ok b ↔
      ∃ table, Words vs table ∧ b = List.replicate (padding position) 0 ++ table := by
  simp only [writeSwitch, except_bind_eq_ok, writeFields_words_iff, Except.ok.injEq]
  constructor
  · rintro ⟨table, h, rfl⟩
    exact ⟨table, h, rfl⟩
  · rintro ⟨table, h, rfl⟩
    exact ⟨table, h, rfl⟩

theorem writeOperands_widePrefixed :
    writeOperands position mnemonic vs .widePrefixed = writeWide vs := rfl

theorem writeWide_bare_iff {opcode : Int} :
    writeWide [opcode] = .ok b ↔ Field.u1.write opcode = .ok b := by
  rw [writeWide, except_bind_eq_ok]
  constructor
  · rintro ⟨b₁, h, hb⟩
    split at hb
    · next heq => cases heq
    · cases hb
      exact h
  · intro h
    refine ⟨b, h, ?_⟩
    split
    · next heq => cases heq
    · rfl

theorem writeWide_localIndex_iff {opcode index : Int} {target : Entry}
    (ht : Catalog.standard.lookup opcode = some target) (hm : target.mnemonic ≠ "iinc") :
    writeWide [opcode, index] = .ok b ↔
      ∃ b₁ b₂, Field.u1.write opcode = .ok b₁ ∧ Field.u2.write index = .ok b₂ ∧ b = b₁ ++ b₂ := by
  simp only [writeWide, ht, hm, if_false, except_bind_eq_ok, Except.ok.injEq]
  constructor
  · rintro ⟨b₁, h₁, b₂, h₂, rfl⟩
    exact ⟨b₁, b₂, h₁, h₂, rfl⟩
  · rintro ⟨b₁, b₂, h₁, h₂, rfl⟩
    exact ⟨b₁, h₁, b₂, h₂, rfl⟩

theorem writeWide_increment_iff {opcode index amount : Int} {target : Entry}
    (ht : Catalog.standard.lookup opcode = some target) (hm : target.mnemonic = "iinc") :
    writeWide [opcode, index, amount] = .ok b ↔
      ∃ b₁ b₂ b₃, Field.u1.write opcode = .ok b₁ ∧ Field.u2.write index = .ok b₂ ∧
        Field.s2.write amount = .ok b₃ ∧ b = b₁ ++ (b₂ ++ b₃) := by
  simp only [writeWide, ht, hm, if_true, except_bind_eq_ok, Except.ok.injEq]
  constructor
  · rintro ⟨b₁, h₁, b₂, h₂, b₃, h₃, rfl⟩
    exact ⟨b₁, b₂, b₃, h₁, h₂, h₃, List.append_assoc ..⟩
  · rintro ⟨b₁, b₂, b₃, h₁, h₂, h₃, rfl⟩
    exact ⟨b₁, h₁, b₂, h₂, b₃, h₃, List.append_assoc ..⟩

theorem Statement.write_eq_ok_iff {s : Statement} :
    s.write position = .ok b ↔ ∃ e operands, Catalog.standard.named? s.mnemonic = some e ∧
      writeOperands (position + 1) s.mnemonic s.operands e.shape = .ok operands ∧
      b = e.opcode.toNat.toUInt8 :: operands := by
  rw [Statement.write]
  cases Catalog.standard.named? s.mnemonic with
  | none => simp
  | some e =>
    simp only [except_bind_eq_ok, Except.ok.injEq, Option.some.injEq]
    constructor
    · rintro ⟨operands, h, rfl⟩
      exact ⟨e, operands, rfl, h, rfl⟩
    · rintro ⟨e, operands, rfl, h, rfl⟩
      exact ⟨operands, h, rfl⟩

end Assembly

theorem Entry.widening_eq_localIndex_iff {e : Entry} :
    e.widening = .localIndex ↔ e.mnemonic ∈ widenedLocals := by
  rw [widening]
  split
  · next h => simp [h]
  · next h => split <;> simp [h]

theorem Entry.widening_eq_increment_iff {e : Entry} :
    e.widening = .increment ↔ e.mnemonic = "iinc" := by
  rw [widening]
  split
  · next h =>
    simp only [reduceCtorEq, false_iff]
    intro hm
    rw [hm] at h
    exact absurd h (by decide)
  · next h => split <;> simp_all

theorem Entry.mnemonic_ne_iinc {e : Entry} (h : e.widening = .localIndex) :
    e.mnemonic ≠ "iinc" := by
  intro hm
  cases h.symm.trans (widening_eq_increment_iff.mpr hm)

/-! ## Layouts are written -/

/-- Laid out operands are written as the same bytes with the ignored ones cleared, which are laid
out as the same operands. -/
theorem Operands.Layout.canonical {position : Nat} {shape : Shape} {o : Operands} {b : List UInt8}
    (h : Layout position shape o b) (mnemonic : String) :
    Layout position shape o (clear (shape.ignores position) position b) ∧
      writeOperands position mnemonic o.values shape =
        .ok (clear (shape.ignores position) position b) := by
  cases h with
  | none => exact ⟨.none, rfl⟩
  | u8 h =>
    rw [clear_of_ignores_none .u8 fun _ ↦ rfl]
    exact ⟨.u8 h, (writeOperands_one_iff_of_trailer rfl rfl).mpr ⟨_, rfl, h⟩⟩
  | u16 h =>
    rw [clear_of_ignores_none .u16 fun _ ↦ rfl]
    exact ⟨.u16 h, (writeOperands_one_iff_of_trailer rfl rfl).mpr ⟨_, rfl, h⟩⟩
  | s16 h =>
    rw [clear_of_ignores_none .s16 fun _ ↦ rfl]
    exact ⟨.s16 h, (writeOperands_one_iff_of_trailer rfl rfl).mpr ⟨_, rfl, h⟩⟩
  | s32 h =>
    rw [clear_of_ignores_none .s32 fun _ ↦ rfl]
    exact ⟨.s32 h, (writeOperands_one_iff_of_trailer rfl rfl).mpr ⟨_, rfl, h⟩⟩
  | constantPoolU8 h =>
    rw [clear_of_ignores_none .constantPoolU8 fun _ ↦ rfl]
    exact ⟨.constantPoolU8 h, (writeOperands_one_iff_of_trailer rfl rfl).mpr ⟨_, rfl, h⟩⟩
  | constantPoolU16 h =>
    rw [clear_of_ignores_none .constantPoolU16 fun _ ↦ rfl]
    exact ⟨.constantPoolU16 h, (writeOperands_one_iff_of_trailer rfl rfl).mpr ⟨_, rfl, h⟩⟩
  | newArrayPrimitive h =>
    rw [clear_of_ignores_none .newArrayPrimitive fun _ ↦ rfl]
    exact ⟨.newArrayPrimitive h, (writeOperands_one_iff_of_trailer rfl rfl).mpr ⟨_, rfl, h⟩⟩
  | localIndexAndConst h₁ h₂ =>
    rw [clear_of_ignores_none .localIndexAndConst fun _ ↦ rfl]
    exact ⟨.localIndexAndConst h₁ h₂,
      (writeOperands_two_iff_of_trailer rfl rfl).mpr ⟨_, _, _, _, rfl, h₁, h₂, rfl⟩⟩
  | multiArray h₁ h₂ =>
    rw [clear_of_ignores_none .multiArray fun _ ↦ rfl]
    exact ⟨.multiArray h₁ h₂,
      (writeOperands_two_iff_of_trailer rfl rfl).mpr ⟨_, _, _, _, rfl, h₁, h₂, rfl⟩⟩
  | invokeInterface h₁ h₂ hs =>
    rw [clear_invokeInterface (Field.length_of_write h₁) (Field.length_of_write h₂) hs]
    exact ⟨.invokeInterface h₁ h₂ rfl,
      (writeOperands_two_iff rfl).mpr ⟨_, _, _, _, rfl, h₁, h₂, rfl⟩⟩
  | invokeDynamic h hs =>
    rw [clear_invokeDynamic (Field.length_of_write h) hs]
    exact ⟨.invokeDynamic h rfl, (writeOperands_one_iff rfl).mpr ⟨_, _, rfl, h, rfl⟩⟩
  | tableSwitch hs hn h =>
    rw [clear_switch hs (.inl rfl)]
    exact ⟨.tableSwitch (List.length_replicate ..) hn h, writeSwitch_eq_ok_iff.mpr ⟨_, h, rfl⟩⟩
  | lookupSwitch hs hn h =>
    rw [clear_switch hs (.inr rfl)]
    exact ⟨.lookupSwitch (List.length_replicate ..) hn h, writeSwitch_eq_ok_iff.mpr ⟨_, h, rfl⟩⟩
  | widePrefixed h ho =>
    rw [clear_of_ignores_none .widePrefixed fun _ ↦ rfl]
    refine ⟨.widePrefixed h ho, ?_⟩
    rw [writeOperands_widePrefixed]
    cases ho with
    | localIndex ht hw hi =>
      have hop := (Catalog.standard.lookup_eq_some_iff.mp ht).2
      rw [values, hop]
      exact (writeWide_localIndex_iff ht (Entry.mnemonic_ne_iinc hw)).mpr ⟨_, _, h, hi, rfl⟩
    | increment ht hw hi ha =>
      have hop := (Catalog.standard.lookup_eq_some_iff.mp ht).2
      rw [values, hop]
      exact (writeWide_increment_iff ht (Entry.widening_eq_increment_iff.mp hw)).mpr
        ⟨_, _, _, h, hi, ha, rfl⟩
    | unsupported hw =>
      rw [List.append_nil]
      exact writeWide_bare_iff.mpr h

/-! ## Complete operands -/

namespace Assembly

/-- One jump for every number between the bounds of a table switch. -/
def CompleteTable (vs : List Int) : Prop :=
  ∃ default low high jumps, vs = default :: low :: high :: jumps ∧
    (vs.length : Int) = 3 + max 0 (high - low + 1)

/-- As many pairs as a lookup switch announces. -/
def CompleteLookup (vs : List Int) : Prop :=
  ∃ default count pairs, vs = default :: count :: pairs ∧
    (vs.length : Int) = 2 + 2 * max 0 count

/-- What the instruction behind a wide prefix takes. -/
inductive CompleteWide : List Int → Prop where
  | localIndex {opcode index : Int} {target : Entry}
    (ht : Catalog.standard.lookup opcode = some target) (hm : target.mnemonic ∈ widenedLocals) :
    CompleteWide [opcode, index]
  | increment {opcode index amount : Int} {target : Entry}
    (ht : Catalog.standard.lookup opcode = some target) (hm : target.mnemonic = "iinc") :
    CompleteWide [opcode, index, amount]
  | unsupported {opcode : Int}
    (hm : ∀ target, Catalog.standard.lookup opcode = some target →
      target.mnemonic ∉ widenedLocals ∧ target.mnemonic ≠ "iinc") : CompleteWide [opcode]

/-- As many operands as the first of them announce, where the shape does not fix their number. -/
def Complete : Shape → List Int → Prop
  | .tableSwitch => CompleteTable
  | .lookupSwitch => CompleteLookup
  | .widePrefixed => CompleteWide
  | _ => fun _ ↦ True

end Assembly

theorem Entry.widening_eq_unsupported_iff {e : Entry} :
    e.widening = .unsupported ↔ e.mnemonic ∉ widenedLocals ∧ e.mnemonic ≠ "iinc" := by
  rw [← widening_eq_localIndex_iff, Ne, ← widening_eq_increment_iff]
  cases e.widening <;> simp

theorem length_flatMap_pairs (cases : List (Int × Int)) :
    (cases.flatMap fun (value, jump) ↦ [value, jump]).length = 2 * cases.length := by
  induction cases with
  | nil => rfl
  | cons c cases ih => simp only [List.flatMap_cons, List.length_append, ih]; simp; omega

theorem exists_flatMap_pairs {n : Nat} {vs : List Int} (h : vs.length = 2 * n) :
    ∃ cases : List (Int × Int),
      cases.length = n ∧ (cases.flatMap fun (value, jump) ↦ [value, jump]) = vs := by
  induction n generalizing vs with
  | zero => exact ⟨[], rfl, (List.length_eq_zero_iff.mp h).symm⟩
  | succ n ih =>
    match vs, h with
    | value :: jump :: vs, h =>
      have hvs : vs.length = 2 * n := by
        simp only [List.length_cons] at h
        omega
      obtain ⟨cases, hn, rfl⟩ := ih hvs
      exact ⟨(value, jump) :: cases, by rw [List.length_cons, hn], rfl⟩

/-- Operands that are laid out are complete. -/
theorem Operands.Layout.complete {position : Nat} {shape : Shape} {o : Operands} {b : List UInt8}
    (h : Layout position shape o b) : Complete shape o.values := by
  cases h with
  | tableSwitch _ hn _ =>
    refine ⟨_, _, _, _, rfl, ?_⟩
    simp only [values, List.length_cons, hn]
    omega
  | lookupSwitch _ hn _ =>
    refine ⟨_, _, _, rfl, ?_⟩
    simp only [values, List.length_cons, length_flatMap_pairs, hn]
    omega
  | widePrefixed _ ho =>
    cases ho with
    | localIndex ht hw _ =>
      have hop := (Catalog.standard.lookup_eq_some_iff.mp ht).2
      exact .localIndex (hop ▸ ht) (Entry.widening_eq_localIndex_iff.mp hw)
    | increment ht hw _ _ =>
      have hop := (Catalog.standard.lookup_eq_some_iff.mp ht).2
      exact .increment (hop ▸ ht) (Entry.widening_eq_increment_iff.mp hw)
    | unsupported hw =>
      exact .unsupported fun target ht ↦ Entry.widening_eq_unsupported_iff.mp (hw target ht)
  | _ => trivial

/-! ## Complete operands are laid out -/

namespace Assembly

variable {position : Nat} {vs : List Int} {b : List UInt8}

theorem exists_layout_tableSwitch (hc : CompleteTable vs) (hw : writeSwitch position vs = .ok b) :
    ∃ o : Operands, o.values = vs ∧ Operands.Layout position .tableSwitch o b := by
  obtain ⟨default, low, high, jumps, rfl, hn⟩ := hc
  obtain ⟨table, h, rfl⟩ := writeSwitch_eq_ok_iff.mp hw
  have hjumps : jumps.length = (high - low + 1).toNat := by
    simp only [List.length_cons] at hn
    omega
  exact ⟨.tableSwitch default low high jumps, rfl,
    .tableSwitch (List.length_replicate ..) hjumps h⟩

theorem exists_layout_lookupSwitch (hc : CompleteLookup vs)
    (hw : writeSwitch position vs = .ok b) :
    ∃ o : Operands, o.values = vs ∧ Operands.Layout position .lookupSwitch o b := by
  obtain ⟨default, count, pairs, rfl, hn⟩ := hc
  obtain ⟨table, h, rfl⟩ := writeSwitch_eq_ok_iff.mp hw
  have hpairs : pairs.length = 2 * count.toNat := by
    simp only [List.length_cons] at hn
    omega
  obtain ⟨cases, hcases, rfl⟩ := exists_flatMap_pairs hpairs
  exact ⟨.lookupSwitch default count cases, rfl,
    .lookupSwitch (List.length_replicate ..) hcases h⟩

theorem exists_layout_widePrefixed (hc : CompleteWide vs) (hw : writeWide vs = .ok b) :
    ∃ o : Operands, o.values = vs ∧ Operands.Layout position .widePrefixed o b := by
  cases hc with
  | @localIndex opcode index target ht hm =>
    have hwidening := Entry.widening_eq_localIndex_iff.mpr hm
    obtain ⟨b₁, b₂, h₁, h₂, rfl⟩ :=
      (writeWide_localIndex_iff ht (Entry.mnemonic_ne_iinc hwidening)).mp hw
    obtain ⟨opcode, rfl⟩ := Field.exists_nat_of_write_u1 h₁
    obtain ⟨index, rfl⟩ := Field.exists_nat_of_write_u2 h₂
    have hop := (Catalog.standard.lookup_eq_some_iff.mp ht).2
    exact ⟨.wideLocal target index, by rw [Operands.values, hop],
      .widePrefixed h₁ (.localIndex ht hwidening h₂)⟩
  | @increment opcode index amount target ht hm =>
    obtain ⟨b₁, b₂, b₃, h₁, h₂, h₃, rfl⟩ := (writeWide_increment_iff ht hm).mp hw
    obtain ⟨opcode, rfl⟩ := Field.exists_nat_of_write_u1 h₁
    obtain ⟨index, rfl⟩ := Field.exists_nat_of_write_u2 h₂
    have hop := (Catalog.standard.lookup_eq_some_iff.mp ht).2
    exact ⟨.wideIncrement target index amount, by rw [Operands.values, hop],
      .widePrefixed h₁ (.increment ht (Entry.widening_eq_increment_iff.mpr hm) h₂ h₃)⟩
  | @unsupported opcode hm =>
    have h := writeWide_bare_iff.mp hw
    obtain ⟨opcode, rfl⟩ := Field.exists_nat_of_write_u1 h
    refine ⟨.wideUnknown opcode, rfl, ?_⟩
    rw [← List.append_nil b]
    exact .widePrefixed h
      (.unsupported fun e he ↦ Entry.widening_eq_unsupported_iff.mpr (hm e he))

/-- What is written for complete operands is laid out as operands with the same numbers. -/
theorem exists_layout {shape : Shape} {mnemonic : String} (hc : Complete shape vs)
    (hw : writeOperands position mnemonic vs shape = .ok b) :
    ∃ o : Operands, o.values = vs ∧ Operands.Layout position shape o b := by
  cases shape with
  | none =>
    have hf : fields? .none = some [] := rfl
    obtain ⟨hn, b', hb', rfl⟩ := (writeOperands_fields_iff hf).mp hw
    obtain rfl := List.length_eq_zero_iff.mp hn
    cases hb'
    exact ⟨.none, rfl, .none⟩
  | u8 =>
    obtain ⟨v, rfl, h⟩ := (writeOperands_one_iff_of_trailer rfl rfl).mp hw
    obtain ⟨n, rfl⟩ := Field.exists_nat_of_write_u1 h
    exact ⟨.immediate n, rfl, .u8 h⟩
  | u16 =>
    obtain ⟨v, rfl, h⟩ := (writeOperands_one_iff_of_trailer rfl rfl).mp hw
    obtain ⟨n, rfl⟩ := Field.exists_nat_of_write_u2 h
    exact ⟨.immediate n, rfl, .u16 h⟩
  | s16 =>
    obtain ⟨v, rfl, h⟩ := (writeOperands_one_iff_of_trailer rfl rfl).mp hw
    exact ⟨.immediate v, rfl, .s16 h⟩
  | s32 =>
    obtain ⟨v, rfl, h⟩ := (writeOperands_one_iff_of_trailer rfl rfl).mp hw
    exact ⟨.immediate v, rfl, .s32 h⟩
  | constantPoolU8 =>
    obtain ⟨v, rfl, h⟩ := (writeOperands_one_iff_of_trailer rfl rfl).mp hw
    obtain ⟨n, rfl⟩ := Field.exists_nat_of_write_u1 h
    exact ⟨.constant n, rfl, .constantPoolU8 h⟩
  | constantPoolU16 =>
    obtain ⟨v, rfl, h⟩ := (writeOperands_one_iff_of_trailer rfl rfl).mp hw
    obtain ⟨n, rfl⟩ := Field.exists_nat_of_write_u2 h
    exact ⟨.constant n, rfl, .constantPoolU16 h⟩
  | newArrayPrimitive =>
    obtain ⟨v, rfl, h⟩ := (writeOperands_one_iff_of_trailer rfl rfl).mp hw
    obtain ⟨n, rfl⟩ := Field.exists_nat_of_write_u1 h
    exact ⟨.arrayOf n, rfl, .newArrayPrimitive h⟩
  | invokeDynamic =>
    obtain ⟨v, b₁, rfl, h, rfl⟩ := (writeOperands_one_iff rfl).mp hw
    obtain ⟨n, rfl⟩ := Field.exists_nat_of_write_u2 h
    exact ⟨.constant n, rfl, .invokeDynamic h rfl⟩
  | localIndexAndConst =>
    obtain ⟨v, w, b₁, b₂, rfl, h₁, h₂, rfl⟩ := (writeOperands_two_iff_of_trailer rfl rfl).mp hw
    obtain ⟨n, rfl⟩ := Field.exists_nat_of_write_u1 h₁
    exact ⟨.increment n w, rfl, .localIndexAndConst h₁ h₂⟩
  | multiArray =>
    obtain ⟨v, w, b₁, b₂, rfl, h₁, h₂, rfl⟩ := (writeOperands_two_iff_of_trailer rfl rfl).mp hw
    obtain ⟨n, rfl⟩ := Field.exists_nat_of_write_u2 h₁
    obtain ⟨m, rfl⟩ := Field.exists_nat_of_write_u1 h₂
    exact ⟨.multiArray n m, rfl, .multiArray h₁ h₂⟩
  | invokeInterface =>
    obtain ⟨v, w, b₁, b₂, rfl, h₁, h₂, rfl⟩ := (writeOperands_two_iff rfl).mp hw
    obtain ⟨n, rfl⟩ := Field.exists_nat_of_write_u2 h₁
    obtain ⟨m, rfl⟩ := Field.exists_nat_of_write_u1 h₂
    exact ⟨.interfaceCall n m, rfl, .invokeInterface h₁ h₂ rfl⟩
  | tableSwitch => exact exists_layout_tableSwitch hc hw
  | lookupSwitch => exact exists_layout_lookupSwitch hc hw
  | widePrefixed => exact exists_layout_widePrefixed hc hw

end Assembly

end Bytecode
