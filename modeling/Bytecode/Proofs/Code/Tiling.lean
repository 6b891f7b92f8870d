import Bytecode.Proofs.Code.Run
import Mathlib.Data.List.Chain

/-!
# Instructions tile the code array

The decoded instructions lie one behind the other, without a gap and inside the array.  Decoding
ends in exactly one of three ways: it reaches the end of the array, it is cut short by it, or it
stops at an unknown opcode because it was asked to.
-/

namespace Bytecode

/-! ## References to the constant pool -/

/-- The shapes of the instructions that refer to the constant pool. -/
def Shape.refersToPool : Shape → Bool
  | .constantPoolU8 | .constantPoolU16 | .invokeInterface | .invokeDynamic | .multiArray => true
  | _ => false

theorem Operands.Layout.isSome_poolIndex? {position : Nat} {shape : Shape} {o : Operands}
    {b : List UInt8} (h : Layout position shape o b) :
    o.poolIndex?.isSome = shape.refersToPool := by
  cases h with
  | widePrefixed _ ho => cases ho <;> rfl
  | _ => rfl

/-- The index of a constant is the first operand. -/
theorem Operands.head?_values_of_poolIndex? {o : Operands} {index : Nat}
    (h : o.poolIndex? = some index) : o.values.head? = some (index : Int) := by
  cases o with
  | constant | interfaceCall | multiArray =>
    cases h
    rfl
  | _ => cases h

namespace Instruction

/-- Whether the catalog says that the instruction refers to the constant pool. -/
def RefersToPool (i : Instruction) : Prop := ∃ e, i.entry? = some e ∧ e.shape.refersToPool

theorem Occupies.isSome_poolIndex?_iff {i : Instruction} {b : List UInt8} (h : i.Occupies b) :
    i.poolIndex?.isSome ↔ i.RefersToPool := by
  cases h with
  | known he _ h =>
    rw [poolIndex?, h.isSome_poolIndex?]
    constructor
    · intro hs
      exact ⟨_, he, hs⟩
    · rintro ⟨e', he', hs⟩
      cases he.symm.trans he'
      exact hs
  | unknown he _ ho =>
    rw [poolIndex?, ho]
    constructor
    · intro hs
      cases hs
    · rintro ⟨e', he', -⟩
      cases he.symm.trans he'

end Instruction

namespace Code

/-! ## Where the instructions lie -/

/-- The number of bytes that the decoded instructions take up. -/
def Decoded.extent (d : Decoded) : Nat := (d.instructions.map (·.length)).sum

@[simp] theorem Decoded.instructions_cons (i : Instruction) (d : Decoded) :
    (d.cons i).instructions = i :: d.instructions := rfl

@[simp] theorem Decoded.failure_cons (i : Instruction) (d : Decoded) :
    (d.cons i).failure = d.failure := rfl

@[simp] theorem Decoded.extent_cons (i : Instruction) (d : Decoded) :
    (d.cons i).extent = i.length + d.extent := rfl

namespace Run

variable {policy : Policy} {offset : Nat} {bytes : List UInt8} {d : Decoded}

theorem offset_of_head? (h : Run policy offset bytes d) :
    ∀ i ∈ d.instructions.head?, i.offset = offset := by
  cases h <;> simp

/-- Every instruction starts where the one before it ends. -/
theorem isChain (h : Run policy offset bytes d) :
    d.instructions.IsChain fun i j ↦ j.offset = i.offset + i.length := by
  induction h with
  | done | truncated => exact .nil
  | abort => exact .singleton _
  | step _ _ hr ih => exact ih.cons hr.offset_of_head?

/-- Every decoded instruction stands in the bytes, at the place that it says. -/
theorem exists_occupies (h : Run policy offset bytes d) :
    ∀ i ∈ d.instructions, ∃ before b after, bytes = before ++ (b ++ after) ∧ i.Occupies b ∧
      i.offset = offset + before.length := by
  induction h with
  | done | truncated =>
    intro i hi
    cases hi
  | @abort i b rest _ hi _ =>
    intro j hj
    obtain rfl := List.mem_singleton.mp hj
    exact ⟨[], b, rest, rfl, hi, rfl⟩
  | @step i b rest d hi _ _ ih =>
    intro j hj
    rcases List.mem_cons.mp hj with rfl | hj
    · exact ⟨[], b, rest, rfl, hi, rfl⟩
    · obtain ⟨before, b', after, rfl, hj', hoff⟩ := ih j hj
      refine ⟨b ++ before, b', after, by rw [List.append_assoc], hj', ?_⟩
      rw [hoff, List.length_append, hi.length_eq, Nat.add_assoc]

end Run

theorem exists_occupies_of_mem_decode (policy : Policy) (code : Window) :
    ∀ i ∈ (decode policy code).instructions, ∃ b, i.Occupies b := by
  intro i hi
  obtain ⟨-, b, -, -, hb, -⟩ := (run_decodeFrom policy 0 code).exists_occupies i hi
  exact ⟨b, hb⟩

/-! ## How decoding ends -/

/-- Decoding has reached the end of an array of `size` bytes. -/
def Decoded.Completes (d : Decoded) (size : Nat) : Prop := d.failure = none ∧ d.extent = size

/-- Decoding was cut short right behind the instructions that it found. -/
def Decoded.IsTruncated (d : Decoded) (size : Nat) : Prop :=
  ∃ s : Shortfall, d.failure = some ⟨d.extent, .truncated s⟩ ∧ s.available < s.needed ∧
    d.extent < size

/-- Decoding stopped at the last instruction, which is the only one with an unknown opcode. -/
def Decoded.IsAborted (d : Decoded) (policy : Policy) : Prop :=
  policy = .abort ∧ ∃ before i, d.instructions = before ++ [i] ∧
    d.failure = some ⟨i.offset, .unknownOpcode i.opcode.toNat⟩ ∧
    i.entry? = none ∧ i.operands = .none ∧ i.length = 1 ∧ ∀ j ∈ before, j.entry? ≠ none

theorem Run.ends {policy : Policy} {offset : Nat} {bytes : List UInt8} {d : Decoded}
    (h : Run policy offset bytes d) :
    (d.failure = none ∧ d.extent = bytes.length) ∨
      (∃ s : Shortfall, d.failure = some ⟨offset + d.extent, .truncated s⟩ ∧
        s.available < s.needed ∧ d.extent < bytes.length) ∨
      d.IsAborted policy := by
  induction h with
  | done => exact .inl ⟨rfl, rfl⟩
  | truncated h =>
    have hs := (Instruction.incremental_readOperands _ _).short h
    exact .inr (.inl ⟨_, rfl, hs, Nat.zero_lt_succ _⟩)
  | @abort i b rest hp hi he =>
    cases hi with
    | known he' => cases he.symm.trans he'
    | unknown _ hn ho =>
      exact .inr (.inr ⟨hp, [], i, rfl, rfl, he, ho, hn, by simp⟩)
  | @step i b rest d hi he hr ih =>
    rw [Decoded.failure_cons, Decoded.extent_cons, List.length_append, hi.length_eq]
    rcases ih with ⟨hf, hx⟩ | ⟨s, hf, hs, hx⟩ | ⟨hp, before, j, hd, hf, hj, ho, hn, hk⟩
    · exact .inl ⟨hf, by rw [hx]⟩
    · exact .inr (.inl ⟨s, by rw [hf, Nat.add_assoc], hs, by omega⟩)
    · refine .inr (.inr ⟨hp, i :: before, j, by simp [hd], hf, hj, ho, hn, ?_⟩)
      intro k hk'
      rcases List.mem_cons.mp hk' with rfl | hk'
      · exact he hp
      · exact hk k hk'

/-- `d` tiles the code array: its instructions lie one behind the other from the front of the array,
and exactly one of the three ways to end applies. -/
structure Tiling (policy : Policy) (code : List UInt8) (d : Decoded) : Prop where
  offset_first : ∀ i ∈ d.instructions.head?, i.offset = 0
  offset_next : d.instructions.IsChain fun i j ↦ j.offset = i.offset + i.length
  length_pos : ∀ i ∈ d.instructions, 1 ≤ i.length
  end_le : ∀ i ∈ d.instructions, i.offset + i.length ≤ code.length
  opcode_eq : ∀ i ∈ d.instructions, code[i.offset]? = some i.opcode
  poolIndex : ∀ i ∈ d.instructions, (i.poolIndex?.isSome ↔ i.RefersToPool) ∧
    ∀ index : Nat, i.poolIndex? = some index → i.values.head? = some (index : Int)
  ends :
    (d.Completes code.length ∧ ¬ d.IsTruncated code.length ∧ ¬ d.IsAborted policy) ∨
      (¬ d.Completes code.length ∧ d.IsTruncated code.length ∧ ¬ d.IsAborted policy) ∨
      (¬ d.Completes code.length ∧ ¬ d.IsTruncated code.length ∧ d.IsAborted policy)

/-- The three ways to end exclude each other, because each has its own kind of failure. -/
theorem Decoded.exactly_one_end {d : Decoded} {policy : Policy} {size : Nat}
    (h : d.Completes size ∨ d.IsTruncated size ∨ d.IsAborted policy) :
    (d.Completes size ∧ ¬ d.IsTruncated size ∧ ¬ d.IsAborted policy) ∨
      (¬ d.Completes size ∧ d.IsTruncated size ∧ ¬ d.IsAborted policy) ∨
      (¬ d.Completes size ∧ ¬ d.IsTruncated size ∧ d.IsAborted policy) := by
  have hct : d.Completes size → ¬ d.IsTruncated size := by
    rintro ⟨hf, -⟩ ⟨s, hf', -⟩
    cases hf.symm.trans hf'
  have hca : d.Completes size → ¬ d.IsAborted policy := by
    rintro ⟨hf, -⟩ ⟨-, before, i, -, hf', -⟩
    cases hf.symm.trans hf'
  have hta : d.IsTruncated size → ¬ d.IsAborted policy := by
    rintro ⟨s, hf, -⟩ ⟨-, before, i, -, hf', -⟩
    simp [hf] at hf'
  rcases h with h | h | h
  · exact .inl ⟨h, hct h, hca h⟩
  · exact .inr (.inl ⟨fun hc ↦ hct hc h, h, hta h⟩)
  · exact .inr (.inr ⟨fun hc ↦ hca hc h, fun ht ↦ hta ht h, h⟩)

/-- Every code array is tiled by what it decodes to. -/
theorem tiling_decode (policy : Policy) (code : Window) :
    Tiling policy code.toList (decode policy code) := by
  have hr : Run policy 0 code.toList (decode policy code) := run_decodeFrom policy 0 code
  refine ⟨hr.offset_of_head?, hr.isChain, ?_, ?_, ?_, ?_, Decoded.exactly_one_end ?_⟩
  · intro i hi
    obtain ⟨before, b, after, -, hocc, -⟩ := hr.exists_occupies i hi
    obtain ⟨tail, rfl⟩ := hocc.exists_eq_cons
    rw [← hocc.length_eq, List.length_cons]
    exact Nat.le_add_left 1 _
  · intro i hi
    obtain ⟨before, b, after, hcode, hocc, hoff⟩ := hr.exists_occupies i hi
    rw [hcode, hoff, ← hocc.length_eq]
    simp only [List.length_append]
    omega
  · intro i hi
    obtain ⟨before, b, after, hcode, hocc, hoff⟩ := hr.exists_occupies i hi
    obtain ⟨tail, rfl⟩ := hocc.exists_eq_cons
    rw [hcode, hoff, Nat.zero_add, List.getElem?_append_right (Nat.le_refl _), Nat.sub_self]
    rfl
  · intro i hi
    obtain ⟨before, b, after, -, hocc, -⟩ := hr.exists_occupies i hi
    exact ⟨hocc.isSome_poolIndex?_iff, fun index h ↦ Operands.head?_values_of_poolIndex? h⟩
  · have hends := hr.ends
    simp only [Nat.zero_add] at hends
    exact hends

end Code

end Bytecode
