import Bytecode.Proofs.Operands.Switch
import Bytecode.Proofs.View.Parts

/-!
# Operands that are cut short

Operands are read in parts, one behind the other, and every part asks for a number of bytes.
`Operands.demands` lists these numbers for every shape, and `Demand.firstUnmet?` finds the first part
whose bytes are not there.  A reader of operands reports the shortfall of this part, counted from the
place where the part starts (`Operands.demands_read`).  Only where the padding of a switch is missing
is the shortfall counted from the start of the code array (`Operands.read_switch_of_padding`).
-/

namespace Bytecode

open Reader

/-! ## Demands -/

/-- The bytes that a read asks for: `size` of them, from `place` of a code array on. -/
structure Demand where
  place : Nat
  size : Nat
deriving DecidableEq, Repr

namespace Demand

/-- The first demand that an array of `limit` bytes does not meet, of demands for so many bytes each
that stand one behind the other from a place on. -/
def firstUnmet? (limit : Nat) : Nat → List Nat → Option Demand
  | _, [] => none
  | place, n :: sizes =>
    if place + n ≤ limit then firstUnmet? limit (place + n) sizes else some ⟨place, n⟩

/-- What is missing of an unmet demand. -/
def shortfall (d : Demand) (limit : Nat) : Shortfall := ⟨d.size, limit - d.place⟩

section FirstUnmet

variable {limit place n : Nat} {sizes : List Nat} {d : Demand}

theorem firstUnmet?_of_le (h : place + n ≤ limit) :
    firstUnmet? limit place (n :: sizes) = firstUnmet? limit (place + n) sizes := if_pos h

theorem firstUnmet?_of_lt (h : limit < place + n) :
    firstUnmet? limit place (n :: sizes) = some ⟨place, n⟩ := if_neg (Nat.not_le.mpr h)

/-- An unmet demand starts inside the array and goes beyond its end. -/
theorem range_of_firstUnmet? (hplace : place ≤ limit)
    (h : firstUnmet? limit place sizes = some d) :
    place ≤ d.place ∧ d.place ≤ limit ∧ limit < d.place + d.size := by
  induction sizes generalizing place with
  | nil => cases h
  | cons n sizes ih =>
    by_cases hn : place + n ≤ limit
    · rw [firstUnmet?_of_le hn] at h
      obtain ⟨hle, hlimit, hbeyond⟩ := ih hn h
      exact ⟨Nat.le_of_add_right_le hle, hlimit, hbeyond⟩
    · rw [firstUnmet?_of_lt (Nat.not_le.mp hn)] at h
      cases h
      exact ⟨Nat.le_refl _, hplace, Nat.not_le.mp hn⟩

end FirstUnmet

end Demand

/-! ## Readers and their demands -/

namespace Reader

variable {ε α β : Type} {code : Window} {place : Nat}

/-- From `place` on, `p` makes demands for so many bytes each.  If it is cut short, it reports what is
missing of the first one that is not met. -/
def Demands (code : Window) (place : Nat) (p : Reader ε α) (sizes : List Nat) : Prop :=
  ∀ s, p (code.drop place) = .error (.truncated s) →
    ∃ d, Demand.firstUnmet? code.size place sizes = some d ∧ s = d.shortfall code.size

namespace Demands

protected theorem pure (a : α) : Demands code place (pure a : Reader ε α) [] := by
  intro s h
  cases h

/-- A read of `n` bytes, and then what follows it. -/
protected theorem bind {p : Reader ε α} {f : α → Reader ε β} {n : Nat} {a : α} {sizes : List Nat}
    (hp : p (code.drop place) =
      if n ≤ (code.drop place).size then .ok (a, n)
      else .error (.truncated ⟨n, (code.drop place).size⟩))
    (hplace : place ≤ code.size)
    (hf : place + n ≤ code.size → Demands code (place + n) (f a) sizes) :
    Demands code place (p >>= f) (n :: sizes) := by
  intro s h
  by_cases hn : place + n ≤ code.size
  · rw [if_pos (by rw [Window.size_drop]; omega)] at hp
    rw [Demand.firstUnmet?_of_le hn]
    rw [bind_of_ok hp (by rw [Window.size_drop]; omega), Window.drop_drop] at h
    cases hrest : f a (code.drop (place + n)) with
    | error fault =>
      rw [hrest] at h
      cases h
      exact hf hn s hrest
    | ok r =>
      rw [hrest] at h
      cases h
  · rw [if_neg (by rw [Window.size_drop]; omega)] at hp
    rw [bind_of_error hp] at h
    cases h
    exact ⟨⟨place, n⟩, Demand.firstUnmet?_of_lt (Nat.not_le.mp hn), rfl⟩

protected theorem unsigned {f : Nat → Reader ε β} {width : Nat} {sizes : List Nat}
    (hplace : place ≤ code.size)
    (hf : place + width ≤ code.size →
      Demands code (place + width) (f (Word.value ((code.drop place).take width))) sizes) :
    Demands code place (unsigned width >>= f) (width :: sizes) :=
  .bind (unsigned_apply width _) hplace hf

protected theorem signed {f : Int → Reader ε β} {width : Nat} {sizes : List Nat}
    (hplace : place ≤ code.size)
    (hf : place + width ≤ code.size → Demands code (place + width)
      (f (Word.signed width (Word.value ((code.drop place).take width)))) sizes) :
    Demands code place (signed width >>= f) (width :: sizes) :=
  .bind (map_word (unsigned_apply width) _ _) hplace hf

protected theorem skip {f : Unit → Reader ε β} {n : Nat} {sizes : List Nat}
    (hplace : place ≤ code.size)
    (hf : place + n ≤ code.size → Demands code (place + n) (f ()) sizes) :
    Demands code place (skip n >>= f) (n :: sizes) :=
  .bind rfl hplace hf

end Demands

end Reader

/-! ## The demands of operands -/

namespace Operands

/-- The demands of the instruction behind a wide prefix. -/
def widenedDemands (opcode : Nat) : List Nat :=
  match (Catalog.standard.lookup opcode).map Entry.widening with
  | some .localIndex => [2]
  | some .increment => [2, 2]
  | _ => []

/-- The demands of operands that start at `position`.  The padding of a switch, every word of its
header and all of its entries together are one demand each. -/
def demands (code : List UInt8) (position : Nat) : Shape → List Nat
  | .none => []
  | .u8 | .constantPoolU8 | .newArrayPrimitive => [1]
  | .u16 | .s16 | .constantPoolU16 => [2]
  | .s32 => [4]
  | .localIndexAndConst => [1, 1]
  | .invokeInterface => [2, 1, 1]
  | .invokeDynamic => [2, 2]
  | .multiArray => [2, 1]
  | .tableSwitch =>
    [padding position, 4, 4, 4, 4 * Switch.table.count code (position + padding position)]
  | .lookupSwitch =>
    [padding position, 4, 4, 8 * Switch.lookup.count code (position + padding position)]
  | .widePrefixed => 1 :: code[position]?.elim [] fun opcode ↦ widenedDemands opcode.toNat

section Demands

variable {code : Window} {position place : Nat}

theorem demands_align {α : Type} {f : Unit → Reader Empty α} {sizes : List Nat}
    (h : position + padding position ≤ code.size)
    (hf : Demands code (position + padding position) (f ()) sizes) :
    Demands code position (align position >>= f) (padding position :: sizes) := by
  have hpadding : padding position ≤ (code.drop position).size := by
    rw [Window.size_drop]
    omega
  refine .bind (a := ()) ?_ (Nat.le_of_add_right_le h) fun _ ↦ hf
  rw [align_eq_ok hpadding, if_pos hpadding]

/-- If the bytes of all entries are there, none of the entries is cut short. -/
theorem demands_entries {α β : Type} {p : Reader Empty α} {width n : Nat} {g : List α → β}
    (hp : Bounded p) (hplace : place ≤ code.size)
    (htimes : place + width * n ≤ code.size → ∃ r, times n p (code.drop place) = .ok r) :
    Demands code place (entries width n p >>= fun as ↦ pure (g as)) [width * n] := by
  intro s h
  rcases (bounded_entries hp width n).bind_eq_error.mp h with h | ⟨as, m, -, h⟩
  · by_cases hn : place + width * n ≤ code.size
    · obtain ⟨r, hr⟩ := htimes hn
      rw [entries_eq_ok (by rw [Window.size_drop]; omega) (by rwa [Window.drop_drop])] at h
      cases h
    · rw [entries_eq_error p (by rw [Window.size_drop]; omega)] at h
      cases h
      exact ⟨⟨place, width * n⟩, Demand.firstUnmet?_of_lt (Nat.not_le.mp hn), rfl⟩
  · cases h

theorem demands_word {α : Type} {f : Int → Reader Empty α} {sizes : List Nat}
    (hplace : place ≤ code.size)
    (hf : place + 4 ≤ code.size → Demands code (place + 4) (f (wordAt code.toList place)) sizes) :
    Demands code place (s4 >>= f) (4 :: sizes) := by
  refine .signed hplace fun h ↦ ?_
  rw [Window.take_eq, Window.toList_drop]
  exact hf h

/-- With its padding there, a switch over a range makes its other demands from the next multiple of
four on. -/
theorem demands_readTableSwitch (h : position + padding position ≤ code.size) :
    Demands code position (readTableSwitch position)
      (demands code.toList position .tableSwitch) := by
  refine demands_align h ?_
  refine demands_word h fun hdefault ↦ ?_
  refine demands_word hdefault fun hlow ↦ ?_
  refine demands_word hlow fun hhigh ↦ ?_
  refine demands_entries bounded_s4 hhigh fun hjumps ↦ ⟨_, times_s4_eq_ok (code.toList_drop _) ?_⟩
  rwa [Window.length_toList]

theorem demands_readLookupSwitch (h : position + padding position ≤ code.size) :
    Demands code position (readLookupSwitch position)
      (demands code.toList position .lookupSwitch) := by
  refine demands_align h ?_
  refine demands_word h fun hdefault ↦ ?_
  refine demands_word hdefault fun hcount ↦ ?_
  refine demands_entries bounded_readCase hcount fun hcases ↦ ?_
  obtain ⟨cases, hread, -⟩ := times_readCase_eq_ok (code.toList_drop _)
    (show _ ≤ code.toList.length by rwa [Window.length_toList])
  exact ⟨_, hread⟩

theorem demands_readWide (hposition : position ≤ code.size) :
    Demands code position readWide (demands code.toList position .widePrefixed) := by
  refine .unsigned hposition fun h ↦ ?_
  obtain ⟨opcode, hopcode⟩ : ∃ opcode, code.toList[position]? = some opcode :=
    ⟨_, List.getElem?_eq_getElem (by rw [Window.length_toList]; omega)⟩
  have hvalue : Word.value ((code.drop position).take 1) = opcode.toNat := by
    rw [Window.take_eq, Window.toList_drop_eq_cons hopcode, List.take_succ_cons, List.take_zero]
    simp [Word.value]
  rw [hvalue, hopcode, Option.elim_some, widenedDemands]
  cases he : Catalog.standard.lookup opcode.toNat with
  | none => exact .pure _
  | some target =>
    rw [Option.map_some]
    dsimp only
    cases target.widening with
    | localIndex => exact .unsigned h fun _ ↦ .pure _
    | increment => exact .unsigned h fun h ↦ .signed h fun _ ↦ .pure _
    | unsupported => exact .pure _

/-- The reader of operands makes the demands of their shape, unless the padding of a switch is
missing. -/
theorem demands_read {shape : Shape} (hposition : position ≤ code.size)
    (hpadding : ∀ s : Switch, shape = s.shape → position + padding position ≤ code.size) :
    Demands code position (read position shape) (demands code.toList position shape) := by
  cases shape with
  | none => exact .pure _
  | u8 | constantPoolU8 | newArrayPrimitive => exact .unsigned hposition fun _ ↦ .pure _
  | u16 | constantPoolU16 => exact .unsigned hposition fun _ ↦ .pure _
  | s16 | s32 => exact .signed hposition fun _ ↦ .pure _
  | localIndexAndConst => exact .unsigned hposition fun h ↦ .signed h fun _ ↦ .pure _
  | invokeInterface =>
    exact .unsigned hposition fun h ↦ .unsigned h fun h ↦ .skip h fun _ ↦ .pure _
  | invokeDynamic => exact .unsigned hposition fun h ↦ .skip h fun _ ↦ .pure _
  | multiArray => exact .unsigned hposition fun h ↦ .unsigned h fun _ ↦ .pure _
  | tableSwitch => exact demands_readTableSwitch (hpadding .table rfl)
  | lookupSwitch => exact demands_readLookupSwitch (hpadding .lookup rfl)
  | widePrefixed => exact demands_readWide hposition

/-- Where the padding of a switch is missing, the shortfall is that of all bytes up to the next
multiple of four, and those in front of the switch count as if they were still to come. -/
theorem read_switch_of_padding (s : Switch) (hposition : position ≤ code.size)
    (h : code.size < position + padding position) :
    read position s.shape (code.drop position) =
      .error (.truncated ⟨position + padding position, code.size⟩) := by
  have halign : align position (code.drop position) =
      .error (.truncated ⟨position + padding position, code.size⟩) := by
    rw [align, Window.size_drop, if_neg (by omega), Nat.add_sub_cancel' hposition]
  cases s with
  | table => exact bind_of_error halign
  | lookup => exact bind_of_error halign

/-- The padding of a switch is its first demand. -/
theorem firstUnmet?_of_padding (s : Switch) {limit : Nat} {bytes : List UInt8}
    (h : limit < position + padding position) :
    Demand.firstUnmet? limit position (demands bytes position s.shape) =
      some ⟨position, padding position⟩ := by
  cases s with
  | table => exact Demand.firstUnmet?_of_lt h
  | lookup => exact Demand.firstUnmet?_of_lt h

end Demands

end Operands

end Bytecode
