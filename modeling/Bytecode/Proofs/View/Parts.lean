import Bytecode.Code
import Bytecode.Proofs.ClassFile.Incremental
import Bytecode.Proofs.View.Plan

/-!
# Plans of the readers

How the readers of operands and of the parts of a class file are put together.
-/

namespace Bytecode

open Reader

/-! ## Single reads -/

namespace Reader

variable {ε α β : Type}

/-- A value that is made of another one is read from the same bytes. -/
theorem map_word {p : Reader ε α} {width : Nat} {value : List UInt8 → α}
    (hp : ∀ w : Window, p w =
      if width ≤ w.size then .ok (value (w.take width), width)
      else .error (.truncated ⟨width, w.size⟩)) (g : α → β) (w : Window) :
    (p >>= fun a ↦ pure (g a)) w =
      if width ≤ w.size then .ok (g (value (w.take width)), width)
      else .error (.truncated ⟨width, w.size⟩) := by
  by_cases h : width ≤ w.size
  · have hok := hp w
    rw [if_pos h] at hok ⊢
    exact bind_of_ok hok h
  · have herror := hp w
    rw [if_neg h] at herror ⊢
    exact bind_of_error herror

theorem unsigned_apply (width : Nat) (w : Window) :
    (unsigned width : Reader ε Nat) w =
      if width ≤ w.size then .ok (Word.value (w.take width), width)
      else .error (.truncated ⟨width, w.size⟩) := by
  have htake (u : Window) : (take width : Reader ε _) u =
      if width ≤ u.size then .ok (id (u.take width), width)
      else .error (.truncated ⟨width, u.size⟩) := rfl
  exact map_word htake Word.value w

namespace Plan

def unsigned (width : Nat) : Plan (Reader.unsigned width : Reader ε Nat) :=
  .word width Word.value (unsigned_apply width)

def signed (width : Nat) : Plan (Reader.signed width : Reader ε Int) :=
  .word width (fun b ↦ Word.signed width (Word.value b)) (map_word (unsigned_apply width) _)

def float : Plan (Reader.float : Reader ε UInt32) :=
  .word 4 (fun b ↦ (Word.value b).toUInt32) (map_word (unsigned_apply 4) _)

def double : Plan (Reader.double : Reader ε UInt64) :=
  .word 8 (fun b ↦ (Word.value b).toUInt64) (map_word (unsigned_apply 8) _)

def skip (n : Nat) : Plan (Reader.skip n : Reader ε Unit) :=
  .guard n n 0 (fun w ↦ by simp only [Reader.skip, Nat.zero_add]) (Nat.le_refl n)

def require (n : Nat) : Plan (Reader.require n : Reader ε Unit) :=
  .guard n 0 0 (fun w ↦ by simp only [Reader.require, Nat.zero_add]) (Nat.zero_le n)

def bytes {count : Reader ε Nat} (plan : Plan count) : Plan (Reader.bytes count) :=
  .bind plan fun n ↦ .take n

def repeated {p : Reader ε α} (each : Plan p) : Plan (Reader.repeated p) :=
  .bind (unsigned 2) fun n ↦ .times n each

end Plan

end Reader

/-! ## Operands -/

namespace Operands

def alignPlan (position : Nat) : Plan (align position) :=
  .guard (padding position) (padding position) position (fun w ↦ by rw [align]) (Nat.le_refl _)

def entriesPlan {α : Type} {p : Reader Empty α} (width n : Nat) (each : Plan p) :
    Plan (entries width n p) :=
  .bind (.require _) fun _ ↦ .times n each

def casePlan : Plan readCase :=
  .bind (.signed 4) fun _ ↦ .bind (.signed 4) fun _ ↦ .pure _

def tableSwitchPlan (position : Nat) : Plan (readTableSwitch position) :=
  .bind (alignPlan position) fun _ ↦ .bind (.signed 4) fun _ ↦ .bind (.signed 4) fun _ ↦
    .bind (.signed 4) fun _ ↦ .bind (entriesPlan 4 _ (.signed 4)) fun _ ↦ .pure _

def lookupSwitchPlan (position : Nat) : Plan (readLookupSwitch position) :=
  .bind (alignPlan position) fun _ ↦ .bind (.signed 4) fun _ ↦ .bind (.signed 4) fun _ ↦
    .bind (entriesPlan 8 _ casePlan) fun _ ↦ .pure _

def widePlan : Plan readWide :=
  .bind (.unsigned 1) fun opcode ↦
    match Catalog.standard.lookup opcode with
    | Option.none => .pure _
    | some target =>
      match h : target.widening with
      | .localIndex =>
        .ofEq (by simp only [h]; rfl)
          (.bind (.unsigned 2) fun index ↦ .pure (wideLocal target index))
      | .increment =>
        .ofEq (by simp only [h]; rfl)
          (.bind (.unsigned 2) fun index ↦ .bind (.signed 2) fun amount ↦
            .pure (wideIncrement target index amount))
      | .unsupported => .ofEq (by simp only [h]) (.pure (wideUnknown opcode))

def plan (position : Nat) : (shape : Shape) → Plan (read position shape)
  | .none => .pure _
  | .u8 => .bind (.unsigned 1) fun _ ↦ .pure _
  | .u16 => .bind (.unsigned 2) fun _ ↦ .pure _
  | .s16 => .bind (.signed 2) fun _ ↦ .pure _
  | .s32 => .bind (.signed 4) fun _ ↦ .pure _
  | .localIndexAndConst => .bind (.unsigned 1) fun _ ↦ .bind (.signed 1) fun _ ↦ .pure _
  | .constantPoolU8 => .bind (.unsigned 1) fun _ ↦ .pure _
  | .constantPoolU16 => .bind (.unsigned 2) fun _ ↦ .pure _
  | .invokeInterface =>
    .bind (.unsigned 2) fun _ ↦ .bind (.unsigned 1) fun _ ↦ .bind (.skip 1) fun _ ↦ .pure _
  | .invokeDynamic => .bind (.unsigned 2) fun _ ↦ .bind (.skip 2) fun _ ↦ .pure _
  | .newArrayPrimitive => .bind (.unsigned 1) fun _ ↦ .pure _
  | .multiArray => .bind (.unsigned 2) fun _ ↦ .bind (.unsigned 1) fun _ ↦ .pure _
  | .tableSwitch => tableSwitchPlan position
  | .lookupSwitch => lookupSwitchPlan position
  | .widePrefixed => widePlan

end Operands

def Instruction.operandsPlan (position : Nat) (opcode : UInt8) :
    Plan (readOperands position opcode) :=
  match h : Catalog.standard.lookup opcode.toNat with
  | some e => .ofEq (by rw [readOperands, h]) (Operands.plan position e.shape)
  | none => .ofEq (by rw [readOperands, h]) (.pure .none)

/-! ## The constant pool -/

def indexPlan {ε : Type} : Plan (readIndex : Reader ε Int) :=
  .word 2 (fun b ↦ (Word.value b : Int)) (map_word (unsigned_apply 2) _)

namespace Constant

def plan : (kind : Kind) → Plan (Constant.read kind)
  | .utf8 => .bind (.bytes (.unsigned 2)) fun _ ↦ .pure _
  | .integer => .bind (.signed 4) fun _ ↦ .pure _
  | .float => .bind .float fun _ ↦ .pure _
  | .long => .bind (.signed 8) fun _ ↦ .pure _
  | .double => .bind .double fun _ ↦ .pure _
  | .classInfo => .bind indexPlan fun _ ↦ .pure _
  | .string => .bind indexPlan fun _ ↦ .pure _
  | .fieldref => .bind indexPlan fun _ ↦ .bind indexPlan fun _ ↦ .pure _
  | .methodref => .bind indexPlan fun _ ↦ .bind indexPlan fun _ ↦ .pure _
  | .interfaceMethodref => .bind indexPlan fun _ ↦ .bind indexPlan fun _ ↦ .pure _
  | .nameAndType => .bind indexPlan fun _ ↦ .bind indexPlan fun _ ↦ .pure _
  | .methodHandle => .bind (.unsigned 1) fun _ ↦ .bind indexPlan fun _ ↦ .pure _
  | .methodType => .bind indexPlan fun _ ↦ .pure _
  | .dynamic => .bind indexPlan fun _ ↦ .bind indexPlan fun _ ↦ .pure _
  | .invokeDynamic => .bind indexPlan fun _ ↦ .bind indexPlan fun _ ↦ .pure _
  | .moduleInfo => .bind indexPlan fun _ ↦ .pure _
  | .packageInfo => .bind indexPlan fun _ ↦ .pure _

def taggedPlan : Plan readTagged :=
  .bind (.unsigned 1) fun tag ↦
    match Kind.ofTag? tag with
    | some kind => plan kind
    | none => .fail (FormatError.unknownTag tag)

end Constant

namespace Pool

/-- The loop that fills a pool reads one constant after another. -/
def planFrom (index : Nat) (p : Pool) : Plan (readFrom index p 0 : FormatReader Pool) :=
  if h : index < p.count then
    .ofEq (by rw [readFrom_eq_bind, if_pos h])
      (.bind Constant.taggedPlan fun c ↦ planFrom (index + c.slots) (p.set index c))
  else .ofEq (by rw [readFrom_eq_bind, if_neg h]) (.pure p)
termination_by p.count - index
decreasing_by
  have := c.slots_pos
  simp only [count_set]
  omega

def plan : Plan Pool.read := .bind (.unsigned 2) fun count ↦ planFrom 1 (empty count)

end Pool

/-! ## The parts of a class file -/

def FormatReader.resolvePlan {α : Type} : (x : Except PoolError α) → Plan (FormatReader.resolve x)
  | .ok a => .pure a
  | .error e => .fail (FormatError.pool e)

open FormatReader (resolvePlan)

def AccessFlags.plan {ε : Type} (owner : FlagOwner) :
    Plan (AccessFlags.read owner : Reader ε AccessFlags) :=
  .bind (.unsigned 2) fun _ ↦ .pure _

def Attribute.plan (pool : Pool) : Plan (Attribute.readAll pool) :=
  .repeated (.bind indexPlan fun _ ↦ .bind (.bytes (.unsigned 4)) fun _ ↦
    .bind (resolvePlan _) fun _ ↦ .pure _)

def Member.plan (owner : FlagOwner) (pool : Pool) : Plan (Member.readAll owner pool) :=
  .repeated (.bind (AccessFlags.plan owner) fun _ ↦ .bind indexPlan fun _ ↦ .bind indexPlan fun _ ↦
    .bind (Attribute.plan pool) fun _ ↦ .bind (resolvePlan _) fun _ ↦
      .bind (resolvePlan _) fun _ ↦ .pure _)

def Handler.plan : Plan Handler.readAll :=
  .repeated (.bind (.unsigned 2) fun _ ↦ .bind (.unsigned 2) fun _ ↦ .bind (.unsigned 2) fun _ ↦
    .bind (.unsigned 2) fun _ ↦ .pure _)

def CodeAttribute.plan (pool : Pool) : Plan (CodeAttribute.read pool) :=
  .bind (.unsigned 2) fun _ ↦ .bind (.unsigned 2) fun _ ↦ .bind (.bytes (.unsigned 4)) fun _ ↦
    .bind Handler.plan fun _ ↦ .bind (Attribute.plan pool) fun _ ↦ .pure _

namespace ClassFile

def magicPlan : Plan readMagic :=
  .bind (.unsigned 4) fun n ↦
    if h : n = magic then .ofEq (by rw [if_pos h]) (.pure ())
    else .ofEq (by rw [if_neg h]) (.fail .badMagic)

def plan : Plan ClassFile.read :=
  .bind magicPlan fun _ ↦ .bind (.unsigned 2) fun _ ↦ .bind (.unsigned 2) fun _ ↦
    .bind Pool.plan fun pool ↦ .bind (AccessFlags.plan .ofClass) fun _ ↦ .bind indexPlan fun _ ↦
      .bind indexPlan fun _ ↦ .bind (.repeated indexPlan) fun _ ↦
        .bind (Member.plan .ofField pool) fun _ ↦ .bind (Member.plan .ofMethod pool) fun _ ↦
          .bind (Attribute.plan pool) fun _ ↦ .bind (resolvePlan _) fun _ ↦
            .bind (resolvePlan _) fun _ ↦ .bind (resolvePlan _) fun _ ↦ .pure _

end ClassFile

end Bytecode
