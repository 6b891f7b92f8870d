import Bytecode.ClassFile
import Bytecode.Proofs.Reader.Incremental

/-!
# Class files and more input

The readers of the parts of a class file are put together from single reads with the combinators,
except for the loop that fills the constant pool, which is shown to be a chain of readers.  So they
are incremental: more bytes change neither a result nor a broken rule, and a shortfall only by the
bytes that have arrived.  In particular the front of a file that can be read is never taken for a
file that breaks a rule.
-/

namespace Bytecode

open Reader FormatReader

/-! ## The constant pool -/

theorem incremental_readIndex {ε : Type} : Incremental (readIndex : Reader ε Int) :=
  (Incremental.unsigned 2).bind fun _ ↦ .pure _

theorem Constant.incremental_read (kind : Kind) : Incremental (Constant.read kind) := by
  cases kind with
  | utf8 => exact (Incremental.unsigned 2).bytes.bind fun _ ↦ .pure _
  | integer => exact (Incremental.signed 4).bind fun _ ↦ .pure _
  | long => exact (Incremental.signed 8).bind fun _ ↦ .pure _
  | float => exact Incremental.float.bind fun _ ↦ .pure _
  | double => exact Incremental.double.bind fun _ ↦ .pure _
  | classInfo | moduleInfo | packageInfo | string | methodType =>
    exact incremental_readIndex.bind fun _ ↦ .pure _
  | fieldref | methodref | interfaceMethodref | nameAndType | dynamic | invokeDynamic =>
    exact incremental_readIndex.bind fun _ ↦ incremental_readIndex.bind fun _ ↦ .pure _
  | methodHandle =>
    exact (Incremental.unsigned 1).bind fun _ ↦ incremental_readIndex.bind fun _ ↦ .pure _

theorem Constant.incremental_readTagged : Incremental Constant.readTagged := by
  refine (Incremental.unsigned 1).bind fun tag ↦ ?_
  split
  · exact Constant.incremental_read _
  · exact .fail _

namespace Pool

/-- The loop adds what it reads to the length that it starts with. -/
theorem readFrom_add (index : Nat) (p : Pool) (length more : Nat) (w : Window) :
    readFrom index p (length + more) w =
      (readFrom index p length w).map fun r ↦ (r.1, r.2 + more) := by
  fun_induction readFrom index p length w with
  | case1 index p length w hi e he =>
    rw [readFrom, if_pos hi, he]
    rfl
  | case2 index p length w hi c n hc ih =>
    rw [readFrom, if_pos hi, hc, ← ih, Nat.add_right_comm]
  | case3 index p length w hi =>
    rw [readFrom, if_neg hi]
    rfl

/-- The loop reads a constant and goes on behind it. -/
theorem readFrom_eq_bind (index : Nat) (p : Pool) :
    (readFrom index p 0 : FormatReader Pool) =
      if index < p.count then
        Constant.readTagged >>= fun c ↦
          (readFrom (index + c.slots) (p.set index c) 0 : FormatReader Pool)
      else pure p := by
  funext w
  rw [readFrom]
  split
  · cases h : Constant.readTagged w with
    | error e => exact (bind_of_error h).symm
    | ok r =>
      refine Eq.trans ?_ (bind_of_ok h (Constant.incremental_readTagged.bounded h)).symm
      dsimp only
      rw [readFrom_add]
      simp only [Nat.add_comm]
  · rfl

theorem incremental_readFrom (index : Nat) (p : Pool) :
    Incremental (readFrom index p 0 : FormatReader Pool) := by
  rw [readFrom_eq_bind]
  split
  · exact Constant.incremental_readTagged.bind fun c ↦
      incremental_readFrom (index + c.slots) (p.set index c)
  · exact .pure p
termination_by p.count - index
decreasing_by
  have := c.slots_pos
  simp only [count_set]
  omega

theorem incremental_read : Incremental read :=
  (Incremental.unsigned 2).bind fun count ↦ incremental_readFrom 1 (empty count)

end Pool

/-! ## The parts of a class file -/

theorem FormatReader.incremental_resolve {α : Type} (x : Except PoolError α) :
    Incremental (resolve x) := by
  cases x with
  | ok a => exact .pure a
  | error e => exact .fail _

theorem AccessFlags.incremental_read {ε : Type} (owner : FlagOwner) :
    Incremental (AccessFlags.read owner : Reader ε AccessFlags) :=
  (Incremental.unsigned 2).bind fun _ ↦ .pure _

theorem Attribute.incremental_readAll (pool : Pool) : Incremental (Attribute.readAll pool) := by
  refine Incremental.repeated ?_
  exact incremental_readIndex.bind fun _ ↦ (Incremental.unsigned 4).bytes.bind fun _ ↦
    (incremental_resolve _).bind fun _ ↦ .pure _

theorem Member.incremental_readAll (owner : FlagOwner) (pool : Pool) :
    Incremental (Member.readAll owner pool) := by
  refine Incremental.repeated ?_
  exact (AccessFlags.incremental_read owner).bind fun _ ↦ incremental_readIndex.bind fun _ ↦
    incremental_readIndex.bind fun _ ↦ (Attribute.incremental_readAll pool).bind fun _ ↦
      (incremental_resolve _).bind fun _ ↦ (incremental_resolve _).bind fun _ ↦ .pure _

theorem Handler.incremental_readAll : Incremental Handler.readAll := by
  refine Incremental.repeated ?_
  exact (Incremental.unsigned 2).bind fun _ ↦ (Incremental.unsigned 2).bind fun _ ↦
    (Incremental.unsigned 2).bind fun _ ↦ (Incremental.unsigned 2).bind fun _ ↦ .pure _

theorem CodeAttribute.incremental_read (pool : Pool) : Incremental (CodeAttribute.read pool) :=
  (Incremental.unsigned 2).bind fun _ ↦ (Incremental.unsigned 2).bind fun _ ↦
    (Incremental.unsigned 4).bytes.bind fun _ ↦ Handler.incremental_readAll.bind fun _ ↦
      (Attribute.incremental_readAll pool).bind fun _ ↦ .pure _

theorem ClassFile.incremental_readMagic : Incremental ClassFile.readMagic := by
  refine (Incremental.unsigned 4).bind fun n ↦ ?_
  split
  · exact .pure ()
  · exact .fail _

theorem ClassFile.incremental_read : Incremental ClassFile.read :=
  ClassFile.incremental_readMagic.bind fun _ ↦ (Incremental.unsigned 2).bind fun _ ↦
    (Incremental.unsigned 2).bind fun _ ↦ Pool.incremental_read.bind fun pool ↦
      (AccessFlags.incremental_read .ofClass).bind fun _ ↦ incremental_readIndex.bind fun _ ↦
        incremental_readIndex.bind fun _ ↦ incremental_readIndex.repeated.bind fun _ ↦
          (Member.incremental_readAll .ofField pool).bind fun _ ↦
            (Member.incremental_readAll .ofMethod pool).bind fun _ ↦
              (Attribute.incremental_readAll pool).bind fun _ ↦
                (incremental_resolve _).bind fun _ ↦ (incremental_resolve _).bind fun _ ↦
                  (incremental_resolve _).bind fun _ ↦ .pure _

/-! ## All readers of the format -/

/-- The readers of the format: single reads, what the combinators put together from readers of the
format, and the readers of the parts of a class file. -/
inductive FormatReader.Composed : {α : Type} → FormatReader α → Prop where
  | u1 : Composed u1
  | s1 : Composed s1
  | u2 : Composed u2
  | s2 : Composed s2
  | u4 : Composed u4
  | s4 : Composed s4
  | s8 : Composed s8
  | float : Composed Reader.float
  | double : Composed Reader.double
  | pure {α : Type} (a : α) : Composed (pure a)
  | skip (n : Nat) : Composed (skip n)
  | bytes {count : FormatReader Nat} (hc : Composed count) : Composed (bytes count)
  | bind {α β : Type} {p : FormatReader α} {f : α → FormatReader β} (hp : Composed p)
    (hf : ∀ a, Composed (f a)) : Composed (p >>= f)
  | times {α : Type} {p : FormatReader α} (n : Nat) (hp : Composed p) : Composed (times n p)
  | repeated {α : Type} {p : FormatReader α} (hp : Composed p) : Composed (repeated p)
  | each {α : Type} {ps : List (FormatReader α)} (hp : ∀ p ∈ ps, Composed p) : Composed (each ps)
  | record {α : Type} {fields : List (String × FormatReader α)}
    (hp : ∀ field ∈ fields, Composed field.2) : Composed (record fields)
  | pool : Composed Pool.read
  | attributes (pool : Pool) : Composed (Attribute.readAll pool)
  | members (owner : FlagOwner) (pool : Pool) : Composed (Member.readAll owner pool)
  | handlers : Composed Handler.readAll
  | code (pool : Pool) : Composed (CodeAttribute.read pool)
  | classFile : Composed ClassFile.read

theorem FormatReader.Composed.incremental {α : Type} {p : FormatReader α} (hp : Composed p) :
    Incremental p := by
  induction hp with
  | u1 => exact .unsigned 1
  | s1 => exact .signed 1
  | u2 => exact .unsigned 2
  | s2 => exact .signed 2
  | u4 => exact .unsigned 4
  | s4 => exact .signed 4
  | s8 => exact .signed 8
  | float => exact .float
  | double => exact .double
  | pure a => exact .pure a
  | skip n => exact .skip n
  | bytes _ ih => exact ih.bytes
  | bind _ _ ihp ihf => exact ihp.bind ihf
  | times n _ ih => exact ih.times n
  | repeated _ ih => exact ih.repeated
  | each _ ih => exact .each ih
  | record _ ih => exact .record ih
  | pool => exact Pool.incremental_read
  | attributes pool => exact Attribute.incremental_readAll pool
  | members owner pool => exact Member.incremental_readAll owner pool
  | handlers => exact Handler.incremental_readAll
  | code pool => exact CodeAttribute.incremental_read pool
  | classFile => exact ClassFile.incremental_read

/-- What a reader of the format makes of some bytes, and what it makes of them when more bytes
follow: a result takes up no more than is there and stays, a broken rule stays, and a shortfall
stays until the missing bytes are there.  So a reader that takes up more than is there so far finds
that bytes are missing, and nothing else. -/
theorem FormatReader.Composed.outcome_append {α : Type} {p : FormatReader α} (hp : Composed p)
    {w w' : Window} {more : List UInt8} (hw : w'.toList = w.toList ++ more) :
    (∀ a n, p w = .ok (a, n) → n ≤ w.size ∧ p w' = .ok (a, n)) ∧
    (∀ e, p w = .error (.invalid e) → p w' = .error (.invalid e)) ∧
    (∀ s, p w = .error (.truncated s) → s.available < s.needed ∧
      (more.length < s.needed - s.available →
        p w' = .error (.truncated ⟨s.needed, s.available + more.length⟩))) ∧
    ∀ a n, p w' = .ok (a, n) → w.size < n → ∃ s, p w = .error (.truncated s) := by
  have hinc := hp.incremental
  have hprefix : w.toList <+: w'.toList := ⟨more, hw.symm⟩
  have hmore : w'.size - w.size = more.length := by
    rw [← Window.length_toList, ← Window.length_toList, hw, List.length_append,
      Nat.add_sub_cancel_left]
  refine ⟨fun a n h ↦ ⟨hinc.bounded h, hinc.ok_extend hprefix h⟩,
    fun e h ↦ hinc.invalid_extend hprefix h, fun s h ↦ ⟨hinc.short h, fun hlt ↦ ?_⟩,
    fun a n h hn ↦ hinc.exists_truncated h hprefix hn⟩
  have hshort : s.available + (w'.size - w.size) < s.needed := by omega
  rw [hinc.truncated_extend hprefix h hshort, hmore]

/-- An attribute of four bytes of which two are there: one more byte is not enough, and the name,
which cannot be resolved, is not asked for. -/
theorem FormatReader.Composed.outcome_append_attribute :
    Attribute.readAll (Pool.empty 2) (Window.ofList [0, 1, 0, 1, 0, 0, 0, 4, 7, 7, 7]) =
      .error (.truncated ⟨4, 3⟩) := by
  have hw : (Window.ofList [0, 1, 0, 1, 0, 0, 0, 4, 7, 7, 7]).toList =
      (Window.ofList [0, 1, 0, 1, 0, 0, 0, 4, 7, 7]).toList ++ [7] := rfl
  obtain ⟨-, -, hshort, -⟩ := (Composed.attributes (Pool.empty 2)).outcome_append hw
  exact (hshort ⟨4, 2⟩ rfl).2 (by decide)

end Bytecode
