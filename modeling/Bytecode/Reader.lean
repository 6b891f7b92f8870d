import Bytecode.Text
import Bytecode.Window
import Bytecode.Word

/-!
# Binary readers

A reader looks at the front of a window and reports a value together with the number of bytes that it
took up.  It fails where a read needs more bytes than are left, or where the bytes break a rule of
the format.  `Reader` is a monad: the second of two readers goes on where the first has stopped.
-/

namespace Bytecode

/-- A read that needed more bytes than there were. -/
structure Shortfall where
  needed : Nat
  available : Nat
deriving DecidableEq, Repr

/-- For example `Needed 2 bytes but only 1 remain`. -/
def Shortfall.message (s : Shortfall) : Text :=
  "Needed " ++ Text.ofNat s.needed ++ (if s.needed = 1 then " byte" else " bytes") ++ " but only " ++
    Text.ofNat s.available ++ " remain"

/-- Why a reader failed.  `ε` lists the rules that its format can break. -/
inductive Fault (ε : Type) where
  | truncated (shortfall : Shortfall)
  | invalid (error : ε)
deriving DecidableEq, Repr

namespace Fault

/-- A format without rules can only be cut short. -/
def shortfall : Fault Empty → Shortfall
  | .truncated s => s

end Fault

/-- Reads a value from the front of a window and reports how many bytes it took up. -/
def Reader (ε α : Type) : Type := Window → Except (Fault ε) (α × Nat)

namespace Reader

variable {ε α β : Type}

/-- Takes up nothing. -/
protected def pure (a : α) : Reader ε α := fun _ ↦ .ok (a, 0)

/-- Reads with `p` from `n` bytes further on, which have to be there.  Only what `p` itself takes up
is reported. -/
def ahead (n : Nat) (p : Reader ε α) : Reader ε α := fun w ↦
  if n ≤ w.size then p (w.drop n) else .error (.truncated ⟨n, w.size⟩)

/-- Reads with `p`, then with `f` what follows. -/
protected def bind (p : Reader ε α) (f : α → Reader ε β) : Reader ε β := fun w ↦
  match p w with
  | .error e => .error e
  | .ok (a, n) =>
    match ahead n (f a) w with
    | .error e => .error e
    | .ok (b, m) => .ok (b, n + m)

instance : Monad (Reader ε) where
  pure := Reader.pure
  bind := Reader.bind

@[simp] theorem pure_apply (a : α) (w : Window) :
    (pure a : Reader ε α) w = .ok (a, 0) := rfl

theorem ahead_of_le {n : Nat} {w : Window} (h : n ≤ w.size) (p : Reader ε α) :
    ahead n p w = p (w.drop n) := if_pos h

theorem bind_apply (p : Reader ε α) (f : α → Reader ε β) (w : Window) :
    (p >>= f) w =
      match p w with
      | .error e => .error e
      | .ok (a, n) =>
        match ahead n (f a) w with
        | .error e => .error e
        | .ok (b, m) => .ok (b, n + m) := rfl

/-- Breaks a rule of the format. -/
def fail (e : ε) : Reader ε α := fun _ ↦ .error (.invalid e)

/-! ## Single reads -/

/-- Insists on `n` bytes without taking them up. -/
def require (n : Nat) : Reader ε Unit := fun w ↦
  if n ≤ w.size then .ok ((), 0) else .error (.truncated ⟨n, w.size⟩)

/-- The next `n` bytes. -/
def take (n : Nat) : Reader ε (List UInt8) := fun w ↦
  if n ≤ w.size then .ok (w.take n, n) else .error (.truncated ⟨n, w.size⟩)

/-- Passes over `n` bytes. -/
def skip (n : Nat) : Reader ε Unit := fun w ↦
  if n ≤ w.size then .ok ((), n) else .error (.truncated ⟨n, w.size⟩)

/-- An unsigned number of `width` bytes. -/
def unsigned (width : Nat) : Reader ε Nat := do
  let bytes ← take width
  pure (Word.value bytes)

/-- A number of `width` bytes in two's complement. -/
def signed (width : Nat) : Reader ε Int := do
  let n ← unsigned width
  pure (Word.signed width n)

def u1 : Reader ε Nat := unsigned 1
def u2 : Reader ε Nat := unsigned 2
def u4 : Reader ε Nat := unsigned 4
def s1 : Reader ε Int := signed 1
def s2 : Reader ε Int := signed 2
def s4 : Reader ε Int := signed 4
def s8 : Reader ε Int := signed 8

/-- The bits of a 32-bit floating-point number. -/
def float : Reader ε UInt32 := do
  let n ← u4
  pure n.toUInt32

/-- The bits of a 64-bit floating-point number. -/
def double : Reader ε UInt64 := do
  let n ← unsigned 8
  pure n.toUInt64

/-- A length, read by `count`, and that many bytes. -/
def bytes (count : Reader ε Nat) : Reader ε (List UInt8) := do
  let n ← count
  take n

/-! ## Sequences -/

/-- The loop of `times`: `read` holds the values so far, the last one first, and `length` the bytes
that they took up.  Every value is read from `length` bytes further on in the window that the loop
has started with. -/
def timesFrom (p : Reader ε α) : Nat → List α → Nat → Reader ε (List α)
  | 0, read, length => fun _ ↦ .ok (read.reverse, length)
  | n + 1, read, length => fun w ↦
    match ahead length p w with
    | .error e => .error e
    | .ok (a, m) => timesFrom p n (a :: read) (length + m) w

/-- Reads with `p` as often as `n` says, one after another. -/
def times (n : Nat) (p : Reader ε α) : Reader ε (List α) := timesFrom p n [] 0

/-- A two-byte count and that many values. -/
def repeated (p : Reader ε α) : Reader ε (List α) := do
  let n ← u2
  times n p

/-- The loop of `each`. -/
def eachFrom : List (Reader ε α) → List α → Nat → Reader ε (List α)
  | [], read, length => fun _ ↦ .ok (read.reverse, length)
  | p :: ps, read, length => fun w ↦
    match ahead length p w with
    | .error e => .error e
    | .ok (a, m) => eachFrom ps (a :: read) (length + m) w

/-- One value from every reader of a list, in the order of the list. -/
def each (ps : List (Reader ε α)) : Reader ε (List α) := eachFrom ps [] 0

/-! ## Records -/

/-- Gives a field of a record its value: in place of the value that it has, or as the last field. -/
def assign (name : String) (value : α) : List (String × α) → List (String × α)
  | [] => [(name, value)]
  | (name', value') :: fields =>
    if name' = name then (name, value) :: fields else (name', value') :: assign name value fields

/-- The loop of `record`: `read` holds the fields so far and `length` the bytes that they took up. -/
def recordFrom : List (String × Reader ε α) → List (String × α) → Nat →
    Reader ε (List (String × α))
  | [], read, length => fun _ ↦ .ok (read, length)
  | (name, p) :: fields, read, length => fun w ↦
    match ahead length p w with
    | .error e => .error e
    | .ok (a, m) => recordFrom fields (assign name a read) (length + m) w

/-- A record, whose fields are read in the order in which they are listed. -/
def record (fields : List (String × Reader ε α)) : Reader ε (List (String × α)) :=
  recordFrom fields [] 0

end Reader

end Bytecode
