import Bytecode.Reader

/-!
# Views and what they touch

A window carries the proof that its bytes are there, and what is cut from it lies inside it by
construction.  A `View` is the same triple of a buffer, a start and a size, but the two numbers may be
anything: making a view and reading bytes through it can go out of range.  Computations on views are
`Traced`: they keep a record of every stretch of the buffer that they touch.

`Traced.Agrees` compares such a computation with what a reader makes of a window.  It says that the
computation never goes out of range, that it ends in the same way, and where the stretches lie.
-/

namespace Bytecode

/-- A stretch of a buffer, by the numbers that were asked for. -/
structure View where
  buffer : Array UInt8
  start : Int
  size : Int

/-- The bytes of a window, without the proof that they are there. -/
def Window.view (w : Window) : View := ⟨w.buffer, w.start, w.size⟩

/-- What is done with a stretch of a buffer: a view of it is made, or its bytes are read. -/
inductive Touch where
  | view
  | read
deriving DecidableEq, Repr

/-- A stretch of a buffer that is touched, counted from the start of the buffer. -/
structure Access where
  touch : Touch
  start : Int
  size : Int
deriving DecidableEq, Repr

namespace Access

/-- The stretch lies in a window. -/
structure Inside (w : Window) (a : Access) : Prop where
  start_le : w.start ≤ a.start
  size_nonneg : 0 ≤ a.size
  end_le : a.start + a.size ≤ w.start + w.size

/-- No byte at `limit` or behind it is read. -/
def ReadsBefore (limit : Int) (a : Access) : Prop := a.touch = .read → a.start + a.size ≤ limit

section Inside

variable {w : Window} {touch : Touch} {m n : Nat}

theorem inside_of_le (h : m + n ≤ w.size) : Inside w ⟨touch, w.start + m, n⟩ := by
  constructor <;> simp only <;> omega

theorem inside_front (h : n ≤ w.size) : Inside w ⟨touch, w.start, n⟩ := by
  constructor <;> simp only <;> omega

theorem inside_rest (h : n ≤ w.size) : Inside w ⟨touch, w.start + n, (w.size - n : Nat)⟩ :=
  inside_of_le (by omega)

theorem Inside.of_drop {a : Access} (h : a.Inside (w.drop n)) : a.Inside w := by
  obtain ⟨hstart, hsize, hend⟩ := h
  simp only [Window.drop] at hstart hend
  exact ⟨by omega, hsize, by omega⟩

end Inside

theorem readsBefore_view (limit start size : Int) : ReadsBefore limit ⟨.view, start, size⟩ := nofun

end Access

/-- Why a computation on views stops early. -/
inductive View.Stop (ε : Type) where
  /-- A view, or a read, goes beyond what is there. -/
  | outOfRange
  | fault (fault : Fault ε)

/-- A computation on views: the stretches that it touches, and how it ends. -/
structure Traced (ε α : Type) where
  accesses : List Access
  result : Except (View.Stop ε) α

namespace Traced

variable {ε α β : Type}

instance : Monad (Traced ε) where
  pure a := ⟨[], .ok a⟩
  bind x f :=
    match x.result with
    | .error e => ⟨x.accesses, .error e⟩
    | .ok a => ⟨x.accesses ++ (f a).accesses, (f a).result⟩

/-- Ends with a fault. -/
def stop (fault : Fault ε) : Traced ε α := ⟨[], .error (.fault fault)⟩

/-- Hands on a fault as a value.  What goes out of range still stops the computation. -/
def attempt (x : Traced ε α) : Traced ε (Except (Fault ε) α) :=
  ⟨x.accesses,
    match x.result with
    | .ok a => .ok (.ok a)
    | .error (.fault fault) => .ok (.error fault)
    | .error .outOfRange => .error .outOfRange⟩

/-- `x` ends as `r` says, never goes out of range, and touches stretches with the property `P` only. -/
structure Agrees (x : Traced ε α) (r : Except (Fault ε) α) (P : Access → Prop) : Prop where
  result : x.result = r.mapError .fault
  accesses : ∀ a ∈ x.accesses, P a

namespace Agrees

variable {P Q : Access → Prop}

theorem mono {x : Traced ε α} {r : Except (Fault ε) α} (h : x.Agrees r P) (hPQ : ∀ a, P a → Q a) :
    x.Agrees r Q :=
  ⟨h.result, fun a ha ↦ hPQ a (h.accesses a ha)⟩

protected theorem pure (a : α) : (pure a : Traced ε α).Agrees (.ok a) P :=
  ⟨rfl, fun _ h ↦ nomatch h⟩

protected theorem stop (fault : Fault ε) : (stop fault : Traced ε α).Agrees (.error fault) P :=
  ⟨rfl, fun _ h ↦ nomatch h⟩

/-- After a fault nothing more is touched. -/
theorem bind_error {x : Traced ε α} {fault : Fault ε} (hx : x.Agrees (.error fault) P)
    (f : α → Traced ε β) : (x >>= f).Agrees (.error fault) P := by
  have hresult : x.result = .error (.fault fault) := hx.result
  have heq : x >>= f = ⟨x.accesses, .error (.fault fault)⟩ := by simp only [bind, hresult]
  rw [heq]
  exact ⟨rfl, hx.accesses⟩

theorem bind_ok {x : Traced ε α} {a : α} {f : α → Traced ε β} {r : Except (Fault ε) β}
    (hx : x.Agrees (.ok a) P) (hf : (f a).Agrees r P) : (x >>= f).Agrees r P := by
  have hresult : x.result = .ok a := hx.result
  have heq : x >>= f = ⟨x.accesses ++ (f a).accesses, (f a).result⟩ := by
    simp only [bind, hresult]
  rw [heq]
  refine ⟨hf.result, fun b hb ↦ ?_⟩
  rcases List.mem_append.mp hb with hb | hb
  · exact hx.accesses b hb
  · exact hf.accesses b hb

protected theorem attempt {x : Traced ε α} {r : Except (Fault ε) α} (h : x.Agrees r P) :
    x.attempt.Agrees (.ok r) P := by
  refine ⟨?_, h.accesses⟩
  rw [attempt, h.result]
  cases r <;> rfl

end Agrees

end Traced

/-! ## Operations on views -/

namespace View

variable {ε : Type}

/-- Makes a view of `size` bytes from `start` on.  They have to be in the buffer. -/
def make (buffer : Array UInt8) (start size : Int) : Traced ε View where
  accesses := [⟨.view, start, size⟩]
  result :=
    if 0 ≤ start ∧ 0 ≤ size ∧ start + size ≤ buffer.size then .ok ⟨buffer, start, size⟩
    else .error .outOfRange

/-- The bytes in view. -/
def content (v : View) : List UInt8 :=
  (v.buffer.extract v.start.toNat (v.start + v.size).toNat).toList

/-- Reads the first `n` bytes.  They have to be in view. -/
def fetch (v : View) (n : Nat) : Traced ε (List UInt8) where
  accesses := [⟨.read, v.start, n⟩]
  result := if n ≤ v.size then .ok (v.content.take n) else .error .outOfRange

/-- Insists on `n` bytes. -/
def require (v : View) (n : Nat) : Traced ε Unit where
  accesses := []
  result := if n ≤ v.size then .ok () else .error (.fault (.truncated ⟨n, v.size.toNat⟩))

/-- What follows the first `n` bytes. -/
def slice (v : View) (n : Nat) : Traced ε View := do
  v.require n
  make v.buffer (v.start + n) (v.size - n)

/-- The view that starts `n` bytes earlier. -/
def back (v : View) (n : Nat) : View := ⟨v.buffer, v.start - n, v.size + n⟩

end View

namespace Window

variable {ε : Type} {w : Window} {P : Access → Prop}

theorem start_drop {n : Nat} (h : n ≤ w.size) : (w.drop n).start = w.start + n := by
  simp only [drop, Nat.min_eq_left h]

theorem toList_drop_eq_cons {n : Nat} {b : UInt8} (h : w.toList[n]? = some b) :
    (w.drop n).toList = b :: w.toList.drop (n + 1) := by
  obtain ⟨hlt, hget⟩ := List.getElem?_eq_some_iff.mp h
  rw [toList_drop, List.drop_eq_getElem_cons hlt, hget]

theorem agrees_require (w : Window) (n : Nat) :
    (w.view.require n : Traced ε Unit).Agrees
      (if n ≤ w.size then .ok () else .error (.truncated ⟨n, w.size⟩)) P := by
  refine ⟨?_, fun _ h ↦ nomatch h⟩
  by_cases h : n ≤ w.size
  · rw [if_pos h]
    exact if_pos (Int.ofNat_le.mpr h)
  · rw [if_neg h]
    exact if_neg (mt Int.ofNat_le.mp h)

/-- Bytes that are counted from further in front are missing if they are missing here. -/
theorem agrees_require_back (w : Window) (n back : Nat) :
    ((w.view.back back).require (back + n) : Traced ε Unit).Agrees
      (if n ≤ w.size then .ok () else .error (.truncated ⟨back + n, back + w.size⟩)) P := by
  refine ⟨?_, fun _ h ↦ nomatch h⟩
  have hsize : ((w.size : Int) + back).toNat = back + w.size := by omega
  simp only [View.require, View.back, view, hsize]
  by_cases h : n ≤ w.size
  · rw [if_pos h]
    exact if_pos (by omega)
  · rw [if_neg h]
    exact if_neg (by omega)

theorem agrees_fetch {n : Nat} (h : n ≤ w.size) (hP : P ⟨.read, w.start, n⟩) :
    (w.view.fetch n : Traced ε (List UInt8)).Agrees (.ok (w.take n)) P := by
  refine ⟨?_, List.forall_mem_singleton.mpr hP⟩
  rw [take_eq]
  exact if_pos (Int.ofNat_le.mpr h)

/-- Inside a window a view can be made. -/
theorem agrees_make {start size : Int} (h : Access.Inside w ⟨.view, start, size⟩)
    (hP : P ⟨.view, start, size⟩) :
    (View.make w.buffer start size : Traced ε View).Agrees (.ok ⟨w.buffer, start, size⟩) P := by
  obtain ⟨hstart, hsize, hend⟩ := h
  simp only at hstart hsize hend
  have hwithin := w.within
  exact ⟨if_pos (by omega), List.forall_mem_singleton.mpr hP⟩

theorem view_drop {n : Nat} (h : n ≤ w.size) :
    (w.drop n).view = ⟨w.buffer, w.start + n, w.size - n⟩ := by
  rw [view, start_drop h, size_drop, Int.natCast_add, Int.natCast_sub h]
  rfl

theorem agrees_slice {n : Nat} (h : n ≤ w.size)
    (hP : P ⟨.view, w.start + n, (w.size - n : Nat)⟩) :
    (w.view.slice n : Traced ε View).Agrees (.ok (w.drop n).view) P := by
  have hrequire := agrees_require (ε := ε) (P := P) w n
  rw [if_pos h] at hrequire
  refine hrequire.bind_ok ?_
  rw [view_drop h]
  simp only [view, ← Int.natCast_sub h]
  exact agrees_make (Access.inside_rest h) hP

end Window

end Bytecode
