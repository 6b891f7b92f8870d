/-!
# Windows onto bytes

A window is a stretch of a shared buffer.  Readers move through a window without copying the buffer,
and the bounds that the window carries keep every read inside it.  `Window.toList` is the view that
statements about windows go through.
-/

namespace Bytecode

/-- `size` bytes of `buffer` from `start` on. -/
structure Window where
  buffer : Array UInt8
  start : Nat
  size : Nat
  within : start + size ≤ buffer.size

namespace Window

/-- All bytes of a buffer. -/
def ofArray (bytes : Array UInt8) : Window := ⟨bytes, 0, bytes.size, by omega⟩

/-- A buffer that holds just these bytes. -/
def ofList (bytes : List UInt8) : Window := ofArray bytes.toArray

/-- The stretch of `buffer` that starts at `start` and has `size` bytes, if it lies inside. -/
def sub? (buffer : Array UInt8) (start size : Nat) : Option Window :=
  if h : start + size ≤ buffer.size then some ⟨buffer, start, size, h⟩ else none

/-- The bytes in view. -/
def toList (w : Window) : List UInt8 := (w.buffer.extract w.start (w.start + w.size)).toList

/-- The first `n` bytes in view, or all of them if there are fewer. -/
def take (w : Window) (n : Nat) : List UInt8 :=
  (w.buffer.extract w.start (w.start + min n w.size)).toList

/-- What follows the first `n` bytes; empty if there are fewer. -/
def drop (w : Window) (n : Nat) : Window :=
  ⟨w.buffer, w.start + min n w.size, w.size - n, by have := w.within; omega⟩

/-- The first byte and what follows it. -/
def next? (w : Window) : Option (UInt8 × Window) :=
  if h : 0 < w.size then
    have : w.start < w.buffer.size := by have := w.within; omega
    some (w.buffer[w.start], w.drop 1)
  else none

/-! ## The view -/

theorem toList_eq (w : Window) : w.toList = (w.buffer.toList.drop w.start).take w.size := by
  simp [toList, Array.toList_extract, List.extract_eq_take_drop]

@[simp] theorem length_toList (w : Window) : w.toList.length = w.size := by
  have := w.within
  simp [toList_eq]
  omega

@[simp] theorem size_ofArray (bytes : Array UInt8) : (ofArray bytes).size = bytes.size := rfl

@[simp] theorem toList_ofArray (bytes : Array UInt8) : (ofArray bytes).toList = bytes.toList := by
  simp [toList_eq, ofArray, List.take_of_length_le]

@[simp] theorem size_ofList (bytes : List UInt8) : (ofList bytes).size = bytes.length := by
  simp [ofList]

@[simp] theorem toList_ofList (bytes : List UInt8) : (ofList bytes).toList = bytes := by
  simp [ofList]

@[simp] theorem take_eq (w : Window) (n : Nat) : w.take n = w.toList.take n := by
  simp [take, toList_eq, Array.toList_extract, List.extract_eq_take_drop, List.take_take]

@[simp] theorem size_drop (w : Window) (n : Nat) : (w.drop n).size = w.size - n := rfl

@[simp] theorem toList_drop (w : Window) (n : Nat) : (w.drop n).toList = w.toList.drop n := by
  rcases Nat.le_total n w.size with h | h
  · simp [toList_eq, drop, Nat.min_eq_left h, List.drop_take, List.drop_drop]
  · rw [List.drop_eq_nil_of_le (by simpa using h)]
    simp [toList_eq, drop, Nat.sub_eq_zero_of_le h]

@[simp] theorem drop_zero (w : Window) : w.drop 0 = w := by
  simp [drop]

theorem drop_drop (w : Window) (m n : Nat) : (w.drop m).drop n = w.drop (m + n) := by
  simp only [drop, mk.injEq, true_and]
  omega

theorem size_lt_of_next? {w rest : Window} {b : UInt8} (h : w.next? = some (b, rest)) :
    rest.size < w.size := by
  rw [next?] at h
  split at h
  · next hw =>
    simp only [Option.some.injEq, Prod.mk.injEq] at h
    rw [← h.2, size_drop]
    omega
  · simp at h

theorem next?_eq (w : Window) :
    w.next? = match w.toList with
      | [] => none
      | b :: _ => some (b, w.drop 1) := by
  have hw := w.within
  rw [next?]
  split
  · next h =>
    have hs : w.start < w.buffer.toList.length := by simp; omega
    obtain ⟨n, hn⟩ : ∃ n, w.size = n + 1 := ⟨w.size - 1, by omega⟩
    rw [toList_eq, List.drop_eq_getElem_cons hs, hn, List.take_succ_cons]
    simp
  · next h =>
    have : w.toList = [] := List.eq_nil_of_length_eq_zero (by simp; omega)
    simp [this]

end Window

end Bytecode
