import Bytecode.Text

/-!
# Modified UTF-8

Class files write each code unit on its own: one byte for U+0001 to U+007F, two for U+0000 and
U+0080 to U+07FF, three for the rest, so that a surrogate pair takes six bytes.  Reading never
fails.  A byte that does not start a complete sequence becomes one replacement character, and
reading goes on with the byte after it.  The code units are then put together as text in chunks of a
fixed length.
-/

namespace Bytecode.ModifiedUtf8

/-- Stands for a byte that starts no complete sequence. -/
def replacement : UInt16 := 0xFFFD

/-- A byte that continues a sequence. -/
def isContinuation (b : UInt8) : Bool := b &&& 0xC0 == 0x80

/-- A byte that is a code unit by itself. -/
def isSingle (b : UInt8) : Bool := 0 < b && b < 0x80

/-- The first byte of a sequence of two. -/
def leadsTwo (b : UInt8) : Bool := b &&& 0xE0 == 0xC0

/-- The first byte of a sequence of three. -/
def leadsThree (b : UInt8) : Bool := b &&& 0xF0 == 0xE0

/-- The code unit of a two-byte sequence. -/
def unitOfTwo (a b : UInt8) : UInt16 :=
  (a &&& 0x1F).toUInt16 <<< 6 ||| (b &&& 0x3F).toUInt16

/-- The code unit of a three-byte sequence. -/
def unitOfThree (a b c : UInt8) : UInt16 :=
  (a &&& 0x0F).toUInt16 <<< 12 ||| (b &&& 0x3F).toUInt16 <<< 6 ||| (c &&& 0x3F).toUInt16

/-- The first code unit of a byte sequence that is not empty, and the number of bytes it takes
beyond the first. -/
def first (a : UInt8) (rest : List UInt8) : UInt16 × Nat :=
  if isSingle a then (a.toUInt16, 0)
  else if leadsTwo a then
    match rest with
    | b :: _ => if isContinuation b then (unitOfTwo a b, 1) else (replacement, 0)
    | [] => (replacement, 0)
  else if leadsThree a then
    match rest with
    | b :: c :: _ =>
      if isContinuation b && isContinuation c then (unitOfThree a b c, 2) else (replacement, 0)
    | _ => (replacement, 0)
  else (replacement, 0)

/-- The code units of a byte sequence, in order. -/
def units : List UInt8 → List UInt16
  | [] => []
  | a :: rest =>
    let (u, more) := first a rest
    u :: units (rest.drop more)
termination_by bytes => bytes.length
decreasing_by simp only [List.length_drop, List.length_cons]; omega

@[simp] theorem units_nil : units [] = [] := by rw [units]

theorem units_cons (a : UInt8) (rest : List UInt8) :
    units (a :: rest) = (first a rest).1 :: units (rest.drop (first a rest).2) := by rw [units]

/-! ## Putting the text together -/

/-- The number of code units that are added to a text at a time. -/
def chunkLength : Nat := 0x1000

/-- Adds the code units from index `i` on to a text, one chunk after the other. -/
def joinFrom (us : List UInt16) (i : Nat) (text : Text) : Text :=
  if i < us.length then joinFrom us (i + chunkLength) (text ++ us.extract i (i + chunkLength))
  else text
termination_by us.length - i
decreasing_by simp only [chunkLength]; omega

/-- The text that a byte sequence stands for. -/
def decode (bytes : List UInt8) : Text := joinFrom (units bytes) 0 []

end Bytecode.ModifiedUtf8
