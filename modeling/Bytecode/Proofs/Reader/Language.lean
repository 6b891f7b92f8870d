import Bytecode.Proofs.Reader.Sequencing
import Bytecode.Proofs.Word

/-!
# The language of a reader

A reader is described by the byte strings that it reads and the value that it makes of each of them.
`Reads p L` says that `p` succeeds exactly where a string of the relation `L` stands at the front of
the window, that it takes up that string and nothing else, and that what follows does not matter.
Each combinator has one lemma, so that the language of a composed reader is put together from those
of its parts, in both directions at once.
-/

namespace Bytecode.Reader

variable {ε α β : Type}

/-- `p` reads exactly the strings of `L`, each as the value that `L` relates it to. -/
def Reads (p : Reader ε α) (L : α → List UInt8 → Prop) : Prop :=
  ∀ (w : Window) (a : α) (n : Nat),
    p w = .ok (a, n) ↔ ∃ b rest, w.toList = b ++ rest ∧ b.length = n ∧ L a b

namespace Reads

variable {p : Reader ε α} {L L' : α → List UInt8 → Prop}

theorem congr (hp : Reads p L) (h : ∀ a b, L a b ↔ L' a b) : Reads p L' := by
  intro w a n
  simp only [hp w a n, h]

/-- A string of the language is read wherever it stands. -/
theorem apply (hp : Reads p L) {w : Window} {a : α} {b rest : List UInt8}
    (hw : w.toList = b ++ rest) (h : L a b) : p w = .ok (a, b.length) :=
  (hp w a b.length).mpr ⟨b, rest, hw, rfl, h⟩

/-- What is read is a string of the language. -/
theorem of_apply (hp : Reads p L) {w : Window} {a : α} {n : Nat} (h : p w = .ok (a, n)) :
    ∃ b rest, w.toList = b ++ rest ∧ b.length = n ∧ L a b :=
  (hp w a n).mp h

/-- A string that is read is there. -/
theorem bounded (hp : Reads p L) : Bounded p := by
  intro w a n h
  obtain ⟨b, rest, hw, rfl, -⟩ := hp.of_apply h
  rw [← Window.length_toList, hw, List.length_append]
  exact Nat.le_add_right _ _

protected theorem pure (a : α) : Reads (pure a : Reader ε α) fun a' b ↦ a' = a ∧ b = [] := by
  intro w a' n
  simp only [pure_apply, Except.ok.injEq, Prod.mk.injEq]
  constructor
  · rintro ⟨rfl, rfl⟩
    exact ⟨[], w.toList, rfl, rfl, rfl, rfl⟩
  · rintro ⟨b, rest, -, rfl, rfl, rfl⟩
    exact ⟨rfl, rfl⟩

protected theorem fail (e : ε) : Reads (fail e : Reader ε α) fun _ _ ↦ False := by
  intro w a n
  simp [Reader.fail]

protected theorem bind {f : α → Reader ε β} {M : α → β → List UInt8 → Prop} (hp : Reads p L)
    (hf : ∀ a, Reads (f a) (M a)) :
    Reads (p >>= f) fun c b ↦ ∃ a b₁ b₂, b = b₁ ++ b₂ ∧ L a b₁ ∧ M a c b₂ := by
  intro w c k
  rw [bind_eq_ok]
  constructor
  · rintro ⟨a, n, m, ha, -, hc, rfl⟩
    obtain ⟨b₁, rest₁, hw₁, rfl, h₁⟩ := hp.of_apply ha
    obtain ⟨b₂, rest₂, hw₂, rfl, h₂⟩ := (hf a).of_apply hc
    have hrest : rest₁ = b₂ ++ rest₂ := by simpa [hw₁] using hw₂
    exact ⟨b₁ ++ b₂, rest₂, by simp [hw₁, hrest], by simp, a, b₁, b₂, rfl, h₁, h₂⟩
  · rintro ⟨_, rest, hw, rfl, a, b₁, b₂, rfl, h₁, h₂⟩
    have ha : p w = .ok (a, b₁.length) := hp.apply (by simpa using hw) h₁
    have hc : f a (w.drop b₁.length) = .ok (c, b₂.length) :=
      (hf a).apply (show _ = b₂ ++ rest by simp [hw]) h₂
    exact ⟨a, b₁.length, b₂.length, ha, hp.bounded ha, hc, by simp⟩

protected theorem map (hp : Reads p L) (f : α → β) :
    Reads (p >>= fun a ↦ pure (f a)) fun c b ↦ ∃ a, L a b ∧ c = f a := by
  refine (hp.bind fun a ↦ Reads.pure (f a)).congr fun c b ↦ ?_
  constructor
  · rintro ⟨a, b₁, b₂, rfl, h, rfl, rfl⟩
    exact ⟨a, by simpa using h, rfl⟩
  · rintro ⟨a, h, rfl⟩
    exact ⟨a, b, [], by simp, h, rfl, rfl⟩

end Reads

/-! ## Single reads -/

/-- A read that insists on `k` bytes and takes up all of them. -/
theorem reads_of_guard {p : Reader ε α} {k : Nat} {g : List UInt8 → α} {fault : Window → Fault ε}
    (hp : ∀ w, p w = if k ≤ w.size then .ok (g (w.toList.take k), k) else .error (fault w)) :
    Reads p fun a b ↦ b.length = k ∧ g b = a := by
  intro w a n
  rw [hp]
  split
  · next h =>
    simp only [Except.ok.injEq, Prod.mk.injEq]
    constructor
    · rintro ⟨rfl, rfl⟩
      exact ⟨w.toList.take k, w.toList.drop k, by simp, by simp [h], by simp [h], rfl⟩
    · rintro ⟨b, rest, hw, rfl, rfl, rfl⟩
      simp [hw]
  · next h =>
    constructor
    · intro h'
      cases h'
    · rintro ⟨b, rest, hw, rfl, rfl, -⟩
      have hsize : w.size = b.length + rest.length := by rw [← Window.length_toList, hw]; simp
      omega

theorem reads_take (n : Nat) : Reads (take n : Reader ε _) fun a b ↦ b.length = n ∧ b = a :=
  reads_of_guard (g := id) fun w ↦ by rw [take, Window.take_eq]; rfl

theorem reads_skip (n : Nat) : Reads (skip n : Reader ε Unit) fun _ b ↦ b.length = n :=
  (reads_of_guard (g := fun _ ↦ ()) fun w ↦ by rw [skip]).congr fun _ _ ↦ by simp

theorem require_eq_ok {n m : Nat} {w : Window} :
    (require n : Reader ε Unit) w = .ok ((), m) ↔ n ≤ w.size ∧ m = 0 := by
  simp only [require]
  split
  · next h => simp [h, eq_comm]
  · next h => simp [h]

theorem reads_unsigned (width : Nat) :
    Reads (unsigned width : Reader ε Nat) fun n b ↦ b.length = width ∧ Word.value b = n := by
  refine ((reads_take width).map Word.value).congr fun n b ↦ ?_
  constructor
  · rintro ⟨a, ⟨h, rfl⟩, rfl⟩
    exact ⟨h, rfl⟩
  · rintro ⟨h, rfl⟩
    exact ⟨b, ⟨h, rfl⟩, rfl⟩

theorem reads_signed (width : Nat) :
    Reads (signed width : Reader ε Int) fun i b ↦
      b.length = width ∧ Word.signed width (Word.value b) = i := by
  refine ((reads_unsigned width).map (Word.signed width)).congr fun i b ↦ ?_
  constructor
  · rintro ⟨n, ⟨h, rfl⟩, rfl⟩
    exact ⟨h, rfl⟩
  · rintro ⟨h, rfl⟩
    exact ⟨_, ⟨h, rfl⟩, rfl⟩

/-! ## Sequences -/

/-- The strings of several values one after another. -/
inductive Sequence (L : α → List UInt8 → Prop) : List α → List UInt8 → Prop where
  | nil : Sequence L [] []
  | cons {a as b bs} (head : L a b) (tail : Sequence L as bs) : Sequence L (a :: as) (b ++ bs)

theorem reads_times {p : Reader ε α} {L : α → List UInt8 → Prop} (hp : Reads p L) (n : Nat) :
    Reads (times n p) fun as b ↦ as.length = n ∧ Sequence L as b := by
  induction n with
  | zero =>
    refine (Reads.pure []).congr fun as b ↦ ?_
    constructor
    · rintro ⟨rfl, rfl⟩
      exact ⟨rfl, .nil⟩
    · rintro ⟨h, hs⟩
      cases hs with
      | nil => exact ⟨rfl, rfl⟩
      | cons => simp at h
  | succ n ih =>
    rw [times_succ hp.bounded]
    refine (hp.bind fun a ↦ ih.map (a :: ·)).congr fun as b ↦ ?_
    constructor
    · rintro ⟨a, b₁, b₂, rfl, h, as, ⟨rfl, hs⟩, rfl⟩
      exact ⟨rfl, .cons h hs⟩
    · rintro ⟨h, hs⟩
      cases hs with
      | nil => simp at h
      | cons head tail => exact ⟨_, _, _, rfl, head, _, ⟨by simpa using h, tail⟩, rfl⟩

end Bytecode.Reader
