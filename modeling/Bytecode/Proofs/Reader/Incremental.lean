import Bytecode.Proofs.Reader.Language

/-!
# Readers and more input

What a reader made of the bytes that are there does not change when more bytes arrive: a value and a
broken rule stand, and a shortfall stands until as many bytes have arrived as were missing.  The law
is closed under the combinators, so that it holds of every reader that is put together from reads of
a fixed number of bytes.
-/

namespace Bytecode.Reader

variable {ε α β : Type}

/-- How the outcome of `p` depends on the bytes that are there. -/
structure Incremental (p : Reader ε α) : Prop where
  bounded : Bounded p
  ok_extend {w w' : Window} {a : α} {n : Nat} :
    w.toList <+: w'.toList → p w = .ok (a, n) → p w' = .ok (a, n)
  invalid_extend {w w' : Window} {e : ε} :
    w.toList <+: w'.toList → p w = .error (.invalid e) → p w' = .error (.invalid e)
  /-- Where a read failed, bytes were missing. -/
  short {w : Window} {s : Shortfall} : p w = .error (.truncated s) → s.available < s.needed
  truncated_extend {w w' : Window} {s : Shortfall} :
    w.toList <+: w'.toList → p w = .error (.truncated s) →
      s.available + (w'.size - w.size) < s.needed →
        p w' = .error (.truncated ⟨s.needed, s.available + (w'.size - w.size)⟩)

theorem size_le_of_prefix {w w' : Window} (h : w.toList <+: w'.toList) : w.size ≤ w'.size := by
  simpa using h.length_le

theorem drop_prefix_drop {w w' : Window} (h : w.toList <+: w'.toList) (n : Nat) :
    (w.drop n).toList <+: (w'.drop n).toList := by
  obtain ⟨rest, hrest⟩ := h
  simp only [Window.toList_drop, ← hrest, List.drop_append]
  exact List.prefix_append _ _

namespace Incremental

/-- A single read: `k` bytes have to be there, of which `m` are taken up.  `start` is where the
shortfall counts from. -/
theorem of_guard {p : Reader ε α} (k m start : Nat) (g : Window → α)
    (hp : ∀ w : Window, p w =
      if k ≤ w.size then .ok (g w, m) else .error (.truncated ⟨start + k, start + w.size⟩))
    (hm : m ≤ k)
    (hg : ∀ {w w' : Window}, w.toList <+: w'.toList → k ≤ w.size → g w' = g w) :
    Incremental p where
  bounded w a n h := by
    rw [hp] at h
    split at h
    · cases h
      omega
    · cases h
  ok_extend {w w' a n} hw h := by
    have hsize := size_le_of_prefix hw
    rw [hp] at h ⊢
    split at h
    · next hk =>
      cases h
      rw [if_pos (by omega), hg hw hk]
    · cases h
  invalid_extend {w w' e} _ h := by
    rw [hp] at h
    split at h <;> cases h
  short {w s} h := by
    rw [hp] at h
    split at h
    · cases h
    · cases h
      dsimp only
      omega
  truncated_extend {w w' s} hw h hs := by
    have hsize := size_le_of_prefix hw
    rw [hp] at h ⊢
    split at h
    · cases h
    · cases h
      dsimp only at hs ⊢
      rw [if_neg (by omega), show start + w.size + (w'.size - w.size) = start + w'.size by omega]

protected theorem pure (a : α) : Incremental (pure a : Reader ε α) where
  bounded := .pure a
  ok_extend _ h := by cases h; rfl
  invalid_extend _ h := by cases h
  short h := by cases h
  truncated_extend _ h := by cases h

protected theorem bind {p : Reader ε α} {f : α → Reader ε β} (hp : Incremental p)
    (hf : ∀ a, Incremental (f a)) : Incremental (p >>= f) where
  bounded := .bind fun a ↦ (hf a).bounded
  ok_extend {w w' c k} hw h := by
    obtain ⟨a, n, m, ha, -, hc, rfl⟩ := bind_eq_ok.mp h
    exact hp.bounded.bind_ok (hp.ok_extend hw ha) ((hf a).ok_extend (drop_prefix_drop hw n) hc) rfl
  invalid_extend {w w' e} hw h := by
    rw [hp.bounded.bind_eq_error] at h ⊢
    rcases h with ha | ⟨a, n, ha, hc⟩
    · exact .inl (hp.invalid_extend hw ha)
    · exact .inr ⟨a, n, hp.ok_extend hw ha, (hf a).invalid_extend (drop_prefix_drop hw n) hc⟩
  short {w s} h := by
    rcases hp.bounded.bind_eq_error.mp h with ha | ⟨a, n, -, hc⟩
    · exact hp.short ha
    · exact (hf a).short hc
  truncated_extend {w w' s} hw h hs := by
    rw [hp.bounded.bind_eq_error] at h ⊢
    rcases h with ha | ⟨a, n, ha, hc⟩
    · exact .inl (hp.truncated_extend hw ha hs)
    · -- The bytes that arrive are the same behind what the first reader has taken up.
      have hn := hp.bounded ha
      have hsize := size_le_of_prefix hw
      have hdrop : (w'.drop n).size - (w.drop n).size = w'.size - w.size := by
        simp only [Window.size_drop]
        omega
      have hextend := (hf a).truncated_extend (drop_prefix_drop hw n) hc (by rwa [hdrop])
      rw [hdrop] at hextend
      exact .inr ⟨a, n, hp.ok_extend hw ha, hextend⟩

protected theorem take (n : Nat) : Incremental (take n : Reader ε _) := by
  refine of_guard n n 0 (fun w ↦ w.take n) (fun w ↦ by simp only [Reader.take, Nat.zero_add])
    (Nat.le_refl n) ?_
  rintro w w' ⟨rest, hrest⟩ hn
  rw [Window.take_eq, Window.take_eq, ← hrest, List.take_append_of_le_length (by simpa using hn)]

protected theorem skip (n : Nat) : Incremental (skip n : Reader ε Unit) :=
  of_guard n n 0 (fun _ ↦ ()) (fun w ↦ by simp only [Reader.skip, Nat.zero_add]) (Nat.le_refl n)
    fun _ _ ↦ rfl

protected theorem require (n : Nat) : Incremental (require n : Reader ε Unit) :=
  of_guard n 0 0 (fun _ ↦ ()) (fun w ↦ by simp only [Reader.require, Nat.zero_add]) (Nat.zero_le n)
    fun _ _ ↦ rfl

protected theorem unsigned (width : Nat) : Incremental (unsigned width : Reader ε Nat) :=
  (Incremental.take width).bind fun _ ↦ .pure _

protected theorem signed (width : Nat) : Incremental (signed width : Reader ε Int) :=
  (Incremental.unsigned width).bind fun _ ↦ .pure _

protected theorem float : Incremental (float : Reader ε UInt32) :=
  (Incremental.unsigned 4).bind fun _ ↦ .pure _

protected theorem double : Incremental (double : Reader ε UInt64) :=
  (Incremental.unsigned 8).bind fun _ ↦ .pure _

protected theorem fail (e : ε) : Incremental (fail e : Reader ε α) where
  bounded _ _ _ h := by cases h
  ok_extend _ h := by cases h
  invalid_extend _ h := by cases h; rfl
  short h := by cases h
  truncated_extend _ h := by cases h

protected theorem bytes {count : Reader ε Nat} (hc : Incremental count) :
    Incremental (bytes count) :=
  hc.bind fun n ↦ .take n

protected theorem chain {ps : List (Reader ε α)} (hp : ∀ p ∈ ps, Incremental p)
    (finish : List α → β) : Incremental (chain ps finish) := by
  induction ps generalizing finish with
  | nil => exact .pure _
  | cons p ps ih =>
    rw [List.forall_mem_cons] at hp
    exact hp.1.bind fun _ ↦ ih hp.2 _

protected theorem each {ps : List (Reader ε α)} (hp : ∀ p ∈ ps, Incremental p) :
    Incremental (each ps) := by
  rw [each_eq_chain fun p h ↦ (hp p h).bounded]
  exact .chain hp id

protected theorem record {fields : List (String × Reader ε α)}
    (hp : ∀ field ∈ fields, Incremental field.2) : Incremental (record fields) := by
  rw [record_eq_chain_assign fun field h ↦ (hp field h).bounded]
  refine .chain (fun p hmem ↦ ?_) _
  obtain ⟨field, hfield, rfl⟩ := List.mem_map.mp hmem
  exact hp field hfield

protected theorem times {p : Reader ε α} (hp : Incremental p) (n : Nat) :
    Incremental (times n p) := by
  rw [times_eq_each]
  refine .each fun q hq ↦ ?_
  rw [List.eq_of_mem_replicate hq]
  exact hp

protected theorem repeated {p : Reader ε α} (hp : Incremental p) : Incremental (repeated p) :=
  (Incremental.unsigned 2).bind fun n ↦ hp.times n

/-- Of the front of a window a reader makes what it makes of the window, unless bytes are missing.
-/
theorem eq_or_exists_truncated {p : Reader ε α} (hp : Incremental p) {w w' : Window}
    (hw : w'.toList <+: w.toList) : p w' = p w ∨ ∃ s, p w' = .error (.truncated s) := by
  cases h : p w' with
  | ok r => exact .inl (hp.ok_extend hw h).symm
  | error fault =>
    cases fault with
    | truncated s => exact .inr ⟨s, rfl⟩
    | invalid e => exact .inl (hp.invalid_extend hw h).symm

/-- Where less is there than was taken up, bytes are missing and no rule is broken. -/
theorem exists_truncated {p : Reader ε α} (hp : Incremental p) {w w' : Window} {a : α} {n : Nat}
    (h : p w = .ok (a, n)) (hw : w'.toList <+: w.toList) (hn : w'.size < n) :
    ∃ s, p w' = .error (.truncated s) := by
  refine (hp.eq_or_exists_truncated hw).resolve_left fun heq ↦ ?_
  exact absurd (hp.bounded (heq.trans h)) (Nat.not_le.mpr hn)

end Incremental

end Bytecode.Reader
