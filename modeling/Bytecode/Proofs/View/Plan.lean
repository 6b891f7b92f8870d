import Bytecode.Proofs.Reader.Incremental
import Bytecode.Proofs.View.Access

/-!
# Reading through views

A `Plan` says how a reader is put together from single reads, sequences and loops.  It can be carried
out on a view that nobody has checked: what follows a part is then a new view, cut from the old one by
the number of bytes that the part has reported, and the bytes of an array are a view of the length
that was read before.  `Plan.agrees` shows that on the bytes of a window this never goes out of range,
touches nothing outside the window, and ends as the reader does.
-/

namespace Bytecode.Reader

open Traced

variable {ε : Type}

/-- How a reader is put together. -/
inductive Plan : {α : Type} → Reader ε α → Type 1 where
  | pure {α : Type} (a : α) : Plan (Pure.pure a)
  | fail {α : Type} (e : ε) : Plan (fail e : Reader ε α)
  /-- Insists on `needed` bytes and takes up some of them, without a look at them.  The bytes are
  counted from `back` bytes further in front. -/
  | guard {p : Reader ε Unit} (needed taken back : Nat)
    (hp : ∀ w : Window, p w =
      if needed ≤ w.size then .ok ((), taken)
      else .error (.truncated ⟨back + needed, back + w.size⟩))
    (htaken : taken ≤ needed) : Plan p
  /-- Reads a value of a fixed width. -/
  | word {α : Type} {p : Reader ε α} (width : Nat) (value : List UInt8 → α)
    (hp : ∀ w : Window, p w =
      if width ≤ w.size then .ok (value (w.take width), width)
      else .error (.truncated ⟨width, w.size⟩)) : Plan p
  /-- Hands on a view of the next `n` bytes. -/
  | take (n : Nat) : Plan (take n)
  | bind {α β : Type} {p : Reader ε α} {f : α → Reader ε β} (first : Plan p)
    (next : ∀ a, Plan (f a)) : Plan (p >>= f)
  | times {α : Type} {p : Reader ε α} (n : Nat) (each : Plan p) : Plan (times n p)
  | ofEq {α : Type} {p q : Reader ε α} (h : p = q) (plan : Plan p) : Plan q

namespace Plan

variable {α β : Type} {p : Reader ε α} {f : α → Reader ε β}

/-- The loop of `times`: every value is read through a view that is cut from the first one. -/
def timesFrom (run : View → Traced ε (α × Nat)) (v : View) :
    Nat → List α → Nat → Traced ε (List α × Nat)
  | 0, read, length => Pure.pure (read.reverse, length)
  | n + 1, read, length => do
    let rest ← v.slice length
    let r ← run rest
    timesFrom run v n (r.1 :: read) (length + r.2)

/-- Carries out a plan on a view. -/
def exec : {α : Type} → {p : Reader ε α} → Plan p → View → Traced ε (α × Nat)
  | _, _, .pure a, _ => Pure.pure (a, 0)
  | _, _, .fail e, _ => stop (.invalid e)
  | _, _, .guard needed taken back _ _, v => do
    (v.back back).require (back + needed)
    Pure.pure ((), taken)
  | _, _, .word width value _, v => do
    v.require width
    let bytes ← v.fetch width
    Pure.pure (value bytes, width)
  | _, _, .take n, v => do
    v.require n
    let bytes ← View.make v.buffer v.start n
    Pure.pure (bytes.content, n)
  | _, _, .bind first next, v => do
    let r ← first.exec v
    let rest ← v.slice r.2
    let s ← (next r.1).exec rest
    Pure.pure (s.1, r.2 + s.2)
  | _, _, .times n each, v => timesFrom each.exec v n [] 0
  | _, _, .ofEq _ plan, v => plan.exec v

/-! ## More input -/

theorem incremental (plan : Plan p) : Incremental p := by
  induction plan with
  | pure a => exact .pure a
  | fail e => exact .fail e
  | guard needed taken back hp htaken =>
    exact .of_guard needed taken back (fun _ ↦ ()) hp htaken fun _ _ ↦ rfl
  | word width value hp =>
    refine .of_guard width width 0 (fun w ↦ value (w.take width)) (fun w ↦ by simpa using hp w)
      (Nat.le_refl _) ?_
    rintro w w' ⟨rest, hrest⟩ hwidth
    rw [Window.take_eq, Window.take_eq, ← hrest,
      List.take_append_of_le_length (by simpa using hwidth)]
  | take n => exact .take n
  | bind _ _ ihfirst ihnext => exact ihfirst.bind ihnext
  | times n _ ih => exact ih.times n
  | ofEq h _ ih => exact h ▸ ih

/-- A reader only depends on the bytes in view. -/
theorem eq_of_toList_eq (plan : Plan p) {w w' : Window} (h : w.toList = w'.toList) :
    p w = p w' := by
  have hprefix : w.toList <+: w'.toList := h ▸ List.prefix_rfl
  have hsize : w'.size = w.size := by
    rw [← Window.length_toList, ← h, Window.length_toList]
  have hinc := plan.incremental
  cases hp : p w with
  | ok r => exact (hinc.ok_extend hprefix hp).symm
  | error fault =>
    cases fault with
    | invalid e => exact (hinc.invalid_extend hprefix hp).symm
    | truncated s =>
      have hshort := hinc.short hp
      have hextend := hinc.truncated_extend hprefix hp (by omega)
      rw [hextend, hsize, Nat.sub_self, Nat.add_zero]

/-! ## Agreement with the reader -/

section Agreement

variable {w : Window} {P : Access → Prop}

theorem agrees_guard {p : Reader ε Unit} {needed taken back : Nat}
    (hp : ∀ w : Window, p w =
      if needed ≤ w.size then .ok ((), taken)
      else .error (.truncated ⟨back + needed, back + w.size⟩))
    (htaken : taken ≤ needed) :
    ((guard needed taken back hp htaken).exec w.view).Agrees (p w) P := by
  have hrequire := w.agrees_require_back (ε := ε) (P := P) needed back
  rw [hp]
  by_cases h : needed ≤ w.size
  · rw [if_pos h] at hrequire ⊢
    exact hrequire.bind_ok (.pure _)
  · rw [if_neg h] at hrequire ⊢
    exact hrequire.bind_error _

theorem agrees_word {width : Nat} {value : List UInt8 → α}
    (hp : ∀ w : Window, p w =
      if width ≤ w.size then .ok (value (w.take width), width)
      else .error (.truncated ⟨width, w.size⟩))
    (hP : width ≤ w.size → P ⟨.read, w.start, width⟩) :
    ((word width value hp).exec w.view).Agrees (p w) P := by
  have hrequire := w.agrees_require (ε := ε) (P := P) width
  rw [hp]
  by_cases h : width ≤ w.size
  · rw [if_pos h] at hrequire ⊢
    exact hrequire.bind_ok ((Window.agrees_fetch h (hP h)).bind_ok (.pure _))
  · rw [if_neg h] at hrequire ⊢
    exact hrequire.bind_error _

theorem agrees_take {n : Nat} (hP : n ≤ w.size → P ⟨.view, w.start, n⟩) :
    ((take n : Plan (Reader.take n : Reader ε _)).exec w.view).Agrees (Reader.take n w) P := by
  have hrequire := w.agrees_require (ε := ε) (P := P) n
  rw [Reader.take]
  by_cases h : n ≤ w.size
  · rw [if_pos h] at hrequire ⊢
    refine hrequire.bind_ok ((Window.agrees_make (Access.inside_front h) (hP h)).bind_ok ?_)
    have hcontent : View.content ⟨w.buffer, w.start, n⟩ = w.take n := by
      have hstop : ((w.start : Int) + n).toNat = w.start + n := by omega
      rw [View.content, Window.take, Nat.min_eq_left h, Int.toNat_natCast, hstop]
    rw [← hcontent]
    exact .pure _
  · rw [if_neg h] at hrequire ⊢
    exact hrequire.bind_error _

/-- What follows the first part is read through a view that starts where the part has ended. -/
theorem agrees_bind {first : Plan p} {next : ∀ a, Plan (f a)}
    (hfirst : (first.exec w.view).Agrees (p w) P)
    (hview : ∀ n : Nat, n ≤ w.size → P ⟨.view, w.start + n, (w.size - n : Nat)⟩)
    (hnext : ∀ a n, p w = .ok (a, n) →
      ((next a).exec (w.drop n).view).Agrees (f a (w.drop n)) P) :
    ((bind first next).exec w.view).Agrees ((p >>= f) w) P := by
  cases hp : p w with
  | error fault =>
    rw [bind_of_error hp]
    exact (hp ▸ hfirst).bind_error _
  | ok r =>
    have hle := first.incremental.bounded hp
    refine (hp ▸ hfirst).bind_ok ((Window.agrees_slice hle (hview r.2 hle)).bind_ok ?_)
    have hrest := hnext r.1 r.2 hp
    rw [bind_of_ok hp hle]
    cases hf : f r.1 (w.drop r.2) with
    | error fault => exact (hf ▸ hrest).bind_error _
    | ok s => exact (hf ▸ hrest).bind_ok (.pure _)

/-- The loop keeps to views that are cut at the length so far. -/
theorem agrees_timesFrom {run : View → Traced ε (α × Nat)}
    (hrun : ∀ u : Window, (run u.view).Agrees (p u) (Access.Inside u)) (hp : Incremental p)
    (n : Nat) (read : List α) {length : Nat} (h : length ≤ w.size) :
    (timesFrom run w.view n read length).Agrees
      (Reader.timesFrom p n read length w) (Access.Inside w) := by
  induction n generalizing read length with
  | zero => exact .pure _
  | succ n ih =>
    refine (Window.agrees_slice h (Access.inside_rest h)).bind_ok ?_
    have hone := (hrun (w.drop length)).mono fun _ ↦ Access.Inside.of_drop
    rw [Reader.timesFrom]
    dsimp only
    rw [ahead_of_le h]
    cases hr : p (w.drop length) with
    | error fault => exact (hr ▸ hone).bind_error _
    | ok r =>
      have hle := hp.bounded hr
      rw [Window.size_drop] at hle
      have hrest := ih (r.1 :: read) (show length + r.2 ≤ w.size by omega)
      exact (hr ▸ hone).bind_ok hrest

end Agreement

/-- Carried out on the bytes of a window, a plan ends as its reader does, and no view or read on the
way goes beyond the window. -/
theorem agrees (plan : Plan p) (w : Window) :
    (plan.exec w.view).Agrees (p w) (Access.Inside w) := by
  induction plan generalizing w with
  | pure a => exact .pure _
  | fail e => exact .stop _
  | guard needed taken back hp htaken => exact agrees_guard hp htaken
  | word width value hp => exact agrees_word hp Access.inside_front
  | take n => exact agrees_take Access.inside_front
  | bind first next ihfirst ihnext =>
    exact agrees_bind (ihfirst w) (fun n hn ↦ Access.inside_rest hn)
      fun a n _ ↦ (ihnext a (w.drop n)).mono fun _ ↦ Access.Inside.of_drop
  | times n each ih =>
    exact agrees_timesFrom ih each.incremental n [] (Nat.zero_le _)
  | ofEq h plan ih => exact h ▸ ih w

/-- What is read from a window depends on the bytes in view only and is the same as from a copy of
them; through views, it is read without leaving the window. -/
structure Confined (plan : Plan p) (w : Window) : Prop where
  copy : p w = p (Window.ofList w.toList)
  result : (plan.exec w.view).result = (p w).mapError .fault
  inside : ∀ a ∈ (plan.exec w.view).accesses, a.Inside w

theorem confined (plan : Plan p) (w : Window) : plan.Confined w where
  copy := plan.eq_of_toList_eq (Window.toList_ofList _).symm
  result := (plan.agrees w).result
  inside := (plan.agrees w).accesses

end Plan

end Bytecode.Reader
