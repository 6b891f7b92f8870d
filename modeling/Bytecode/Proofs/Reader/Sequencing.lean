import Bytecode.Reader
import Mathlib.Data.List.Nodup

/-!
# Loops and chains of readers

A loop cuts what each of its steps reads from the window that it has started with, at the length so
far, while `bind` cuts what follows from what the reader in front of it was given.  For readers that
report no more bytes than there are the two ways agree: `times`, `each` and `record` are chains of
`bind` that end with `pure`, and `bind` and `pure` obey the laws of a monad, shortfalls included.
-/

namespace Bytecode.Reader

variable {ε α β γ : Type}

/-! ## One reader after another -/

section Bind

variable {p : Reader ε α} {f : α → Reader ε β} {w : Window}

theorem bind_of_error {fault : Fault ε} (hp : p w = .error fault) : (p >>= f) w = .error fault := by
  rw [bind_apply, hp]

theorem bind_of_ok {a : α} {n : Nat} (hp : p w = .ok (a, n)) (hn : n ≤ w.size) :
    (p >>= f) w = (f a (w.drop n)).map fun r ↦ (r.1, n + r.2) := by
  rw [bind_apply, hp]
  dsimp only
  rw [ahead_of_le hn]
  cases f a (w.drop n) <;> rfl

/-- A reader that reports more bytes than there are has nothing behind it. -/
theorem bind_of_lt {a : α} {n : Nat} (hp : p w = .ok (a, n)) (hn : w.size < n) :
    (p >>= f) w = .error (.truncated ⟨n, w.size⟩) := by
  rw [bind_apply, hp]
  dsimp only
  rw [ahead, if_neg (Nat.not_le.mpr hn)]

theorem bind_eq_ok {c : β} {k : Nat} :
    (p >>= f) w = .ok (c, k) ↔
      ∃ a n m, p w = .ok (a, n) ∧ n ≤ w.size ∧ f a (w.drop n) = .ok (c, m) ∧ n + m = k := by
  constructor
  · intro h
    cases hp : p w with
    | error e => cases (bind_of_error hp).symm.trans h
    | ok r =>
      rcases Nat.lt_or_ge w.size r.2 with hn | hn
      · cases (bind_of_lt hp hn).symm.trans h
      · rw [bind_of_ok hp hn] at h
        cases hf : f r.1 (w.drop r.2) with
        | error e => cases hf ▸ h
        | ok s =>
          rw [hf] at h
          cases h
          exact ⟨r.1, r.2, s.2, rfl, hn, hf, rfl⟩
  · rintro ⟨a, n, m, hp, hn, hf, rfl⟩
    rw [bind_of_ok hp hn, hf]
    rfl

/-- A rule is broken by the first reader, or by the second one behind it. -/
theorem bind_eq_invalid {e : ε} :
    (p >>= f) w = .error (.invalid e) ↔
      p w = .error (.invalid e) ∨
        ∃ a n, p w = .ok (a, n) ∧ n ≤ w.size ∧ f a (w.drop n) = .error (.invalid e) := by
  cases hp : p w with
  | error fault => simp [bind_of_error hp]
  | ok r =>
    obtain ⟨a, n⟩ := r
    rcases Nat.lt_or_ge w.size n with hn | hn
    · simp [bind_of_lt hp hn, Nat.not_le.mpr hn]
    · rw [bind_of_ok hp hn]
      cases hf : f a (w.drop n) with
      | error fault => simp [Except.map, hf, hn]
      | ok s => simp [Except.map, hf]

end Bind

/-! ## Bounded readers -/

/-- `p` reports no more bytes than there are. -/
def Bounded (p : Reader ε α) : Prop := ∀ ⦃w a n⦄, p w = .ok (a, n) → n ≤ w.size

namespace Bounded

variable {p : Reader ε α}

protected theorem pure (a : α) : Bounded (pure a : Reader ε α) := by
  intro w a' n h
  cases h
  exact Nat.zero_le _

/-- The second reader is held to what the first one leaves. -/
protected theorem bind {f : α → Reader ε β} (hf : ∀ a, Bounded (f a)) : Bounded (p >>= f) := by
  intro w c k h
  obtain ⟨a, n, m, -, hn, hc, rfl⟩ := bind_eq_ok.mp h
  have hm := hf a hc
  rw [Window.size_drop] at hm
  omega

protected theorem unsigned (width : Nat) : Bounded (unsigned width : Reader ε Nat) :=
  .bind fun _ ↦ .pure _

protected theorem signed (width : Nat) : Bounded (signed width : Reader ε Int) :=
  .bind fun _ ↦ .pure _

theorem bind_ok {f : α → Reader ε β} {w : Window} {a : α} {c : β} {n m k : Nat} (hp : Bounded p)
    (ha : p w = .ok (a, n)) (hc : f a (w.drop n) = .ok (c, m)) (hk : n + m = k) :
    (p >>= f) w = .ok (c, k) :=
  bind_eq_ok.mpr ⟨a, n, m, ha, hp ha, hc, hk⟩

/-- Making something else of the result leaves the length and the failures. -/
theorem bind_pure_apply (hp : Bounded p) (g : α → β) (w : Window) :
    (p >>= fun a ↦ pure (g a)) w = (p w).map fun r ↦ (g r.1, r.2) := by
  cases h : p w with
  | error e => exact bind_of_error h
  | ok r => exact bind_of_ok h (hp h)

/-- Behind a bounded reader, bytes are missing or a rule is broken where the second one says so. -/
theorem bind_eq_error {f : α → Reader ε β} {w : Window} {fault : Fault ε} (hp : Bounded p) :
    (p >>= f) w = .error fault ↔
      p w = .error fault ∨ ∃ a n, p w = .ok (a, n) ∧ f a (w.drop n) = .error fault := by
  cases h : p w with
  | error e => simp [bind_of_error h]
  | ok r =>
    rw [bind_of_ok h (hp h)]
    obtain ⟨a, n⟩ := r
    cases hf : f a (w.drop n) with
    | error e => simp [Except.map, hf]
    | ok s => simp [Except.map, hf]

end Bounded

/-! ## Laws of sequencing -/

section Laws

variable {p : Reader ε α}

/-- Behind no bytes nothing is added to a length. -/
theorem map_zero_add (x : Except (Fault ε) (α × Nat)) : (x.map fun r ↦ (r.1, 0 + r.2)) = x := by
  cases x with
  | error e => rfl
  | ok r => simp only [Except.map, Nat.zero_add]

theorem pure_bind (a : α) (f : α → Reader ε β) : (pure a : Reader ε α) >>= f = f a := by
  funext w
  rw [bind_of_ok (pure_apply a w) (Nat.zero_le _), Window.drop_zero, map_zero_add]

theorem bind_pure (hp : Bounded p) : p >>= pure = p := by
  funext w
  refine (hp.bind_pure_apply id w).trans ?_
  cases p w <;> rfl

/-- Only the reader in the middle can be cut in two different places. -/
theorem bind_assoc (p : Reader ε α) {f : α → Reader ε β} (hf : ∀ a, Bounded (f a))
    (g : β → Reader ε γ) : (p >>= f) >>= g = p >>= fun a ↦ f a >>= g := by
  funext w
  cases ha : p w with
  | error e => rw [bind_of_error ha, bind_of_error (bind_of_error ha)]
  | ok r =>
    rcases Nat.lt_or_ge w.size r.2 with hr | hr
    · rw [bind_of_lt ha hr, bind_of_error (bind_of_lt ha hr)]
    · have hbind := bind_of_ok (f := f) ha hr
      rw [bind_of_ok ha hr]
      cases hb : f r.1 (w.drop r.2) with
      | error e =>
        rw [hb] at hbind
        rw [bind_of_error hbind, bind_of_error hb]
        rfl
      | ok s =>
        -- Both ways the last reader starts behind the bytes of the first two.
        have hs := hf r.1 hb
        rw [hb] at hbind
        rw [bind_of_ok hb hs, Window.drop_drop]
        rw [Window.size_drop] at hs
        rw [bind_of_ok hbind (by omega)]
        cases g s.1 (w.drop (r.2 + s.2)) with
        | error e => rfl
        | ok t => simp only [Except.map, Nat.add_assoc]

end Laws

/-! ## Chains -/

/-- One reader after the other, and `finish` makes the result of what they have read. -/
def chain : List (Reader ε α) → (List α → β) → Reader ε β
  | [], finish => pure (finish [])
  | p :: ps, finish => p >>= fun a ↦ chain ps fun as ↦ finish (a :: as)

example (p q : Reader ε α) : chain [p, q] id = p >>= fun a ↦ q >>= fun b ↦ pure [a, b] := rfl

theorem Bounded.chain (ps : List (Reader ε α)) (finish : List α → β) :
    Bounded (chain ps finish) := by
  induction ps generalizing finish with
  | nil => exact .pure _
  | cons p ps ih => exact .bind fun a ↦ ih _

/-- What is made of the result can be made at the end of the chain. -/
theorem chain_bind_pure (ps : List (Reader ε α)) (finish : List α → β) (g : β → γ) :
    (chain ps finish >>= fun b ↦ pure (g b)) = chain ps fun as ↦ g (finish as) := by
  induction ps generalizing finish with
  | nil => exact pure_bind _ _
  | cons p ps ih =>
    rw [chain, bind_assoc p fun a ↦ .chain ps _]
    simp only [ih]
    rfl

theorem chain_append (ps qs : List (Reader ε α)) (finish : List α → β) :
    chain (ps ++ qs) finish =
      chain ps id >>= fun as ↦ chain qs fun bs ↦ finish (as ++ bs) := by
  induction ps generalizing finish with
  | nil => exact (pure_bind _ _).symm
  | cons p ps ih =>
    have hhead (a : α) : (chain ps fun as ↦ id (a :: as)) =
        chain ps id >>= fun as ↦ pure (a :: as) := (chain_bind_pure ps id (a :: ·)).symm
    rw [List.cons_append, chain, chain, bind_assoc p fun a ↦ .chain ps _]
    simp only [ih, hhead, bind_assoc _ fun as ↦ .pure _, pure_bind, List.cons_append]

/-! ## Loops -/

/-- One step of a loop: what is read `length` bytes further on is the first part of a chain that
starts there, if the rest of the loop is the rest of the chain. -/
theorem loop_step {p : Reader ε α} (hp : Bounded p) {f : α → Reader ε β} {w : Window} {length : Nat}
    {next : α → Nat → Except (Fault ε) (β × Nat)} (hlength : length ≤ w.size)
    (hnext : ∀ a m, length + m ≤ w.size →
      next a m = (f a (w.drop (length + m))).map fun r ↦ (r.1, length + m + r.2)) :
    (match ahead length p w with
      | .error e => .error e
      | .ok (a, m) => next a m) =
      ((p >>= f) (w.drop length)).map fun r ↦ (r.1, length + r.2) := by
  rw [ahead_of_le hlength]
  cases h : p (w.drop length) with
  | error e =>
    rw [bind_of_error h]
    rfl
  | ok r =>
    have hr := hp h
    rw [bind_of_ok h hr, Window.drop_drop]
    rw [Window.size_drop] at hr
    dsimp only
    rw [hnext r.1 r.2 (by omega)]
    cases f r.1 (w.drop (length + r.2)) with
    | error e => rfl
    | ok s => simp only [Except.map, Nat.add_assoc]

theorem eachFrom_eq_chain {ps : List (Reader ε α)} (hps : ∀ p ∈ ps, Bounded p) (read : List α)
    {length : Nat} {w : Window} (hlength : length ≤ w.size) :
    eachFrom ps read length w =
      (chain ps (read.reverse ++ ·) (w.drop length)).map fun r ↦ (r.1, length + r.2) := by
  induction ps generalizing read length with
  | nil => simp [eachFrom, chain, Except.map]
  | cons p ps ih =>
    rw [List.forall_mem_cons] at hps
    refine loop_step hps.1 hlength fun a m hm ↦ ?_
    rw [ih hps.2 (a :: read) hm]
    simp only [List.reverse_cons, List.append_assoc, List.singleton_append]

theorem each_eq_chain {ps : List (Reader ε α)} (hps : ∀ p ∈ ps, Bounded p) :
    each ps = chain ps id := by
  funext w
  rw [each, eachFrom_eq_chain hps [] (Nat.zero_le _), Window.drop_zero, map_zero_add]
  rfl

/-- A loop over the same reader is a loop over copies of it. -/
theorem timesFrom_eq_eachFrom (p : Reader ε α) (n : Nat) :
    timesFrom p n = eachFrom (List.replicate n p) := by
  induction n with
  | zero => rfl
  | succ n ih =>
    funext read length w
    rw [timesFrom, ih]
    rfl

theorem times_eq_each (n : Nat) (p : Reader ε α) : times n p = each (List.replicate n p) := by
  rw [times, timesFrom_eq_eachFrom, each]

theorem times_eq_chain {p : Reader ε α} (hp : Bounded p) (n : Nat) :
    times n p = chain (List.replicate n p) id := by
  rw [times_eq_each]
  refine each_eq_chain fun q hq ↦ ?_
  rw [List.eq_of_mem_replicate hq]
  exact hp

theorem Bounded.times {p : Reader ε α} (hp : Bounded p) (n : Nat) : Bounded (times n p) := by
  rw [times_eq_chain hp]
  exact .chain _ _

theorem times_succ {p : Reader ε α} (hp : Bounded p) (n : Nat) :
    times (n + 1) p = p >>= fun a ↦ times n p >>= fun as ↦ pure (a :: as) := by
  rw [times_eq_chain hp, times_eq_chain hp, List.replicate_succ, chain]
  simp only [chain_bind_pure]
  rfl

theorem times_add {p : Reader ε α} (hp : Bounded p) (m n : Nat) :
    times (m + n) p = times m p >>= fun as ↦ times n p >>= fun bs ↦ pure (as ++ bs) := by
  rw [times_eq_chain hp, times_eq_chain hp, times_eq_chain hp, List.replicate_add, chain_append]
  simp only [chain_bind_pure]
  rfl

/-! ## Records -/

theorem assign_eq_append {name : String} {fields : List (String × α)}
    (h : name ∉ fields.map Prod.fst) (a : α) : assign name a fields = fields ++ [(name, a)] := by
  induction fields with
  | nil => rfl
  | cons field fields ih =>
    rw [List.map_cons, List.mem_cons, not_or] at h
    rw [assign, if_neg (Ne.symm h.1), ih h.2]
    rfl

/-- Fields with new names are put behind those that are there. -/
theorem foldl_assign_eq_append (fields : List (String × α)) {more : List (String × α)}
    (h : (fields.map Prod.fst ++ more.map Prod.fst).Nodup) :
    more.foldl (fun fields field ↦ assign field.1 field.2 fields) fields = fields ++ more := by
  induction more generalizing fields with
  | nil => rw [List.foldl_nil, List.append_nil]
  | cons field more ih =>
    have hnew : field.1 ∉ fields.map Prod.fst := by
      intro hmem
      exact List.disjoint_of_nodup_append h hmem List.mem_cons_self
    rw [List.foldl_cons, assign_eq_append hnew, ih _ (by simpa using h), List.append_assoc,
      List.singleton_append]

theorem recordFrom_eq_chain {fields : List (String × Reader ε α)}
    (hfields : ∀ f ∈ fields, Bounded f.2) (read : List (String × α)) {length : Nat} {w : Window}
    (hlength : length ≤ w.size) :
    recordFrom fields read length w =
      (chain (fields.map Prod.snd) (fun as ↦ ((fields.map Prod.fst).zip as).foldl
        (fun fields field ↦ assign field.1 field.2 fields) read) (w.drop length)).map
          fun r ↦ (r.1, length + r.2) := by
  induction fields generalizing read length with
  | nil => simp [recordFrom, chain, Except.map]
  | cons field fields ih =>
    rw [List.forall_mem_cons] at hfields
    refine loop_step hfields.1 hlength fun a m hm ↦ ?_
    rw [ih hfields.2 _ hm]
    rfl

/-- A record is the chain of its fields, whose values are assigned in the order of the fields. -/
theorem record_eq_chain_assign {fields : List (String × Reader ε α)}
    (hfields : ∀ f ∈ fields, Bounded f.2) :
    record fields = chain (fields.map Prod.snd) fun as ↦ ((fields.map Prod.fst).zip as).foldl
      (fun fields field ↦ assign field.1 field.2 fields) [] := by
  funext w
  rw [record, recordFrom_eq_chain hfields [] (Nat.zero_le _), Window.drop_zero, map_zero_add]

theorem record_eq_chain {fields : List (String × Reader ε α)} (hfields : ∀ f ∈ fields, Bounded f.2)
    (hnames : (fields.map Prod.fst).Nodup) :
    record fields = chain (fields.map Prod.snd) (fields.map Prod.fst).zip := by
  rw [record_eq_chain_assign hfields]
  refine congrArg (chain (fields.map Prod.snd)) (funext fun as ↦ ?_)
  refine foldl_assign_eq_append [] (hnames.sublist ?_)
  rw [List.map_nil, List.nil_append, List.zip_eq_zip_take_min, List.map_fst_zip (by simp)]
  exact List.take_sublist _ _

/-! ## Loops are chains -/

/-- With a reader that reports no more bytes than there are, reading any number of times is a chain,
so that the chain can be cut anywhere; reading none or fewer times is reading nothing.  A count may
be read first.  A record is the chain of its fields, and chains may be nested in any way.  Each side
reads the same values, takes up as many bytes and fails with the same shortfall or the same broken
rule. -/
theorem loops_eq_chains {p : Reader ε α} (hp : Bounded p) :
    (∀ n : Int, times n.toNat p = chain (List.replicate n.toNat p) id ∧
      (n ≤ 0 → times n.toNat p = pure [])) ∧
    (∀ m n : Nat,
      times (m + n) p = times m p >>= fun as ↦ times n p >>= fun bs ↦ pure (as ++ bs)) ∧
    (repeated p = u2 >>= fun n ↦ chain (List.replicate n p) id) ∧
    (∀ fields : List (String × Reader ε α), (∀ field ∈ fields, Bounded field.2) →
      (fields.map Prod.fst).Nodup →
        record fields = chain (fields.map Prod.snd) (fields.map Prod.fst).zip) ∧
    (∀ f : α → Reader ε β, (∀ a, Bounded (f a)) → ∀ g : β → Reader ε γ,
      (p >>= f) >>= g = p >>= fun a ↦ f a >>= g) ∧
    (∀ (a : α) (f : α → Reader ε β), pure a >>= f = f a) ∧
    p >>= pure = p := by
  refine ⟨fun n ↦ ⟨times_eq_chain hp _, fun hn ↦ ?_⟩, times_add hp,
    congrArg (u2 >>= ·) (funext (times_eq_chain hp)),
    fun fields hfields hnames ↦ record_eq_chain hfields hnames, fun f hf g ↦ bind_assoc p hf g,
    pure_bind, bind_pure hp⟩
  rw [Int.toNat_of_nonpos hn, times_eq_chain hp]
  rfl

/-- Three numbers in five bytes: in a row, one behind two, and as the fields of a record they fail
at the third with the same shortfall. -/
theorem loops_eq_chains_short :
    let w := Window.ofList [0, 1, 0, 2, 0]
    times 3 (u2 : Reader Empty Nat) w = .error (.truncated ⟨2, 1⟩) ∧
      (times 2 u2 >>= fun as ↦ times 1 u2 >>= fun bs ↦ pure (as ++ bs) :
        Reader Empty (List Nat)) w = .error (.truncated ⟨2, 1⟩) ∧
      record [("start", (u2 : Reader Empty Nat)), ("end", u2), ("handler", u2)] w =
        .error (.truncated ⟨2, 1⟩) := by
  obtain ⟨htimes, hadd, -, hrecord, -⟩ :=
    loops_eq_chains (β := Unit) (γ := Unit) (p := (u2 : Reader Empty Nat)) (.unsigned 2)
  refine ⟨?_, ?_, ?_⟩
  · exact (congrFun (htimes 3).1 _).trans rfl
  · exact (congrFun (hadd 2 1) _).symm.trans rfl
  · refine (congrFun (hrecord _ ?_ (by decide)) _).trans rfl
    simp only [List.forall_mem_cons, List.not_mem_nil, false_implies, implies_true, and_true]
    exact ⟨.unsigned 2, .unsigned 2, .unsigned 2⟩

end Bytecode.Reader
