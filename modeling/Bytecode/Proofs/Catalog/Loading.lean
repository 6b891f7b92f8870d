import Bytecode.Proofs.Catalog
import Mathlib.Data.List.Induction

/-!
# Loading a table

A table is loaded row by row.  It is loaded exactly if every row names a shape and no two rows share
an opcode; otherwise the first row that breaks one of the two rules is reported
(`Catalog.load_eq_ok_iff`, `Catalog.load_eq_error_iff`).  The catalog of a table has its rows in
their order, finds the row of every opcode, and of every mnemonic the first row.
-/

namespace Bytecode

/-! ## Rows and entries -/

namespace Shape

/-- The names that a table can use. -/
def names : List String := all.map name

example : names.length = 15 := rfl

theorem ofName?_eq_some_iff {s : String} {shape : Shape} :
    ofName? s = some shape ↔ shape.name = s := by
  constructor
  · intro h
    simpa using List.find?_some h
  · rintro rfl
    exact ofName?_name shape

theorem ofName?_eq_none_iff {s : String} : ofName? s = Option.none ↔ s ∉ names := by
  rw [ofName?, List.find?_eq_none, names, List.mem_map, not_exists]
  simp

theorem name_injective : name.Injective := by
  intro s s' h
  have hs := ofName?_name s
  rw [h, ofName?_name] at hs
  exact (Option.some.inj hs).symm

end Shape

/-- The row of a table that makes an entry. -/
def Entry.row (e : Entry) : Row := ⟨e.opcode, e.mnemonic, e.shape.name, e.reserved⟩

theorem Entry.row_injective : row.Injective := by
  rintro ⟨_, _, s, _⟩ ⟨_, _, s', _⟩ h
  simp only [row, Row.mk.injEq] at h
  obtain ⟨rfl, rfl, hs, rfl⟩ := h
  rw [Shape.name_injective hs]

/-- Why a row is refused behind the rows in front of it.  The shape is looked at first. -/
inductive Row.Refused (earlier : List Row) (r : Row) : CatalogError → Prop where
  | unknownShape (h : r.shape ∉ Shape.names) : Refused earlier r (.unknownShape r.mnemonic r.shape)
  | duplicateOpcode (h : r.shape ∈ Shape.names) (ho : r.opcode ∈ earlier.map (·.opcode)) :
    Refused earlier r (.duplicateOpcode r.opcode)

/-- A table without a fault: each row names a shape and has an opcode of its own. -/
structure Loadable (rows : List Row) : Prop where
  shapes : ∀ r ∈ rows, r.shape ∈ Shape.names
  opcodes : (rows.map (·.opcode)).Nodup

theorem loadable_concat_iff {rows : List Row} {r : Row} :
    Loadable (rows ++ [r]) ↔
      Loadable rows ∧ r.shape ∈ Shape.names ∧ r.opcode ∉ rows.map (·.opcode) := by
  constructor
  · rintro ⟨hs, ho⟩
    rw [List.forall_mem_append, List.forall_mem_singleton] at hs
    rw [List.map_append, List.map_singleton, ← List.concat_eq_append, List.nodup_concat] at ho
    exact ⟨⟨hs.1, ho.2⟩, hs.2, ho.1⟩
  · rintro ⟨⟨hs, ho⟩, hr, hnew⟩
    refine ⟨List.forall_mem_append.mpr ⟨hs, List.forall_mem_singleton.mpr hr⟩, ?_⟩
    rw [List.map_append, List.map_singleton, ← List.concat_eq_append, List.nodup_concat]
    exact ⟨hnew, ho⟩

namespace Catalog

/-- The rows of the table that makes the catalog. -/
def rows (c : Catalog) : List Row := c.entries.map Entry.row

theorem rows_injective : rows.Injective := by
  rintro ⟨es⟩ ⟨es'⟩ h
  have hes : es = es' := List.map_injective_iff.mpr Entry.row_injective h
  rw [hes]

theorem map_opcode_rows (c : Catalog) : c.rows.map (·.opcode) = c.entries.map (·.opcode) := by
  rw [rows, List.map_map]
  rfl

/-! ## Adding a row -/

section Add

variable {c : Catalog} {r : Row}

theorem lookup_eq_none_iff {opcode : Int} :
    c.lookup opcode = none ↔ opcode ∉ c.rows.map (·.opcode) := by
  rw [lookup, List.find?_eq_none, map_opcode_rows, List.mem_map, not_exists]
  simp

theorem add_of_unknownShape (h : r.shape ∉ Shape.names) :
    c.add r = .error (.unknownShape r.mnemonic r.shape) := by
  rw [add, Shape.ofName?_eq_none_iff.mpr h]

theorem add_of_duplicateOpcode (h : r.shape ∈ Shape.names)
    (ho : r.opcode ∈ c.rows.map (·.opcode)) : c.add r = .error (.duplicateOpcode r.opcode) := by
  obtain ⟨shape, -, hname⟩ := List.mem_map.mp h
  rw [add, Shape.ofName?_eq_some_iff.mpr hname]
  cases hl : c.lookup r.opcode with
  | none => exact absurd ho (lookup_eq_none_iff.mp hl)
  | some e => rfl

theorem exists_add_eq_ok (h : r.shape ∈ Shape.names) (ho : r.opcode ∉ c.rows.map (·.opcode)) :
    ∃ c', c.add r = .ok c' ∧ c'.rows = c.rows ++ [r] := by
  obtain ⟨shape, -, hname⟩ := List.mem_map.mp h
  rw [add, Shape.ofName?_eq_some_iff.mpr hname, lookup_eq_none_iff.mpr ho]
  refine ⟨_, rfl, ?_⟩
  rw [rows, List.map_append, List.map_singleton, Entry.row, hname]
  rfl

theorem add_of_refused {e : CatalogError} (h : r.Refused c.rows e) : c.add r = .error e := by
  cases h with
  | unknownShape h => exact add_of_unknownShape h
  | duplicateOpcode h ho => exact add_of_duplicateOpcode h ho

end Add

/-! ## Loading a table -/

theorem load_append_cons (before : List Row) (r : Row) (after : List Row) :
    load (before ++ r :: after) = load before >>= fun c ↦ c.add r >>= after.foldlM add := by
  rw [load, List.foldlM_append]
  rfl

theorem load_of_loadable {rows : List Row} (h : Loadable rows) :
    ∃ c, load rows = .ok c ∧ c.rows = rows := by
  induction rows using List.reverseRecOn with
  | nil => exact ⟨⟨[]⟩, rfl, rfl⟩
  | append_singleton rows r ih =>
    obtain ⟨hrows, hshape, hopcode⟩ := loadable_concat_iff.mp h
    obtain ⟨c, hload, rfl⟩ := ih hrows
    obtain ⟨c', hadd, hrows'⟩ := exists_add_eq_ok hshape hopcode
    refine ⟨c', ?_, hrows'⟩
    rw [load_append_cons, hload]
    exact congrArg (· >>= [].foldlM add) hadd

/-- The rows behind the first one that is refused are not looked at. -/
theorem load_of_refused {before after : List Row} {r : Row} {e : CatalogError}
    (h : Loadable before) (hr : r.Refused before e) : load (before ++ r :: after) = .error e := by
  obtain ⟨c, hload, rfl⟩ := load_of_loadable h
  rw [load_append_cons, hload]
  exact congrArg (· >>= after.foldlM add) (add_of_refused hr)

/-- A table has no fault, or a first row that is refused. -/
theorem loadable_or_exists_refused (rows : List Row) :
    Loadable rows ∨ ∃ before r after e,
      rows = before ++ r :: after ∧ Loadable before ∧ r.Refused before e := by
  induction rows using List.reverseRecOn with
  | nil => exact .inl ⟨nofun, List.nodup_nil⟩
  | append_singleton rows r ih =>
    rcases ih with hrows | ⟨before, r', after, e, rfl, hbefore, hr'⟩
    · by_cases hshape : r.shape ∈ Shape.names
      · by_cases hopcode : r.opcode ∈ rows.map (·.opcode)
        · exact .inr ⟨rows, r, [], _, rfl, hrows, .duplicateOpcode hshape hopcode⟩
        · exact .inl (loadable_concat_iff.mpr ⟨hrows, hshape, hopcode⟩)
      · exact .inr ⟨rows, r, [], _, rfl, hrows, .unknownShape hshape⟩
    · exact .inr ⟨before, r', after ++ [r], e, by simp, hbefore, hr'⟩

theorem load_eq_ok_iff {rows : List Row} {c : Catalog} :
    load rows = .ok c ↔ Loadable rows ∧ c.rows = rows := by
  constructor
  · intro hload
    rcases loadable_or_exists_refused rows with h | ⟨before, r, after, e, rfl, h, hr⟩
    · obtain ⟨c', hload', hrows⟩ := load_of_loadable h
      cases hload'.symm.trans hload
      exact ⟨h, hrows⟩
    · cases (load_of_refused h hr).symm.trans hload
  · rintro ⟨h, hc⟩
    obtain ⟨c', hload, hrows⟩ := load_of_loadable h
    rw [hload, rows_injective (hrows.trans hc.symm)]

theorem load_eq_error_iff {rows : List Row} {e : CatalogError} :
    load rows = .error e ↔
      ∃ before r after, rows = before ++ r :: after ∧ Loadable before ∧ r.Refused before e := by
  constructor
  · intro hload
    rcases loadable_or_exists_refused rows with h | ⟨before, r, after, e', rfl, h, hr⟩
    · obtain ⟨c, hload', -⟩ := load_of_loadable h
      cases hload'.symm.trans hload
    · cases (load_of_refused h hr).symm.trans hload
      exact ⟨before, r, after, rfl, h, hr⟩
  · rintro ⟨before, r, after, rfl, h, hr⟩
    exact load_of_refused h hr

/-! ## Looking rows up -/

/-- How a catalog answers for the rows of its table. -/
structure Represents (c : Catalog) (rows : List Row) : Prop where
  rows_eq : c.rows = rows
  /-- The row of an opcode is the only one that has it. -/
  lookup_iff (opcode : Int) (r : Row) :
    (c.lookup opcode).map Entry.row = some r ↔ r ∈ rows ∧ r.opcode = opcode
  /-- Of the rows with a mnemonic the first one counts. -/
  opcodeOf_ok_iff (mnemonic : String) (opcode : Int) :
    c.opcodeOf mnemonic = .ok opcode ↔
      ∃ before r after, rows = before ++ r :: after ∧ (∀ r' ∈ before, r'.mnemonic ≠ mnemonic) ∧
        r.mnemonic = mnemonic ∧ r.opcode = opcode
  opcodeOf_error_iff (mnemonic : String) (e : CatalogError) :
    c.opcodeOf mnemonic = .error e ↔
      (∀ r ∈ rows, r.mnemonic ≠ mnemonic) ∧ e = .unknownMnemonic mnemonic
  lookup_opcodeOf (mnemonic : String) (opcode : Int) :
    c.opcodeOf mnemonic = .ok opcode → ∃ e, c.lookup opcode = some e ∧ e.mnemonic = mnemonic
  opcodeOf_lookup_iff :
    (∀ opcode e, c.lookup opcode = some e → c.opcodeOf e.mnemonic = .ok opcode) ↔
      (rows.map (·.mnemonic)).Nodup

section Represents

variable {c : Catalog}

theorem lookup_map_row (c : Catalog) (opcode : Int) :
    (c.lookup opcode).map Entry.row = c.rows.find? (·.opcode = opcode) := by
  rw [rows, List.find?_map]
  rfl

theorem opcodeOf_eq (c : Catalog) (mnemonic : String) :
    c.opcodeOf mnemonic =
      match c.rows.find? (·.mnemonic = mnemonic) with
      | some r => .ok r.opcode
      | none => .error (.unknownMnemonic mnemonic) := by
  have hfind : c.rows.find? (·.mnemonic = mnemonic) = (c.named? mnemonic).map Entry.row := by
    rw [rows, List.find?_map]
    rfl
  rw [hfind, opcodeOf]
  cases c.named? mnemonic <;> rfl

theorem opcodeOf_eq_ok_iff {mnemonic : String} {opcode : Int} :
    c.opcodeOf mnemonic = .ok opcode ↔
      ∃ before r after, c.rows = before ++ r :: after ∧ (∀ r' ∈ before, r'.mnemonic ≠ mnemonic) ∧
        r.mnemonic = mnemonic ∧ r.opcode = opcode := by
  have hfirst (r : Row) : c.rows.find? (·.mnemonic = mnemonic) = some r ↔
      ∃ before after, c.rows = before ++ r :: after ∧
        (∀ r' ∈ before, r'.mnemonic ≠ mnemonic) ∧ r.mnemonic = mnemonic := by
    rw [List.find?_eq_some_iff_append]
    simp only [decide_eq_true_eq, Bool.not_eq_true', decide_eq_false_iff_not]
    constructor
    · rintro ⟨hr, before, after, hrows, hbefore⟩
      exact ⟨before, after, hrows, hbefore, hr⟩
    · rintro ⟨before, after, hrows, hbefore, hr⟩
      exact ⟨hr, before, after, hrows, hbefore⟩
  rw [opcodeOf_eq]
  constructor
  · intro h
    split at h
    · next r hr =>
      obtain ⟨before, after, hrows, hbefore, hm⟩ := (hfirst r).mp hr
      exact ⟨before, r, after, hrows, hbefore, hm, Except.ok.inj h⟩
    · cases h
  · rintro ⟨before, r, after, hrows, hbefore, hm, rfl⟩
    rw [(hfirst r).mpr ⟨before, after, hrows, hbefore, hm⟩]

theorem opcodeOf_eq_error_iff {mnemonic : String} {e : CatalogError} :
    c.opcodeOf mnemonic = .error e ↔
      (∀ r ∈ c.rows, r.mnemonic ≠ mnemonic) ∧ e = .unknownMnemonic mnemonic := by
  have hnone : c.rows.find? (·.mnemonic = mnemonic) = none ↔
      ∀ r ∈ c.rows, r.mnemonic ≠ mnemonic := by simp
  rw [opcodeOf_eq, ← hnone]
  cases c.rows.find? (·.mnemonic = mnemonic) with
  | none => simp [eq_comm]
  | some r => simp

section Loaded

variable (h : Loadable c.rows)
include h

theorem lookup_map_row_eq_some_iff {opcode : Int} {r : Row} :
    (c.lookup opcode).map Entry.row = some r ↔ r ∈ c.rows ∧ r.opcode = opcode := by
  rw [lookup_map_row]
  exact find?_key_eq_some_iff h.opcodes

theorem exists_lookup_of_mem_rows {r : Row} (hr : r ∈ c.rows) :
    ∃ e, c.lookup r.opcode = some e ∧ e.row = r :=
  Option.map_eq_some_iff.mp ((lookup_map_row_eq_some_iff h).mpr ⟨hr, rfl⟩)

theorem exists_lookup_of_opcodeOf {mnemonic : String} {opcode : Int}
    (hopcode : c.opcodeOf mnemonic = .ok opcode) :
    ∃ e, c.lookup opcode = some e ∧ e.mnemonic = mnemonic := by
  obtain ⟨before, r, after, hrows, -, hm, rfl⟩ := opcodeOf_eq_ok_iff.mp hopcode
  have hmem : r ∈ c.rows := by simp [hrows]
  obtain ⟨e, he, rfl⟩ := exists_lookup_of_mem_rows h hmem
  exact ⟨e, he, hm⟩

/-- Mnemonics lead back to opcodes exactly if no two rows share a mnemonic. -/
theorem opcodeOf_lookup_iff_nodup :
    (∀ opcode e, c.lookup opcode = some e → c.opcodeOf e.mnemonic = .ok opcode) ↔
      (c.rows.map (·.mnemonic)).Nodup := by
  constructor
  · intro hback
    have hopcodeOf (r : Row) (hr : r ∈ c.rows) : c.opcodeOf r.mnemonic = .ok r.opcode := by
      obtain ⟨e, he, rfl⟩ := exists_lookup_of_mem_rows h hr
      exact hback _ e he
    refine List.Nodup.map_on (fun r hr r' hr' hm ↦ ?_) (.of_map _ h.opcodes)
    have hopcode : r.opcode = r'.opcode := by
      have heq := (hopcodeOf r hr).symm.trans (hm ▸ hopcodeOf r' hr')
      exact Except.ok.inj heq
    exact List.inj_on_of_nodup_map h.opcodes hr hr' hopcode
  · intro hnodup opcode e he
    obtain ⟨hmem, rfl⟩ := (lookup_map_row_eq_some_iff h).mp (congrArg (Option.map Entry.row) he)
    have hfind : c.rows.find? (·.mnemonic = e.mnemonic) = some e.row :=
      (find?_key_eq_some_iff hnodup).mpr ⟨hmem, rfl⟩
    rw [opcodeOf_eq, hfind]

end Loaded

end Represents

/-- What loading a table comes to.  It succeeds exactly if every row names a shape and no two rows
share an opcode, and then the catalog answers for the rows in their order.  Otherwise the first row
that cannot be added is reported, whatever follows it. -/
theorem load_outcome (rows : List Row) :
    ((∃ c, load rows = .ok c) ↔ Loadable rows) ∧
    (∀ c, load rows = .ok c → c.Represents rows) ∧
    ∀ e, load rows = .error e ↔
      ∃ before r after, rows = before ++ r :: after ∧ Loadable before ∧ r.Refused before e := by
  refine ⟨⟨?_, ?_⟩, ?_, fun e ↦ load_eq_error_iff⟩
  · rintro ⟨c, hc⟩
    exact (load_eq_ok_iff.mp hc).1
  · intro h
    obtain ⟨c, hc, -⟩ := load_of_loadable h
    exact ⟨c, hc⟩
  · intro c hc
    obtain ⟨h, rfl⟩ := load_eq_ok_iff.mp hc
    exact {
      rows_eq := rfl
      lookup_iff := fun _ _ ↦ lookup_map_row_eq_some_iff h
      opcodeOf_ok_iff := fun _ _ ↦ opcodeOf_eq_ok_iff
      opcodeOf_error_iff := fun _ _ ↦ opcodeOf_eq_error_iff
      lookup_opcodeOf := fun _ _ ↦ exists_lookup_of_opcodeOf h
      opcodeOf_lookup_iff := opcodeOf_lookup_iff_nodup h }

/-- Two rows with one mnemonic: the table is loaded, the first row answers for the mnemonic, and the
second opcode does not lead back to itself. -/
theorem load_outcome_sharedMnemonic :
    ∃ c, load [⟨21, "iload", "u8", false⟩, ⟨26, "iload", "none", false⟩] = .ok c ∧
      c.opcodeOf "iload" = .ok 21 ∧
      ¬ ∀ opcode e, c.lookup opcode = some e → c.opcodeOf e.mnemonic = .ok opcode := by
  obtain ⟨hload, hrepresents, -⟩ :=
    load_outcome [⟨21, "iload", "u8", false⟩, ⟨26, "iload", "none", false⟩]
  obtain ⟨c, hc⟩ := hload.mpr ⟨by decide, by decide⟩
  refine ⟨c, hc, ?_, ?_⟩
  · exact ((hrepresents c hc).opcodeOf_ok_iff _ _).mpr ⟨[], _, _, rfl, nofun, rfl, rfl⟩
  · rw [(hrepresents c hc).opcodeOf_lookup_iff]
    decide

end Catalog

end Bytecode
