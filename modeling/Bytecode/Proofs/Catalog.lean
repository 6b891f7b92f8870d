import Bytecode.Catalog.Standard
import Bytecode.Word
import Mathlib.Data.List.Nodup

/-!
# Looking instructions up

In a catalog that repeats no opcode the look-up finds every entry, and the same holds of mnemonics.
The standard catalog repeats neither, its opcodes are bytes, and the shapes whose operands are more
than a few fields belong to one mnemonic each.
-/

namespace Bytecode.Catalog

/-- The first item with a key is the only one where no two items share a key. -/
theorem find?_key_eq_some_iff {α κ : Type} [DecidableEq κ] {items : List α} {key : α → κ}
    (h : (items.map key).Nodup) {k : κ} {e : α} :
    items.find? (fun e ↦ key e = k) = some e ↔ e ∈ items ∧ key e = k := by
  constructor
  · intro hfind
    exact ⟨List.mem_of_find?_eq_some hfind, by simpa using List.find?_some hfind⟩
  · rintro ⟨hmem, rfl⟩
    have hsome : (items.find? fun e' ↦ key e' = key e).isSome :=
      List.find?_isSome.mpr ⟨e, hmem, by simp⟩
    obtain ⟨e', he'⟩ := Option.isSome_iff_exists.mp hsome
    have hkey : key e' = key e := by simpa using List.find?_some he'
    rw [he', List.inj_on_of_nodup_map h (List.mem_of_find?_eq_some he') hmem hkey]

namespace standard

theorem opcodes_eq :
    standard.entries.map (·.opcode) = (List.range 203 ++ [254, 255]).map Int.ofNat := by
  decide +kernel

theorem opcodes_nodup : (standard.entries.map (·.opcode)).Nodup := by
  rw [opcodes_eq]
  refine List.Nodup.map (fun _ _ h ↦ Int.ofNat.inj h) ?_
  refine List.nodup_range.append (by simp) ?_
  intro n hn hn'
  simp only [List.mem_range, List.mem_cons, List.not_mem_nil, or_false] at hn hn'
  omega

theorem mnemonics_nodup : (standard.entries.map (·.mnemonic)).Nodup := by
  -- Numbers are compared much faster than strings, so the strings are read as numbers first.
  have h : ((standard.entries.map (·.mnemonic)).map
      fun m ↦ Word.value m.toByteArray.data.toList).Nodup := by decide +kernel
  exact h.of_map

theorem lookup_eq_some_iff {opcode : Int} {e : Entry} :
    standard.lookup opcode = some e ↔ e ∈ standard.entries ∧ e.opcode = opcode :=
  find?_key_eq_some_iff opcodes_nodup

theorem named?_eq_some_iff {mnemonic : String} {e : Entry} :
    standard.named? mnemonic = some e ↔ e ∈ standard.entries ∧ e.mnemonic = mnemonic :=
  find?_key_eq_some_iff mnemonics_nodup

theorem eq_of_mnemonic_eq {opcode opcode' : Int} {e e' : Entry}
    (h : standard.lookup opcode = some e) (h' : standard.lookup opcode' = some e')
    (hm : e.mnemonic = e'.mnemonic) : e = e' :=
  List.inj_on_of_nodup_map mnemonics_nodup (lookup_eq_some_iff.mp h).1
    (lookup_eq_some_iff.mp h').1 hm

/-- Every opcode of the catalog is a byte. -/
theorem exists_opcode_eq {e : Entry} (h : e ∈ standard.entries) :
    ∃ b : UInt8, e.opcode = b.toNat := by
  have hmem : e.opcode ∈ standard.entries.map (·.opcode) := List.mem_map_of_mem h
  rw [opcodes_eq, List.mem_map] at hmem
  obtain ⟨n, hn, hop⟩ := hmem
  have hlt : n < 256 := by
    simp only [List.mem_append, List.mem_range, List.mem_cons, List.not_mem_nil, or_false] at hn
    omega
  exact ⟨n.toUInt8, by rw [← hop]; simp [Nat.mod_eq_of_lt hlt]⟩

/-- The mnemonic of the only instruction of a shape, for the shapes whose operands are more than a
few fields. -/
def soleMnemonic? : Shape → Option String
  | .tableSwitch => some "tableswitch"
  | .lookupSwitch => some "lookupswitch"
  | .widePrefixed => some "wide"
  | .invokeInterface => some "invokeinterface"
  | .invokeDynamic => some "invokedynamic"
  | _ => none

theorem shape_eq_iff {e : Entry} (h : e ∈ standard.entries) {shape : Shape} {mnemonic : String}
    (hs : soleMnemonic? shape = some mnemonic) : e.shape = shape ↔ e.mnemonic = mnemonic := by
  have hall : ∀ e ∈ standard.entries, ∀ shape ∈ Shape.all, ∀ mnemonic ∈ soleMnemonic? shape,
      (e.shape = shape ↔ e.mnemonic = mnemonic) := by decide +kernel
  exact hall e h shape (Shape.mem_all shape) mnemonic hs

end standard

end Bytecode.Catalog
