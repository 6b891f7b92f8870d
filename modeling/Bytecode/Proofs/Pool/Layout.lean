import Bytecode.Proofs.Assembly.Field
import Bytecode.Proofs.ClassFile.Raw

/-!
# The layout of the constant pool

Constants are read as they are encoded, and the pool is filled with them in their order from index
one on.  A constant is told by its tag: that something is read as a constant of the kind that the
tag announces is shown by cases on the kind, and that every encoded constant is read by cases on the
constant.
-/

namespace Bytecode

open Reader Raw

/-! ## Constants -/

theorem decodes_readIndex {ε : Type} :
    Decodes (readIndex : Reader ε Int) U.encode fun (x : U 2) i ↦ (x.val : Int) = i :=
  (decodes_word 2).map fun index ↦ (index : Int)

theorem Kind.eq_iff_tag_eq {tag : Nat} {kind : Kind} (h : ofTag? tag = some kind) (k : Kind) :
    k = kind ↔ k.tag = tag := by
  constructor
  · rintro rfl
    simpa using List.find?_some h
  · rintro rfl
    exact Option.some.inj ((ofTag?_tag k).symm.trans h)

namespace Constant

/-- A constant that is a single index. -/
theorem decodes_index (f : Int → Constant) :
    Decodes (readIndex >>= fun i ↦ pure (f i) : FormatReader Constant) U.encode
      fun (x : U 2) c ↦ f x.val = c :=
  decodes_readIndex.map f

/-- A constant that is a pair of indices. -/
theorem decodes_indices (f : Int → Int → Constant) :
    Decodes (readIndex >>= fun i ↦ readIndex >>= fun j ↦ pure (f i j) : FormatReader Constant)
      (fun x : U 2 × U 2 ↦ x.1.encode ++ x.2.encode) fun x c ↦ f x.1.val x.2.val = c :=
  (decodes_readIndex.bind fun i ↦ decodes_index (f i)).congr Function.surjective_id (fun _ ↦ rfl)
    fun x c ↦ by simp only [id_eq, exists_eq_left']

theorem decodes_utf8 :
    Decodes (read .utf8) Counted.encodeBytes
      fun (content : Counted 2 UInt8) c ↦ .utf8 (ModifiedUtf8.decode content.items) = c :=
  (decodes_bytes 2).map fun content ↦ Constant.utf8 (ModifiedUtf8.decode content)

theorem decodes_integer :
    Decodes (read .integer) U.encode fun (x : U 4) c ↦ .integer (Word.signed 4 x.val) = c :=
  ((decodes_word 4).map (Word.signed 4)).map Constant.integer

theorem decodes_float :
    Decodes (read .float) U.encode fun (x : U 4) c ↦ .float x.val.toUInt32 = c :=
  ((decodes_word 4).map Nat.toUInt32).map Constant.float

theorem decodes_long :
    Decodes (read .long) U.encode fun (x : U 8) c ↦ .long (Word.signed 8 x.val) = c :=
  ((decodes_word 8).map (Word.signed 8)).map Constant.long

theorem decodes_double :
    Decodes (read .double) U.encode fun (x : U 8) c ↦ .double x.val.toUInt64 = c :=
  ((decodes_word 8).map Nat.toUInt64).map Constant.double

theorem decodes_methodHandle :
    Decodes (read .methodHandle) (fun x : U 1 × U 2 ↦ x.1.encode ++ x.2.encode)
      fun x c ↦ .methodHandle x.1.val x.2.val = c :=
  ((decodes_word 1).bind fun kind ↦ decodes_index (.methodHandle kind)).congr
    Function.surjective_id (fun _ ↦ rfl) fun x c ↦ by simp only [id_eq, exists_eq_left']

/-- What is read after a tag is a constant of the kind that the tag announces. -/
theorem exists_raw_of_read {kind : Kind} {w : Window} {c : Constant} {n : Nat}
    (h : read kind w = .ok (c, n)) :
    ∃ (r : Raw.Constant) (rest : List UInt8), r.value = c ∧ r.value.kind = kind ∧
      w.toList = r.payload ++ rest ∧ r.payload.length = n := by
  cases kind with
  | utf8 =>
    obtain ⟨b, rest, hw, rfl, x, rfl, rfl⟩ := decodes_utf8.of_apply h
    exact ⟨.utf8 x, rest, rfl, rfl, hw, rfl⟩
  | integer =>
    obtain ⟨b, rest, hw, rfl, x, rfl, rfl⟩ := decodes_integer.of_apply h
    exact ⟨.integer x, rest, rfl, rfl, hw, rfl⟩
  | float =>
    obtain ⟨b, rest, hw, rfl, x, rfl, rfl⟩ := decodes_float.of_apply h
    exact ⟨.float x, rest, rfl, rfl, hw, rfl⟩
  | long =>
    obtain ⟨b, rest, hw, rfl, x, rfl, rfl⟩ := decodes_long.of_apply h
    exact ⟨.long x, rest, rfl, rfl, hw, rfl⟩
  | double =>
    obtain ⟨b, rest, hw, rfl, x, rfl, rfl⟩ := decodes_double.of_apply h
    exact ⟨.double x, rest, rfl, rfl, hw, rfl⟩
  | classInfo =>
    obtain ⟨b, rest, hw, rfl, x, rfl, rfl⟩ := (decodes_index _).of_apply h
    exact ⟨.named .classInfo x, rest, rfl, rfl, hw, rfl⟩
  | moduleInfo =>
    obtain ⟨b, rest, hw, rfl, x, rfl, rfl⟩ := (decodes_index _).of_apply h
    exact ⟨.named .moduleInfo x, rest, rfl, rfl, hw, rfl⟩
  | packageInfo =>
    obtain ⟨b, rest, hw, rfl, x, rfl, rfl⟩ := (decodes_index _).of_apply h
    exact ⟨.named .packageInfo x, rest, rfl, rfl, hw, rfl⟩
  | string =>
    obtain ⟨b, rest, hw, rfl, x, rfl, rfl⟩ := (decodes_index _).of_apply h
    exact ⟨.string x, rest, rfl, rfl, hw, rfl⟩
  | methodType =>
    obtain ⟨b, rest, hw, rfl, x, rfl, rfl⟩ := (decodes_index _).of_apply h
    exact ⟨.methodType x, rest, rfl, rfl, hw, rfl⟩
  | fieldref =>
    obtain ⟨b, rest, hw, rfl, x, rfl, rfl⟩ := (decodes_indices _).of_apply h
    exact ⟨.member .fieldref x.1 x.2, rest, rfl, rfl, hw, rfl⟩
  | methodref =>
    obtain ⟨b, rest, hw, rfl, x, rfl, rfl⟩ := (decodes_indices _).of_apply h
    exact ⟨.member .methodref x.1 x.2, rest, rfl, rfl, hw, rfl⟩
  | interfaceMethodref =>
    obtain ⟨b, rest, hw, rfl, x, rfl, rfl⟩ := (decodes_indices _).of_apply h
    exact ⟨.member .interfaceMethodref x.1 x.2, rest, rfl, rfl, hw, rfl⟩
  | nameAndType =>
    obtain ⟨b, rest, hw, rfl, x, rfl, rfl⟩ := (decodes_indices _).of_apply h
    exact ⟨.nameAndType x.1 x.2, rest, rfl, rfl, hw, rfl⟩
  | dynamic =>
    obtain ⟨b, rest, hw, rfl, x, rfl, rfl⟩ := (decodes_indices _).of_apply h
    exact ⟨.dynamic .dynamic x.1 x.2, rest, rfl, rfl, hw, rfl⟩
  | invokeDynamic =>
    obtain ⟨b, rest, hw, rfl, x, rfl, rfl⟩ := (decodes_indices _).of_apply h
    exact ⟨.dynamic .invokeDynamic x.1 x.2, rest, rfl, rfl, hw, rfl⟩
  | methodHandle =>
    obtain ⟨b, rest, hw, rfl, x, rfl, rfl⟩ := decodes_methodHandle.of_apply h
    exact ⟨.methodHandle x.1 x.2, rest, rfl, rfl, hw, rfl⟩

/-- What is written after a tag is read. -/
theorem read_payload (r : Raw.Constant) {w : Window} {rest : List UInt8}
    (hw : w.toList = r.payload ++ rest) :
    read r.value.kind w = .ok (r.value, r.payload.length) := by
  cases r with
  | utf8 content => exact decodes_utf8.apply hw ⟨content, rfl, rfl⟩
  | integer bits => exact decodes_integer.apply hw ⟨bits, rfl, rfl⟩
  | float bits => exact decodes_float.apply hw ⟨bits, rfl, rfl⟩
  | long bits => exact decodes_long.apply hw ⟨bits, rfl, rfl⟩
  | double bits => exact decodes_double.apply hw ⟨bits, rfl, rfl⟩
  | named kind name =>
    have hread : read kind.kind = readNamed kind := by cases kind <;> rfl
    exact hread ▸ (decodes_index (.named kind)).apply hw ⟨name, rfl, rfl⟩
  | string value => exact (decodes_index .string).apply hw ⟨value, rfl, rfl⟩
  | member kind owner type =>
    have hread : read kind.kind = readMember kind := by cases kind <;> rfl
    exact hread ▸ (decodes_indices (.member kind)).apply hw ⟨(owner, type), rfl, rfl⟩
  | nameAndType name descriptor =>
    exact (decodes_indices .nameAndType).apply hw ⟨(name, descriptor), rfl, rfl⟩
  | methodHandle kind reference => exact decodes_methodHandle.apply hw ⟨(kind, reference), rfl, rfl⟩
  | methodType descriptor => exact (decodes_index .methodType).apply hw ⟨descriptor, rfl, rfl⟩
  | dynamic kind bootstrap type =>
    have hread : read kind.kind = readDynamic kind := by cases kind <;> rfl
    exact hread ▸ (decodes_indices (.dynamic kind)).apply hw ⟨(bootstrap, type), rfl, rfl⟩

theorem decodes_read (kind : Kind) :
    Decodes (read kind) Raw.Constant.payload fun r c ↦ r.value = c ∧ r.value.kind = kind := by
  intro w c n
  constructor
  · intro h
    obtain ⟨r, rest, hr, hk, hw, hn⟩ := exists_raw_of_read h
    exact ⟨r.payload, rest, hw, hn, r, ⟨hr, hk⟩, rfl⟩
  · rintro ⟨b, rest, hw, rfl, r, ⟨rfl, rfl⟩, rfl⟩
    exact read_payload r hw

/-- The tag decides how a constant is read. -/
theorem decodes_readTagged :
    Decodes readTagged Raw.Constant.encode fun r c ↦ r.value = c := by
  refine (Reads.bind (decodes_word 1) (M := fun tag c b ↦ ∃ r : Raw.Constant,
    (r.value = c ∧ r.value.kind.tag = tag) ∧ b = r.payload) fun tag ↦ ?_).congr fun c b ↦ ?_
  · cases ht : Kind.ofTag? tag with
    | some kind =>
      simp only [← Kind.eq_iff_tag_eq ht]
      exact decodes_read kind
    | none =>
      refine (Reads.fail _).congr fun c b ↦ ?_
      simp only [false_iff]
      rintro ⟨r, ⟨-, rfl⟩, -⟩
      rw [Kind.ofTag?_tag] at ht
      cases ht
  · constructor
    · rintro ⟨-, -, -, rfl, ⟨x, rfl, rfl⟩, r, ⟨rfl, hr⟩, rfl⟩
      exact ⟨r, rfl, by rw [Raw.Constant.encode, hr, U.encode]⟩
    · rintro ⟨r, rfl, rfl⟩
      have hlt : r.value.kind.tag < 256 ^ 1 := by cases r.value.kind <;> decide
      exact ⟨_, _, _, rfl, ⟨⟨_, hlt⟩, rfl, rfl⟩, r, ⟨rfl, rfl⟩, rfl⟩

end Constant

/-! ## The pool -/

namespace Pool

/-- Puts constants into a pool one behind the other from `index` on. -/
def fill : Nat → Pool → List Constant → Pool
  | _, p, [] => p
  | index, p, c :: cs => fill (index + c.slots) (p.set index c) cs

theorem readFrom_eq_ok_iff {index length k : Nat} {p q : Pool} {w : Window} :
    readFrom index p length w = .ok (q, k) ↔
      ∃ (rs : List Raw.Constant) (rest : List UInt8),
        w.toList = rs.flatMap Raw.Constant.encode ++ rest ∧
        k = length + (rs.flatMap Raw.Constant.encode).length ∧
        Fills p.count index (rs.map (·.value)) ∧ q = fill index p (rs.map (·.value)) := by
  fun_induction readFrom index p length w with
  | case1 index p length w hi e he =>
    simp only [reduceCtorEq, false_iff]
    rintro ⟨rs, rest, hw, -, hf, -⟩
    cases rs with
    | nil => exact absurd hi (Nat.not_lt.mpr hf)
    | cons r rs =>
      rw [List.flatMap_cons, List.append_assoc] at hw
      rw [Constant.decodes_readTagged.apply hw ⟨r, rfl, rfl⟩] at he
      cases he
  | case2 index p length w hi c n hc ih =>
    rw [ih, Window.toList_drop, count_set]
    constructor
    · rintro ⟨rs, rest, hrest, rfl, hf, rfl⟩
      obtain ⟨-, tail, hw, rfl, r, rfl, rfl⟩ := Constant.decodes_readTagged.of_apply hc
      rw [hw, List.drop_left] at hrest
      refine ⟨r :: rs, rest, ?_, ?_, ⟨hi, hf⟩, rfl⟩
      · rw [hw, hrest, List.flatMap_cons, List.append_assoc]
      · rw [List.flatMap_cons, List.length_append, Nat.add_assoc]
    · rintro ⟨rs, rest, hw, rfl, hf, rfl⟩
      cases rs with
      | nil => exact absurd hi (Nat.not_lt.mpr hf)
      | cons r rs =>
        rw [List.flatMap_cons, List.append_assoc] at hw
        -- The same bytes are not read in two ways.
        cases hc.symm.trans (Constant.decodes_readTagged.apply hw ⟨r, rfl, rfl⟩)
        refine ⟨rs, rest, ?_, ?_, hf.2, rfl⟩
        · rw [hw, List.drop_left]
        · rw [List.flatMap_cons, List.length_append, Nat.add_assoc]
  | case3 index p length w hi =>
    simp only [Except.ok.injEq, Prod.mk.injEq]
    constructor
    · rintro ⟨rfl, rfl⟩
      exact ⟨[], w.toList, rfl, rfl, Nat.not_lt.mp hi, rfl⟩
    · rintro ⟨rs, rest, -, rfl, hf, rfl⟩
      cases rs with
      | nil => exact ⟨rfl, rfl⟩
      | cons r rs => exact absurd hf.1 hi

@[simp] theorem count_ofSlots (slots : List (Option Constant)) :
    (ofSlots slots).count = slots.length := by
  rw [count, ofSlots, List.size_toArray]

/-- A constant takes the place of what was in its slot. -/
theorem set_ofSlots (front : List (Option Constant)) (x : Option Constant)
    (rest : List (Option Constant)) (c : Constant) :
    (ofSlots (front ++ x :: rest)).set front.length c = ofSlots (front ++ some c :: rest) := by
  have hindex : 0 ≤ (front.length : Int) ∧
      (front.length : Int) < (ofSlots (front ++ x :: rest)).count := by
    rw [count_ofSlots, List.length_append, List.length_cons]
    omega
  rw [set, if_pos hindex, ofSlots, ofSlots, Int.toNat_natCast, List.setIfInBounds_toArray,
    List.set_append_right _ _ (Nat.le_refl _), Nat.sub_self, List.set_cons_zero]

/-- Filling empty slots leaves what is in front of them alone.  The last constant may need one more
slot than there is room for. -/
theorem fill_ofSlots (front : List (Option Constant)) {room : Nat} {cs : List Constant}
    (hf : Fills (front.length + room) front.length cs) :
    fill front.length (ofSlots (front ++ List.replicate room none)) cs =
      ofSlots ((front ++ Raw.slots cs).take (front.length + room)) := by
  induction cs generalizing front room with
  | nil =>
    obtain rfl : room = 0 := by
      have hle : front.length + room ≤ front.length := hf
      omega
    simp [fill, Raw.slots]
  | cons c cs ih =>
    obtain ⟨hlt, hf'⟩ := hf
    obtain ⟨room, rfl⟩ : ∃ k, room = k + 1 := Nat.exists_eq_succ_of_ne_zero (by omega)
    have hpos := c.slots_pos
    rw [fill, List.replicate_succ, set_ofSlots, Raw.slots_cons]
    by_cases hroom : c.slots - 1 ≤ room
    · -- The constant and its empty slots become part of the front.
      have hfront : front.length + c.slots =
          (front ++ some c :: List.replicate (c.slots - 1) none).length := by
        simp only [List.length_append, List.length_cons, List.length_replicate]
        omega
      have hcount : front.length + (room + 1) =
          (front ++ some c :: List.replicate (c.slots - 1) none).length +
            (room - (c.slots - 1)) := by
        omega
      have hslots : front ++ some c :: List.replicate room none =
          (front ++ some c :: List.replicate (c.slots - 1) none) ++
            List.replicate (room - (c.slots - 1)) none := by
        rw [List.append_assoc, List.cons_append, List.replicate_append_replicate,
          Nat.add_sub_cancel' hroom]
      rw [hfront, hcount] at hf'
      rw [hfront, hcount, hslots, ih _ hf', List.append_assoc, List.cons_append]
    · -- The pool ends before the slots of the constant do, so nothing can follow.
      cases cs with
      | nil =>
        rw [fill, Raw.slots, List.flatMap_nil, List.append_nil, List.take_length_add_append,
          List.take_succ_cons, List.take_replicate, Nat.min_eq_left (by omega)]
      | cons c' cs =>
        have hlt' := hf'.1
        omega

theorem fill_empty {count : Nat} {cs : List Constant} (hf : Fills count 1 cs) :
    fill 1 (empty count) cs = ofSlots ((none :: Raw.slots cs).take count) := by
  cases count with
  | zero =>
    cases cs with
    | nil => rfl
    | cons c cs => exact absurd hf.1 (by decide)
  | succ room =>
    have hempty : empty (room + 1) = ofSlots ([none] ++ List.replicate room none) := by
      rw [empty, ofSlots, List.singleton_append, ← List.replicate_succ, List.toArray_replicate]
    rw [Nat.add_comm] at hf
    rw [hempty, Nat.add_comm]
    exact fill_ofSlots [none] hf

theorem reads_readFrom (count : Nat) :
    Reads (readFrom 1 (empty count) 0) fun p b ↦ ∃ rs : List Raw.Constant,
      Fills count 1 (rs.map (·.value)) ∧
      p = ofSlots ((none :: Raw.slots (rs.map (·.value))).take count) ∧
      b = rs.flatMap Raw.Constant.encode := by
  intro w p n
  rw [readFrom_eq_ok_iff, count_empty]
  constructor
  · rintro ⟨rs, rest, hw, rfl, hf, rfl⟩
    exact ⟨_, rest, hw, (Nat.zero_add _).symm, rs, hf, fill_empty hf, rfl⟩
  · rintro ⟨-, rest, hw, rfl, rs, hf, rfl, rfl⟩
    exact ⟨rs, rest, hw, (Nat.zero_add _).symm, hf, (fill_empty hf).symm⟩

theorem decodes_read : Decodes read Raw.Pool.encode fun r p ↦ r.value = p := by
  refine (Reads.bind (decodes_word 2) reads_readFrom).congr fun p b ↦ ?_
  constructor
  · rintro ⟨-, -, -, rfl, ⟨count, rfl, rfl⟩, rs, hf, rfl, rfl⟩
    exact ⟨⟨count, rs, hf⟩, rfl, rfl⟩
  · rintro ⟨r, rfl, rfl⟩
    exact ⟨_, _, _, rfl, ⟨r.count, rfl, rfl⟩, r.constants, r.fills, rfl, rfl⟩

/-! ## Looking constants up -/

variable {p : Pool} {index : Int}

theorem get_eq_ok_iff {c : Constant} : p.get index = .ok c ↔ p.get? index = some c := by
  rw [get]
  cases p.get? index with
  | none => simp
  | some c' => simp

theorem utf8_eq_ok_iff {text : Text} : p.utf8 index = .ok text ↔ p.Utf8At index text := by
  rw [utf8, except_bind_eq_ok, Utf8At]
  simp only [get_eq_ok_iff]
  constructor
  · rintro ⟨c, hc, h⟩
    split at h
    · cases h
      exact hc
    · cases h
  · intro h
    exact ⟨_, h, rfl⟩

theorem className_eq_ok_iff {name : Text} :
    p.className index = .ok name ↔ p.ClassAt index name := by
  rw [className, except_bind_eq_ok, ClassAt]
  simp only [get_eq_ok_iff, ← utf8_eq_ok_iff]
  constructor
  · rintro ⟨c, hc, h⟩
    split at h
    · exact ⟨_, hc, h⟩
    · cases h
  · rintro ⟨nameIndex, hc, h⟩
    exact ⟨_, hc, h⟩

end Pool

end Bytecode
