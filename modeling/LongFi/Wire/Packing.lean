/-
The typed fields of the cursor library (`extra/cursor/src/packing.c` and the `GENERATE` macro of `cursor.c`).

A field has a byte order and one of ten primitive types. Its value is given by its bits, so a signed number is in two's
complement and a `float` or `double` is what the union of it with an integer shows. The sixteen-bit functions compute in
`int`, to which their argument is promoted with its sign.

- `pack_eq`, `unpack_eq`: the functions of `packing.c` convert to and from the bytes of the value in the order asked for.
- `records_round_trip`: a format is a list of fields of any orders and types. Writing a record of it and reading it through
  a cursor are inverse to each other; without enough room both stop, with the same code, at the first field that does not
  fit.
-/
import LongFi.Core.Bytes
import LongFi.Wire.Tape

namespace LongFi

open LongFi.Core

/-! ## packing.c -/

/-- the types of the `GENERATE` macros, under their short names -/
inductive PrimType where
  | u8 | i8 | u16 | i16 | u32 | i32 | u64 | i64 | f | d
deriving DecidableEq, Repr

/-- `sizeof` -/
def PrimType.size : PrimType → ℕ
  | .u8 | .i8 => 1
  | .u16 | .i16 => 2
  | .u32 | .i32 | .f => 4
  | .u64 | .i64 | .d => 8

abbrev PrimType.Val (t : PrimType) : Type := BitVec (8 * t.size)

def generateUnpackLe16 (src : List U8) : U16 :=
  ((src.getD 1 0).setWidth 32 <<< 8 ||| (src.getD 0 0).setWidth 32).setWidth 16

def generateUnpackLe64 (src : List U8) : U64 :=
  (src.getD 7 0).setWidth 64 <<< 56 ||| (src.getD 6 0).setWidth 64 <<< 48 ||| (src.getD 5 0).setWidth 64 <<< 40 |||
    (src.getD 4 0).setWidth 64 <<< 32 ||| (src.getD 3 0).setWidth 64 <<< 24 ||| (src.getD 2 0).setWidth 64 <<< 16 |||
    (src.getD 1 0).setWidth 64 <<< 8 ||| (src.getD 0 0).setWidth 64

def generateUnpackBe8 (src : List U8) : U8 := src.getD 0 0

def generateUnpackBe16 (src : List U8) : U16 :=
  ((src.getD 0 0).setWidth 32 <<< 8 ||| (src.getD 1 0).setWidth 32).setWidth 16

def generateUnpackBe32 (src : List U8) : U32 :=
  (src.getD 0 0).setWidth 32 <<< 24 ||| (src.getD 1 0).setWidth 32 <<< 16 ||| (src.getD 2 0).setWidth 32 <<< 8 |||
    (src.getD 3 0).setWidth 32

def generateUnpackBe64 (src : List U8) : U64 :=
  (src.getD 0 0).setWidth 64 <<< 56 ||| (src.getD 1 0).setWidth 64 <<< 48 ||| (src.getD 2 0).setWidth 64 <<< 40 |||
    (src.getD 3 0).setWidth 64 <<< 32 ||| (src.getD 4 0).setWidth 64 <<< 24 ||| (src.getD 5 0).setWidth 64 <<< 16 |||
    (src.getD 6 0).setWidth 64 <<< 8 ||| (src.getD 7 0).setWidth 64

/-- `val` is promoted to `int`, and shifted there with its sign -/
def generatePackLe16 (promote : U16 → U32) (val : U16) : List U8 :=
  [(promote val &&& 0xff).setWidth 8, ((promote val).sshiftRight 8 &&& 0xff).setWidth 8]

def generatePackLe64 (val : U64) : List U8 :=
  [(val &&& 0xff).setWidth 8, (val >>> 8 &&& 0xff).setWidth 8, (val >>> 16 &&& 0xff).setWidth 8,
    (val >>> 24 &&& 0xff).setWidth 8, (val >>> 32 &&& 0xff).setWidth 8, (val >>> 40 &&& 0xff).setWidth 8,
    (val >>> 48 &&& 0xff).setWidth 8, (val >>> 56 &&& 0xff).setWidth 8]

def generatePackBe8 (val : U8) : List U8 := [val]

def generatePackBe16 (promote : U16 → U32) (val : U16) : List U8 :=
  [((promote val).sshiftRight 8 &&& 0xff).setWidth 8, (promote val &&& 0xff).setWidth 8]

def generatePackBe32 (val : U32) : List U8 :=
  [(val >>> 24 &&& 0xff).setWidth 8, (val >>> 16 &&& 0xff).setWidth 8, (val >>> 8 &&& 0xff).setWidth 8,
    (val &&& 0xff).setWidth 8]

def generatePackBe64 (val : U64) : List U8 :=
  [(val >>> 56 &&& 0xff).setWidth 8, (val >>> 48 &&& 0xff).setWidth 8, (val >>> 40 &&& 0xff).setWidth 8,
    (val >>> 32 &&& 0xff).setWidth 8, (val >>> 24 &&& 0xff).setWidth 8, (val >>> 16 &&& 0xff).setWidth 8,
    (val >>> 8 &&& 0xff).setWidth 8, (val &&& 0xff).setWidth 8]

/-- `unpack_le_*` -/
def unpackLe : (t : PrimType) → List U8 → t.Val
  | .u8 => unpackLeU8
  | .i8 => unpackLeU8
  | .u16 => generateUnpackLe16
  | .i16 => generateUnpackLe16
  | .u32 => unpackLeU32
  | .i32 => unpackLeU32
  | .u64 => generateUnpackLe64
  | .i64 => generateUnpackLe64
  | .f => unpackLeU32
  | .d => generateUnpackLe64

/-- `unpack_be_*` -/
def unpackBe : (t : PrimType) → List U8 → t.Val
  | .u8 => generateUnpackBe8
  | .i8 => generateUnpackBe8
  | .u16 => generateUnpackBe16
  | .i16 => generateUnpackBe16
  | .u32 => generateUnpackBe32
  | .i32 => generateUnpackBe32
  | .u64 => generateUnpackBe64
  | .i64 => generateUnpackBe64
  | .f => generateUnpackBe32
  | .d => generateUnpackBe64

/-- `pack_le_*` -/
def packLe : (t : PrimType) → t.Val → List U8
  | .u8 => packLeU8
  | .i8 => packLeU8
  | .u16 => generatePackLe16 (BitVec.setWidth 32)
  | .i16 => generatePackLe16 (BitVec.signExtend 32)
  | .u32 => packLeU32
  | .i32 => packLeU32
  | .u64 => generatePackLe64
  | .i64 => generatePackLe64
  | .f => packLeU32
  | .d => generatePackLe64

/-- `pack_be_*` -/
def packBe : (t : PrimType) → t.Val → List U8
  | .u8 => generatePackBe8
  | .i8 => generatePackBe8
  | .u16 => generatePackBe16 (BitVec.setWidth 32)
  | .i16 => generatePackBe16 (BitVec.signExtend 32)
  | .u32 => generatePackBe32
  | .i32 => generatePackBe32
  | .u64 => generatePackBe64
  | .i64 => generatePackBe64
  | .f => generatePackBe32
  | .d => generatePackBe64

inductive Endian where
  | le
  | be
deriving DecidableEq, Repr

/-- the order and the type in the name of a function -/
structure Field where
  order : Endian
  type : PrimType
deriving DecidableEq, Repr

namespace Field

def size (k : Field) : ℕ := k.type.size

abbrev Val (k : Field) : Type := k.type.Val

def unpack (k : Field) : List U8 → k.Val :=
  match k.order with
  | .le => unpackLe k.type
  | .be => unpackBe k.type

def pack (k : Field) : k.Val → List U8 :=
  match k.order with
  | .le => packLe k.type
  | .be => packBe k.type

end Field

/-! ## The functions of `GENERATE` -/

/-- `cursor_unpack_le_*` and `cursor_unpack_be_*` -/
def cursorUnpack (k : Field) : Call CursorRes Cursor k.Val := cursorUnpackLe k.size k.unpack

/-- `cursor_pack_le_*` and `cursor_pack_be_*` -/
def cursorPack (k : Field) (val : k.Val) : Call CursorRes Cursor Unit := cursorPackLe (k.pack val)

/-! ## Packing is writing down bytes -/

theorem low_byte {w : ℕ} (v : BitVec w) : (v &&& 0xff).setWidth 8 = v.setWidth 8 := by
  have h255 : ∀ i < 8, Nat.testBit 255 i = true := by decide
  apply BitVec.eq_of_getLsbD_eq
  intro i hi
  by_cases hw : i < w
  · have hbit : (0xff : BitVec w).getLsbD i = true := by
      show (BitVec.ofNat w 255).getLsbD i = true
      rw [BitVec.getLsbD_ofNat, h255 i hi, decide_eq_true hw, Bool.true_and]
    simp only [BitVec.getLsbD_setWidth, BitVec.getLsbD_and, hbit, Bool.and_true]
  · have hv : v.getLsbD i = false := BitVec.getLsbD_of_ge _ _ (Nat.le_of_not_lt hw)
    simp [hv]

/-- the sign is lost again -/
theorem promoted_low {promote : U16 → U32} (h : ∀ v, ∀ i < 16, (promote v).getLsbD i = v.getLsbD i) (v : U16) :
    (promote v).setWidth 8 = v.setWidth 8 := by
  apply BitVec.eq_of_getLsbD_eq
  intro i hi
  simp only [BitVec.getLsbD_setWidth]
  rw [h v i (by omega)]

theorem promoted_high {promote : U16 → U32} (h : ∀ v, ∀ i < 16, (promote v).getLsbD i = v.getLsbD i) (v : U16) :
    ((promote v).sshiftRight 8).setWidth 8 = (v >>> 8).setWidth 8 := by
  apply BitVec.eq_of_getLsbD_eq
  intro i hi
  have h32 : ¬32 ≤ i := by omega
  have hin : 8 + i < 32 := by omega
  simp only [BitVec.getLsbD_setWidth, BitVec.getLsbD_sshiftRight, BitVec.getLsbD_ushiftRight, h32, hin, decide_false,
    Bool.not_false, Bool.true_and, if_true]
  rw [h v (8 + i) (by omega)]

theorem setWidth_promotes (v : U16) : ∀ i < 16, (v.setWidth 32).getLsbD i = v.getLsbD i := by
  intro i hi
  have h32 : i < 32 := by omega
  simp [h32]

theorem signExtend_promotes (v : U16) : ∀ i < 16, (v.signExtend 32).getLsbD i = v.getLsbD i := by
  intro i hi
  have h32 : i < 32 := by omega
  simp only [BitVec.getLsbD_signExtend, hi, h32, decide_true, Bool.true_and, if_true]

theorem generatePackLe16_eq {promote : U16 → U32} (h : ∀ v, ∀ i < 16, (promote v).getLsbD i = v.getLsbD i) (v : U16) :
    generatePackLe16 promote v = toBytes 2 v := by
  simp only [generatePackLe16, toBytes, low_byte, promoted_low h, promoted_high h]

theorem packLeU32_eq (v : U32) : packLeU32 v = toBytes 4 v := by
  simp only [packLeU32, toBytes, low_byte, ← BitVec.shiftRight_add]

theorem generatePackLe64_eq (v : U64) : generatePackLe64 v = toBytes 8 v := by
  simp only [generatePackLe64, toBytes, low_byte, ← BitVec.shiftRight_add]

theorem packLe_eq (t : PrimType) (v : t.Val) : packLe t v = toBytes t.size v := by
  cases t with
  | u8 => exact congrArg (fun b : U8 => [b]) (BitVec.setWidth_eq v).symm
  | i8 => exact congrArg (fun b : U8 => [b]) (BitVec.setWidth_eq v).symm
  | u16 => exact generatePackLe16_eq setWidth_promotes v
  | i16 => exact generatePackLe16_eq signExtend_promotes v
  | u32 => exact packLeU32_eq v
  | i32 => exact packLeU32_eq v
  | u64 => exact generatePackLe64_eq v
  | i64 => exact generatePackLe64_eq v
  | f => exact packLeU32_eq v
  | d => exact generatePackLe64_eq v

/-- the big-endian functions write the same bytes the other way round -/
theorem packBe_eq (t : PrimType) (v : t.Val) : packBe t v = (packLe t v).reverse := by
  cases t <;> rfl

theorem exists_ofFn {n : ℕ} {src : List U8} (h : src.length = n) : ∃ f : Fin n → U8, src = List.ofFn f := by
  subst h
  exact ⟨src.get, (List.ofFn_get src).symm⟩

theorem unpackBe_eq (t : PrimType) {src : List U8} (h : src.length = t.size) :
    unpackBe t src = unpackLe t src.reverse := by
  obtain ⟨f, rfl⟩ := exists_ofFn h
  cases t <;> rfl

theorem generateUnpackLe16_eq (f : Fin 2 → U8) : generateUnpackLe16 (List.ofFn f) = ofBytes 16 (List.ofFn f) := by
  apply BitVec.eq_of_getLsbD_eq
  intro i hi
  simp [generateUnpackLe16, ofBytes, hi]

theorem unpackLeU32_eq (f : Fin 4 → U8) : unpackLeU32 (List.ofFn f) = ofBytes 32 (List.ofFn f) := by
  simp [unpackLeU32, ofBytes, BitVec.shiftLeft_or_distrib, ← BitVec.shiftLeft_add]

theorem generateUnpackLe64_eq (f : Fin 8 → U8) : generateUnpackLe64 (List.ofFn f) = ofBytes 64 (List.ofFn f) := by
  simp [generateUnpackLe64, ofBytes, BitVec.shiftLeft_or_distrib, ← BitVec.shiftLeft_add]

theorem unpackLe_eq (t : PrimType) {src : List U8} (h : src.length = t.size) :
    unpackLe t src = ofBytes (8 * t.size) src := by
  have hbyte (f : Fin 1 → U8) : f 0 = ofBytes 8 (List.ofFn f) := by simp [ofBytes]
  obtain ⟨f, rfl⟩ := exists_ofFn h
  cases t with
  | u8 => exact hbyte f
  | i8 => exact hbyte f
  | u16 => exact generateUnpackLe16_eq f
  | i16 => exact generateUnpackLe16_eq f
  | u32 => exact unpackLeU32_eq f
  | i32 => exact unpackLeU32_eq f
  | f => exact unpackLeU32_eq f
  | u64 => exact generateUnpackLe64_eq f
  | i64 => exact generateUnpackLe64_eq f
  | d => exact generateUnpackLe64_eq f

namespace Field

/-- the bytes of a value in the order of the field -/
def bytes (k : Field) (v : k.Val) : List U8 :=
  match k.order with
  | .le => toBytes k.size v
  | .be => (toBytes k.size v).reverse

theorem bytes_length (k : Field) (v : k.Val) : (k.bytes v).length = k.size := by
  obtain ⟨order, t⟩ := k
  cases order <;> simp [bytes]

theorem pack_eq (k : Field) (v : k.Val) : k.pack v = k.bytes v := by
  obtain ⟨order, t⟩ := k
  cases order with
  | le => exact packLe_eq t v
  | be => exact (packBe_eq t v).trans (congrArg List.reverse (packLe_eq t v))

theorem bytes_unpack (k : Field) {src : List U8} (h : src.length = k.size) : k.bytes (k.unpack src) = src := by
  obtain ⟨order, t⟩ := k
  cases order with
  | le =>
    show toBytes t.size (unpackLe t src) = src
    rw [unpackLe_eq t h]
    exact toBytes_ofBytes h le_rfl
  | be =>
    have hrev : src.reverse.length = t.size := by rw [List.length_reverse]; exact h
    show (toBytes t.size (unpackBe t src)).reverse = src
    rw [unpackBe_eq t h, unpackLe_eq t hrev, toBytes_ofBytes hrev le_rfl, List.reverse_reverse]

theorem bytes_injective (k : Field) : Function.Injective k.bytes := by
  obtain ⟨order, t⟩ := k
  have hle : Function.Injective (toBytes (w := 8 * t.size) t.size) :=
    Function.LeftInverse.injective (g := ofBytes (8 * t.size)) fun v => ofBytes_toBytes v.isLt
  cases order with
  | le => exact hle
  | be => exact List.reverse_injective.comp hle

theorem unpack_bytes (k : Field) (v : k.Val) : k.unpack (k.bytes v) = v :=
  k.bytes_injective (k.bytes_unpack (k.bytes_length v))

end Field

theorem cursorPack_run (k : Field) (v : k.Val) {c : Cursor} (hc : c.Wf) :
    cursorPack k v c =
      if k.size ≤ cursorRemaining c then .ok () (c.write (k.bytes v)) else .error (.code .errBufExhausted) c := by
  have hlen := k.bytes_length v
  have hpos := hc.pos_le
  rw [cursorPack, Field.pack_eq]
  by_cases hroom : k.size ≤ cursorRemaining c
  · rw [if_pos hroom, (cursorPackLe_writes _).fits hc (hlen ▸ hroom)]
  · have hfull : c.pos + (k.bytes v).length > c.len := by
      simp only [cursorRemaining] at hroom
      omega
    rw [if_neg hroom, cursorPackLe, bind_ok (get_run c), if_pos hfull]
    rfl

theorem cursorUnpack_run (k : Field) {c : Cursor} (hc : c.Wf) :
    cursorUnpack k c =
      if k.size ≤ c.rest.length then .ok (k.unpack (c.rest.take k.size)) (c.skip k.size)
      else .error (.code .errBufExhausted) c :=
  cursorUnpackLe_run hc k.size k.unpack

/-! ## Records -/

/-- the values of a list of fields -/
def Record : List Field → Type
  | [] => Unit
  | k :: ks => k.Val × Record ks

/-- a caller that packs the fields of a record one after the other -/
def packRecord : (ks : List Field) → Record ks → Call CursorRes Cursor Unit
  | [], _ => pure ()
  | k :: ks, (val, vals) => do
    cursorPack k val
    packRecord ks vals

def unpackRecord : (ks : List Field) → Call CursorRes Cursor (Record ks)
  | [] => pure ()
  | k :: ks => do
    let val ← cursorUnpack k
    let vals ← unpackRecord ks
    return (val, vals)

def recordSize (ks : List Field) : ℕ := (ks.map Field.size).sum

def recordBytes : (ks : List Field) → Record ks → List U8
  | [], _ => []
  | k :: ks, (val, vals) => k.bytes val ++ recordBytes ks vals

/-- the record that a byte string starts with -/
def recordOf : (ks : List Field) → List U8 → Record ks
  | [], _ => ()
  | k :: ks, x => (k.unpack (x.take k.size), recordOf ks (x.drop k.size))

/-- the size of the fields before the first that does not fit -/
def fitting : List Field → ℕ → ℕ
  | [], _ => 0
  | k :: ks, room => if k.size ≤ room then k.size + fitting ks (room - k.size) else 0

theorem recordBytes_length (ks : List Field) (v : Record ks) : (recordBytes ks v).length = recordSize ks := by
  induction ks with
  | nil => rfl
  | cons k ks ih =>
    obtain ⟨val, vals⟩ := v
    simp [recordBytes, recordSize, Field.bytes_length, ih vals]

theorem recordOf_bytes (ks : List Field) (v : Record ks) (r : List U8) : recordOf ks (recordBytes ks v ++ r) = v := by
  induction ks with
  | nil => rfl
  | cons k ks ih =>
    obtain ⟨val, vals⟩ := v
    have hlen := k.bytes_length val
    simp only [recordOf, recordBytes, List.append_assoc]
    rw [List.take_left' hlen, List.drop_left' hlen, k.unpack_bytes, ih]

/-- every byte string that is long enough starts with a record -/
theorem bytes_recordOf (ks : List Field) {x : List U8} (h : recordSize ks ≤ x.length) :
    recordBytes ks (recordOf ks x) = x.take (recordSize ks) := by
  induction ks generalizing x with
  | nil => rfl
  | cons k ks ih =>
    simp only [recordSize, List.map_cons, List.sum_cons] at h
    have hrest : recordSize ks ≤ (x.drop k.size).length := by
      rw [List.length_drop, recordSize]
      omega
    have hfield : (x.take k.size).length = k.size := List.length_take_of_le (by omega)
    simp only [recordOf, recordBytes]
    rw [k.bytes_unpack hfield, ih hrest, ← List.take_add]
    rfl

theorem packRecord_run (ks : List Field) (v : Record ks) {c : Cursor} (hc : c.Wf) :
    packRecord ks v c =
      if recordSize ks ≤ cursorRemaining c then .ok () (c.write (recordBytes ks v))
      else .error (.code .errBufExhausted) (c.write ((recordBytes ks v).take (fitting ks (cursorRemaining c)))) := by
  induction ks generalizing c with
  | nil => simp [packRecord, recordSize, recordBytes, pure_run]
  | cons k ks ih =>
    obtain ⟨val, vals⟩ := v
    have hlen := k.bytes_length val
    have hk := cursorPack_run k val hc
    simp only [packRecord, recordBytes, fitting, recordSize, List.map_cons, List.sum_cons]
    by_cases hroom : k.size ≤ cursorRemaining c
    · have hfits : (k.bytes val).length ≤ cursorRemaining c := hlen ▸ hroom
      rw [if_pos hroom] at hk
      rw [bind_ok hk, ih vals (hc.write hfits), Cursor.write_remaining, hlen, hc.write_write hfits, hc.write_write hfits,
        if_pos hroom]
      have hsum : recordSize ks ≤ cursorRemaining c - k.size ↔ k.size + recordSize ks ≤ cursorRemaining c := by omega
      have htake (n : ℕ) : (k.bytes val ++ recordBytes ks vals).take (k.size + n) =
          k.bytes val ++ (recordBytes ks vals).take n := by
        rw [← hlen, List.take_length_add_append]
      rw [htake]
      exact if_congr hsum rfl rfl
    · rw [if_neg hroom] at hk
      rw [bind_error hk, if_neg (by omega), if_neg hroom, List.take_zero, Cursor.write_nil]

theorem unpackRecord_run (ks : List Field) {c : Cursor} (hc : c.Wf) :
    unpackRecord ks c =
      if recordSize ks ≤ c.rest.length then .ok (recordOf ks c.rest) (c.skip (recordSize ks))
      else .error (.code .errBufExhausted) (c.skip (fitting ks c.rest.length)) := by
  induction ks generalizing c with
  | nil => rfl
  | cons k ks ih =>
    have hk := cursorUnpack_run k hc
    simp only [unpackRecord, recordOf, fitting, recordSize, List.map_cons, List.sum_cons]
    by_cases hroom : k.size ≤ c.rest.length
    · rw [if_pos hroom] at hk
      have hrec := ih (hc.skip hroom)
      rw [Cursor.skip_rest, List.length_drop] at hrec
      rw [bind_ok hk, if_pos hroom]
      by_cases hall : recordSize ks ≤ c.rest.length - k.size
      · rw [if_pos hall] at hrec
        have hsum : k.size + recordSize ks ≤ c.rest.length := by omega
        rw [bind_ok hrec, pure_run, Cursor.skip_skip]
        exact (if_pos hsum).symm
      · rw [if_neg hall] at hrec
        have hsum : ¬k.size + recordSize ks ≤ c.rest.length := by omega
        rw [bind_error hrec, Cursor.skip_skip]
        exact (if_neg hsum).symm
    · rw [if_neg hroom] at hk
      rw [bind_error hk, if_neg (by omega), if_neg hroom, Cursor.skip_zero]
      rfl

/-- **Records of typed fields.** Through a well-formed cursor, for any fields:
packing writes the bytes of the record, or those of its fields before the first that does not fit;
unpacking what was packed gives the record, and packing what was unpacked gives the buffer;
unpacking fails on short input only, in front of the first field that does not fit. -/
theorem records_round_trip (ks : List Field) {c : Cursor} (hc : c.Wf) :
    (∀ v, packRecord ks v c =
      if recordSize ks ≤ cursorRemaining c then .ok () (c.write (recordBytes ks v))
      else .error (.code .errBufExhausted) (c.write ((recordBytes ks v).take (fitting ks (cursorRemaining c))))) ∧
    (∀ v, recordSize ks ≤ cursorRemaining c →
      unpackRecord ks { c.write (recordBytes ks v) with pos := c.pos } = .ok v (c.write (recordBytes ks v))) ∧
    (recordSize ks ≤ cursorRemaining c → ∃ v, unpackRecord ks c = .ok v (c.skip (recordSize ks)) ∧
      packRecord ks v c = .ok () (c.skip (recordSize ks))) ∧
    (cursorRemaining c < recordSize ks →
      unpackRecord ks c = .error (.code .errBufExhausted) (c.skip (fitting ks (cursorRemaining c)))) := by
  obtain ⟨t, tail, rfl⟩ := hc.exists_tape
  rw [Tape.cursor_remaining]
  refine ⟨fun v => ?_, fun v hroom => ?_, fun hroom => ?_, fun hshort => ?_⟩
  · rw [packRecord_run ks v hc, Tape.cursor_remaining]
  · have hlen := recordBytes_length ks v
    have hwrite := t.cursor_write tail (hlen ▸ hroom : (recordBytes ks v).length ≤ t.back.length)
    have hback := t.cursor_back tail (hlen ▸ hroom : (recordBytes ks v).length ≤ t.back.length)
    rw [hback, unpackRecord_run ks (Tape.cursor_wf _ tail), Tape.cursor_rest, recordOf_bytes, if_pos (by simp [hlen]),
      Tape.cursor_skip _ _ (by simp [hlen]), hwrite, Tape.move, List.take_left' hlen, List.drop_left' hlen, Tape.put]
  · refine ⟨recordOf ks t.back, ?_, ?_⟩
    · rw [unpackRecord_run ks hc, Tape.cursor_rest, if_pos hroom]
    · have hlen : (t.back.take (recordSize ks)).length = recordSize ks := List.length_take_of_le hroom
      rw [packRecord_run ks _ hc, Tape.cursor_remaining, if_pos hroom, bytes_recordOf ks hroom,
        Tape.cursor_write _ _ (List.length_take_le' _ _), Tape.cursor_skip _ _ hroom, Tape.put, Tape.move, hlen]
  · rw [unpackRecord_run ks hc, Tape.cursor_rest, if_neg (Nat.not_le.2 hshort)]

theorem records_round_trip_sample :
    packRecord [⟨.be, .i16⟩, ⟨.le, .f⟩, ⟨.le, .u8⟩] ((0xfffe : U16), (0x3f800000 : U32), (7 : U8), ())
        (cursorNew (List.replicate 7 0) 7) =
      .ok () (⟨[0xff, 0xfe, 0x00, 0x00, 0x80, 0x3f, 7], 7, 7⟩ : Cursor) ∧
    unpackRecord [⟨.be, .i16⟩, ⟨.le, .f⟩, ⟨.le, .u8⟩] (⟨[0xff, 0xfe, 0x00, 0x00, 0x80, 0x3f, 7], 7, 0⟩ : Cursor) =
      .ok ((0xfffe : U16), (0x3f800000 : U32), (7 : U8), ())
        (⟨[0xff, 0xfe, 0x00, 0x00, 0x80, 0x3f, 7], 7, 7⟩ : Cursor) := by
  have hwf : (cursorNew (List.replicate 7 0) 7).Wf := cursorNew_wf (by decide)
  obtain ⟨hpack, hunpack, -, -⟩ := records_round_trip [⟨.be, .i16⟩, ⟨.le, .f⟩, ⟨.le, .u8⟩] hwf
  exact ⟨hpack ((0xfffe : U16), (0x3f800000 : U32), (7 : U8), ()), hunpack ((0xfffe : U16), (0x3f800000 : U32), (7 : U8), ()) (by decide)⟩

end LongFi
