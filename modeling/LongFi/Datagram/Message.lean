/-
What a datagram means: the abstract message, its wire form and the parser as a specification.

A `Msg` holds what is transmitted: the type, the flag bits the type knows, the addresses, the fingerprint, the
variable-length numbers of the type, and the payload. Its two laws are fields, so a message with an unknown flag or a
missing number cannot be built. `wire` writes it behind the coded header; `parse` reads a body behind a decoded header.

- `parse_body`: what is written parses to the message it was written from.
- `parse_ok_iff`, `parse_error_iff`: what is accepted, and the reasons for each error code.
- `wire_length`: the size on the wire.
-/
import LongFi.Datagram.Ser

namespace LongFi

open LongFi.Core

/-! ## The format -/

/-- number of variable-length fields after `fp` -/
def LfcDgType.arity : LfcDgType → ℕ
  | .frameStart => 2
  | _ => 1

/-- the flag bits the type knows -/
def LfcDgType.mask : LfcDgType → U8
  | .frameData => 0x01
  | _ => 0x1f

/-- the fields between header and payload -/
structure Fields (n : ℕ) where
  oui : U32
  did : U32
  fp : U32
  nums : Codec.Row U32 n

def Fields.equiv (n : ℕ) : U32 × U32 × U32 × Codec.Row U32 n ≃ Fields n where
  toFun p := ⟨p.1, p.2.1, p.2.2.1, p.2.2.2⟩
  invFun f := (f.oui, f.did, f.fp, f.nums)
  left_inv _ := rfl
  right_inv _ := rfl

/-- the format of the fields -/
def fields (n : ℕ) : Codec U8 (Fields n) := (varint.seq (varint.seq (le32.seq (varint.rep n)))).iso (Fields.equiv n)

theorem fields_encode {n : ℕ} (f : Fields n) : (fields n).encode f =
    varint.encode f.oui ++ (varint.encode f.did ++ (le32.encode f.fp ++ f.nums.1.flatMap varint.encode)) := by
  rw [← Codec.rep_encode]
  rfl

@[ext] structure Msg where
  type : LfcDgType
  flags : U8
  oui : U32
  did : U32
  fp : U32
  nums : List U32
  pay : List U8
  flags_known : flags &&& type.mask = flags
  nums_length : nums.length = type.arity
deriving DecidableEq, Repr

def Msg.fields (m : Msg) : Fields m.type.arity := ⟨m.oui, m.did, m.fp, m.nums, m.nums_length⟩

/-- the fields and the payload -/
def Msg.body (m : Msg) : List U8 := (LongFi.fields m.type.arity).encode m.fields ++ m.pay

def Msg.hdr (m : Msg) : U16 := hdrValue m.type m.flags

def Msg.wire (m : Msg) : List U8 := hdrBytes (codeword m.hdr) ++ m.body

/-! ## The parser -/

/-- the bit the parser takes for the extended-tag bit -/
def hdrExtended (hdr : U16) : Bool := hdr >>> 12 &&& 1 = 1

/-- the type with a given number -/
def typeOf (typeBits : U8) : Option LfcDgType :=
  match typeBits.toNat with
  | 1 => some .monolithic
  | 2 => some .frameStart
  | 3 => some .frameData
  | 4 => some .ack
  | _ => none

def hdrType (hdr : U16) : Option LfcDgType := typeOf ((hdr >>> 6 &&& 0x1F).setWidth 8)

def hdrFlags (hdr : U16) : U8 := (hdr &&& 0x3F).setWidth 8

theorem mask_known (f : U8) (t : LfcDgType) : f &&& t.mask &&& t.mask = f &&& t.mask := by
  rw [BitVec.and_assoc, BitVec.and_self]

/-- every type knows the empty flags -/
theorem no_flags_known (t : LfcDgType) : 0 &&& t.mask = 0 := BitVec.zero_and

/-- the message with given fields -/
def Msg.ofFields (t : LfcDgType) (flags : U8) (f : Fields t.arity) (pay : List U8) : Msg where
  type := t
  flags := flags &&& t.mask
  oui := f.oui
  did := f.did
  fp := f.fp
  nums := f.nums.1
  pay := pay
  flags_known := mask_known flags t
  nums_length := f.nums.2

/-- a body behind a decoded header -/
def parse (hdr : U16) (body : List U8) : Except LfcRes Msg :=
  if hdrExtended hdr then .error .errException
  else
    match hdrType hdr with
    | none => .error .invalidType
    | some t =>
      match (fields t.arity).decode body with
      | none => .error .errNomem
      | some (f, pay) => .ok (Msg.ofFields t (hdrFlags hdr) f pay)

theorem parse_ok_iff {hdr : U16} {body : List U8} {m : Msg} : parse hdr body = .ok m ↔
    hdrExtended hdr = false ∧ ∃ t f pay, hdrType hdr = some t ∧ (fields t.arity).decode body = some (f, pay) ∧
      m = Msg.ofFields t (hdrFlags hdr) f pay := by
  unfold parse
  constructor
  · intro h
    by_cases hext : hdrExtended hdr = true
    · rw [if_pos hext] at h
      cases h
    · rw [if_neg hext] at h
      refine ⟨Bool.eq_false_iff.2 hext, ?_⟩
      split at h
      · cases h
      · rename_i t ht
        split at h
        · cases h
        · rename_i f pay hd
          exact ⟨t, f, pay, ht, hd, (Except.ok.inj h).symm⟩
  · rintro ⟨hext, t, f, pay, ht, hd, rfl⟩
    simp only [hext, ht, hd, Bool.false_eq_true, if_false]

/-- the three reasons for which a body is rejected, in the order in which they are checked -/
theorem parse_error_iff {hdr : U16} {body : List U8} {e : LfcRes} : parse hdr body = .error e ↔
    hdrExtended hdr = true ∧ e = .errException ∨
      hdrExtended hdr = false ∧ hdrType hdr = none ∧ e = .invalidType ∨
      hdrExtended hdr = false ∧ ∃ t, hdrType hdr = some t ∧ (fields t.arity).decode body = none ∧ e = .errNomem := by
  unfold parse
  by_cases hext : hdrExtended hdr = true
  · simp [hext, eq_comm]
  · rw [if_neg hext, Bool.eq_false_iff.2 hext]
    cases ht : hdrType hdr with
    | none => simp [eq_comm]
    | some t =>
      cases hd : (fields t.arity).decode body with
      | none => simp [hd, eq_comm]
      | some p => simp [hd]

/-! ## Round trip -/

/-- the three readings of a header value that was put together from a type and known flags -/
theorem hdr_read (t : LfcDgType) {f : U8} (h : f &&& t.mask = f) :
    hdrExtended (hdrValue t f) = false ∧ hdrType (hdrValue t f) = some t ∧ hdrFlags (hdrValue t f) = f := by
  have hall : ∀ t ∈ [LfcDgType.monolithic, .frameStart, .frameData, .ack], ∀ f : U8, f &&& t.mask = f →
      hdrExtended (hdrValue t f) = false ∧ hdrType (hdrValue t f) = some t ∧ hdrFlags (hdrValue t f) = f := by
    decide +kernel
  exact hall t (by cases t <;> decide) f h

/-- a known flag byte has no bits above the sixth -/
theorem known_and_C0 {t : LfcDgType} {f : U8} (h : f &&& t.mask = f) : f &&& 0xC0 = 0 := by
  have hm : t.mask &&& 0xC0 = 0#8 := by cases t <;> rfl
  rw [← h, BitVec.and_assoc, hm]
  exact BitVec.and_zero

theorem Msg.hdr_lt (m : Msg) : m.hdr.toNat < 2 ^ 12 := hdrValue_lt m.type (known_and_C0 m.flags_known)

theorem Msg.ofFields_fields (m : Msg) : Msg.ofFields m.type m.flags m.fields m.pay = m := by
  obtain ⟨t, f, oui, did, fp, nums, pay, hf, hn⟩ := m
  simp only [Msg.ofFields, Msg.fields, hf]

/-- **Round trip.** The body of a message parses to it behind its own header. -/
theorem parse_body (m : Msg) : parse m.hdr m.body = .ok m := by
  obtain ⟨hext, htype, hflags⟩ := hdr_read m.type m.flags_known
  simp only [parse, Msg.hdr, hext, htype, hflags, Msg.body, (fields m.type.arity).decode_encode]
  exact congrArg Except.ok m.ofFields_fields

/-- the size on the wire: header, fingerprint, payload, and 7 bits a byte for each variable-length field -/
def Msg.size (m : Msg) : ℕ := 3 + 4 + m.pay.length +
  (Base128.groups m.oui.toNat + Base128.groups m.did.toNat + (m.nums.map fun n => Base128.groups n.toNat).sum)

theorem Msg.wire_length (m : Msg) : m.wire.length = m.size := by
  rw [Msg.wire, Msg.body, fields_encode]
  simp only [Msg.fields, Msg.size, List.length_append, List.length_flatMap, varint_encode_length]
  simp only [hdrBytes, le32, packLeU32, List.length_cons, List.length_nil]
  omega

/-- the header on the wire stands for the message's header -/
theorem Msg.wire_near (m : Msg) : Near m.wire m.hdr := near_hdrBytes m.hdr_lt m.body

end LongFi
