/-
What the parser does not check in a header, and does not report about it.

- `extended_not_rejected`: the extended-tag bit is bit 11, the test reads bit 12 of a 12-bit value. An extended datagram
  is taken for the basic one with the same type bits.
- `checksFlags_iff`: unknown flag bits are dropped, `lfc_res_invalid_flags` is never returned.
- `reportsHdrErrs_iff`: `hdr_bit_errs` is never written, so it is right only if it was right before.
-/
import LongFi.Datagram.Received

namespace LongFi

open LongFi.Core

/-! ## The extended tag -/

/-- the parser returns `lfc_res_err_exception` -/
def RejectsExtended (B : Build) (junk : U16) (x : List U8) (out : LfcDgDes) : Prop :=
  ∃ s, lfcDgDes B junk (cursorNew x x.length, out) = .error (.code .errException) s

/-- a decoded header value has no bit 12 -/
theorem hdrExtended_of_lt {v : U16} (hv : v.toNat < 2 ^ 12) : hdrExtended v = false := by
  have hz : v >>> 12 = 0 := by
    apply BitVec.eq_of_toNat_eq
    rw [BitVec.toNat_ushiftRight, Nat.shiftRight_eq_div_pow, Nat.div_eq_of_lt hv]
    rfl
  rw [hdrExtended, hz]
  rfl

/-- the parser reads type and flags from the low eleven bits -/
theorem parse_low {v w : U16} (hv : v.toNat < 2 ^ 12) (hw : w.toNat < 2 ^ 12) (h : v &&& 0x7ff = w &&& 0x7ff)
    (body : List U8) : parse v body = parse w body := by
  have hlow : ∀ u : U16, hdrType u = hdrType (u &&& 0x7ff) ∧ hdrFlags u = hdrFlags (u &&& 0x7ff) := by
    intro u
    have htype : u >>> 6 &&& 0x1F = (u &&& 0x7ff) >>> 6 &&& 0x1F := by
      rw [BitVec.ushiftRight_and_distrib, BitVec.and_assoc]
      rfl
    have hflags : u &&& 0x3F = u &&& 0x7ff &&& 0x3F := by
      rw [BitVec.and_assoc]
      rfl
    exact ⟨congrArg (fun t : U16 => typeOf (t.setWidth 8)) htype, congrArg (BitVec.setWidth 8) hflags⟩
  simp only [parse, hdrExtended_of_lt hv, hdrExtended_of_lt hw]
  rw [(hlow v).1, (hlow v).2, (hlow w).1, (hlow w).2, h]

/-- the tag bit is above the bits the parser reads -/
theorem flip_tag_low (v : U16) : v &&& 0x7ff = (v ^^^ 0x800) &&& 0x7ff := by
  have hbits : ∀ i < 16, (0x7ff : U16).getLsbD i = true → (0x800 : U16).getLsbD i = false := by decide
  apply BitVec.eq_of_getLsbD_eq
  intro i hi
  rw [BitVec.getLsbD_and, BitVec.getLsbD_and, BitVec.getLsbD_xor]
  cases h : (0x7ff : U16).getLsbD i with
  | false => simp only [Bool.and_false]
  | true => rw [hbits i hi h, Bool.xor_false]

section Tag

variable (B : Build) (junk : U16) {x : List U8} {v : U16} (h : Near x v) (out : LfcDgDes)
include h

/-- the parser has one reason for `lfc_res_err_exception`, and no decoded header gives it -/
theorem not_rejectsExtended : ¬RejectsExtended B junk x out := by
  intro ⟨s, hs⟩
  rcases parse_error_iff.1 (parse_of_rejected (Or.inl h) hs) with ⟨hx, -⟩ | ⟨-, -, he⟩ | ⟨-, -, -, -, he⟩
  · rw [hdrExtended_of_lt h.value] at hx
    cases hx
  · cases he
  · cases he

/-- the same bytes behind the header with the tag bit flipped are parsed to the same datagram -/
theorem parsesTo_flip_tag (out' : LfcDgDes) : ParsesTo B junk x out out' ↔
    ParsesTo B junk (hdrBytes (codeword (v ^^^ 0x800)) ++ x.drop 3) out out' := by
  have hflip : (v ^^^ 0x800).toNat < 2 ^ 12 := by
    rw [BitVec.toNat_xor]
    exact Nat.xor_lt_two_pow h.value (by decide)
  have hlen : (hdrBytes (codeword (v ^^^ 0x800))).length = 3 := rfl
  rw [parsesTo_iff B (Or.inl h), parsesTo_iff B (Or.inl (near_hdrBytes hflip (x.drop 3))), List.drop_left' hlen,
    parse_low h.value hflip (flip_tag_low v)]

end Tag

/-- **Extended tags are never rejected**: the datagram is accepted exactly as the one without the tag. -/
theorem extended_not_rejected (B : Build) (junk : U16) {x : List U8} {v : U16} (h : Near x v)
    (hext : v.getLsbD 11 = true) (out : LfcDgDes) :
    ¬RejectsExtended B junk x out ∧ (v ^^^ 0x800).getLsbD 11 = false ∧
      ∀ out', ParsesTo B junk x out out' ↔
        ParsesTo B junk (hdrBytes (codeword (v ^^^ 0x800)) ++ x.drop 3) out out' := by
  refine ⟨not_rejectsExtended B junk h out, ?_, parsesTo_flip_tag B junk h out⟩
  rw [BitVec.getLsbD_xor, hext]
  rfl

/-- 40 e8 54 is the coded header 0x840: the tag bit, and type bits 1 -/
theorem near_extended (r : List U8) : Near (0x40 :: 0xe8 :: 0x54 :: r) 0x840 := by
  have hbytes : hdrBytes (codeword 0x840) = [0x40, 0xe8, 0x54] := by decide +kernel
  have h := near_hdrBytes (m := 0x840) (by decide) r
  rwa [hbytes] at h

theorem extended_not_rejected_sample :
    ¬RejectsExtended .debug 0 [0x40, 0xe8, 0x54, 0, 0, 0, 0, 0, 0, 0] .zero ∧
      ((0x840 : U16) ^^^ 0x800).getLsbD 11 = false ∧
      ∀ out', ParsesTo .debug 0 [0x40, 0xe8, 0x54, 0, 0, 0, 0, 0, 0, 0] .zero out' ↔
        ParsesTo .debug 0 (hdrBytes (codeword (0x840 ^^^ 0x800)) ++ [0, 0, 0, 0, 0, 0, 0]) .zero out' :=
  extended_not_rejected .debug 0 (near_extended [0, 0, 0, 0, 0, 0, 0]) (by decide) .zero

/-- an extended datagram is accepted as an empty monolithic one -/
theorem extended_accepted :
    Near [0x40, 0xe8, 0x54, 0, 0, 0, 0, 0, 0, 0] 0x840 ∧ (0x840 : U16).getLsbD 11 = true ∧
      (∃ out', ParsesTo .debug 0 [0x40, 0xe8, 0x54, 0, 0, 0, 0, 0, 0, 0] .zero out' ∧ out'.type = .monolithic) ∧
      ¬RejectsExtended .debug 0 [0x40, 0xe8, 0x54, 0, 0, 0, 0, 0, 0, 0] .zero := by
  have hnear := near_extended [0, 0, 0, 0, 0, 0, 0]
  have hbody : (zeroMsg 0).body = [0, 0, 0, 0, 0, 0, 0] := by decide +kernel
  have hparse : parse 0x840 (zeroMsg 0).body = .ok (zeroMsg 0) := by
    rw [parse_low (w := (zeroMsg 0).hdr) (by decide) (by decide) (by decide), parse_body]
  rw [hbody] at hparse
  refine ⟨hnear, by decide, ⟨_, (parsesTo_iff .debug (Or.inl hnear) .zero _).2 ⟨_, hparse, rfl⟩, rfl⟩, ?_⟩
  exact not_rejectsExtended .debug 0 hnear .zero

/-! ## The flag bits -/

/-- the flag bits of a datagram, by the flag encoder of its type -/
def Dg.flagBits : Dg → U8
  | monolithic d => lfcDgMonolithicFlagsSer d.flags
  | frameStart d => lfcDgFrameStartFlagsSer d.flags
  | frameData d => lfcDgFrameDataFlagsSer d.flags
  | ack d => lfcDgAckFlagsSer d.flags

theorem Dg.msg_flags (d : Dg) : d.msg.flags = d.flagBits := by cases d <;> rfl

/-- decoded and encoded again by the flag functions of a type -/
def reserFlags : LfcDgType → U8 → U8
  | .monolithic, f => lfcDgMonolithicFlagsSer (lfcDgMonolithicFlagsDes f)
  | .frameStart, f => lfcDgFrameStartFlagsSer (lfcDgFrameStartFlagsDes f)
  | .frameData, f => lfcDgFrameDataFlagsSer (lfcDgFrameDataFlagsDes f)
  | .ack, f => lfcDgAckFlagsSer (lfcDgAckFlagsDes f)

theorem reserFlags_eq (t : LfcDgType) (f : U8) : reserFlags t f = f &&& t.mask := by
  cases t with
  | monolithic => exact flagBits_read f
  | frameStart => exact flagBits_read f
  | frameData => exact ldpc_read f
  | ack => exact flagBits_read f

/-- the flag bits of a header are checked: an accepted datagram has all of them, so that its type and flags give back the
header value v, and flags that the type cannot represent are an error -/
structure ChecksFlags (B : Build) (junk : U16) (x : List U8) (v : U16) (t : LfcDgType) (out : LfcDgDes) : Prop where
  flags : ∀ out', ParsesTo B junk x out out' → out'.dg.flagBits = hdrFlags v
  header : ∀ out', ParsesTo B junk x out out' → hdrValue out'.type out'.dg.flagBits = v
  unknown : reserFlags t (hdrFlags v) ≠ hdrFlags v →
    ∃ s, lfcDgDes B junk (cursorNew x x.length, out) = .error (.code .invalidFlags) s

/-- a header value without the tag bit is its type and its flag bits -/
theorem hdrValue_read {v : U16} {t : LfcDgType} (hv : v.toNat < 2 ^ 12) (h11 : v.getLsbD 11 = false)
    (ht : hdrType v = some t) : hdrValue t (hdrFlags v) = v := by
  have htype : ∀ b : U8, ∀ t ∈ [LfcDgType.monolithic, .frameStart, .frameData, .ack], typeOf b = some t →
      t.val = b.setWidth 16 := by decide +kernel
  have hval := htype _ t (by cases t <;> decide) ht
  have h1F : ∀ j < 16, (0x1F : U16).getLsbD j = decide (j < 5) := by decide
  have h3F : ∀ j < 16, (0x3F : U16).getLsbD j = decide (j < 6) := by decide
  apply BitVec.eq_of_getLsbD_eq
  intro i hi
  rw [hdrValue, hval, hdrFlags, BitVec.getLsbD_or, BitVec.getLsbD_shiftLeft]
  simp only [BitVec.getLsbD_setWidth, BitVec.getLsbD_and, BitVec.getLsbD_ushiftRight]
  by_cases h6 : i < 6
  · rw [h3F i hi]
    simp [h6, hi]
    omega
  · rw [h3F i hi, h1F (i - 6) (by omega), Nat.add_sub_cancel' (Nat.not_lt.1 h6)]
    by_cases h10 : i < 11
    · have h16 : i - 6 < 16 := by omega
      have h8 : i - 6 < 8 := by omega
      have h5 : i - 6 < 5 := by omega
      simp [h6, hi, h16, h8, h5]
    · have hz : v.getLsbD i = false := by
        rcases Nat.eq_or_lt_of_le (Nat.not_lt.1 h10) with rfl | h12
        · exact h11
        · exact Nat.testBit_lt_two_pow (hv.trans_le (Nat.pow_le_pow_right (by norm_num) h12))
      simp [h6, hz]

theorem representable_iff (t : LfcDgType) (f : U8) : reserFlags t f = f ↔ f &&& t.mask = f := by
  rw [reserFlags_eq]

/-- the flags that are stored are the ones the type knows -/
theorem stored_flags {v : U16} {t : LfcDgType} (ht : hdrType v = some t) {body : List U8} {m : Msg}
    (hm : parse v body = .ok m) : m.type = t ∧ m.flags = hdrFlags v &&& t.mask := by
  obtain ⟨-, t', f, pay, ht', -, rfl⟩ := parse_ok_iff.1 hm
  obtain rfl := Option.some.inj (ht'.symm.trans ht)
  exact ⟨rfl, rfl⟩

/-- no input is rejected for its flags -/
theorem not_invalidFlags {B : Build} {junk v : U16} {x : List U8} (h : Header junk x v) (out : LfcDgDes) :
    ¬∃ s, lfcDgDes B junk (cursorNew x x.length, out) = .error (.code .invalidFlags) s := by
  intro ⟨s, hs⟩
  rcases parse_error_iff.1 (parse_of_rejected h hs) with ⟨-, he⟩ | ⟨-, -, he⟩ | ⟨-, -, -, -, he⟩ <;> cases he

/-- **Unknown flag bits are dropped**: the flag bits of a header are checked iff the type knows all of them, bits 0 to 4,
or bit 0 for frame data. -/
theorem checksFlags_iff (B : Build) (junk : U16) {x : List U8} {v : U16} (h : Near x v) (h11 : v.getLsbD 11 = false)
    {t : LfcDgType} (ht : hdrType v = some t) (out : LfcDgDes) :
    ChecksFlags B junk x v t out ↔ hdrFlags v &&& t.mask = hdrFlags v := by
  constructor
  · intro hc
    by_contra hunknown
    rw [← representable_iff] at hunknown
    exact not_invalidFlags (Or.inl h) out (hc.unknown hunknown)
  · intro hknown
    have hstored : ∀ out', ParsesTo B junk x out out' → out'.type = t ∧ out'.dg.flagBits = hdrFlags v := by
      intro out' hout
      obtain ⟨m, hm, rfl⟩ := (parsesTo_iff B (Or.inl h) out out').1 hout
      obtain ⟨htype, hflags⟩ := stored_flags ht hm
      rw [LfcDgDes.store_type, ← Dg.msg_flags, LfcDgDes.store_msg]
      exact ⟨htype, hflags.trans hknown⟩
    refine ⟨?_, ?_, ?_⟩
    · intro out' hout
      exact (hstored out' hout).2
    · intro out' hout
      obtain ⟨htype, hflags⟩ := hstored out' hout
      rw [htype, hflags, hdrValue_read h.value h11 ht]
    · intro hunknown
      exact absurd ((representable_iff t _).2 hknown) hunknown

/-- 60 40 6e is the coded header 0x060: type bits 1, and the flag bit that no type knows -/
theorem near_reserved (r : List U8) : Near (0x60 :: 0x40 :: 0x6e :: r) 0x060 := by
  have hbytes : hdrBytes (codeword 0x060) = [0x60, 0x40, 0x6e] := by decide +kernel
  have h := near_hdrBytes (m := 0x060) (by decide) r
  rwa [hbytes] at h

theorem checksFlags_iff_sample :
    ChecksFlags .debug 0 [0x60, 0x40, 0x6e, 0, 0, 0, 0, 0, 0, 0] 0x060 .monolithic .zero ↔
      hdrFlags 0x060 &&& LfcDgType.monolithic.mask = hdrFlags 0x060 :=
  checksFlags_iff .debug 0 (near_reserved [0, 0, 0, 0, 0, 0, 0]) (by decide) (by decide) .zero

/-- the headers 0x060 and 0x040 are parsed to the same datagram -/
theorem reserved_flag_dropped :
    (∃ out', ParsesTo .debug 0 [0x60, 0x40, 0x6e, 0, 0, 0, 0, 0, 0, 0] .zero out' ∧
      ParsesTo .debug 0 [0x40, 0x30, 0xda, 0, 0, 0, 0, 0, 0, 0] .zero out') ∧
      ¬ChecksFlags .debug 0 [0x60, 0x40, 0x6e, 0, 0, 0, 0, 0, 0, 0] 0x060 .monolithic .zero := by
  have hnear := near_reserved [0, 0, 0, 0, 0, 0, 0]
  have hwire : (zeroMsg 0).wire = [0x40, 0x30, 0xda, 0, 0, 0, 0, 0, 0, 0] := by decide +kernel
  have hbody : (zeroMsg 0).body = [0, 0, 0, 0, 0, 0, 0] := by decide +kernel
  have hparse := parse_body (zeroMsg 0)
  have hreserved : parse 0x060 (zeroMsg 0).body = .ok (zeroMsg 0) := by
    rw [← hparse, hbody]
    rfl
  rw [hbody] at hreserved
  refine ⟨⟨LfcDgDes.zero.store (zeroMsg 0), ?_, ?_⟩, fun hc => ?_⟩
  · exact (parsesTo_iff .debug (Or.inl hnear) .zero _).2 ⟨_, hreserved, rfl⟩
  · rw [← hwire]
    exact (parsesTo_iff .debug (Or.inl (zeroMsg 0).wire_near) .zero _).2 ⟨_, hparse, rfl⟩
  · exact not_invalidFlags (Or.inl hnear) .zero (hc.unknown (by decide))

/-! ## The error count -/

/-- n is the number of bits in which the header differs from the nearest coded header, which the decoder corrects -/
structure CorrectedBits (x : List U8) (n : ℕ) : Prop where
  nearest : IsLeast (headerDistances x) n
  le_three : n ≤ 3

theorem correctedBits_iff {x : List U8} {v : U16} (h : Near x v) (n : ℕ) :
    CorrectedBits x n ↔ n = weight (golayInput x ^^^ codeword v) := by
  constructor
  · intro hn
    exact hn.nearest.unique h.nearest
  · intro hn
    rw [hn]
    exact ⟨h.nearest, h.close⟩

/-- an accepted datagram comes with the number of corrected bits -/
def ReportsHdrErrs (B : Build) (junk : U16) (x : List U8) (out : LfcDgDes) : Prop :=
  ∀ out', ParsesTo B junk x out out' → CorrectedBits x out'.hdrBitErrs

theorem parsesTo_hdrBitErrs {B : Build} {junk : U16} {x : List U8} {out out' : LfcDgDes}
    (h : ParsesTo B junk x out out') : out'.hdrBitErrs = out.hdrBitErrs := by
  obtain ⟨c, hrun⟩ := h
  obtain ⟨v, m, -, -, rfl⟩ := lfcDgDes_stored hrun
  exact LfcDgDes.store_hdrBitErrs out m

/-- **The error count is never written**: it is right iff the input is rejected or the old content was right. -/
theorem reportsHdrErrs_iff (B : Build) (junk : U16) (x : List U8) (out : LfcDgDes) : ReportsHdrErrs B junk x out ↔
    ∀ v m, Header junk x v → parse v (x.drop 3) = .ok m → CorrectedBits x out.hdrBitErrs := by
  constructor
  · intro h v m hv hm
    have hout := (parsesTo_iff B hv out _).2 ⟨m, hm, rfl⟩
    have hbits := h _ hout
    rwa [parsesTo_hdrBitErrs hout] at hbits
  · rintro h out' ⟨c, hrun⟩
    obtain ⟨v, m, hv, hm, -⟩ := lfcDgDes_stored hrun
    rw [parsesTo_hdrBitErrs ⟨c, hrun⟩]
    exact h v m hv hm

/-- with one flipped header bit the count stays 0 -/
theorem one_flip_not_reported :
    damage 1 (zeroMsg 0).wire = [0x41, 0x30, 0xda, 0, 0, 0, 0, 0, 0, 0] ∧
      (∃ out', ParsesTo .debug 0 (damage 1 (zeroMsg 0).wire) .zero out' ∧ out'.hdrBitErrs = 0) ∧
      CorrectedBits (damage 1 (zeroMsg 0).wire) 1 ∧
      ¬ReportsHdrErrs .debug 0 (damage 1 (zeroMsg 0).wire) .zero := by
  have hflip : weight (1 : BitVec 24) = 1 := by decide +kernel
  obtain ⟨hnear, hw⟩ := damage_near (hflip.trans_le (by norm_num)) (zeroMsg 0).hdr_lt (zeroMsg 0).body
  have hparsed : ParsesTo .debug 0 (damage 1 (zeroMsg 0).wire) .zero (LfcDgDes.zero.store (zeroMsg 0)) :=
    (parsesTo_iff .debug (Or.inl hnear) .zero _).2 ⟨_, parse_body (zeroMsg 0), rfl⟩
  have hbits := correctedBits_iff hnear
  refine ⟨by decide +kernel, ⟨_, hparsed, rfl⟩, (hbits 1).2 (hw.trans hflip).symm, fun h => ?_⟩
  have hzero := (hbits 0).1 (h _ hparsed)
  rw [hw, hflip] at hzero
  cases hzero

end LongFi
