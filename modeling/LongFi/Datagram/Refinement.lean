/-
The serializers, comparators and the parser against the message they transmit.

- `Dg.ser_writes`: a serializer writes the wire form of the datagram's message.
- `Dg.eq_iff`: a comparator decides equality of messages.
- `lfcDgDes_ok`, `lfcDgDes_error`: behind a header that decodes to v, the parser does what `parse v` says: it stores the
  message (`LfcDgDes.store`) and consumes the input, or returns the error code.
-/
import LongFi.Datagram.Des

namespace LongFi

open LongFi.Core

/-! ## Datagrams of any type -/

inductive Dg where
  | monolithic (d : LfcDgMonolithic)
  | frameStart (d : LfcDgFrameStart)
  | frameData (d : LfcDgFrameData)
  | ack (d : LfcDgAck)
deriving DecidableEq, Repr

namespace Dg

def type : Dg → LfcDgType
  | monolithic _ => .monolithic
  | frameStart _ => .frameStart
  | frameData _ => .frameData
  | ack _ => .ack

def payLen : Dg → ℕ
  | monolithic d => d.payLen
  | frameStart d => d.payLen
  | frameData d => d.payLen
  | ack d => d.payLen

def pay : Dg → PayBuf
  | monolithic d => d.pay
  | frameStart d => d.pay
  | frameData d => d.pay
  | ack d => d.pay

/-- the serializer of the type -/
def ser (B : Build) : Dg → Call LfcRes Cursor Unit
  | monolithic d => lfcDgMonolithicSer B d
  | frameStart d => lfcDgFrameStartSer B d
  | frameData d => lfcDgFrameDataSer B d
  | ack d => lfcDgAckSer B d

/-- the comparator of the type; datagrams of two types differ -/
def eq : Dg → Dg → Bool
  | monolithic l, monolithic r => lfcDgMonolithicEq l r
  | frameStart l, frameStart r => lfcDgFrameStartEq l r
  | frameData l, frameData r => lfcDgFrameDataEq l r
  | ack l, ack r => lfcDgAckEq l r
  | _, _ => false

theorem flagBitsSer_known : ∀ a b c d e, flagBitsSer a b c d e &&& 0x1f = flagBitsSer a b c d e := by decide

theorem ldpc_known : ∀ a, (BitVec.ofBool a).setWidth 8 &&& 0x01 = (BitVec.ofBool a).setWidth 8 := by decide

/-- what the datagram transmits -/
def msg : Dg → Msg
  | monolithic d =>
    { type := .monolithic, flags := lfcDgMonolithicFlagsSer d.flags, oui := d.oui, did := d.did, fp := d.fp,
      nums := [d.seq], pay := d.pay.mem.take d.payLen, flags_known := flagBitsSer_known .., nums_length := rfl }
  | frameStart d =>
    { type := .frameStart, flags := lfcDgFrameStartFlagsSer d.flags, oui := d.oui, did := d.did, fp := d.fp,
      nums := [d.seq, d.fragments], pay := d.pay.mem.take d.payLen, flags_known := flagBitsSer_known ..,
      nums_length := rfl }
  | frameData d =>
    { type := .frameData, flags := lfcDgFrameDataFlagsSer d.flags, oui := d.oui, did := d.did, fp := d.fp,
      nums := [d.fragment], pay := d.pay.mem.take d.payLen, flags_known := ldpc_known .., nums_length := rfl }
  | ack d =>
    { type := .ack, flags := lfcDgAckFlagsSer d.flags, oui := d.oui, did := d.did, fp := d.fp,
      nums := [d.seq], pay := d.pay.mem.take d.payLen, flags_known := flagBitsSer_known .., nums_length := rfl }

@[simp] theorem msg_type (d : Dg) : d.msg.type = d.type := by cases d <;> rfl

theorem msg_pay (d : Dg) : d.msg.pay = d.pay.mem.take d.payLen := by cases d <;> rfl

/-- the payload lies inside its array -/
theorem payLen_le {d : Dg} (h : d.payLen ≤ lfcDgConstantsMaxPayLen) : d.payLen ≤ d.pay.mem.length :=
  h.trans d.pay.room

end Dg

/-- the valid member -/
def LfcDgDes.dg (out : LfcDgDes) : Dg :=
  match out.type with
  | .monolithic => .monolithic out.monolithic
  | .frameStart => .frameStart out.frameStart
  | .frameData => .frameData out.frameData
  | .ack => .ack out.ack

/-! ## Serializing -/

theorem Msg.body_eq (m : Msg) : m.body = bodyBytes m.oui m.did m.fp m.nums m.pay := by
  rw [Msg.body, fields_encode, bodyBytes, List.append_assoc, List.append_assoc, List.append_assoc]
  rfl

theorem Dg.ser_writes (B : Build) {d : Dg} (h : d.payLen ≤ lfcDgConstantsMaxPayLen) :
    Writes (d.ser B) .errNomem d.msg.wire := by
  have hlen := Dg.payLen_le h
  have hflags := known_and_C0 d.msg.flags_known
  rw [Msg.wire, Msg.body_eq]
  cases d with
  | monolithic d => exact dgSer_writes B _ hflags _ _ _ _ hlen
  | frameStart d => exact dgSer_writes B _ hflags _ _ _ _ hlen
  | frameData d => exact dgSer_writes B _ hflags _ _ _ _ hlen
  | ack d => exact dgSer_writes B _ hflags _ _ _ _ hlen

theorem Dg.msg_pay_length {d : Dg} (h : d.payLen ≤ lfcDgConstantsMaxPayLen) : d.msg.pay.length = d.payLen := by
  rw [Dg.msg_pay]
  exact List.length_take_of_le (Dg.payLen_le h)

/-- the variable-length fields -/
def Dg.varints : Dg → List U32
  | monolithic d => [d.oui, d.did, d.seq]
  | frameStart d => [d.oui, d.did, d.seq, d.fragments]
  | frameData d => [d.oui, d.did, d.fragment]
  | ack d => [d.oui, d.did, d.seq]

/-- header, fingerprint, payload, and seven bits a byte for the variable-length fields -/
def Dg.serSize (d : Dg) : ℕ := 3 + 4 + d.payLen + (d.varints.map fun v => Base128.groups v.toNat).sum

theorem Dg.wire_length {d : Dg} (h : d.payLen ≤ lfcDgConstantsMaxPayLen) : d.msg.wire.length = d.serSize := by
  rw [Msg.wire_length, Msg.size, Dg.msg_pay_length h, Dg.serSize]
  congr 1
  cases d <;>
    simp only [Dg.msg, Dg.varints, List.map_cons, List.map_nil, List.sum_cons, List.sum_nil, Nat.add_assoc]

/-- what a serializer leaves in a fresh buffer -/
theorem Dg.ser_written {B : Build} {d : Dg} (h : d.payLen ≤ lfcDgConstantsMaxPayLen) {buf : List U8} {n : ℕ}
    (hn : n ≤ buf.length) {c : Cursor} (hser : d.ser B (cursorNew buf n) = .ok () c) : c.buf.take c.pos = d.msg.wire :=
  ((Dg.ser_writes B h).written (cursorNew_wf hn) hser).1

/-! ## Comparing -/

theorem flagBitsSer_inj : ∀ a b c d e a' b' c' d' e', flagBitsSer a b c d e = flagBitsSer a' b' c' d' e' ↔
    a = a' ∧ b = b' ∧ c = c' ∧ d = d' ∧ e = e' := by decide +kernel

theorem ldpc_inj : ∀ a b, (BitVec.ofBool a).setWidth 8 = (BitVec.ofBool b).setWidth 8 ↔ a = b := by decide

theorem payEq_iff {lLen rLen : ℕ} {l r : PayBuf} (hl : lLen ≤ l.mem.length) (hr : rLen ≤ r.mem.length) :
    payEq lLen l rLen r = true ↔ l.mem.take lLen = r.mem.take rLen := by
  simp only [payEq, Bool.and_eq_true, decide_eq_true_eq]
  constructor
  · rintro ⟨rfl, h⟩
    exact h
  · intro h
    have hlen := congrArg List.length h
    rw [List.length_take_of_le hl, List.length_take_of_le hr] at hlen
    subst hlen
    exact ⟨rfl, h⟩

/-- **A comparator decides equality of messages.** -/
theorem Dg.eq_iff {a b : Dg} (ha : a.payLen ≤ lfcDgConstantsMaxPayLen) (hb : b.payLen ≤ lfcDgConstantsMaxPayLen) :
    a.eq b = true ↔ a.msg = b.msg := by
  have hpay := payEq_iff (Dg.payLen_le ha) (Dg.payLen_le hb)
  have hlen : payEq a.payLen a.pay b.payLen b.pay = true → a.payLen = b.payLen := fun h => by
    simp only [payEq, Bool.and_eq_true, decide_eq_true_eq] at h
    exact h.1
  cases a with
  | monolithic a =>
    cases b with
    | monolithic b =>
      simp only [payLen, Dg.pay] at hpay hlen
      simp only [Dg.eq, lfcDgMonolithicEq, Bool.and_eq_true, decide_eq_true_eq, Dg.msg, Msg.ext_iff,
        lfcDgMonolithicFlagsSer, flagBitsSer_inj, ← hpay, List.cons.injEq, and_true, true_and, and_assoc]
      tauto
    | _ => simp [Dg.eq, Dg.msg, Msg.ext_iff]
  | frameStart a =>
    cases b with
    | frameStart b =>
      simp only [payLen, Dg.pay] at hpay
      simp only [Dg.eq, lfcDgFrameStartEq, Bool.and_eq_true, decide_eq_true_eq, Dg.msg, Msg.ext_iff,
        lfcDgFrameStartFlagsSer, flagBitsSer_inj, ← hpay, List.cons.injEq, and_true, true_and, and_assoc]
    | _ => simp [Dg.eq, Dg.msg, Msg.ext_iff]
  | frameData a =>
    cases b with
    | frameData b =>
      simp only [payLen, Dg.pay] at hpay
      simp only [Dg.eq, lfcDgFrameDataEq, Bool.and_eq_true, decide_eq_true_eq, Dg.msg, Msg.ext_iff,
        lfcDgFrameDataFlagsSer, ldpc_inj, ← hpay, List.cons.injEq, and_true, true_and, and_assoc]
    | _ => simp [Dg.eq, Dg.msg, Msg.ext_iff]
  | ack a =>
    cases b with
    | ack b =>
      simp only [payLen, Dg.pay] at hpay
      simp only [Dg.eq, lfcDgAckEq, Bool.and_eq_true, decide_eq_true_eq, Dg.msg, Msg.ext_iff,
        lfcDgAckFlagsSer, flagBitsSer_inj, ← hpay, List.cons.injEq, and_true, true_and, and_assoc]
    | _ => simp [Dg.eq, Dg.msg, Msg.ext_iff]

/-! ## Parsing -/

/-- the flag bits survive the trip through a struct -/
theorem flagBits_read : ∀ f : U8, flagBitsSer (flagBit f 0) (flagBit f 1) (flagBit f 2) (flagBit f 3) (flagBit f 4) =
    f &&& 0x1f := by decide +kernel

theorem ldpc_read : ∀ f : U8, (BitVec.ofBool (f &&& 1 = 1 : Bool)).setWidth 8 = f &&& 0x01 := by decide +kernel

theorem PayBuf.write_take (p : PayBuf) (bs : List U8) : (p.write bs).mem.take bs.length = bs := List.take_left' rfl

/-- the struct after storing the message m in the member of its type -/
def LfcDgDes.store (out : LfcDgDes) (m : Msg) : LfcDgDes :=
  match m.type with
  | .monolithic =>
    { out with
      type := .monolithic
      monolithic :=
        { flags := lfcDgMonolithicFlagsDes m.flags, oui := m.oui, did := m.did, fp := m.fp, seq := m.nums.getD 0 0,
          payLen := m.pay.length, pay := out.monolithic.pay.write m.pay } }
  | .frameStart =>
    { out with
      type := .frameStart
      frameStart :=
        { flags := lfcDgFrameStartFlagsDes m.flags, oui := m.oui, did := m.did, fp := m.fp, seq := m.nums.getD 0 0,
          fragments := m.nums.getD 1 0, payLen := m.pay.length, pay := out.frameStart.pay.write m.pay } }
  | .frameData =>
    { out with
      type := .frameData
      frameData :=
        { flags := lfcDgFrameDataFlagsDes m.flags, oui := m.oui, did := m.did, fp := m.fp, fragment := m.nums.getD 0 0,
          payLen := m.pay.length, pay := out.frameData.pay.write m.pay } }
  | .ack =>
    { out with
      type := .ack
      ack :=
        { flags := lfcDgAckFlagsDes m.flags, oui := m.oui, did := m.did, fp := m.fp, seq := m.nums.getD 0 0,
          payLen := m.pay.length, pay := out.ack.pay.write m.pay } }

/-- the stored datagram transmits the message -/
theorem LfcDgDes.store_msg (out : LfcDgDes) (m : Msg) : (out.store m).dg.msg = m := by
  obtain ⟨t, f, oui, did, fp, nums, pay, hf, hn⟩ := m
  cases t with
  | monolithic =>
    obtain ⟨v, rfl⟩ := List.length_eq_one_iff.1 hn
    simp only [store, dg, Dg.msg, Msg.ext_iff, lfcDgMonolithicFlagsSer, lfcDgMonolithicFlagsDes, flagBits_read,
      PayBuf.write_take, true_and, and_true]
    exact ⟨hf, rfl⟩
  | frameStart =>
    obtain ⟨v, w, rfl⟩ := List.length_eq_two.1 hn
    simp only [store, dg, Dg.msg, Msg.ext_iff, lfcDgFrameStartFlagsSer, lfcDgFrameStartFlagsDes, flagBits_read,
      PayBuf.write_take, true_and, and_true]
    exact ⟨hf, rfl⟩
  | frameData =>
    obtain ⟨v, rfl⟩ := List.length_eq_one_iff.1 hn
    simp only [store, dg, Dg.msg, Msg.ext_iff, lfcDgFrameDataFlagsSer, lfcDgFrameDataFlagsDes, ldpc_read,
      PayBuf.write_take, true_and, and_true]
    exact ⟨hf, rfl⟩
  | ack =>
    obtain ⟨v, rfl⟩ := List.length_eq_one_iff.1 hn
    simp only [store, dg, Dg.msg, Msg.ext_iff, lfcDgAckFlagsSer, lfcDgAckFlagsDes, flagBits_read, PayBuf.write_take,
      true_and, and_true]
    exact ⟨hf, rfl⟩

@[simp] theorem LfcDgDes.store_type (out : LfcDgDes) (m : Msg) : (out.store m).type = m.type := by
  unfold store
  cases h : m.type <;> rfl

@[simp] theorem LfcDgDes.store_hdrBitErrs (out : LfcDgDes) (m : Msg) : (out.store m).hdrBitErrs = out.hdrBitErrs := by
  unfold store
  cases h : m.type <;> rfl

theorem LfcDgDes.store_payLen (out : LfcDgDes) (m : Msg) : (out.store m).dg.payLen = m.pay.length := by
  unfold store dg
  cases h : m.type <;> rfl

theorem LfcDgDes.store_pay (out : LfcDgDes) (m : Msg) :
    (out.store m).dg.pay.mem.take (out.store m).dg.payLen = m.pay := by
  rw [← Dg.msg_pay, store_msg]

/-- the payload arrays of the union -/
def LfcDgDes.pays (out : LfcDgDes) : List PayBuf := [out.monolithic.pay, out.frameStart.pay, out.frameData.pay, out.ack.pay]

theorem monolithicStores_keeps : monolithicStores.Keeps LfcDgMonolithic.pay := by
  constructor <;> simp [monolithicStores]

theorem frameStartStores_keeps : frameStartStores.Keeps LfcDgFrameStart.pay := by
  constructor <;> simp [frameStartStores]

theorem frameDataStores_keeps : frameDataStores.Keeps LfcDgFrameData.pay := by
  constructor <;> simp [frameDataStores]

theorem ackStores_keeps : ackStores.Keeps LfcDgAck.pay := by
  constructor <;> simp [ackStores]

/-- no flag decoder looks at a bit its type does not know -/
theorem flagsDes_mask : ∀ f : U8, lfcDgMonolithicFlagsDes (f &&& 0x1f) = lfcDgMonolithicFlagsDes f ∧
    lfcDgFrameStartFlagsDes (f &&& 0x1f) = lfcDgFrameStartFlagsDes f ∧
    lfcDgFrameDataFlagsDes (f &&& 0x01) = lfcDgFrameDataFlagsDes f ∧
    lfcDgAckFlagsDes (f &&& 0x1f) = lfcDgAckFlagsDes f := by decide +kernel

/-- the switch, up to the assignment to `out->type` after it -/
theorem lfcDgDesSwitch_ok (B : Build) (hdr : LfcDgHdr) {c : Cursor} (hc : c.Wf) (out : LfcDgDes)
    {f : Fields hdr.type.arity} {pay : List U8} (h : (fields hdr.type.arity).decode c.rest = some (f, pay)) :
    lfcDgDesSwitch B hdr (c, out) = .ok () (c.skip c.rest.length,
      { out.store (Msg.ofFields hdr.type hdr.flagBits f pay) with type := out.type }) := by
  obtain ⟨errs, flagBits, t⟩ := hdr
  obtain ⟨hm, hs, hd, ha⟩ := flagsDes_mask flagBits
  cases t with
  | monolithic =>
    obtain ⟨v, hv⟩ := List.length_eq_one_iff.1 f.nums.2
    have hrun : lfcDgMonolithicDes B ⟨errs, flagBits, .monolithic⟩ (c, out.monolithic) = .ok () _ :=
      dgDes_ok monolithicStores_keeps B hc out.monolithic h
    simp only [lfcDgDesSwitch, unionMember_ok hrun, Stores.put, hv, LfcDgDes.store, Msg.ofFields, LfcDgType.mask, hm]
    rfl
  | frameStart =>
    obtain ⟨v, w, hv⟩ := List.length_eq_two.1 f.nums.2
    have hrun : lfcDgFrameStartDes B ⟨errs, flagBits, .frameStart⟩ (c, out.frameStart) = .ok () _ :=
      dgDes_ok frameStartStores_keeps B hc out.frameStart h
    simp only [lfcDgDesSwitch, unionMember_ok hrun, Stores.put, hv, LfcDgDes.store, Msg.ofFields, LfcDgType.mask, hs]
    rfl
  | frameData =>
    obtain ⟨v, hv⟩ := List.length_eq_one_iff.1 f.nums.2
    have hrun : lfcDgFrameDataDes B ⟨errs, flagBits, .frameData⟩ (c, out.frameData) = .ok () _ :=
      dgDes_ok frameDataStores_keeps B hc out.frameData h
    simp only [lfcDgDesSwitch, unionMember_ok hrun, Stores.put, hv, LfcDgDes.store, Msg.ofFields, LfcDgType.mask, hd]
    rfl
  | ack =>
    obtain ⟨v, hv⟩ := List.length_eq_one_iff.1 f.nums.2
    have hrun : lfcDgAckDes B ⟨errs, flagBits, .ack⟩ (c, out.ack) = .ok () _ := dgDes_ok ackStores_keeps B hc out.ack h
    simp only [lfcDgDesSwitch, unionMember_ok hrun, Stores.put, hv, LfcDgDes.store, Msg.ofFields, LfcDgType.mask, ha]
    rfl

/-- a sub-parser that fails on a member leaves the payload arrays and the rest of the struct alone -/
theorem unionMember_short {D : Type} {out : Stores D} {π : D → PayBuf} (hπ : out.Keeps π) {get : LfcDgDes → D}
    {put : D → LfcDgDes → LfcDgDes} {s : LfcDgDes} (hpays : ∀ d, π d = π (get s) → (put d s).pays = s.pays)
    (hrest : ∀ d, (put d s).hdrBitErrs = s.hdrBitErrs ∧ (put d s).type = s.type) (B : Build) (hdr : LfcDgHdr)
    {c : Cursor} (hc : c.Wf) (h : (fields out.nums.length).decode c.rest = none) :
    ∃ n s', n ≤ c.rest.length ∧ s'.pays = s.pays ∧ s'.hdrBitErrs = s.hdrBitErrs ∧ s'.type = s.type ∧
      unionMember get put (dgDes B hdr.type out hdr) (c, s) = .error (.code .errNomem) (c.skip n, s') := by
  obtain ⟨n, d, hn, hd, hrun⟩ := dgDes_error hπ B hc (get s) h
  exact ⟨n, put d s, hn, hpays d hd, (hrest d).1, (hrest d).2, unionMember_error hrun⟩

theorem lfcDgDesSwitch_error (B : Build) (hdr : LfcDgHdr) {c : Cursor} (hc : c.Wf) (out : LfcDgDes)
    (h : (fields hdr.type.arity).decode c.rest = none) :
    ∃ n out', n ≤ c.rest.length ∧ out'.pays = out.pays ∧ out'.hdrBitErrs = out.hdrBitErrs ∧ out'.type = out.type ∧
      lfcDgDesSwitch B hdr (c, out) = .error (.code .errNomem) (c.skip n, out') := by
  obtain ⟨errs, flagBits, t⟩ := hdr
  cases t with
  | monolithic =>
    simp only [lfcDgDesSwitch, lfcDgMonolithicDes]
    refine unionMember_short monolithicStores_keeps ?_ ?_ B ⟨errs, flagBits, .monolithic⟩ hc h
    · exact fun d hd => by simp [LfcDgDes.pays, hd]
    · exact fun _ => ⟨rfl, rfl⟩
  | frameStart =>
    simp only [lfcDgDesSwitch, lfcDgFrameStartDes]
    refine unionMember_short frameStartStores_keeps ?_ ?_ B ⟨errs, flagBits, .frameStart⟩ hc h
    · exact fun d hd => by simp [LfcDgDes.pays, hd]
    · exact fun _ => ⟨rfl, rfl⟩
  | frameData =>
    simp only [lfcDgDesSwitch, lfcDgFrameDataDes]
    refine unionMember_short frameDataStores_keeps ?_ ?_ B ⟨errs, flagBits, .frameData⟩ hc h
    · exact fun d hd => by simp [LfcDgDes.pays, hd]
    · exact fun _ => ⟨rfl, rfl⟩
  | ack =>
    simp only [lfcDgDesSwitch, lfcDgAckDes]
    refine unionMember_short ackStores_keeps ?_ ?_ B ⟨errs, flagBits, .ack⟩ hc h
    · exact fun d hd => by simp [LfcDgDes.pays, hd]
    · exact fun _ => ⟨rfl, rfl⟩

/-! ## The header -/

theorem lfcDgTypeDes_eq {σ : Type} (typeBits : U8) : (lfcDgTypeDes typeBits : Call LfcRes σ LfcDgType) =
    match typeOf typeBits with
    | some t => pure t
    | none => fail .invalidType := by
  have hcheck : ∀ b : U8, typeOf b = if b = 0 ∨ b > 4 then none else some (LfcDgType.cast b) := by decide +kernel
  rw [hcheck, lfcDgTypeDes]
  split_ifs <;> rfl

/-- too short for a header -/
theorem lfcDgHdrDes_short (B : Build) (junk : U16) {c : Cursor} (hc : c.Wf) (h : c.rest.length < 3) :
    lfcDgHdrDes B junk c = .error (.code .errNomem) c := by
  have htake : csrRes (cursorTake 3) c = .error (.code .errNomem) c :=
    recode_code (by rw [cursorTake_run hc, if_neg (Nat.not_le.2 h)])
  rw [lfcDgHdrDes, bind_error htake]

/-- the header parser, by what `golay_decode12` makes of the three bytes -/
theorem lfcDgHdrDes_run (B : Build) (junk : U16) {c : Cursor} (hc : c.Wf) (h : 3 ≤ c.rest.length) {errs : ℤ} {v : U16}
    (hdec : golayDecode12 B (c.rest.take 3) junk = .ok (errs, v)) :
    lfcDgHdrDes B junk c =
      if hdrExtended v then .error (.code .errException) (c.skip 3)
      else
        match hdrType v with
        | some t => .ok ⟨errs, hdrFlags v, t⟩ (c.skip 3)
        | none => .error (.code .invalidType) (c.skip 3) := by
  have htake : csrRes (cursorTake 3) c = .ok (c.rest.take 3) (c.skip 3) :=
    recode_ok (by rw [cursorTake_run hc, if_pos h])
  rw [lfcDgHdrDes, bind_ok htake, hdec, bind_ok (lift_ok _ _)]
  simp only [lfcDgTypeDes_eq]
  by_cases hext : hdrExtended v = true
  · rw [if_pos hext]
    exact congrFun (if_pos hext) (c.skip 3)
  · rw [if_neg hext]
    refine (congrFun (if_neg hext) (c.skip 3)).trans ?_
    unfold hdrType
    cases typeOf ((v >>> 6 &&& 0x1F).setWidth 8) <;> rfl

/-! ## The parser -/

theorem lfcDgDes_short (B : Build) (junk : U16) {c : Cursor} (hc : c.Wf) (h : c.rest.length < 3) (out : LfcDgDes) :
    lfcDgDes B junk (c, out) = .error (.code .errNomem) (c, out) := by
  rw [lfcDgDes, bind_error (onCursor_error (lfcDgHdrDes_short B junk hc h))]

section Header

variable (B : Build) (junk : U16) {c : Cursor} (hc : c.Wf) (h : 3 ≤ c.rest.length) {errs : ℤ} {v : U16}
  (hdec : golayDecode12 B (c.rest.take 3) junk = .ok (errs, v)) (out : LfcDgDes)
include hc h hdec

/-- **The parser refines its specification**: what `parse` accepts is stored, and the input is consumed. -/
theorem lfcDgDes_ok {m : Msg} (hm : parse v (c.rest.drop 3) = .ok m) :
    lfcDgDes B junk (c, out) = .ok () (c.skip c.rest.length, out.store m) := by
  have hhdr := lfcDgHdrDes_run B junk hc h hdec
  obtain ⟨hext, t, f, pay, ht, hd, rfl⟩ := parse_ok_iff.1 hm
  simp only [hext, ht, Bool.false_eq_true, if_false] at hhdr
  have hswitch := lfcDgDesSwitch_ok B ⟨errs, hdrFlags v, t⟩ (hc.skip h) out (by rw [Cursor.skip_rest]; exact hd)
  have hlen : 3 + (c.skip 3).rest.length = c.rest.length := by
    rw [Cursor.skip_rest, List.length_drop]
    exact Nat.add_sub_cancel' h
  rw [Cursor.skip_skip, hlen] at hswitch
  rw [lfcDgDes, bind_ok (onCursor_ok hhdr), bind_ok hswitch, modify_run]
  congr 2
  unfold LfcDgDes.store Msg.ofFields
  cases t <;> rfl

/-- **The parser refines its specification**: what `parse` rejects is rejected with the same code, inside the input, with
the payload arrays and the error count untouched. -/
theorem lfcDgDes_error {e : LfcRes} (he : parse v (c.rest.drop 3) = .error e) :
    ∃ n out', n ≤ c.rest.length ∧ out'.pays = out.pays ∧ out'.hdrBitErrs = out.hdrBitErrs ∧ out'.type = out.type ∧
      lfcDgDes B junk (c, out) = .error (.code e) (c.skip n, out') := by
  have hhdr := lfcDgHdrDes_run B junk hc h hdec
  rcases parse_error_iff.1 he with ⟨hext, rfl⟩ | ⟨hext, ht, rfl⟩ | ⟨hext, t, ht, hd, rfl⟩
  · rw [if_pos hext] at hhdr
    exact ⟨3, out, h, rfl, rfl, rfl, by rw [lfcDgDes, bind_error (onCursor_error hhdr)]⟩
  · simp only [hext, ht, Bool.false_eq_true, if_false] at hhdr
    exact ⟨3, out, h, rfl, rfl, rfl, by rw [lfcDgDes, bind_error (onCursor_error hhdr)]⟩
  · simp only [hext, ht, Bool.false_eq_true, if_false] at hhdr
    obtain ⟨n, out', hn, hp, hb, hty, hswitch⟩ := lfcDgDesSwitch_error B ⟨errs, hdrFlags v, t⟩ (hc.skip h) out
      (by rw [Cursor.skip_rest]; exact hd)
    rw [Cursor.skip_rest, List.length_drop] at hn
    refine ⟨3 + n, out', by omega, hp, hb, hty, ?_⟩
    rw [lfcDgDes, bind_ok (onCursor_ok hhdr), bind_error hswitch, Cursor.skip_skip]

end Header

end LongFi
