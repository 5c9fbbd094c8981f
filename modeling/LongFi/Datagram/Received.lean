/-
What the parser makes of received bytes.

`Header junk x v`: behind the first three bytes of x the parser works with the header value v. It is the value the bytes
stand for when they are within three bit errors of a coded header. When they are not, `golay_decode12` fails, the parser
does not look at its result, and v is whatever the variable `dec_hdr_bits` held before.

- `lfcDgDes_accepts`, `lfcDgDes_rejects`: the parser does what `parse v` says.
- `noisy_round_trip`: a serialized datagram with up to three header bit errors parses to an equal datagram.
- `payloadSafe_iff`: the payload copy stays inside its array iff the bytes after the fields fit.
- `uncorrectable_not_rejected`: an uncorrectable header is not recognized.
-/
import LongFi.Datagram.Refinement

namespace LongFi

open LongFi.Core

/-! ## The parser on a byte string -/

/-- the header value the parser works with -/
def Header (junk : U16) (x : List U8) (v : U16) : Prop := Near x v ∨ Uncorrectable x ∧ v = junk

theorem Header.long {junk v : U16} {x : List U8} (h : Header junk x v) : 3 ≤ x.length := by
  rcases h with h | ⟨h, -⟩
  · exact h.long
  · exact h.long

theorem exists_header (junk : U16) {x : List U8} (h : 3 ≤ x.length) : ∃ v, Header junk x v := by
  rcases near_or_uncorrectable h with ⟨m, hm⟩ | hu
  · exact ⟨m, Or.inl hm⟩
  · exact ⟨junk, Or.inr ⟨hu, rfl⟩⟩

theorem Header.decode {junk v : U16} {x : List U8} (h : Header junk x v) (B : Build) :
    ∃ errs, golayDecode12 B (x.take 3) junk = .ok (errs, v) := by
  rcases h with h | ⟨h, rfl⟩
  · exact ⟨_, golayDecode12_near B h junk⟩
  · exact ⟨_, golayDecode12_uncorrectable B h v⟩

theorem Header.unique {junk v v' : U16} {x : List U8} (h : Header junk x v) (h' : Header junk x v') : v = v' := by
  obtain ⟨errs, he⟩ := h.decode .release
  obtain ⟨errs', he'⟩ := h'.decode .release
  exact (Prod.mk.inj (Except.ok.inj (he.symm.trans he'))).2

/-- x is read the same with either content of `dec_hdr_bits`, which matters only to an uncorrectable header -/
def SameHeader (x : List U8) (junk junk' : U16) : Prop := Uncorrectable x → junk = junk'

theorem SameHeader.symm {x : List U8} {junk junk' : U16} (h : SameHeader x junk junk') : SameHeader x junk' junk :=
  fun hx => (h hx).symm

theorem SameHeader.header {x : List U8} {junk junk' v : U16} (h : SameHeader x junk junk') (hv : Header junk x v) :
    Header junk' x v := by
  rcases hv with hn | ⟨hu, rfl⟩
  · exact Or.inl hn
  · exact Or.inr ⟨hu, h hu⟩

@[simp] theorem cursorNew_rest_all (x : List U8) : (cursorNew x x.length).rest = x := by
  rw [cursorNew_rest, List.take_length]

section Runs

variable (B : Build) {junk v : U16} {x : List U8} (h : Header junk x v) (out : LfcDgDes)
include h

theorem lfcDgDes_accepts {m : Msg} (hm : parse v (x.drop 3) = .ok m) :
    lfcDgDes B junk (cursorNew x x.length, out) = .ok () ((cursorNew x x.length).skip x.length, out.store m) := by
  obtain ⟨errs, hdec⟩ := h.decode B
  have hrun := lfcDgDes_ok B junk (cursorNew_wf (le_refl x.length)) (by rw [cursorNew_rest_all]; exact h.long)
    (by rw [cursorNew_rest_all]; exact hdec) out (m := m) (by rw [cursorNew_rest_all]; exact hm)
  rw [cursorNew_rest_all] at hrun
  exact hrun

theorem lfcDgDes_rejects {e : LfcRes} (he : parse v (x.drop 3) = .error e) :
    ∃ n out', n ≤ x.length ∧ out'.pays = out.pays ∧
      lfcDgDes B junk (cursorNew x x.length, out) = .error (.code e) ((cursorNew x x.length).skip n, out') := by
  obtain ⟨errs, hdec⟩ := h.decode B
  obtain ⟨n, out', hn, hp, -, -, hrun⟩ := lfcDgDes_error B junk (cursorNew_wf (le_refl x.length))
    (by rw [cursorNew_rest_all]; exact h.long) (by rw [cursorNew_rest_all]; exact hdec) out (e := e)
    (by rw [cursorNew_rest_all]; exact he)
  rw [cursorNew_rest_all] at hn
  exact ⟨n, out', hn, hp, hrun⟩

end Runs

/-- an input that is too short for a header -/
theorem lfcDgDes_too_short (B : Build) (junk : U16) {x : List U8} (h : x.length < 3) (out : LfcDgDes) :
    lfcDgDes B junk (cursorNew x x.length, out) = .error (.code .errNomem) (cursorNew x x.length, out) :=
  lfcDgDes_short B junk (cursorNew_wf (le_refl x.length)) (by rw [cursorNew_rest_all]; exact h) out

/-- the parser returns on every input; a rejected one leaves the payload arrays alone -/
theorem lfcDgDes_returns (B : Build) (junk : U16) (x : List U8) (out : LfcDgDes) :
    (∃ c out', lfcDgDes B junk (cursorNew x x.length, out) = .ok () (c, out')) ∨
      ∃ e c out', out'.pays = out.pays ∧ lfcDgDes B junk (cursorNew x x.length, out) = .error (.code e) (c, out') := by
  by_cases hlen : x.length < 3
  · exact Or.inr ⟨_, _, out, rfl, lfcDgDes_too_short B junk hlen out⟩
  · obtain ⟨v, hv⟩ := exists_header junk (Nat.not_lt.1 hlen)
    cases hp : parse v (x.drop 3) with
    | ok m => exact Or.inl ⟨_, _, lfcDgDes_accepts B hv out hp⟩
    | error e =>
      obtain ⟨n, out', -, hpays, hrun⟩ := lfcDgDes_rejects B hv out hp
      exact Or.inr ⟨e, _, out', hpays, hrun⟩

/-- what an accepted input stores is a message that it parses to -/
theorem lfcDgDes_stored {B : Build} {junk : U16} {x : List U8} {out out' : LfcDgDes} {c : Cursor}
    (h : lfcDgDes B junk (cursorNew x x.length, out) = .ok () (c, out')) :
    ∃ v m, Header junk x v ∧ parse v (x.drop 3) = .ok m ∧ out' = out.store m := by
  by_cases hlen : x.length < 3
  · rw [lfcDgDes_too_short B junk hlen] at h
    cases h
  · obtain ⟨v, hv⟩ := exists_header junk (Nat.not_lt.1 hlen)
    cases hp : parse v (x.drop 3) with
    | ok m =>
      rw [lfcDgDes_accepts B hv out hp] at h
      exact ⟨v, m, hv, hp, (Prod.mk.inj (EStateM.Result.ok.inj h).2).2.symm⟩
    | error e =>
      obtain ⟨n, out'', -, -, hrun⟩ := lfcDgDes_rejects B hv out hp
      rw [hrun] at h
      cases h

/-- the parser accepts x and leaves out' -/
def ParsesTo (B : Build) (junk : U16) (x : List U8) (out out' : LfcDgDes) : Prop :=
  ∃ c, lfcDgDes B junk (cursorNew x x.length, out) = .ok () (c, out')

/-- what is accepted, by the header value -/
theorem parsesTo_iff (B : Build) {junk v : U16} {x : List U8} (h : Header junk x v) (out out' : LfcDgDes) :
    ParsesTo B junk x out out' ↔ ∃ m, parse v (x.drop 3) = .ok m ∧ out' = out.store m := by
  constructor
  · rintro ⟨c, hrun⟩
    obtain ⟨v', m, hv, hm, rfl⟩ := lfcDgDes_stored hrun
    exact ⟨m, hv.unique h ▸ hm, rfl⟩
  · rintro ⟨m, hm, rfl⟩
    exact ⟨_, lfcDgDes_accepts B h out hm⟩

/-- the code of a rejected input is the one `parse` gives -/
theorem parse_of_rejected {B : Build} {junk v : U16} {x : List U8} (h : Header junk x v) {out : LfcDgDes} {e : LfcRes}
    {s : Cursor × LfcDgDes} (hs : lfcDgDes B junk (cursorNew x x.length, out) = .error (.code e) s) :
    parse v (x.drop 3) = .error e := by
  cases hp : parse v (x.drop 3) with
  | ok m =>
    rw [lfcDgDes_accepts B h out hp] at hs
    cases hs
  | error e' =>
    obtain ⟨n, out', -, -, hrun⟩ := lfcDgDes_rejects B h out hp
    rw [hrun] at hs
    obtain rfl := Exit.code.inj (EStateM.Result.error.inj hs).1
    rfl

/-! ## Round trip over a noisy channel -/

/-- serialize into a fresh cursor, flip the bits e of the header, parse what arrives -/
def RoundTrips (B : Build) (d : Dg) (buf : List U8) (len : ℕ) (e : BitVec 24) (junk : U16) (out : LfcDgDes) : Prop :=
  ∃ c, d.ser B (cursorNew buf len) = .ok () c ∧
    let x := damage e (c.buf.take c.pos)
    (∃ c' out', lfcDgDes B junk (cursorNew x x.length, out) = .ok () (c', out') ∧ out'.type = d.type ∧
      d.eq out'.dg = true) ∧
    ∃ c' hdr, lfcDgHdrDes B junk (cursorNew x x.length) = .ok hdr c' ∧ hdr.bitErrs = weight e

/-- the parser on the damaged wire form of a message -/
theorem lfcDgDes_damaged (B : Build) (junk : U16) (out : LfcDgDes) (m : Msg) {e : BitVec 24} (he : weight e ≤ 3) :
    lfcDgDes B junk (cursorNew (damage e m.wire) (damage e m.wire).length, out) =
      .ok () ((cursorNew (damage e m.wire) (damage e m.wire).length).skip (damage e m.wire).length, out.store m) := by
  obtain ⟨hnear, -⟩ := damage_near he m.hdr_lt m.body
  exact lfcDgDes_accepts B (Or.inl hnear) out (parse_body m)

theorem lfcDgHdrDes_damaged (B : Build) (junk : U16) (m : Msg) {e : BitVec 24} (he : weight e ≤ 3) :
    lfcDgHdrDes B junk (cursorNew (damage e m.wire) (damage e m.wire).length) =
      .ok ⟨weight e, m.flags, m.type⟩ ((cursorNew (damage e m.wire) (damage e m.wire).length).skip 3) := by
  obtain ⟨hnear, hw⟩ := damage_near he m.hdr_lt m.body
  obtain ⟨hext, htype, hflags⟩ := hdr_read m.type m.flags_known
  have hdec := golayDecode12_near B hnear junk
  rw [hw] at hdec
  have hrun := lfcDgHdrDes_run B junk (cursorNew_wf (le_refl (damage e m.wire).length))
    (by rw [cursorNew_rest_all]; exact hnear.long) (by rw [cursorNew_rest_all]; exact hdec)
  rw [Msg.hdr, hext, htype, hflags] at hrun
  exact hrun

/-- **Noisy round trip.** Every datagram of every type survives up to three bit errors in its header, and the parser
reports how many there were. -/
theorem noisy_round_trip (B : Build) (d : Dg) (hpay : d.payLen ≤ lfcDgConstantsMaxPayLen) (buf : List U8) (len : ℕ)
    (hlen : len ≤ buf.length) (hroom : d.msg.size ≤ len) (e : BitVec 24) (he : weight e ≤ 3) (junk : U16)
    (out : LfcDgDes) : RoundTrips B d buf len e junk out := by
  have hser := (Dg.ser_writes B hpay).fits (cursorNew_wf hlen) (by rw [cursorNew_remaining, Msg.wire_length]; exact hroom)
  refine ⟨_, hser, ?_⟩
  rw [cursorNew_written]
  refine ⟨⟨_, _, lfcDgDes_damaged B junk out d.msg he, ?_, ?_⟩, _, _, lfcDgHdrDes_damaged B junk d.msg he, rfl⟩
  · rw [LfcDgDes.store_type, Dg.msg_type]
  · have hlen' : d.msg.pay.length ≤ lfcDgConstantsMaxPayLen := by
      rw [Dg.msg_pay]
      exact (List.length_take_le _ _).trans hpay
    rw [Dg.eq_iff hpay (by rw [LfcDgDes.store_payLen]; exact hlen'), LfcDgDes.store_msg]

/-! ## A sample -/

/-- a struct with all bytes zero -/
def LfcDgDes.zero : LfcDgDes where
  hdrBitErrs := 0
  type := .monolithic
  monolithic := ⟨⟨false, false, false, false, false⟩, 0, 0, 0, 0, 0, .zero⟩
  frameStart := ⟨⟨false, false, false, false, false⟩, 0, 0, 0, 0, 0, 0, .zero⟩
  frameData := ⟨⟨false⟩, 0, 0, 0, 0, 0, .zero⟩
  ack := ⟨⟨false, false, false, false, false⟩, 0, 0, 0, 0, 0, .zero⟩

/-- a frame start with two fragments, two flags and three payload bytes -/
def sampleDg : Dg := .frameStart
  { flags := ⟨true, false, true, false, false⟩, oui := 300, did := 2, fp := 0xdeadbeef, seq := 70000, fragments := 2,
    payLen := 3, pay := PayBuf.zero.write [1, 2, 3] }

theorem noisy_round_trip_sample :
    RoundTrips .debug sampleDg (List.replicate 64 0) 64 0x801001 0 LfcDgDes.zero :=
  noisy_round_trip .debug sampleDg (by decide) (List.replicate 64 0) 64 (by decide) (by decide +kernel) 0x801001
    (by decide +kernel) 0 LfcDgDes.zero

/-! ## The payload copy -/

/-- the payload arrays have their declared size -/
def LfcDgDes.InBounds (out : LfcDgDes) : Prop := ∀ p ∈ out.pays, p.mem.length = lfcDgConstantsMaxPayLen

/-- rest follows the header fields of x -/
def Remainder (junk : U16) (x rest : List U8) : Prop :=
  ∃ v m, Header junk x v ∧ parse v (x.drop 3) = .ok m ∧ m.pay = rest

/-- on input x the parser copies at most 128 bytes to a payload array: no array is overrun, an accepted payload is what
follows the fields, and a longer one is an error -/
structure PayloadSafe (B : Build) (junk : U16) (x : List U8) (out : LfcDgDes) : Prop where
  bounds : (final (lfcDgDes B junk (cursorNew x x.length, out))).2.InBounds
  exact : ∀ c out', lfcDgDes B junk (cursorNew x x.length, out) = .ok () (c, out') →
    out'.dg.payLen ≤ lfcDgConstantsMaxPayLen ∧ Remainder junk x (out'.dg.pay.mem.take out'.dg.payLen)
  long : ∀ rest, Remainder junk x rest → lfcDgConstantsMaxPayLen < rest.length →
    ∃ e s, lfcDgDes B junk (cursorNew x x.length, out) = .error (.code e) s

theorem Remainder.run {junk : U16} {x rest : List U8} (h : Remainder junk x rest) (B : Build) (out : LfcDgDes) :
    ∃ c m, m.pay = rest ∧ lfcDgDes B junk (cursorNew x x.length, out) = .ok () (c, out.store m) := by
  obtain ⟨v, m, hv, hm, hrest⟩ := h
  exact ⟨_, m, hrest, lfcDgDes_accepts B hv out hm⟩

/-- a longer remainder is copied all the same -/
theorem not_payloadSafe {B : Build} {junk : U16} {x rest : List U8} (h : Remainder junk x rest)
    (hlong : lfcDgConstantsMaxPayLen < rest.length) (out : LfcDgDes) : ¬PayloadSafe B junk x out := by
  intro hs
  obtain ⟨c, m, -, hrun⟩ := h.run B out
  obtain ⟨e, s, he⟩ := hs.long rest h hlong
  rw [hrun] at he
  cases he

theorem store_inBounds {out : LfcDgDes} (hout : out.InBounds) {m : Msg} (hm : m.pay.length ≤ lfcDgConstantsMaxPayLen) :
    (out.store m).InBounds := by
  have hwrite : ∀ p ∈ out.pays, (p.write m.pay).mem.length = lfcDgConstantsMaxPayLen := by
    intro p hp
    have hlen := hout p hp
    simp only [PayBuf.write, List.length_append, List.length_drop]
    omega
  -- one array is written, the other three are as before
  have hpays : ∀ p ∈ (out.store m).pays, p ∈ out.pays ∨ ∃ q ∈ out.pays, p = q.write m.pay := by
    unfold LfcDgDes.store LfcDgDes.pays
    cases m.type <;> simp
  intro p hp
  rcases hpays p hp with hp | ⟨q, hq, rfl⟩
  · exact hout p hp
  · exact hwrite q hq

/-- what follows the header fields of x, if they parse, fits a payload array -/
def FitsPayload (junk : U16) (x : List U8) : Prop := ∀ rest, Remainder junk x rest → rest.length ≤ lfcDgConstantsMaxPayLen

theorem Remainder.unique {junk : U16} {x rest rest' : List U8} (h : Remainder junk x rest) (h' : Remainder junk x rest') :
    rest = rest' := by
  obtain ⟨v, m, hv, hm, rfl⟩ := h
  obtain ⟨v', m', hv', hm', rfl⟩ := h'
  obtain rfl := hv.unique hv'
  rw [Except.ok.inj (hm.symm.trans hm')]

theorem Remainder.fits {junk : U16} {x rest : List U8} (h : Remainder junk x rest)
    (hle : rest.length ≤ lfcDgConstantsMaxPayLen) : FitsPayload junk x := by
  intro rest' h'
  rw [h'.unique h]
  exact hle

theorem SameHeader.fits {x : List U8} {junk junk' : U16} (h : SameHeader x junk junk') (hx : FitsPayload junk x) :
    FitsPayload junk' x := by
  rintro rest ⟨v, m, hv, hm, hrest⟩
  exact hx rest ⟨v, m, h.symm.header hv, hm, hrest⟩

theorem payloadSafe_of_fits (B : Build) {junk : U16} {x : List U8} {out : LfcDgDes} (hout : out.InBounds)
    (hfit : FitsPayload junk x) : PayloadSafe B junk x out := by
  refine ⟨?_, ?_, fun rest hrest hlong => absurd (hfit rest hrest) (Nat.not_le.2 hlong)⟩
  · rcases lfcDgDes_returns B junk x out with ⟨c, out', hrun⟩ | ⟨e, c, out', hpays, hrun⟩
    · obtain ⟨v, m, hv, hm, rfl⟩ := lfcDgDes_stored hrun
      rw [hrun]
      exact store_inBounds hout (hfit m.pay ⟨v, m, hv, hm, rfl⟩)
    · rw [hrun]
      exact fun p hp => hout p (hpays ▸ hp)
  · intro c out' hok
    obtain ⟨v, m, hv, hm, rfl⟩ := lfcDgDes_stored hok
    have hrest : Remainder junk x m.pay := ⟨v, m, hv, hm, rfl⟩
    rw [LfcDgDes.store_pay, LfcDgDes.store_payLen]
    exact ⟨hfit m.pay hrest, hrest⟩

/-- **The payload bound**: it holds exactly when the bytes after the header fields fit the array. -/
theorem payloadSafe_iff (B : Build) (junk : U16) (x : List U8) (out : LfcDgDes) (hout : out.InBounds) :
    PayloadSafe B junk x out ↔ ∀ rest, Remainder junk x rest → rest.length ≤ lfcDgConstantsMaxPayLen := by
  constructor
  · intro hs rest hrest
    by_contra hlong
    exact not_payloadSafe hrest (Nat.not_le.1 hlong) out hs
  · exact payloadSafe_of_fits B hout

theorem LfcDgDes.zero_inBounds : LfcDgDes.zero.InBounds := by
  simp [LfcDgDes.InBounds, LfcDgDes.pays, LfcDgDes.zero, PayBuf.zero]

/-- a monolithic datagram with all fields zero and n payload bytes -/
def zeroMsg (n : ℕ) : Msg :=
  { type := .monolithic, flags := 0, oui := 0, did := 0, fp := 0, nums := [0], pay := List.replicate n 0,
    flags_known := no_flags_known .monolithic, nums_length := rfl }

theorem payloadSafe_iff_sample : LfcDgDes.zero.InBounds ∧ (PayloadSafe .debug 0 (zeroMsg 2).wire LfcDgDes.zero ↔
    ∀ rest, Remainder 0 (zeroMsg 2).wire rest → rest.length ≤ lfcDgConstantsMaxPayLen) :=
  ⟨LfcDgDes.zero_inBounds, payloadSafe_iff .debug 0 (zeroMsg 2).wire LfcDgDes.zero LfcDgDes.zero_inBounds⟩

theorem Msg.wire_remainder (junk : U16) (m : Msg) : Remainder junk m.wire m.pay :=
  ⟨m.hdr, m, Or.inl m.wire_near, parse_body m, rfl⟩

theorem Msg.damaged_remainder (junk : U16) (m : Msg) {e : BitVec 24} (he : weight e ≤ 3) :
    Remainder junk (damage e m.wire) m.pay :=
  ⟨m.hdr, m, Or.inl (damage_near he m.hdr_lt m.body).1, parse_body m, rfl⟩

/-- 129 payload bytes behind the fields of a monolithic datagram overrun the array -/
theorem oversized_overruns : (zeroMsg 129).wire = [0x40, 0x30, 0xda] ++ List.replicate 136 0 ∧
    ¬PayloadSafe .debug 0 (zeroMsg 129).wire LfcDgDes.zero := by
  refine ⟨by decide +kernel, ?_⟩
  have hlong : lfcDgConstantsMaxPayLen < (zeroMsg 129).pay.length := by simp [zeroMsg, lfcDgConstantsMaxPayLen]
  exact not_payloadSafe (Msg.wire_remainder 0 (zeroMsg 129)) hlong LfcDgDes.zero

/-! ## Uncorrectable headers -/

/-- an input whose header cannot be corrected is recognized: the decoder reports it, the parser returns an error, and
nothing depends on what `dec_hdr_bits` held before -/
structure RejectsUncorrectable (B : Build) (x : List U8) : Prop where
  reported : ∀ junk, golayDecode12 B (x.take 3) junk = .ok (-1, junk)
  rejected : ∀ junk out, ∃ e s, lfcDgDes B junk (cursorNew x x.length, out) = .error (.code e) s
  independent : ∀ junk junk' out,
    lfcDgDes B junk (cursorNew x x.length, out) = lfcDgDes B junk' (cursorNew x x.length, out)

/-- the old content of `dec_hdr_bits` decides how an uncorrectable header is read -/
theorem lfcDgDes_uncorrectable (B : Build) (junk : U16) {x : List U8} (h : Uncorrectable x) (out : LfcDgDes) :
    (∃ s, lfcDgDes B junk (cursorNew x x.length, out) = .ok () s) ↔ ∃ m, parse junk (x.drop 3) = .ok m := by
  have hv : Header junk x junk := Or.inr ⟨h, rfl⟩
  constructor
  · rintro ⟨⟨c, out'⟩, hs⟩
    obtain ⟨m, hm, -⟩ := (parsesTo_iff B hv out out').1 ⟨c, hs⟩
    exact ⟨m, hm⟩
  · rintro ⟨m, hm⟩
    exact ⟨_, lfcDgDes_accepts B hv out hm⟩

/-- **Uncorrectable headers are never recognized.** The decoder does report them, but on every such input the result of
the parser depends on the old content of `dec_hdr_bits`. -/
theorem uncorrectable_not_rejected (B : Build) (x : List U8) (h : Uncorrectable x) :
    (∀ junk, golayDecode12 B (x.take 3) junk = .ok (-1, junk)) ∧ ¬RejectsUncorrectable B x := by
  refine ⟨golayDecode12_uncorrectable B h, fun hr => ?_⟩
  -- 0 is read as an invalid type, 0x1000 as an extended tag
  have h0 : parse 0 (x.drop 3) = .error .invalidType := rfl
  have h1 : parse 0x1000 (x.drop 3) = .error .errException := rfl
  obtain ⟨n, out', -, -, hrun0⟩ := lfcDgDes_rejects B (Or.inr ⟨h, rfl⟩) LfcDgDes.zero h0
  obtain ⟨n', out'', -, -, hrun1⟩ := lfcDgDes_rejects B (Or.inr ⟨h, rfl⟩) LfcDgDes.zero h1
  have hsame := hr.independent 0 0x1000 LfcDgDes.zero
  rw [hrun0, hrun1] at hsame
  cases hsame

/-- four flipped header bits of a serialized datagram are uncorrectable -/
theorem uncorrectable_of_four_flips (m : Msg) {e : BitVec 24} (h4 : weight e = 4) : Uncorrectable (damage e m.wire) :=
  damage_uncorrectable h4 m.hdr m.body

theorem uncorrectable_not_rejected_sample :
    (∀ junk, golayDecode12 .debug ((damage 0xf (zeroMsg 0).wire).take 3) junk = .ok (-1, junk)) ∧
      ¬RejectsUncorrectable .debug (damage 0xf (zeroMsg 0).wire) :=
  uncorrectable_not_rejected .debug _ (uncorrectable_of_four_flips (zeroMsg 0) (by decide +kernel))

/-- an empty monolithic datagram with four flipped header bits is accepted when `dec_hdr_bits` held 0x40 -/
theorem four_flips_accepted :
    damage 0xf (zeroMsg 0).wire = [0x4f, 0x30, 0xda, 0, 0, 0, 0, 0, 0, 0] ∧
      Uncorrectable (damage 0xf (zeroMsg 0).wire) ∧
      (∃ s, lfcDgDes .debug 0x40 (cursorNew (damage 0xf (zeroMsg 0).wire) 10, LfcDgDes.zero) = .ok () s) ∧
      ¬RejectsUncorrectable .debug (damage 0xf (zeroMsg 0).wire) := by
  have hu : Uncorrectable (damage 0xf (zeroMsg 0).wire) :=
    uncorrectable_of_four_flips (zeroMsg 0) (by decide +kernel)
  have hbytes : damage 0xf (zeroMsg 0).wire = [0x4f, 0x30, 0xda, 0, 0, 0, 0, 0, 0, 0] := by decide +kernel
  have haccept := (lfcDgDes_uncorrectable .debug 0x40 hu LfcDgDes.zero).2 ⟨zeroMsg 0, parse_body (zeroMsg 0)⟩
  rw [show (damage 0xf (zeroMsg 0).wire).length = 10 by rw [hbytes]; rfl] at haccept
  refine ⟨hbytes, hu, haccept, fun hr => ?_⟩
  obtain ⟨e, s, hrun⟩ := hr.rejected 0x40 LfcDgDes.zero
  obtain ⟨s', hok⟩ := (lfcDgDes_uncorrectable .debug 0x40 hu LfcDgDes.zero).2 ⟨zeroMsg 0, parse_body (zeroMsg 0)⟩
  rw [hrun] at hok
  cases hok

end LongFi
