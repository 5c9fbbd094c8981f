/-
Builds with and without assertions.

One rule for each function that asserts something, or calls one that does: with its assertions it does what it does
without them, or stops at one. So whatever a device in a debug build accepts or sends, it accepts or sends in a release
build too (`lfcTransmit_failStop`, `lfcReceive_failStop`), and the parser parses the same (`parsed_build`).

- `transmit_stops_iff`, `receive_stops_iff`: the calls that stop are those whose fingerprint is what their variable held
  before, with a key that BLAKE2s takes.
-/
import LongFi.Core.FailStop
import LongFi.Device.Assertions

namespace LongFi

open LongFi.Core

variable (B : Build)

/-! ## golay.c -/

theorem golay2412ParitySearch_asserts (v : U32) : Asserts (golay2412ParitySearch B v) (golay2412ParitySearch .release v) :=
  (check_asserts B _).bind fun _ => .refl _

theorem golay2412ErrorEstimate_asserts (s : U32) :
    Asserts (golay2412ErrorEstimate B s) (golay2412ErrorEstimate .release s) := by
  unfold golay2412ErrorEstimate
  dsimp only
  by_cases hws : popcount2 s ≤ 3
  · rw [if_pos hws, if_pos hws]
    exact .refl _
  · rw [if_neg hws, if_neg hws]
    refine (golay2412ParitySearch_asserts B s).bind fun sIndex => ?_
    by_cases hs : 0 ≤ sIndex
    · rw [if_pos hs, if_pos hs]
      exact .refl _
    · rw [if_neg hs, if_neg hs]
      by_cases hsP : popcount2 (golay2412MatrixMul s golay2412P 12) = 2 ∨ popcount2 (golay2412MatrixMul s golay2412P 12) = 3
      · rw [if_pos hsP, if_pos hsP]
        exact .refl _
      · rw [if_neg hsP, if_neg hsP]
        exact (golay2412ParitySearch_asserts B _).bind fun _ => .refl _

theorem golayDecode12_asserts (inp : List U8) (out : U16) :
    Asserts (golayDecode12 B inp out) (golayDecode12 .release inp out) :=
  (check_asserts B _).bind fun _ => (golay2412ErrorEstimate_asserts B _).bind fun _ => .refl _

theorem golayEncode12_asserts (inp : U16) : Asserts (golayEncode12 B inp) (golayEncode12 .release inp) :=
  (check_asserts B _).bind fun _ => ((check_asserts B _).bind fun _ => .refl _).bind fun _ => .refl _

/-! ## cursor.c -/

theorem cursorTakeRemaining_failStop {ε : Type} :
    FailStop (cursorTakeRemaining B : Call ε Cursor _) (cursorTakeRemaining .release) :=
  .after fun _ => .after fun _ => (FailStop.check B _).bind fun _ => .after fun _ => (FailStop.check B _).bind fun _ =>
    .refl _

/-! ## lfc_dg_ser.c -/

theorem lfcDgHdrSer_failStop (type : LfcDgType) (flagBits : U8) :
    FailStop (lfcDgHdrSer B type flagBits) (lfcDgHdrSer .release type flagBits) :=
  (FailStop.check B _).bind fun _ => (FailStop.lift (golayEncode12_asserts B _)).bind fun _ => .refl _

theorem dgSer_failStop (type : LfcDgType) (flagBits : U8) (oui did fp : U32) (nums : List U32) (pay : PayBuf)
    (payLen : ℕ) : FailStop (dgSer B type flagBits oui did fp nums pay payLen)
      (dgSer .release type flagBits oui did fp nums pay payLen) :=
  (lfcDgHdrSer_failStop B type flagBits).bind fun _ => .refl _

/-! ## lfc_dg_des.c -/

theorem dgDes_failStop {D : Type} (type : LfcDgType) (out : Stores D) (hdr : LfcDgHdr) :
    FailStop (dgDes B type out hdr) (dgDes .release type out hdr) :=
  (FailStop.check B _).bind fun _ => .after fun _ => .after fun _ => .after fun _ => .after fun _ => .after fun _ =>
    (cursorTakeRemaining_failStop B).zoom.bind fun _ => .refl _

theorem lfcDgHdrDes_failStop (decHdrBits : U16) :
    FailStop (lfcDgHdrDes B decHdrBits) (lfcDgHdrDes .release decHdrBits) :=
  .after fun _ => (FailStop.lift (golayDecode12_asserts B _ _)).bind fun _ => .refl _

theorem lfcDgDesSwitch_failStop (hdr : LfcDgHdr) : FailStop (lfcDgDesSwitch B hdr) (lfcDgDesSwitch .release hdr) := by
  unfold lfcDgDesSwitch
  cases hdr.type with
  | monolithic => exact (dgDes_failStop B .monolithic monolithicStores hdr).zoom
  | ack => exact (dgDes_failStop B .ack ackStores hdr).zoom
  | frameStart => exact (dgDes_failStop B .frameStart frameStartStores hdr).zoom
  | frameData => exact (dgDes_failStop B .frameData frameDataStores hdr).zoom

theorem lfcDgDes_failStop (decHdrBits : U16) : FailStop (lfcDgDes B decHdrBits) (lfcDgDes .release decHdrBits) :=
  (lfcDgHdrDes_failStop B decHdrBits).zoom.bind fun hdr => (lfcDgDesSwitch_failStop B hdr).bind fun _ => .refl _

/-- the parser never stops, so it parses the same in every build -/
theorem parsed_build {B : Build} {u : Locals} {x : List U8} {dg : LfcDgMonolithic} :
    Parsed B u x dg ↔ Parsed .release u x dg := by
  have hstop := lfcDgDes_failStop B u.decHdrBits
  constructor
  · rintro ⟨c, out, hrun, hdg⟩
    exact ⟨c, out, hstop.ok hrun, hdg⟩
  · rintro ⟨c, out, hrun, hdg⟩
    rcases lfcDgDes_returns B u.decHdrBits x u.dg with ⟨c', out', hrun'⟩ | ⟨e, c', out', -, hrun'⟩
    · rw [hstop.ok hrun'] at hrun
      exact ⟨c, out, hrun ▸ hrun', hdg⟩
    · rw [hstop.code hrun'] at hrun
      cases hrun

/-! ## lfc_fingerprint.c and lfc.c -/

section

variable (H : Blake2s)

theorem lfcFingerprintMonolithic_failStop (key : Key) (hdr : U16) (oui did seq : U32) (pay : List U8) :
    FailStop (lfcFingerprintMonolithic H B key hdr oui did seq pay)
      (lfcFingerprintMonolithic H .release key hdr oui did seq pay) :=
  .after fun _ => .after fun _ => .after fun _ => .after fun _ => .after fun _ => .after fun _ => .after fun _ =>
    .after fun _ => .after fun _ => .after fun _ => (FailStop.check B _).bind fun _ => .check B _

theorem lfcDgMonolithicFingerprint_failStop (lfc : Lfc) (dg : LfcDgMonolithic) :
    FailStop (lfcDgMonolithicFingerprint H B lfc dg) (lfcDgMonolithicFingerprint H .release lfc dg) :=
  .after fun _ => lfcFingerprintMonolithic_failStop B H _ _ _ _ _ _

theorem lfcTransmit_failStop (pay : List U8) : FailStop (lfcTransmit H B pay) (lfcTransmit H .release pay) :=
  (FailStop.check B _).bind fun _ => .after fun _ => .after fun s =>
    ((lfcDgMonolithicFingerprint_failStop B H s.1 _).attempt.onLocals _).bind fun _ =>
      ((dgSer_failStop B _ _ _ _ _ _ _ _).bind fun _ => .refl _).zoom.bind fun _ => .refl _

theorem lfcReceive_failStop (u : Locals) (lfc : Lfc) (inp : List U8) :
    FailStop (lfcReceive H B u lfc inp) (lfcReceive H .release u lfc inp) :=
  .after fun _ => .after fun _ => ((lfcDgDes_failStop B u.decHdrBits).onLocals _).bind fun _ =>
    (FailStop.refl _).ite <| (FailStop.refl _).ite <| .after fun _ => .after fun _ => .after fun _ => .after fun _ =>
      ((lfcDgMonolithicFingerprint_failStop B H lfc _).onLocals u.fp).bind fun _ => .refl _

end

/-! ## Calls that stop -/

theorem stops_iff {σ α : Type} {r : EStateM.Result (Exit LfcRes) σ α} : Stops r ↔ ¬NoAssertionFails r := by
  simp only [Stops, NoAssertionFails, not_forall, not_not]

section

variable (H : Blake2s) (lfc : Lfc) {o : OutBuf}

/-- the fingerprint of the datagram is the initial value of its variable -/
def TxHits (pay : List U8) : Prop :=
  lfc.cfg.key.Fits ∧ fingerprint H lfc.cfg.key fpHdr lfc.cfg.oui lfc.cfg.did lfc.seq pay = 42

/-- the fingerprint of a datagram that fits the buffer is what the unset variable holds -/
def RxHits (u : Locals) (x : List U8) (o : OutBuf) : Prop :=
  lfc.cfg.key.Fits ∧ ∃ dg, Parsed .release u x dg ∧ dg.payLen ≤ o.outLen ∧
    fingerprint H lfc.cfg.key fpHdr dg.oui dg.did dg.seq dg.payload = u.fp

theorem transmit_stops_iff {pay : List U8} (hpay : pay.length ≤ lfcDgConstantsMaxPayLen) (ho : o.Fits) :
    Stops (lfcTransmit H .debug pay (lfc, o)) ↔ TxHits H lfc pay := by
  by_cases hk : lfc.cfg.key.Fits
  · rw [stops_iff, transmit_asserts_iff H hk hpay ho, not_ne_iff]
    exact ⟨fun h => ⟨hk, h.symm⟩, fun h => h.2.symm⟩
  · have hcheck : ¬(Build.debug = .debug ∧ lfc.cfg.key.Fits ∧ txFp H lfc pay = 42) := fun h => hk h.2.1
    refine ⟨?_, fun h => absurd h.1 hk⟩
    rintro ⟨t, ht⟩
    rcases Nat.lt_or_ge o.outLen (txMsg H lfc pay).size with hroom | hroom
    · obtain ⟨out, hrun⟩ := lfcTransmit_full H .debug lfc hpay ho hcheck hroom
      rw [hrun] at ht
      cases ht
    · rw [lfcTransmit_ok H .debug lfc hpay ho hcheck hroom] at ht
      cases ht

/-- without a key that BLAKE2s takes, no fingerprint is computed -/
theorem receive_keyless (hk : ¬lfc.cfg.key.Fits) (u : Locals) (x : List U8) (ho : o.Fits) :
    ¬Stops (lfcReceive H .debug u lfc x o) := by
  rintro ⟨t, ht⟩
  rcases lfcDgDes_returns .debug u.decHdrBits x u.dg with ⟨c, out, hrun⟩ | ⟨e, c, out, -, hrun⟩
  · by_cases htype : out.type = .monolithic
    · rcases Nat.lt_or_ge o.outLen out.monolithic.payLen with hcap | hcap
      · rw [lfcReceive_no_room H lfc o hrun htype hcap] at ht
        cases ht
      · rw [lfcReceive_bad_key H lfc o hrun htype hcap ho hk] at ht
        cases ht
    · rw [lfcReceive_wrong_type H lfc o hrun htype] at ht
      cases ht
  · rw [lfcReceive_unparsed H lfc o hrun] at ht
    cases ht

theorem receive_stops_iff (u : Locals) (x : List U8) (ho : o.Fits) :
    Stops (lfcReceive H .debug u lfc x o) ↔ RxHits H lfc u x o := by
  by_cases hk : lfc.cfg.key.Fits
  · rw [stops_iff, receive_asserts_iff H hk u x ho]
    constructor
    · intro h
      simp only [not_forall, not_ne_iff] at h
      obtain ⟨dg, hp, hcap, hfp⟩ := h
      exact ⟨hk, dg, parsed_build.1 hp, hcap, hfp.symm⟩
    · rintro ⟨-, dg, hp, hcap, hfp⟩ h
      exact h dg (parsed_build.2 hp) hcap hfp.symm
  · exact ⟨fun h => absurd h (receive_keyless H lfc hk u x ho), fun h => absurd h.1 hk⟩

/-- with its build's assertions a transmit is the one without, unless it hits -/
theorem transmit_cases {pay : List U8} (hpay : pay.length ≤ lfcDgConstantsMaxPayLen) (ho : o.Fits) :
    (lfcTransmit H B pay (lfc, o) = lfcTransmit H .release pay (lfc, o) ∧ ¬(B = .debug ∧ TxHits H lfc pay)) ∨
      Stops (lfcTransmit H B pay (lfc, o)) ∧ B = .debug ∧ TxHits H lfc pay := by
  have hiff := transmit_stops_iff H lfc hpay ho
  cases B with
  | release => exact Or.inl ⟨rfl, fun h => by cases h.1⟩
  | debug =>
    by_cases hhit : TxHits H lfc pay
    · exact Or.inr ⟨hiff.2 hhit, rfl, hhit⟩
    · refine Or.inl ⟨(lfcTransmit_failStop .debug H pay (lfc, o)).resolve_right fun h => hhit (hiff.1 h), ?_⟩
      exact fun h => hhit h.2

theorem receive_cases (u : Locals) (x : List U8) (ho : o.Fits) :
    (lfcReceive H B u lfc x o = lfcReceive H .release u lfc x o ∧ ¬(B = .debug ∧ RxHits H lfc u x o)) ∨
      Stops (lfcReceive H B u lfc x o) ∧ B = .debug ∧ RxHits H lfc u x o := by
  have hiff := receive_stops_iff H lfc u x ho
  cases B with
  | release => exact Or.inl ⟨rfl, fun h => by cases h.1⟩
  | debug =>
    by_cases hhit : RxHits H lfc u x o
    · exact Or.inr ⟨hiff.2 hhit, rfl, hhit⟩
    · refine Or.inl ⟨(lfcReceive_failStop .debug H u lfc x o).resolve_right fun h => hhit (hiff.1 h), ?_⟩
      exact fun h => hhit h.2

end

end LongFi
