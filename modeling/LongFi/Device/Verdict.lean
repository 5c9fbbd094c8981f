/-
The receiver as a function of the message, and its uninitialized variables.

`verdict` says what `lfc_receive` should do with a parsed message, or with the parser's error: no cursor, no buffers, no
union. The code does exactly that, for every input whose payload fits its array, in either build.

- `receive_refines`: the result and the buffer are those of `verdict` on the message that the header value stands for.
- `uninitialized_iff`: they depend on what local variables held before exactly if the header cannot be corrected or, in a
  debug build, if a fingerprint is computed.
-/
import LongFi.Device.Delivery

namespace LongFi

open LongFi.Core

/-- what a receiver does with a message, or with the error of its parser; fp is what its variable for the fingerprint
holds before -/
def verdict (H : Blake2s) (B : Build) (lfc : Lfc) (o : OutBuf) (fp : U32) :
    Except LfcRes Msg → EStateM.Result (Exit LfcRes) OutBuf Unit
  | .error e => .error (.code e) { o with outLen := 0 }
  | .ok m =>
    if m.type ≠ .monolithic then .error (.code .invalidType) { o with outLen := 0 }
    else if o.outLen < m.pay.length then .error (.code .errNomem) { o with outLen := 0 }
    else if ¬lfc.cfg.key.Fits then .error (.code .errException) (o.fill m.pay)
    else if B = .debug ∧ fp = fingerprint H lfc.cfg.key fpHdr m.oui m.did (m.nums.getD 0 0) m.pay then
      .error (.fault .assertion) (o.fill m.pay)
    else if m.oui ≠ lfc.cfg.oui ∨ m.did ≠ lfc.cfg.did then .error (.code .errAddr) (o.fill m.pay)
    else if fingerprint H lfc.cfg.key fpHdr m.oui m.did (m.nums.getD 0 0) m.pay ≠ m.fp then
      .error (.code .errFingerprint) (o.fill m.pay)
    else .ok () (o.fill m.pay)

section Refines

variable (H : Blake2s) (B : Build) (u : Locals) (lfc : Lfc) {x : List U8} (o : OutBuf)

theorem receive_short (h : x.length < 3) : lfcReceive H B u lfc x o = verdict H B lfc o u.fp (.error .errNomem) :=
  lfcReceive_unparsed H lfc o (lfcDgDes_too_short B u.decHdrBits h u.dg)

variable {v : U16} (hv : Header u.decHdrBits x v)
include hv

theorem receive_error {e : LfcRes} (he : parse v (x.drop 3) = .error e) :
    lfcReceive H B u lfc x o = verdict H B lfc o u.fp (.error e) := by
  obtain ⟨n, out', -, -, hrun⟩ := lfcDgDes_rejects B hv u.dg he
  exact lfcReceive_unparsed H lfc o hrun

theorem receive_ok (ho : o.Fits) {m : Msg} (hm : parse v (x.drop 3) = .ok m) :
    lfcReceive H B u lfc x o = verdict H B lfc o u.fp (.ok m) := by
  have hrun := lfcDgDes_accepts B hv u.dg hm
  have htype := LfcDgDes.store_type u.dg m
  rw [verdict]
  by_cases ht : m.type = .monolithic
  · obtain ⟨houi, hdid, hfp, hseq, hlen, hpay⟩ := store_monolithic u.dg ht
    have hrx : rxFp H lfc (u.dg.store m).monolithic =
        fingerprint H lfc.cfg.key fpHdr m.oui m.did (m.nums.getD 0 0) m.pay := by
      rw [rxFp, houi, hdid, hseq, hpay]
    rw [if_neg (not_not_intro ht)]
    by_cases hroom : o.outLen < m.pay.length
    · rw [if_pos hroom]
      exact lfcReceive_no_room H lfc o hrun (htype.trans ht) (by rw [hlen]; exact hroom)
    · have hcap : (u.dg.store m).monolithic.payLen ≤ o.outLen := by
        rw [hlen]
        exact Nat.not_lt.1 hroom
      rw [if_neg hroom]
      by_cases hk : lfc.cfg.key.Fits
      · rw [if_neg (not_not_intro hk), ← hrx, ← houi, ← hdid, ← hfp, ← hpay]
        by_cases hhit : B = .debug ∧ u.fp = rxFp H lfc (u.dg.store m).monolithic
        · rw [if_pos hhit]
          obtain ⟨rfl, hfp⟩ := hhit
          exact lfcReceive_abort H lfc o hrun (htype.trans ht) hcap ho hk hfp
        · rw [if_neg hhit]
          exact lfcReceive_verdict H lfc o hrun (htype.trans ht) hcap ho hk hhit
      · rw [if_pos hk, lfcReceive_bad_key H lfc o hrun (htype.trans ht) hcap ho hk, hpay]
  · rw [if_pos ht]
    exact lfcReceive_wrong_type H lfc o hrun (by rw [htype]; exact ht)

theorem receive_header (ho : o.Fits) :
    lfcReceive H B u lfc x o = verdict H B lfc o u.fp (parse v (x.drop 3)) := by
  cases hm : parse v (x.drop 3) with
  | error e => exact receive_error H B u lfc o hv hm
  | ok m => exact receive_ok H B u lfc o hv ho hm

end Refines

/-! ## Every input -/

/-- **The receiver does what `verdict` says**, for every context, buffer and content of its variables and every input whose
payload fits its array, which is then not overrun: with the value that a correctable header stands for, and else with what
`dec_hdr_bits` held. -/
theorem receive_refines (H : Blake2s) (B : Build) (u : Locals) (lfc : Lfc) (x : List U8) (o : OutBuf) (ho : o.Fits)
    (hu : u.dg.InBounds) (hx : FitsPayload u.decHdrBits x) :
    PayloadSafe B u.decHdrBits x u.dg ∧
      (x.length < 3 → lfcReceive H B u lfc x o = verdict H B lfc o u.fp (.error .errNomem)) ∧
      (∀ v, Near x v → lfcReceive H B u lfc x o = verdict H B lfc o u.fp (parse v (x.drop 3))) ∧
      (Uncorrectable x → lfcReceive H B u lfc x o = verdict H B lfc o u.fp (parse u.decHdrBits (x.drop 3))) :=
  ⟨payloadSafe_of_fits B hu hx, receive_short H B u lfc o, fun _ hv => receive_header H B u lfc o (Or.inl hv) ho,
    fun hbad => receive_header H B u lfc o (Or.inr ⟨hbad, rfl⟩) ho⟩

/-- an authentic datagram is delivered, and stops a debug build whose variable holds its fingerprint -/
theorem receive_refines_sample :
    lfcReceive .echo .debug .zero .zero (txMsg .echo .zero [1, 2]).wire (.zero 8) = .ok () ((OutBuf.zero 8).fill [1, 2]) ∧
      lfcReceive .echo .debug ⟨0, .zero, 0x40⟩ .zero (txMsg .echo .zero [1, 2]).wire (.zero 8) =
        .error (.fault .assertion) ((OutBuf.zero 8).fill [1, 2]) := by
  have hx : FitsPayload 0 (txMsg .echo .zero [1, 2]).wire := (Msg.wire_remainder 0 (txMsg .echo .zero [1, 2])).fits (by decide)
  have hnear := (txMsg .echo .zero [1, 2]).wire_near
  have hparse : parse (txMsg .echo .zero [1, 2]).hdr ((txMsg .echo .zero [1, 2]).wire.drop 3) =
      .ok (txMsg .echo .zero [1, 2]) := parse_body _
  have hrun (u : Locals) (hu : u.dg = .zero) (hjunk : u.decHdrBits = 0) :
      lfcReceive .echo .debug u .zero (txMsg .echo .zero [1, 2]).wire (.zero 8) =
        verdict .echo .debug .zero (.zero 8) u.fp (.ok (txMsg .echo .zero [1, 2])) := by
    have h := receive_refines .echo .debug u .zero (txMsg .echo .zero [1, 2]).wire (.zero 8) (OutBuf.zero_fits 8)
      (hu ▸ LfcDgDes.zero_inBounds) (hjunk ▸ hx)
    rw [h.2.2.1 _ hnear, hparse]
  refine ⟨(hrun .zero rfl rfl).trans ?_, (hrun ⟨0, .zero, 0x40⟩ rfl rfl).trans ?_⟩
  · rfl
  · rfl

/-! ## Uninitialized variables -/

/-- x is, up to three bit errors in its header, a monolithic datagram whose payload fits its array and the buffer -/
def Deliverable (x : List U8) (o : OutBuf) : Prop :=
  ∃ v m, Near x v ∧ parse v (x.drop 3) = .ok m ∧ m.type = .monolithic ∧ m.pay.length ≤ lfcDgConstantsMaxPayLen ∧
    m.pay.length ≤ o.outLen

section Uninitialized

variable (H : Blake2s) (B : Build) (lfc : Lfc) (o : OutBuf)

/-- the variable for the fingerprint matters only to the assertion -/
theorem verdict_fp {fp fp' : U32} {r : Except LfcRes Msg} (hne : verdict H B lfc o fp r ≠ verdict H B lfc o fp' r) :
    B = .debug ∧ lfc.cfg.key.Fits ∧ ∃ m, r = .ok m ∧ m.type = .monolithic ∧ m.pay.length ≤ o.outLen := by
  cases r with
  | error e => exact absurd rfl hne
  | ok m =>
    refine ⟨?_, ?_, m, rfl, ?_, ?_⟩ <;> by_contra h <;> apply hne
    · simp only [verdict, h, false_and, if_false]
    · simp only [verdict, h, not_false_eq_true, if_true]
    · simp only [verdict, ne_eq, h, not_false_eq_true, if_true]
    · simp only [verdict, Nat.lt_of_not_le h, if_true]

/-- the fingerprint of the message in the variable stops a debug build, and nothing else does -/
theorem verdict_stops {m : Msg} (ht : m.type = .monolithic) (hroom : m.pay.length ≤ o.outLen) (hk : lfc.cfg.key.Fits)
    (fp : U32) : verdict H .debug lfc o fp (.ok m) = .error (.fault .assertion) (o.fill m.pay) ↔
      fp = fingerprint H lfc.cfg.key fpHdr m.oui m.did (m.nums.getD 0 0) m.pay := by
  rw [verdict, if_neg (not_not_intro ht), if_neg (Nat.not_lt.2 hroom), if_neg (not_not_intro hk)]
  constructor
  · intro h
    by_contra hfp
    rw [if_neg fun hc => hfp hc.2] at h
    split_ifs at h <;> cases h
  · intro hfp
    rw [if_pos ⟨rfl, hfp⟩]

/-- an input that does not parse has no payload -/
theorem fitsPayload_of_error {junk v : U16} {x : List U8} (hv : Header junk x v) {e : LfcRes}
    (he : parse v (x.drop 3) = .error e) : FitsPayload junk x := by
  rintro rest ⟨v', m, hv', hm, -⟩
  rw [hv'.unique hv, he] at hm
  cases hm

end Uninitialized

/-- **What uninitialized variables decide.** There are two contents of the local variables with two results, the payload
within its array under both, exactly if the header cannot be corrected or, in a debug build with a key that BLAKE2s takes,
if the input is a datagram whose fingerprint is computed. -/
theorem uninitialized_iff (H : Blake2s) (B : Build) (lfc : Lfc) (x : List U8) (o : OutBuf) (ho : o.Fits) :
    (∃ u u', u.dg.InBounds ∧ u'.dg.InBounds ∧ FitsPayload u.decHdrBits x ∧ FitsPayload u'.decHdrBits x ∧
        lfcReceive H B u lfc x o ≠ lfcReceive H B u' lfc x o) ↔
      Uncorrectable x ∨ B = .debug ∧ lfc.cfg.key.Fits ∧ Deliverable x o := by
  constructor
  · rintro ⟨u, u', -, -, hx, -, hne⟩
    by_cases hbad : Uncorrectable x
    · exact Or.inl hbad
    · by_cases hlen : x.length < 3
      · rw [receive_short H B u lfc o hlen, receive_short H B u' lfc o hlen] at hne
        exact absurd rfl hne
      · obtain ⟨v, hv⟩ := (near_or_uncorrectable (Nat.not_lt.1 hlen)).resolve_right hbad
        rw [receive_header H B u lfc o (Or.inl hv) ho, receive_header H B u' lfc o (Or.inl hv) ho] at hne
        obtain ⟨hB, hk, m, hm, ht, hroom⟩ := verdict_fp H B lfc o hne
        exact Or.inr ⟨hB, hk, v, m, hv, hm, ht, hx _ ⟨v, m, Or.inl hv, hm, rfl⟩, hroom⟩
  · rintro (hbad | ⟨rfl, hk, v, m, hv, hm, ht, hfit, hroom⟩)
    · -- 0 is read as an invalid type, 0x1000 as an extended tag
      have h0 : parse 0 (x.drop 3) = .error .invalidType := rfl
      have h1 : parse 0x1000 (x.drop 3) = .error .errException := rfl
      have hv0 : Header 0 x 0 := Or.inr ⟨hbad, rfl⟩
      have hv1 : Header 0x1000 x 0x1000 := Or.inr ⟨hbad, rfl⟩
      have hrun0 := receive_error H B ⟨0, .zero, 0⟩ lfc o hv0 h0
      have hrun1 := receive_error H B ⟨0x1000, .zero, 0⟩ lfc o hv1 h1
      refine ⟨⟨0, .zero, 0⟩, ⟨0x1000, .zero, 0⟩, LfcDgDes.zero_inBounds, LfcDgDes.zero_inBounds,
        fitsPayload_of_error hv0 h0, fitsPayload_of_error hv1 h1, fun heq => ?_⟩
      rw [hrun0, hrun1] at heq
      cases heq
    · -- the variable holds the fingerprint of the datagram, or something else
      have hx : FitsPayload 0 x := Remainder.fits ⟨v, m, Or.inl hv, hm, rfl⟩ hfit
      have hrun (fp : U32) := receive_ok H .debug ⟨0, .zero, fp⟩ lfc o (Or.inl hv) ho hm
      have hstops := verdict_stops H lfc o ht hroom hk
      obtain ⟨fp, hfp⟩ : ∃ fp, fp = fingerprint H lfc.cfg.key fpHdr m.oui m.did (m.nums.getD 0 0) m.pay := ⟨_, rfl⟩
      have hother : ~~~fp ≠ fp := by
        intro h
        have hbit := congrArg (fun w : U32 => w.getLsbD 0) h
        simp at hbit
      refine ⟨⟨0, .zero, fp⟩, ⟨0, .zero, ~~~fp⟩, LfcDgDes.zero_inBounds, LfcDgDes.zero_inBounds, hx, hx,
        fun heq => hother ?_⟩
      rw [hrun, hrun, (hstops fp).2 hfp] at heq
      exact ((hstops _).1 heq.symm).trans hfp.symm

/-- an empty datagram with four flipped header bits in a release build, and as it was sent in a debug build -/
theorem uninitialized_iff_sample :
    (∃ u u', u.dg.InBounds ∧ u'.dg.InBounds ∧ FitsPayload u.decHdrBits (damage 0xf (zeroMsg 0).wire) ∧
        FitsPayload u'.decHdrBits (damage 0xf (zeroMsg 0).wire) ∧
        lfcReceive .echo .release u .zero (damage 0xf (zeroMsg 0).wire) (.zero 8) ≠
          lfcReceive .echo .release u' .zero (damage 0xf (zeroMsg 0).wire) (.zero 8)) ∧
      ∃ u u', u.dg.InBounds ∧ u'.dg.InBounds ∧
        FitsPayload u.decHdrBits (zeroMsg 0).wire ∧ FitsPayload u'.decHdrBits (zeroMsg 0).wire ∧
        lfcReceive .echo .debug u .zero (zeroMsg 0).wire (.zero 8) ≠
          lfcReceive .echo .debug u' .zero (zeroMsg 0).wire (.zero 8) := by
  have hbad : Uncorrectable (damage 0xf (zeroMsg 0).wire) := uncorrectable_of_four_flips (zeroMsg 0) (by decide +kernel)
  have hdeliverable : Deliverable (zeroMsg 0).wire (.zero 8) :=
    ⟨_, zeroMsg 0, (zeroMsg 0).wire_near, parse_body (zeroMsg 0), rfl, by decide, by decide⟩
  exact ⟨(uninitialized_iff .echo .release .zero _ (.zero 8) (OutBuf.zero_fits 8)).2 (Or.inl hbad),
    (uninitialized_iff .echo .debug .zero _ (.zero 8) (OutBuf.zero_fits 8)).2 (Or.inr ⟨rfl, Or.inl rfl, hdeliverable⟩)⟩

end LongFi
