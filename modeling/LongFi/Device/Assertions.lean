/-
The assertions on the fingerprint, in a debug build.

`lfc_fingerprint_monolithic` asserts that the fingerprint differs from the old content of `*out`. Nothing provides for
that: `lfc_transmit` passes a variable with 42 in it, `lfc_receive` an unset one, and the hash may have either value.

- `assertions_hold_iff`: exactly when the assertion fails, in the function itself and in both of its callers.
- `recomputed_aborts`: computing a fingerprint twice into the same variable always fails it.
-/
import LongFi.Device.Delivery

namespace LongFi

open LongFi.Core

/-- with assertions, a call on s ends with the value that every call computes without them -/
def EntryIndependent (H : Blake2s) (key : Key) (hdr : U16) (oui did seq : U32) (pay : List U8) (s : U32) : Prop :=
  ∃ fp, lfcFingerprintMonolithic H .debug key hdr oui did seq pay s = .ok () fp ∧
    ∀ s', lfcFingerprintMonolithic H .release key hdr oui did seq pay s' = .ok () fp

/-- the call does not end in a failed assertion -/
def NoAssertionFails {σ α : Type} (r : EStateM.Result (Exit LfcRes) σ α) : Prop :=
  ∀ t, r ≠ .error (.fault .assertion) t

theorem entryIndependent_iff (H : Blake2s) {key : Key} (hk : key.Fits) (hdr : U16) (oui did seq : U32) (pay : List U8)
    (s : U32) : EntryIndependent H key hdr oui did seq pay s ↔ s ≠ fingerprint H key hdr oui did seq pay := by
  have hrun := lfcFingerprintMonolithic_run H .debug hdr oui did seq pay s hk
  constructor
  · rintro ⟨fp, hdebug, -⟩ hs
    rw [hrun, if_pos ⟨rfl, hs⟩] at hdebug
    cases hdebug
  · intro hs
    rw [if_neg fun h => hs h.2] at hrun
    exact ⟨_, hrun, (fp_computed_iff H hk hdr oui did seq pay _).2 rfl⟩

/-- a fingerprint recomputed into the same variable fails the assertion, whatever the hash -/
theorem recomputed_aborts (H : Blake2s) {key : Key} (hk : key.Fits) (hdr : U16) (oui did seq : U32) (pay : List U8)
    {s t : U32} (h : lfcFingerprintMonolithic H .debug key hdr oui did seq pay s = .ok () t) :
    lfcFingerprintMonolithic H .debug key hdr oui did seq pay t = .error (.fault .assertion) t := by
  have hrun := fun s => lfcFingerprintMonolithic_run H .debug hdr oui did seq pay s hk
  by_cases hs : s = fingerprint H key hdr oui did seq pay
  · rw [hrun s, if_pos ⟨rfl, hs⟩] at h
    cases h
  · rw [hrun s, if_neg fun hc => hs hc.2] at h
    obtain rfl := (EStateM.Result.ok.inj h).2
    rw [hrun _, if_pos ⟨rfl, rfl⟩]

theorem transmit_asserts_iff (H : Blake2s) {lfc : Lfc} (hk : lfc.cfg.key.Fits) {pay : List U8}
    (hpay : pay.length ≤ lfcDgConstantsMaxPayLen) {o : OutBuf} (ho : o.Fits) :
    NoAssertionFails (lfcTransmit H .debug pay (lfc, o)) ↔
      42 ≠ fingerprint H lfc.cfg.key fpHdr lfc.cfg.oui lfc.cfg.did lfc.seq pay := by
  have hfp : txFp H lfc pay = fingerprint H lfc.cfg.key fpHdr lfc.cfg.oui lfc.cfg.did lfc.seq pay := if_pos hk
  rw [← hfp]
  constructor
  · intro h h42
    exact h _ (lfcTransmit_abort H lfc hpay o hk h42.symm)
  · intro h42 t ht
    have hcheck : ¬(Build.debug = .debug ∧ lfc.cfg.key.Fits ∧ txFp H lfc pay = 42) := fun h => h42 h.2.2.symm
    rcases Nat.lt_or_ge o.outLen (txMsg H lfc pay).size with hroom | hroom
    · obtain ⟨out, hrun⟩ := lfcTransmit_full H .debug lfc hpay ho hcheck hroom
      rw [hrun] at ht
      cases ht
    · rw [lfcTransmit_ok H .debug lfc hpay ho hcheck hroom] at ht
      cases ht

theorem receive_asserts_iff (H : Blake2s) {lfc : Lfc} (hk : lfc.cfg.key.Fits) (u : Locals) (x : List U8) {o : OutBuf}
    (ho : o.Fits) :
    NoAssertionFails (lfcReceive H .debug u lfc x o) ↔
      ∀ dg, Parsed .debug u x dg → dg.payLen ≤ o.outLen → u.fp ≠ rxFp H lfc dg := by
  constructor
  · rintro h dg ⟨c, out, hrun, ht, rfl⟩ hcap hfp
    exact h _ (lfcReceive_abort H lfc o hrun ht hcap ho hk hfp)
  · intro h t habort
    rcases lfcDgDes_returns .debug u.decHdrBits x u.dg with ⟨c, out, hrun⟩ | ⟨e, c, out, -, hrun⟩
    · by_cases ht : out.type = .monolithic
      · rcases Nat.lt_or_ge o.outLen out.monolithic.payLen with hcap | hcap
        · rw [lfcReceive_no_room H lfc o hrun ht hcap] at habort
          cases habort
        · have hfp := h _ ⟨c, out, hrun, ht, rfl⟩ hcap
          rw [lfcReceive_verdict H lfc o hrun ht hcap ho hk fun hc => hfp hc.2] at habort
          split_ifs at habort <;> cases habort
      · rw [lfcReceive_wrong_type H lfc o hrun ht] at habort
        cases habort
    · rw [lfcReceive_unparsed H lfc o hrun] at habort
      cases habort

/-- **When the assertions hold**: exactly when the old content of the variable is not the fingerprint. -/
theorem assertions_hold_iff (H : Blake2s) (lfc : Lfc) (hk : lfc.cfg.key.keyLen ≤ blake2sKeybytes) :
    (∀ hdr oui did seq pay s, EntryIndependent H lfc.cfg.key hdr oui did seq pay s ↔
        s ≠ fingerprint H lfc.cfg.key hdr oui did seq pay) ∧
      (∀ pay o, pay.length ≤ lfcDgConstantsMaxPayLen → OutBuf.Fits o →
        (NoAssertionFails (lfcTransmit H .debug pay (lfc, o)) ↔
          42 ≠ fingerprint H lfc.cfg.key 0x040 lfc.cfg.oui lfc.cfg.did lfc.seq pay)) ∧
      ∀ u x o, OutBuf.Fits o →
        (NoAssertionFails (lfcReceive H .debug u lfc x o) ↔ ∀ dg, Parsed .debug u x dg → dg.payLen ≤ o.outLen →
          u.fp ≠ fingerprint H lfc.cfg.key 0x040 dg.oui dg.did dg.seq dg.payload) :=
  ⟨entryIndependent_iff H (Or.inr hk), fun _ _ hpay ho => transmit_asserts_iff H (Or.inr hk) hpay ho,
    fun u x _ ho => receive_asserts_iff H (Or.inr hk) u x ho⟩

/-- BLAKE2s replaced by a constant -/
def Blake2s.const (b : U8) : Blake2s where
  digest outlen _ _ := List.replicate outlen b
  digest_length _ _ _ := List.length_replicate

theorem assertions_hold_iff_sample :
    (∀ hdr oui did seq pay s, EntryIndependent (.const 1) .none hdr oui did seq pay s ↔
        s ≠ fingerprint (.const 1) .none hdr oui did seq pay) ∧
      (∀ pay o, pay.length ≤ lfcDgConstantsMaxPayLen → OutBuf.Fits o →
        (NoAssertionFails (lfcTransmit (.const 1) .debug pay (.zero, o)) ↔
          42 ≠ fingerprint (.const 1) .none 0x040 0 0 0 pay)) ∧
      ∀ u x o, OutBuf.Fits o →
        (NoAssertionFails (lfcReceive (.const 1) .debug u .zero x o) ↔ ∀ dg, Parsed .debug u x dg →
          dg.payLen ≤ o.outLen → u.fp ≠ fingerprint (.const 1) .none 0x040 dg.oui dg.did dg.seq dg.payload) :=
  assertions_hold_iff (.const 1) .zero (by decide)

/-- a fingerprint computed into a variable that holds it, and a datagram received with an unset variable that holds it -/
theorem assertion_fails :
    lfcFingerprintMonolithic (.const 0) .debug .none 0x040 0 0 0 [] 0 = .error (.fault .assertion) 0 ∧
      ¬EntryIndependent (.const 0) .none 0x040 0 0 0 [] 0 ∧
      ¬NoAssertionFails (lfcReceive (.const 0) .debug .zero .zero (zeroMsg 2).wire (.zero 2)) := by
  have hk : Key.none.Fits := Or.inl rfl
  have hzero : ∀ hdr oui did seq pay, fingerprint (.const 0) .none hdr oui did seq pay = 0 := fun _ _ _ _ _ =>
    show unpackLeU32 (List.replicate 4 0) = 0 by decide
  refine ⟨?_, fun h => ?_, fun h => ?_⟩
  · rw [lfcFingerprintMonolithic_run _ _ _ _ _ _ _ _ hk, hzero, if_pos ⟨rfl, rfl⟩]
  · exact (entryIndependent_iff (.const 0) hk _ _ _ _ _ 0).1 h (hzero _ _ _ _ _).symm
  · have hkey : Lfc.zero.cfg.key.Fits := hk
    have hno := (receive_asserts_iff (.const 0) hkey .zero _ (OutBuf.zero_fits 2)).1 h
    exact hno _ (parsed_wire .debug .zero (m := zeroMsg 2) rfl) (by decide +kernel) (hzero _ _ _ _ _).symm

end LongFi
