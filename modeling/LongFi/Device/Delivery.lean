/-
From one device to another: what is sent, and what arrives.

`lfcTransmit_outcome` says once what `lfc_transmit` can do without assertions: it takes a sequence number, and sends the
message `txMsg` if there is room for `txSize` bytes. The result of the fingerprint call is ignored, and a key that BLAKE2s
does not take leaves the initial value of the variable, 42, as fingerprint.

- `end_to_end`: a sent payload arrives through up to three header bit errors, subject to capacity and address.
- `sendsFingerprint_iff`: what is sent carries a computed fingerprint exactly if the key fits BLAKE2s.
-/
import LongFi.Device.Receive

namespace LongFi

open LongFi.Core

/-! ## What a call can do -/

/-- the size of the datagram that is sent -/
def txSize (lfc : Lfc) (pay : List U8) : ℕ := 7 + pay.length +
  (Base128.groups lfc.cfg.oui.toNat + Base128.groups lfc.cfg.did.toNat + Base128.groups lfc.seq.toNat)

theorem txMsg_size (H : Blake2s) (lfc : Lfc) (pay : List U8) : (txMsg H lfc pay).size = txSize lfc pay := by
  simp [Msg.size, txMsg, txSize]

/-- the outcome of a call -/
theorem lfcTransmit_outcome (H : Blake2s) (lfc : Lfc) {pay : List U8} (hpay : pay.length ≤ lfcDgConstantsMaxPayLen)
    {o : OutBuf} (ho : o.Fits) :
    txSize lfc pay ≤ o.outLen ∧
        lfcTransmit H .release pay (lfc, o) = .ok () (lfc.next, o.fill (txMsg H lfc pay).wire) ∨
      o.outLen < txSize lfc pay ∧
        ∃ out, lfcTransmit H .release pay (lfc, o) = .error (.code .errNomem) (lfc.next, ⟨out, o.outLen⟩) := by
  rw [← txMsg_size H]
  rcases Nat.lt_or_ge o.outLen (txMsg H lfc pay).size with hroom | hroom
  · exact Or.inr ⟨hroom, lfcTransmit_full H .release lfc hpay ho (by simp) hroom⟩
  · exact Or.inl ⟨hroom, lfcTransmit_ok H .release lfc hpay ho (by simp) hroom⟩

/-- a successful call emits the message -/
theorem lfcTransmit_sent {H : Blake2s} {lfc l : Lfc} {pay : List U8} (hpay : pay.length ≤ lfcDgConstantsMaxPayLen)
    {o o' : OutBuf} (ho : o.Fits) (h : lfcTransmit H .release pay (lfc, o) = .ok () (l, o')) :
    o'.bytes = (txMsg H lfc pay).wire := by
  rcases lfcTransmit_outcome H lfc hpay ho with ⟨-, hok⟩ | ⟨-, out, herr⟩
  · rw [h] at hok
    rw [(Prod.mk.inj (EStateM.Result.ok.inj hok).2).2, OutBuf.fill_bytes]
  · rw [h] at herr
    cases herr

/-- the datagram that a receiver makes of a message -/
theorem store_monolithic (out : LfcDgDes) {m : Msg} (ht : m.type = .monolithic) :
    (out.store m).monolithic.oui = m.oui ∧ (out.store m).monolithic.did = m.did ∧ (out.store m).monolithic.fp = m.fp ∧
      (out.store m).monolithic.seq = m.nums.getD 0 0 ∧ (out.store m).monolithic.payLen = m.pay.length ∧
      (out.store m).monolithic.payload = m.pay := by
  simp only [LfcDgDes.store, ht, LfcDgMonolithic.payload, PayBuf.write_take, true_and]

/-- with other local variables an input parses to the same fields, as long as its header is read the same -/
theorem SameHeader.parsed {u u' : Locals} {x : List U8} (h : SameHeader x u.decHdrBits u'.decHdrBits)
    {dg : LfcDgMonolithic} (hp : Parsed .release u x dg) : ∃ dg', Parsed .release u' x dg' ∧ SameButFlags dg dg' := by
  obtain ⟨c, out, hrun, htype, rfl⟩ := hp
  obtain ⟨v, m, hv, hm, rfl⟩ := lfcDgDes_stored hrun
  rw [LfcDgDes.store_type] at htype
  obtain ⟨houi, hdid, hfp, hseq, hlen, hpay⟩ := store_monolithic u.dg htype
  obtain ⟨houi', hdid', hfp', hseq', hlen', hpay'⟩ := store_monolithic u'.dg htype
  refine ⟨_, parsed_of_parse .release (h.header hv) hm htype, ?_⟩
  exact ⟨houi.trans houi'.symm, hdid.trans hdid'.symm, hfp.trans hfp'.symm, hseq.trans hseq'.symm,
    hlen.trans hlen'.symm, hpay.trans hpay'.symm⟩

/-! ## The fingerprint that is sent -/

/-- what is sent carries the fingerprint that is computed for it, and nothing is sent when the computation fails -/
structure SendsFingerprint (H : Blake2s) (lfc : Lfc) (pay : List U8) (o : OutBuf) : Prop where
  computed : ∀ l o', lfcTransmit H .release pay (lfc, o) = .ok () (l, o') → ∃ fp,
    (∀ s, lfcFingerprintMonolithic H .release lfc.cfg.key 0x040 lfc.cfg.oui lfc.cfg.did lfc.seq pay s = .ok () fp) ∧
      ∀ u, ∃ dg, Parsed .release u o'.bytes dg ∧ dg.fp = fp
  failed : ∀ s e t,
    lfcFingerprintMonolithic H .release lfc.cfg.key 0x040 lfc.cfg.oui lfc.cfg.did lfc.seq pay s = .error (.code e) t →
      ∃ e' t', lfcTransmit H .release pay (lfc, o) = .error (.code e') t'

section Sends

variable (H : Blake2s) {lfc : Lfc} {pay : List U8} (hpay : pay.length ≤ lfcDgConstantsMaxPayLen) {o : OutBuf}
  (ho : o.Fits)
include hpay ho

theorem sendsFingerprint_of_fits (hk : lfc.cfg.key.Fits) : SendsFingerprint H lfc pay o where
  computed := by
    intro l o' hok
    have hfp : txFp H lfc pay = fingerprint H lfc.cfg.key fpHdr lfc.cfg.oui lfc.cfg.did lfc.seq pay := if_pos hk
    refine ⟨txFp H lfc pay, (fp_computed_iff H hk _ _ _ _ _ _).2 hfp.symm, fun u => ?_⟩
    rw [lfcTransmit_sent hpay ho hok]
    exact ⟨_, parsed_wire .release u rfl, (store_monolithic u.dg (m := txMsg H lfc pay) rfl).2.2.1⟩
  failed := by
    intro s e t he
    rw [lfcFingerprintMonolithic_release H _ _ _ _ _ s hk] at he
    cases he

theorem sendsFingerprint_of_full (hroom : o.outLen < txSize lfc pay) : SendsFingerprint H lfc pay o := by
  rcases lfcTransmit_outcome H lfc hpay ho with ⟨hle, -⟩ | ⟨-, out, herr⟩
  · exact absurd hroom (Nat.not_lt.2 hle)
  · refine ⟨fun l o' hok => ?_, fun s e t _ => ⟨_, _, herr⟩⟩
    rw [herr] at hok
    cases hok

/-- with room for the datagram and a key that BLAKE2s does not take, the constant 42 is sent -/
theorem sends_constant (hk : ¬lfc.cfg.key.Fits) (hroom : txSize lfc pay ≤ o.outLen) :
    (txMsg H lfc pay).fp = 42 ∧ lfcTransmit H .release pay (lfc, o) = .ok () (lfc.next, o.fill (txMsg H lfc pay).wire) ∧
      ¬SendsFingerprint H lfc pay o := by
  rcases lfcTransmit_outcome H lfc hpay ho with ⟨-, hok⟩ | ⟨hlt, -⟩
  · refine ⟨if_neg hk, hok, fun h => ?_⟩
    obtain ⟨e, t, herr⟩ := h.failed 42 _ _ (lfcFingerprintMonolithic_bad_key H .release _ _ _ _ pay 42 hk)
    rw [hok] at herr
    cases herr
  · exact absurd hroom (Nat.not_le.2 hlt)

end Sends

/-- **Transmit sends a computed fingerprint** exactly if the key fits BLAKE2s, or nothing is sent. -/
theorem sendsFingerprint_iff (H : Blake2s) (lfc : Lfc) (pay : List U8) (hpay : pay.length ≤ lfcDgConstantsMaxPayLen)
    (o : OutBuf) (ho : o.Fits) :
    SendsFingerprint H lfc pay o ↔
      (lfc.cfg.key.key = none ∨ lfc.cfg.key.keyLen ≤ blake2sKeybytes) ∨ o.outLen < txSize lfc pay := by
  constructor
  · intro h
    by_contra hbad
    obtain ⟨hk, hroom⟩ := not_or.1 hbad
    exact (sends_constant H hpay ho hk (Nat.not_lt.1 hroom)).2.2 h
  · rintro (hk | hroom)
    · exact sendsFingerprint_of_fits H hpay ho hk
    · exact sendsFingerprint_of_full H hpay ho hroom

theorem sendsFingerprint_iff_sample : SendsFingerprint .echo .zero [1, 2] (.zero 16) ↔
    (Lfc.zero.cfg.key.key = none ∨ Lfc.zero.cfg.key.keyLen ≤ blake2sKeybytes) ∨
      (OutBuf.zero 16).outLen < txSize .zero [1, 2] :=
  sendsFingerprint_iff .echo .zero [1, 2] (by decide) (.zero 16) (OutBuf.zero_fits 16)

/-- a device with a key of 33 bytes -/
def Lfc.longKey : Lfc := lfcInit ⟨1, 2, ⟨some (List.replicate 33 7), 33, by decide⟩⟩

/-- with a key of 33 bytes an empty payload is sent with fingerprint 42 -/
theorem long_key_sends_constant :
    (∃ l o', lfcTransmit .echo .release [] (.longKey, .zero 16) = .ok () (l, o') ∧
      o'.bytes = [0x40, 0x30, 0xda, 1, 2, 42, 0, 0, 0, 0]) ∧ ¬SendsFingerprint .echo .longKey [] (.zero 16) := by
  have hk : ¬Lfc.longKey.cfg.key.Fits := by decide
  have hpay : ([] : List U8).length ≤ lfcDgConstantsMaxPayLen := by decide
  obtain ⟨-, hok, hnot⟩ := sends_constant .echo hpay (OutBuf.zero_fits 16) hk (by decide +kernel)
  refine ⟨⟨_, _, hok, ?_⟩, hnot⟩
  rw [OutBuf.fill_bytes]
  decide +kernel

/-! ## End to end -/

/-- the datagram that arrives -/
theorem parsed_sent (B : Build) {H : Blake2s} {snd l : Lfc} {pay : List U8} (hpay : pay.length ≤ lfcDgConstantsMaxPayLen)
    {o o' : OutBuf} (ho : o.Fits) (htx : lfcTransmit H .release pay (snd, o) = .ok () (l, o')) {e : BitVec 24}
    (he : weight e ≤ 3) (u : Locals) :
    Parsed B u (damage e o'.bytes) (u.dg.store (txMsg H snd pay)).monolithic := by
  rw [lfcTransmit_sent hpay ho htx]
  exact parsed_damaged B u rfl he

/-- the fingerprint the receiver computes is the one the sender computed -/
theorem rxFp_sent (H : Blake2s) {snd rcv : Lfc} (hkey : snd.cfg.key = rcv.cfg.key) (hk : snd.cfg.key.Fits)
    (pay : List U8) (out : LfcDgDes) :
    rxFp H rcv (out.store (txMsg H snd pay)).monolithic = (out.store (txMsg H snd pay)).monolithic.fp := by
  obtain ⟨houi, hdid, hfp, hseq, -, hpay⟩ := store_monolithic out (m := txMsg H snd pay) rfl
  rw [rxFp, houi, hdid, hfp, hseq, hpay, ← hkey]
  exact (if_pos hk).symm

/-- **End to end**: through up to three header bit errors, a sent payload arrives, or is rejected for the capacity or the
address. -/
theorem end_to_end (H : Blake2s) (snd rcv : Lfc) (hkey : snd.cfg.key = rcv.cfg.key)
    (hk : snd.cfg.key.keyLen ≤ blake2sKeybytes) (pay : List U8) (hpay : pay.length ≤ lfcDgConstantsMaxPayLen)
    (o o' : OutBuf) (ho : o.Fits) (l : Lfc) (htx : lfcTransmit H .release pay (snd, o) = .ok () (l, o')) (e : BitVec 24)
    (he : weight e ≤ 3) (u : Locals) (r : OutBuf) (hr : r.Fits) :
    (rcv.cfg.oui = snd.cfg.oui → rcv.cfg.did = snd.cfg.did → pay.length ≤ r.outLen →
        lfcReceive H .release u rcv (damage e o'.bytes) r = .ok () ⟨splice r.out 0 pay, pay.length⟩) ∧
      (r.outLen < pay.length →
        lfcReceive H .release u rcv (damage e o'.bytes) r = .error (.code .errNomem) { r with outLen := 0 }) ∧
      (pay.length ≤ r.outLen → rcv.cfg.oui ≠ snd.cfg.oui ∨ rcv.cfg.did ≠ snd.cfg.did →
        ∃ r', lfcReceive H .release u rcv (damage e o'.bytes) r = .error (.code .errAddr) r') := by
  obtain ⟨c, out, hrun, ht, hdg⟩ := parsed_sent .release hpay ho htx he u
  obtain ⟨houi, hdid, -, -, hlen, hpayload⟩ := store_monolithic u.dg (m := txMsg H snd pay) rfl
  have hfp := rxFp_sent H hkey (Or.inr hk) pay u.dg
  rw [← hdg] at houi hdid hlen hpayload hfp
  have hverdict := fun hcap => lfcReceive_verdict H rcv r hrun ht hcap hr (hkey ▸ Or.inr hk) (by simp)
  rw [hlen, houi, hdid, hpayload, hfp] at hverdict
  refine ⟨fun hoeq hdeq hcap => ?_, fun hcap => ?_, fun hcap hne => ?_⟩
  · rw [hverdict hcap, if_neg (by simp [txMsg, hoeq, hdeq]), if_neg (by simp)]
    rfl
  · exact lfcReceive_no_room H rcv r hrun ht (by rw [hlen]; exact hcap)
  · have haddr : (txMsg H snd pay).oui ≠ rcv.cfg.oui ∨ (txMsg H snd pay).did ≠ rcv.cfg.did := hne.imp Ne.symm Ne.symm
    rw [hverdict hcap, if_pos haddr]
    exact ⟨_, rfl⟩

/-- two payload bytes with two header bits flipped -/
theorem end_to_end_sample : ∃ o', lfcTransmit .echo .release [5, 6] (.zero, .zero 16) = .ok () (Lfc.zero.next, o') ∧
    lfcReceive .echo .release .zero .zero (damage 0x801 o'.bytes) (.zero 2) = .ok () ⟨[5, 6], 2⟩ := by
  have hpay : ([5, 6] : List U8).length ≤ lfcDgConstantsMaxPayLen := by decide
  have htx := lfcTransmit_ok .echo .release .zero hpay (OutBuf.zero_fits 16) (by simp) (by decide +kernel)
  have h := end_to_end .echo .zero .zero rfl (by decide) [5, 6] hpay (.zero 16) _ (OutBuf.zero_fits 16) _ htx
    0x801 (by decide +kernel) .zero (.zero 2) (OutBuf.zero_fits 2)
  exact ⟨_, htx, h.1 rfl rfl (le_refl 2)⟩

end LongFi
