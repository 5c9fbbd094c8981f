/-
The space a datagram takes.

`serialization_space`: a serializer returns iff its cursor has room for the size of the datagram, and never touches a byte
outside of it. `lfc_transmit` reports `lfc_res_err_nomem` iff the caller's buffer is shorter than the datagram, except that
a debug build with too short a buffer stops first when the fingerprint is 42 (`transmit_asserts_iff`).
-/
import LongFi.Device.Assertions
import LongFi.Device.Hashed

namespace LongFi

open LongFi.Core

theorem ser_needs (B : Build) {d : Dg} (hpay : d.payLen ≤ lfcDgConstantsMaxPayLen) {c : Cursor} (hc : c.Wf) :
    Needs (d.ser B) .errNomem d.serSize c := by
  rw [← Dg.wire_length hpay]
  exact (Dg.ser_writes B hpay).needs hc

/-- the call is out of memory exactly if the buffer is shorter than the datagram -/
def ReportsNomem (H : Blake2s) (B : Build) (lfc : Lfc) (pay : List U8) (o : OutBuf) : Prop :=
  (∃ s, lfcTransmit H B pay (lfc, o) = .error (.code .errNomem) s) ↔ o.outLen < txSize lfc pay

section Transmit

variable (H : Blake2s) (B : Build) (lfc : Lfc) {pay : List U8} (hpay : pay.length ≤ lfcDgConstantsMaxPayLen) {o : OutBuf}
include hpay

/-- a call that does not stop at the assertion -/
theorem reportsNomem_of_passes (ho : o.Fits) (hcheck : ¬(B = .debug ∧ lfc.cfg.key.Fits ∧ txFp H lfc pay = 42)) :
    ReportsNomem H B lfc pay o := by
  rw [ReportsNomem, ← txMsg_size H]
  rcases Nat.lt_or_ge o.outLen (txMsg H lfc pay).size with hroom | hroom
  · obtain ⟨out, hrun⟩ := lfcTransmit_full H B lfc hpay ho hcheck hroom
    exact ⟨fun _ => hroom, fun _ => ⟨_, hrun⟩⟩
  · refine ⟨?_, fun hlt => absurd hlt (Nat.not_lt.2 hroom)⟩
    intro ⟨s, hs⟩
    rw [lfcTransmit_ok H B lfc hpay ho hcheck hroom] at hs
    cases hs

/-- a call that stops there is not out of memory -/
theorem stops_not_nomem (hk : lfc.cfg.key.Fits) (h42 : txFp H lfc pay = 42) :
    ¬∃ s, lfcTransmit H .debug pay (lfc, o) = .error (.code .errNomem) s := by
  rintro ⟨s, hs⟩
  rw [lfcTransmit_abort H lfc hpay o hk h42] at hs
  cases hs

theorem reportsNomem_iff (ho : o.Fits) : ReportsNomem H B lfc pay o ↔
    B = .release ∨ ¬lfc.cfg.key.Fits ∨ fingerprint H lfc.cfg.key 0x040 lfc.cfg.oui lfc.cfg.did lfc.seq pay ≠ 42 ∨
      txSize lfc pay ≤ o.outLen := by
  by_cases hcheck : B = .debug ∧ lfc.cfg.key.Fits ∧ txFp H lfc pay = 42
  · obtain ⟨rfl, hk, h42⟩ := hcheck
    have hfp : fingerprint H lfc.cfg.key 0x040 lfc.cfg.oui lfc.cfg.did lfc.seq pay = 42 := (if_pos hk).symm.trans h42
    have hstops := stops_not_nomem (o := o) H lfc hpay hk h42
    constructor
    · intro h
      exact Or.inr (Or.inr (Or.inr (Nat.not_lt.1 fun hshort => hstops (h.2 hshort))))
    · rintro (hB | hk' | hne | hroom)
      · cases hB
      · exact absurd hk hk'
      · exact absurd hfp hne
      · exact ⟨fun h => absurd h hstops, fun hshort => absurd hroom (Nat.not_le.2 hshort)⟩
  · refine ⟨fun _ => ?_, fun _ => reportsNomem_of_passes H B lfc hpay ho hcheck⟩
    by_contra hno
    obtain ⟨hB, hk, h42, -⟩ : ¬B = .release ∧ lfc.cfg.key.Fits ∧
        fingerprint H lfc.cfg.key 0x040 lfc.cfg.oui lfc.cfg.did lfc.seq pay = 42 ∧ ¬txSize lfc pay ≤ o.outLen := by
      simpa only [not_or, not_not, ne_eq] using hno
    refine hcheck ⟨?_, hk, (if_pos hk).trans h42⟩
    cases B with
    | debug => rfl
    | release => exact absurd rfl hB

end Transmit

/-- **Space.** A variable-length field takes the least number of bytes with seven bits each, and a serializer needs exactly
the sum. A transmit is out of memory exactly when the buffer is shorter than the datagram, unless it is shorter, assertions
are compiled in, and the fingerprint is 42. -/
theorem serialization_space (H : Blake2s) (B : Build) (lfc : Lfc) {pay : List U8}
    (hpay : pay.length ≤ lfcDgConstantsMaxPayLen) {o : OutBuf} (ho : o.Fits) :
    (∀ v : U32, IsLeast {l | 1 ≤ l ∧ v.toNat < 2 ^ (7 * l)} (Base128.groups v.toNat)) ∧
      (∀ (d : Dg) (c : Cursor), d.payLen ≤ lfcDgConstantsMaxPayLen → c.Wf → Needs (d.ser B) .errNomem d.serSize c) ∧
      (ReportsNomem H B lfc pay o ↔ B = .release ∨ ¬lfc.cfg.key.Fits ∨
        fingerprint H lfc.cfg.key 0x040 lfc.cfg.oui lfc.cfg.did lfc.seq pay ≠ 42 ∨ txSize lfc pay ≤ o.outLen) :=
  ⟨fun v => Base128.groups_isLeast v.toNat, fun _ _ hd hc => ser_needs B hd hc, reportsNomem_iff H B lfc hpay ho⟩

/-- a debug build says that four bytes are too few for a datagram with another fingerprint -/
theorem serialization_space_sample : (OutBuf.zero 4).outLen < txSize .zero [1, 2] ∧
    ∃ s, lfcTransmit .echo .debug [1, 2] (.zero, .zero 4) = .error (.code .errNomem) s := by
  have hshort : (OutBuf.zero 4).outLen < txSize .zero [1, 2] := by decide +kernel
  have hpay : ([1, 2] : List U8).length ≤ lfcDgConstantsMaxPayLen := by decide
  obtain ⟨-, -, hspace⟩ := serialization_space .echo .debug .zero hpay (OutBuf.zero_fits 4)
  have hreports := hspace.2 (Or.inr (Or.inr (Or.inl (by decide +kernel))))
  exact ⟨hshort, hreports.2 hshort⟩

/-- a device whose next empty payload has fingerprint 42 under BLAKE2s without a key -/
def Lfc.hits42 : Lfc := ⟨285831953, ⟨1, 4, .none⟩⟩

/-- 13 bytes are too few for its datagram of 14 bytes, and a debug build stops instead of saying so -/
theorem short_buffer_stops :
    (OutBuf.zero 13).outLen < txSize .hits42 [] ∧
      ¬NoAssertionFails (lfcTransmit Blake2sRef.ref .debug [] (.hits42, .zero 13)) ∧
      ¬ReportsNomem Blake2sRef.ref .debug .hits42 [] (.zero 13) := by
  have hpay : ([] : List U8).length ≤ lfcDgConstantsMaxPayLen := by decide
  have hk : Lfc.hits42.cfg.key.Fits := Or.inl rfl
  have hfp : fingerprint Blake2sRef.ref .none 0x040 1 4 285831953 [] = 42 := by decide +kernel
  have h42 : txFp Blake2sRef.ref .hits42 [] = 42 := (if_pos hk).trans hfp
  have hshort : (OutBuf.zero 13).outLen < txSize .hits42 [] := by decide +kernel
  refine ⟨hshort, fun h => ?_, fun h => ?_⟩
  · exact h _ (lfcTransmit_abort Blake2sRef.ref .hits42 hpay (.zero 13) hk h42)
  · exact stops_not_nomem Blake2sRef.ref .hits42 hpay hk h42 (h.2 hshort)

end LongFi
