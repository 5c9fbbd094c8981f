/-
The device API (`src/lfc.c`): transmit and receive.

An output buffer is an object of bytes with the value of `*out_len`, which its caller keeps within the object
(`OutBuf.Fits`). `Locals` is what the local variables of `lfc_receive` and of the parser hold before they are set.

- `lfcTransmit_ok`, `lfcTransmit_full`: a sequence number is taken, and the datagram is sent if the buffer is large enough.
- `lfcReceive_unparsed`, `_wrong_type`, `_no_room`: what is rejected before anything is delivered.
- `lfcReceive_delivers`, `_bad_key`, `_verdict`: the payload of every other input is delivered, and then verified.
- `lfcTransmit_abort`, `lfcReceive_abort`: when an assertion fails.
-/
import LongFi.Datagram.Received
import LongFi.Device.Fingerprint

namespace LongFi

open LongFi.Core

/-! ## lfc.c -/

/-- `cb_data` is never read and left out -/
structure LfcUserCfg where
  oui : U32
  did : U32
  key : Key
deriving DecidableEq

structure Lfc where
  seq : U32
  cfg : LfcUserCfg
deriving DecidableEq

/-- `out` and `*out_len` -/
structure OutBuf where
  out : List U8
  outLen : ℕ
deriving DecidableEq, Repr

/-- the buffer holds at least the bytes its length claims -/
def OutBuf.Fits (o : OutBuf) : Prop := o.outLen ≤ o.out.length

/-- uninitialized local variables -/
structure Locals where
  decHdrBits : U16
  dg : LfcDgDes
  fp : U32

def lfcInit (cfg : LfcUserCfg) : Lfc := { seq := 0, cfg := cfg }

def lfcSeq : Call LfcRes Lfc U32 := do
  let lfc ← get
  set { lfc with seq := lfc.seq + 1 }
  return lfc.seq

/-- the header of a monolithic datagram with no flags, which `lfc_dg_monolithic__fingerprint` assumes -/
def fpHdr : U16 := LfcDgType.monolithic.val <<< 6 ||| 0

/-- the state is `*out` -/
def lfcDgMonolithicFingerprint (H : Blake2s) (B : Build) (lfc : Lfc) (dg : LfcDgMonolithic) : Call LfcRes U32 Unit := do
  let pay ← lift (load dg.pay.mem 0 dg.payLen)
  lfcFingerprintMonolithic H B lfc.cfg.key fpHdr dg.oui dg.did dg.seq pay

/-- p on a cursor over the output buffer -/
def onOut {α : Type} (p : Call LfcRes Cursor α) : Call LfcRes (Lfc × OutBuf) α :=
  zoom (fun s => cursorNew s.2.out s.2.outLen) (fun csr s => (s.1, { s.2 with out := csr.buf })) p

/-- `pay` are the `pay_len` bytes at the payload pointer; the result of the fingerprint call is ignored -/
def lfcTransmit (H : Blake2s) (B : Build) (pay : List U8) : Call LfcRes (Lfc × OutBuf) Unit := do
  lift (check B (pay.length ≤ lfcDgConstantsMaxPayLen))
  let seq ← zoom Prod.fst (fun lfc s => (lfc, s.2)) lfcSeq
  let (lfc, _) ← get
  let dg : LfcDgMonolithic :=
    { flags := { downlink := false, shouldAck := false, ctsRts := false, priority := false, ldpc := false }
      oui := lfc.cfg.oui
      did := lfc.cfg.did
      fp := 0
      seq := seq
      payLen := pay.length
      pay := PayBuf.zero.write pay }
  let r ← onLocals (42 : U32) (attempt (lfcDgMonolithicFingerprint H B lfc dg))
  let dg := { dg with fp := r.2 }
  let pos ← onOut (do lfcDgMonolithicSer B dg; return (← get).pos)
  modify fun s => (s.1, { s.2 with outLen := pos })

def lfcReceive (H : Blake2s) (B : Build) (u : Locals) (lfc : Lfc) (inp : List U8) : Call LfcRes OutBuf Unit := do
  let outCap := (← get).outLen
  modify fun o => { o with outLen := 0 }
  let (_, _, dg) ← onLocals (cursorNew inp inp.length, u.dg) (lfcDgDes B u.decHdrBits)
  if dg.type ≠ .monolithic then
    fail .invalidType
  else if outCap < dg.monolithic.payLen then
    fail .errNomem
  else
    let bytes ← lift (load dg.monolithic.pay.mem 0 dg.monolithic.payLen)
    let out ← lift (store (← get).out 0 bytes)
    set { out := out, outLen := dg.monolithic.payLen : OutBuf }
    let (_, fp) ← onLocals u.fp (lfcDgMonolithicFingerprint H B lfc dg.monolithic)
    if dg.monolithic.oui ≠ lfc.cfg.oui ∨ dg.monolithic.did ≠ lfc.cfg.did then
      fail .errAddr
    else if fp ≠ dg.monolithic.fp then
      fail .errFingerprint
    else
      return

/-! ## Buffers -/

/-- the bytes a buffer claims to hold -/
def OutBuf.bytes (o : OutBuf) : List U8 := o.out.take o.outLen

/-- the buffer after bs was written to it -/
def OutBuf.fill (o : OutBuf) (bs : List U8) : OutBuf := ⟨splice o.out 0 bs, bs.length⟩

@[simp] theorem OutBuf.fill_bytes (o : OutBuf) (bs : List U8) : (o.fill bs).bytes = bs := splice_read (Nat.zero_le _)

theorem OutBuf.fill_nil (o : OutBuf) : o.fill [] = { o with outLen := 0 } := by
  simp [fill, splice]

/-! ## The fingerprint of a datagram -/

/-- the `pay_len` bytes of the payload -/
def LfcDgMonolithic.payload (dg : LfcDgMonolithic) : List U8 := dg.pay.mem.take dg.payLen

theorem lfcDgMonolithicFingerprint_eq (H : Blake2s) (B : Build) (lfc : Lfc) {dg : LfcDgMonolithic}
    (h : dg.payLen ≤ dg.pay.mem.length) (s : U32) : lfcDgMonolithicFingerprint H B lfc dg s =
      lfcFingerprintMonolithic H B lfc.cfg.key fpHdr dg.oui dg.did dg.seq dg.payload s := by
  have hload : load dg.pay.mem 0 dg.payLen = .ok dg.payload := by
    rw [load_ok (by rw [Nat.zero_add]; exact h), List.drop_zero, LfcDgMonolithic.payload]
  rw [lfcDgMonolithicFingerprint, hload, bind_ok (lift_ok _ s)]

/-! ## Transmit -/

/-- the fingerprint that is sent: the computed one, or the initial value of the variable when the computation fails -/
def txFp (H : Blake2s) (lfc : Lfc) (pay : List U8) : U32 :=
  if lfc.cfg.key.Fits then fingerprint H lfc.cfg.key fpHdr lfc.cfg.oui lfc.cfg.did lfc.seq pay else 42

/-- the message that is sent -/
def txMsg (H : Blake2s) (lfc : Lfc) (pay : List U8) : Msg :=
  { type := .monolithic, flags := 0, oui := lfc.cfg.oui, did := lfc.cfg.did, fp := txFp H lfc pay, nums := [lfc.seq],
    pay := pay, flags_known := no_flags_known .monolithic, nums_length := rfl }

/-- the datagram of `lfc_transmit` before its fingerprint is set -/
def txDg (lfc : Lfc) (pay : List U8) : LfcDgMonolithic :=
  { flags := { downlink := false, shouldAck := false, ctsRts := false, priority := false, ldpc := false }
    oui := lfc.cfg.oui
    did := lfc.cfg.did
    fp := 0
    seq := lfc.seq
    payLen := pay.length
    pay := PayBuf.zero.write pay }

/-- the context after a transmit -/
def Lfc.next (lfc : Lfc) : Lfc := { lfc with seq := lfc.seq + 1 }

theorem txDg_msg (H : Blake2s) (lfc : Lfc) (pay : List U8) :
    (Dg.monolithic { txDg lfc pay with fp := txFp H lfc pay }).msg = txMsg H lfc pay := by
  simp only [Dg.msg, txDg, txMsg, PayBuf.write_take]
  rfl

theorem txDg_payLen_le (lfc : Lfc) (pay : List U8) : (txDg lfc pay).payLen ≤ (txDg lfc pay).pay.mem.length := by
  simp [txDg, PayBuf.write]

section Transmit

variable (H : Blake2s) (B : Build) (lfc : Lfc) {pay : List U8}

theorem onOut_ok {α : Type} {p : Call LfcRes Cursor α} {l : Lfc} {o : OutBuf} {a : α} {c : Cursor}
    (h : p (cursorNew o.out o.outLen) = .ok a c) : onOut p (l, o) = .ok a (l, { o with out := c.buf }) := by
  rw [onOut, zoom, h]

theorem onOut_error {α : Type} {p : Call LfcRes Cursor α} {l : Lfc} {o : OutBuf} {x : Exit LfcRes} {c : Cursor}
    (h : p (cursorNew o.out o.outLen) = .error x c) : onOut p (l, o) = .error x (l, { o with out := c.buf }) := by
  rw [onOut, zoom, h]

/-- the fingerprint call, whose result is ignored -/
theorem txFp_run (hcheck : ¬(B = .debug ∧ lfc.cfg.key.Fits ∧ txFp H lfc pay = 42)) (t : Lfc × OutBuf) :
    ∃ r, (onLocals (42 : U32) (attempt (lfcDgMonolithicFingerprint H B lfc.next (txDg lfc pay))) :
      Call LfcRes (Lfc × OutBuf) (Except LfcRes Unit × U32)) t = .ok (r, txFp H lfc pay) t := by
  have hpay : (txDg lfc pay).payload = pay := PayBuf.write_take _ _
  have hcall := lfcDgMonolithicFingerprint_eq H B lfc.next (txDg_payLen_le lfc pay) 42
  rw [hpay] at hcall
  by_cases hk : lfc.cfg.key.Fits
  · have hfp : txFp H lfc pay = fingerprint H lfc.cfg.key fpHdr lfc.cfg.oui lfc.cfg.did lfc.seq pay := if_pos hk
    have hrun := lfcFingerprintMonolithic_run H B fpHdr lfc.cfg.oui lfc.cfg.did lfc.seq pay 42 hk
    rw [← hfp, if_neg fun h => hcheck ⟨h.1, hk, h.2.symm⟩] at hrun
    exact ⟨_, onLocals_ok (attempt_ok (hcall.trans hrun)) t⟩
  · have hfp : txFp H lfc pay = 42 := if_neg hk
    have hrun := lfcFingerprintMonolithic_bad_key H B fpHdr lfc.cfg.oui lfc.cfg.did lfc.seq pay 42 hk
    rw [hfp]
    exact ⟨_, onLocals_ok (attempt_code (hcall.trans hrun)) t⟩

/-- the rest of the call after the fingerprint -/
def txSend (B : Build) (dg : LfcDgMonolithic) : Call LfcRes (Lfc × OutBuf) Unit := do
  let pos ← onOut (do lfcDgMonolithicSer B dg; return (← get).pos)
  modify fun s => (s.1, { s.2 with outLen := pos })

theorem lfcTransmit_eq (hpay : pay.length ≤ lfcDgConstantsMaxPayLen) (o : OutBuf) :
    lfcTransmit H B pay (lfc, o) =
      (do let r ← onLocals (42 : U32) (attempt (lfcDgMonolithicFingerprint H B lfc.next (txDg lfc pay)))
          txSend B { txDg lfc pay with fp := r.2 } : Call LfcRes (Lfc × OutBuf) Unit) (lfc.next, o) := by
  have hseq : zoom Prod.fst (fun lfc s => (lfc, s.2)) lfcSeq (lfc, o) = .ok lfc.seq (lfc.next, o) := rfl
  rw [lfcTransmit, check_of_true B hpay, bind_ok (lift_ok _ _), bind_ok hseq, bind_ok (get_run _)]
  rfl

theorem txSend_ok {dg : LfcDgMonolithic} {w : List U8} (h : Writes (lfcDgMonolithicSer B dg) .errNomem w) {o : OutBuf}
    (ho : o.Fits) (hroom : w.length ≤ o.outLen) (l : Lfc) :
    txSend B dg (l, o) = .ok () (l, o.fill w) := by
  have hpos : (do lfcDgMonolithicSer B dg; return (← get).pos : Call LfcRes Cursor ℕ) (cursorNew o.out o.outLen) =
      .ok w.length ((cursorNew o.out o.outLen).write w) := by
    rw [bind_ok (h.fits (cursorNew_wf ho) hroom), bind_ok (get_run _), pure_run]
    simp [cursorNew, Cursor.write]
  rw [txSend, bind_ok (onOut_ok hpos)]
  rfl

theorem txSend_full {dg : LfcDgMonolithic} {w : List U8} (h : Writes (lfcDgMonolithicSer B dg) .errNomem w) {o : OutBuf}
    (ho : o.Fits) (hroom : o.outLen < w.length) (l : Lfc) :
    ∃ out, txSend B dg (l, o) = .error (.code .errNomem) (l, ⟨out, o.outLen⟩) := by
  obtain ⟨k, -, hser⟩ := h.full (cursorNew_wf ho) hroom
  have hpos : (do lfcDgMonolithicSer B dg; return (← get).pos : Call LfcRes Cursor ℕ) (cursorNew o.out o.outLen) =
      .error (.code .errNomem) ((cursorNew o.out o.outLen).write (w.take k)) := bind_error hser
  exact ⟨_, by rw [txSend, bind_error (onOut_error hpos)]⟩

/-- the serializer of the datagram that is sent -/
theorem txDg_writes (hpay : pay.length ≤ lfcDgConstantsMaxPayLen) :
    Writes (lfcDgMonolithicSer B { txDg lfc pay with fp := txFp H lfc pay }) .errNomem (txMsg H lfc pay).wire := by
  have h := Dg.ser_writes B (d := .monolithic { txDg lfc pay with fp := txFp H lfc pay }) hpay
  rw [txDg_msg] at h
  exact h

/-- **Transmit**: one sequence number is used, and the message is sent if there is room for it. -/
theorem lfcTransmit_ok (hpay : pay.length ≤ lfcDgConstantsMaxPayLen) {o : OutBuf} (ho : o.Fits)
    (hcheck : ¬(B = .debug ∧ lfc.cfg.key.Fits ∧ txFp H lfc pay = 42)) (hroom : (txMsg H lfc pay).size ≤ o.outLen) :
    lfcTransmit H B pay (lfc, o) = .ok () (lfc.next, o.fill (txMsg H lfc pay).wire) := by
  obtain ⟨r, hfp⟩ := txFp_run H B lfc hcheck (lfc.next, o)
  rw [← Msg.wire_length] at hroom
  rw [lfcTransmit_eq H B lfc hpay, bind_ok hfp]
  exact txSend_ok B (txDg_writes H B lfc hpay) ho hroom lfc.next

/-- a transmit without room fails, and uses up its sequence number all the same -/
theorem lfcTransmit_full (hpay : pay.length ≤ lfcDgConstantsMaxPayLen) {o : OutBuf} (ho : o.Fits)
    (hcheck : ¬(B = .debug ∧ lfc.cfg.key.Fits ∧ txFp H lfc pay = 42)) (hroom : o.outLen < (txMsg H lfc pay).size) :
    ∃ out, lfcTransmit H B pay (lfc, o) = .error (.code .errNomem) (lfc.next, ⟨out, o.outLen⟩) := by
  obtain ⟨r, hfp⟩ := txFp_run H B lfc hcheck (lfc.next, o)
  rw [← Msg.wire_length] at hroom
  rw [lfcTransmit_eq H B lfc hpay, bind_ok hfp]
  exact txSend_full B (txDg_writes H B lfc hpay) ho hroom lfc.next

/-- in a debug build a fingerprint equal to the initial value of its variable fails the assertion -/
theorem lfcTransmit_abort (hpay : pay.length ≤ lfcDgConstantsMaxPayLen) (o : OutBuf) (hk : lfc.cfg.key.Fits)
    (h42 : txFp H lfc pay = 42) :
    lfcTransmit H .debug pay (lfc, o) = .error (.fault .assertion) (lfc.next, o) := by
  have hpayload : (txDg lfc pay).payload = pay := PayBuf.write_take _ _
  have hcall := lfcDgMonolithicFingerprint_eq H .debug lfc.next (txDg_payLen_le lfc pay) 42
  have hfp : fingerprint H lfc.cfg.key fpHdr lfc.cfg.oui lfc.cfg.did lfc.seq pay = 42 := (if_pos hk).symm.trans h42
  have hrun := lfcFingerprintMonolithic_run H .debug fpHdr lfc.cfg.oui lfc.cfg.did lfc.seq pay 42 hk
  rw [hfp, if_pos ⟨rfl, rfl⟩] at hrun
  rw [hpayload] at hcall
  rw [lfcTransmit_eq H .debug lfc hpay, bind_error (onLocals_error (attempt_fault (hcall.trans hrun)) _)]

end Transmit

/-! ## Receive -/

/-- the fingerprint the receiver computes -/
def rxFp (H : Blake2s) (lfc : Lfc) (dg : LfcDgMonolithic) : U32 :=
  fingerprint H lfc.cfg.key fpHdr dg.oui dg.did dg.seq dg.payload

theorem rxFp_run (H : Blake2s) (B : Build) {lfc : Lfc} (hk : lfc.cfg.key.Fits) (dg : LfcDgMonolithic) (s : U32) :
    lfcFingerprintMonolithic H B lfc.cfg.key fpHdr dg.oui dg.did dg.seq dg.payload s =
      if B = .debug ∧ s = rxFp H lfc dg then .error (.fault .assertion) (rxFp H lfc dg) else .ok () (rxFp H lfc dg) :=
  lfcFingerprintMonolithic_run H B fpHdr dg.oui dg.did dg.seq dg.payload s hk

/-- the payload lies inside the array it was parsed into -/
theorem parsed_payLen_le {B : Build} {junk : U16} {x : List U8} {out dg : LfcDgDes} {c : Cursor}
    (h : lfcDgDes B junk (cursorNew x x.length, out) = .ok () (c, dg)) (ht : dg.type = .monolithic) :
    dg.monolithic.payLen ≤ dg.monolithic.pay.mem.length := by
  obtain ⟨v, m, -, -, rfl⟩ := lfcDgDes_stored h
  rw [LfcDgDes.store_type] at ht
  simp [LfcDgDes.store, ht, PayBuf.write]

theorem LfcDgMonolithic.payload_length {dg : LfcDgMonolithic} (h : dg.payLen ≤ dg.pay.mem.length) :
    dg.payload.length = dg.payLen := List.length_take_of_le h

section Receive

variable (H : Blake2s) {B : Build} {u : Locals} (lfc : Lfc) {inp : List U8} (o : OutBuf)

/-- what the parser rejects is rejected with the same code -/
theorem lfcReceive_unparsed {x : Exit LfcRes} {s : Cursor × LfcDgDes}
    (h : lfcDgDes B u.decHdrBits (cursorNew inp inp.length, u.dg) = .error x s) :
    lfcReceive H B u lfc inp o = .error x { o with outLen := 0 } := by
  rw [lfcReceive, bind_ok (get_run o), bind_ok (modify_run _ o), bind_error (onLocals_error h _)]

variable {c : Cursor} {dg : LfcDgDes} (h : lfcDgDes B u.decHdrBits (cursorNew inp inp.length, u.dg) = .ok () (c, dg))
include h

theorem lfcReceive_wrong_type (ht : dg.type ≠ .monolithic) :
    lfcReceive H B u lfc inp o = .error (.code .invalidType) { o with outLen := 0 } := by
  rw [lfcReceive, bind_ok (get_run o), bind_ok (modify_run _ o), bind_ok (onLocals_ok h _)]
  simp only [ne_eq, ht, not_false_eq_true, if_true, fail_run]

theorem lfcReceive_no_room (ht : dg.type = .monolithic) (hcap : o.outLen < dg.monolithic.payLen) :
    lfcReceive H B u lfc inp o = .error (.code .errNomem) { o with outLen := 0 } := by
  rw [lfcReceive, bind_ok (get_run o), bind_ok (modify_run _ o), bind_ok (onLocals_ok h _)]
  simp only [ne_eq, ht, not_true_eq_false, if_false, if_pos hcap, fail_run]

variable (ht : dg.type = .monolithic) (hcap : dg.monolithic.payLen ≤ o.outLen) (ho : o.Fits)
include ht hcap ho

/-- the payload is delivered before anything is verified -/
theorem lfcReceive_delivers : lfcReceive H B u lfc inp o =
    (do let (_, fp) ← onLocals u.fp
          (lfcFingerprintMonolithic H B lfc.cfg.key fpHdr dg.monolithic.oui dg.monolithic.did dg.monolithic.seq
            dg.monolithic.payload)
        if dg.monolithic.oui ≠ lfc.cfg.oui ∨ dg.monolithic.did ≠ lfc.cfg.did then fail .errAddr
        else if fp ≠ dg.monolithic.fp then fail .errFingerprint
        else return : Call LfcRes OutBuf Unit) (o.fill dg.monolithic.payload) := by
  have hlen := parsed_payLen_le h ht
  have hload : load dg.monolithic.pay.mem 0 dg.monolithic.payLen = .ok dg.monolithic.payload := by
    rw [load_ok (by rw [Nat.zero_add]; exact hlen), List.drop_zero, LfcDgMonolithic.payload]
  have hstore : store o.out 0 dg.monolithic.payload = .ok (splice o.out 0 dg.monolithic.payload) :=
    store_ok (by rw [Nat.zero_add, LfcDgMonolithic.payload_length hlen]; exact hcap.trans ho)
  have hfp : lfcDgMonolithicFingerprint H B lfc dg.monolithic = lfcFingerprintMonolithic H B lfc.cfg.key fpHdr
      dg.monolithic.oui dg.monolithic.did dg.monolithic.seq dg.monolithic.payload :=
    funext (lfcDgMonolithicFingerprint_eq H B lfc hlen)
  rw [lfcReceive, bind_ok (get_run o), bind_ok (modify_run _ o), bind_ok (onLocals_ok h _)]
  simp only [ne_eq, ht, not_true_eq_false, if_false, if_neg (Nat.not_lt.2 hcap)]
  rw [hload, bind_ok (lift_ok _ _), bind_ok (get_run _), hstore, bind_ok (lift_ok _ _), bind_ok (set_run _ _), hfp,
    ← LfcDgMonolithic.payload_length hlen, OutBuf.fill]

theorem lfcReceive_bad_key (hk : ¬lfc.cfg.key.Fits) :
    lfcReceive H B u lfc inp o = .error (.code .errException) (o.fill dg.monolithic.payload) := by
  have hrun := lfcFingerprintMonolithic_bad_key H B fpHdr dg.monolithic.oui dg.monolithic.did dg.monolithic.seq
    dg.monolithic.payload u.fp hk
  rw [lfcReceive_delivers H lfc o h ht hcap ho, bind_error (onLocals_error hrun _)]

/-- the checks on a delivered payload -/
theorem lfcReceive_verdict (hk : lfc.cfg.key.Fits) (hcheck : ¬(B = .debug ∧ u.fp = rxFp H lfc dg.monolithic)) :
    lfcReceive H B u lfc inp o =
      if dg.monolithic.oui ≠ lfc.cfg.oui ∨ dg.monolithic.did ≠ lfc.cfg.did then
        .error (.code .errAddr) (o.fill dg.monolithic.payload)
      else if rxFp H lfc dg.monolithic ≠ dg.monolithic.fp then
        .error (.code .errFingerprint) (o.fill dg.monolithic.payload)
      else .ok () (o.fill dg.monolithic.payload) := by
  have hrun := rxFp_run H B hk dg.monolithic u.fp
  rw [if_neg hcheck] at hrun
  rw [lfcReceive_delivers H lfc o h ht hcap ho, bind_ok (onLocals_ok hrun _)]
  dsimp only
  by_cases haddr : dg.monolithic.oui ≠ lfc.cfg.oui ∨ dg.monolithic.did ≠ lfc.cfg.did
  · rw [if_pos haddr, if_pos haddr, fail_run]
  · rw [if_neg haddr, if_neg haddr]
    by_cases hfp : rxFp H lfc dg.monolithic ≠ dg.monolithic.fp
    · rw [if_pos hfp, if_pos hfp, fail_run]
    · rw [if_neg hfp, if_neg hfp, pure_run]

end Receive

/-- in a debug build a fingerprint equal to the content of its unset variable fails the assertion -/
theorem lfcReceive_abort (H : Blake2s) {u : Locals} (lfc : Lfc) {inp : List U8} (o : OutBuf) {c : Cursor} {dg : LfcDgDes}
    (h : lfcDgDes .debug u.decHdrBits (cursorNew inp inp.length, u.dg) = .ok () (c, dg)) (ht : dg.type = .monolithic)
    (hcap : dg.monolithic.payLen ≤ o.outLen) (ho : o.Fits) (hk : lfc.cfg.key.Fits) (hfp : u.fp = rxFp H lfc dg.monolithic) :
    lfcReceive H .debug u lfc inp o = .error (.fault .assertion) (o.fill dg.monolithic.payload) := by
  have hrun := rxFp_run H .debug hk dg.monolithic u.fp
  rw [if_pos ⟨rfl, hfp⟩] at hrun
  rw [lfcReceive_delivers H lfc o h ht hcap ho, bind_error (onLocals_error hrun _)]

end LongFi
