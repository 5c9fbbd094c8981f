/-
Datagrams (`include/lfc/datagram.h`, `include/lfc/priv/lfc_dg_des.h`), their flag bits and their comparison
(`src/lfc_dg_eq.c`).

The payload array is a `PayBuf`: it holds at least the 128 bytes the source declares. C does not stop a longer copy, which
overwrites what follows the array; the model lets the array grow by these bytes, so a copy past its end is visible as a
length above 128. What happens after such a copy is not modelled: results about devices that go on are about inputs whose
payload fits, or leave open what follows (`Step` in `Device/Run.lean`).
-/
import LongFi.Golay.Golay

namespace LongFi

open LongFi.Core

/-! ## datagram.h -/

/-- `LFC_DG_CONSTANTS_MAX_PAY_LEN` -/
def lfcDgConstantsMaxPayLen : ℕ := 128

inductive LfcDgType where
  | monolithic
  | frameStart
  | frameData
  | ack
deriving DecidableEq, Repr

/-- the enumeration constant -/
def LfcDgType.val : LfcDgType → U16
  | .monolithic => 1
  | .frameStart => 2
  | .frameData => 3
  | .ack => 4

structure LfcDgHdr where
  bitErrs : ℤ
  flagBits : U8
  type : LfcDgType
deriving DecidableEq, Repr

/-- the array `pay[LFC_DG_CONSTANTS_MAX_PAY_LEN]` -/
structure PayBuf where
  mem : List U8
  room : lfcDgConstantsMaxPayLen ≤ mem.length
deriving DecidableEq, Repr

/-- bs copied to the front of the array -/
def PayBuf.write (p : PayBuf) (bs : List U8) : PayBuf where
  mem := bs ++ p.mem.drop bs.length
  room := by
    have := p.room
    simp only [List.length_append, List.length_drop]
    omega

/-- the array with all bytes zero -/
def PayBuf.zero : PayBuf := ⟨List.replicate lfcDgConstantsMaxPayLen 0, by simp⟩

structure LfcDgMonolithicFlags where
  downlink : Bool
  shouldAck : Bool
  ctsRts : Bool
  priority : Bool
  ldpc : Bool
deriving DecidableEq, Repr

structure LfcDgMonolithic where
  flags : LfcDgMonolithicFlags
  oui : U32
  did : U32
  fp : U32
  seq : U32
  payLen : ℕ
  pay : PayBuf
deriving DecidableEq, Repr

structure LfcDgFrameStartFlags where
  downlink : Bool
  shouldAck : Bool
  ctsRts : Bool
  priority : Bool
  ldpc : Bool
deriving DecidableEq, Repr

structure LfcDgFrameStart where
  flags : LfcDgFrameStartFlags
  oui : U32
  did : U32
  fp : U32
  seq : U32
  fragments : U32
  payLen : ℕ
  pay : PayBuf
deriving DecidableEq, Repr

structure LfcDgFrameDataFlags where
  ldpc : Bool
deriving DecidableEq, Repr

structure LfcDgFrameData where
  flags : LfcDgFrameDataFlags
  oui : U32
  did : U32
  fp : U32
  fragment : U32
  payLen : ℕ
  pay : PayBuf
deriving DecidableEq, Repr

structure LfcDgAckFlags where
  failure : Bool
  sessionExpired : Bool
  ctsRts : Bool
  retransmit : Bool
  ldpc : Bool
deriving DecidableEq, Repr

structure LfcDgAck where
  flags : LfcDgAckFlags
  oui : U32
  did : U32
  fp : U32
  seq : U32
  payLen : ℕ
  pay : PayBuf
deriving DecidableEq, Repr

/-- `struct lfc_dg_des`; the members of its union stand side by side, `type` says which one is valid -/
structure LfcDgDes where
  hdrBitErrs : ℕ
  type : LfcDgType
  monolithic : LfcDgMonolithic
  frameStart : LfcDgFrameStart
  frameData : LfcDgFrameData
  ack : LfcDgAck
deriving DecidableEq, Repr

/-! ## lfc.h -/

/-- `enum lfc_res`; `lfc_res_ok` is the normal return of a call -/
inductive LfcRes where
  | errAddr
  | errFingerprint
  | errException
  | errNomem
  | invalidType
  | invalidFlags
deriving DecidableEq, Repr

/-- the macro `CSR_RES`: an exhausted buffer is `lfc_res_err_nomem`. Its assertion always holds, there is no other code. -/
def csrRes {σ α : Type} (p : Call CursorRes σ α) : Call LfcRes σ α := recode (fun _ => .errNomem) p

/-! ## Flag bits -/

/-- `a << 0 | b << 1 | c << 2 | d << 3 | e << 4` -/
def flagBitsSer (a b c d e : Bool) : U8 :=
  (BitVec.ofBool a).setWidth 8 <<< 0 ||| (BitVec.ofBool b).setWidth 8 <<< 1 ||| (BitVec.ofBool c).setWidth 8 <<< 2 |||
    (BitVec.ofBool d).setWidth 8 <<< 3 ||| (BitVec.ofBool e).setWidth 8 <<< 4

/-- `((flag_bits >> i) & 1) == 1` -/
def flagBit (flagBits : U8) (i : ℕ) : Bool := flagBits >>> i &&& 1 = 1

def lfcDgMonolithicFlagsSer (f : LfcDgMonolithicFlags) : U8 :=
  flagBitsSer f.downlink f.shouldAck f.ctsRts f.priority f.ldpc

def lfcDgFrameStartFlagsSer (f : LfcDgFrameStartFlags) : U8 :=
  flagBitsSer f.downlink f.shouldAck f.ctsRts f.priority f.ldpc

def lfcDgFrameDataFlagsSer (f : LfcDgFrameDataFlags) : U8 := (BitVec.ofBool f.ldpc).setWidth 8

def lfcDgAckFlagsSer (f : LfcDgAckFlags) : U8 :=
  flagBitsSer f.failure f.sessionExpired f.ctsRts f.retransmit f.ldpc

def lfcDgMonolithicFlagsDes (flagBits : U8) : LfcDgMonolithicFlags where
  downlink := flagBit flagBits 0
  shouldAck := flagBit flagBits 1
  ctsRts := flagBit flagBits 2
  priority := flagBit flagBits 3
  ldpc := flagBit flagBits 4

def lfcDgFrameStartFlagsDes (flagBits : U8) : LfcDgFrameStartFlags where
  downlink := flagBit flagBits 0
  shouldAck := flagBit flagBits 1
  ctsRts := flagBit flagBits 2
  priority := flagBit flagBits 3
  ldpc := flagBit flagBits 4

def lfcDgFrameDataFlagsDes (flagBits : U8) : LfcDgFrameDataFlags where
  ldpc := flagBits &&& 1 = 1

def lfcDgAckFlagsDes (flagBits : U8) : LfcDgAckFlags where
  failure := flagBit flagBits 0
  sessionExpired := flagBit flagBits 1
  ctsRts := flagBit flagBits 2
  retransmit := flagBit flagBits 3
  ldpc := flagBit flagBits 4

/-! ## lfc_dg_eq.c -/

/-- the macro `PEQ`, for lengths within the arrays -/
def payEq (lLen : ℕ) (l : PayBuf) (rLen : ℕ) (r : PayBuf) : Bool :=
  lLen = rLen && l.mem.take lLen = r.mem.take lLen

def lfcDgMonolithicEq (l r : LfcDgMonolithic) : Bool :=
  l.flags.downlink = r.flags.downlink && l.flags.shouldAck = r.flags.shouldAck && l.flags.ctsRts = r.flags.ctsRts &&
    l.flags.priority = r.flags.priority && l.flags.ldpc = r.flags.ldpc && l.oui = r.oui && l.did = r.did &&
    l.fp = r.fp && l.seq = r.seq && l.payLen = r.payLen && payEq l.payLen l.pay r.payLen r.pay

def lfcDgFrameStartEq (l r : LfcDgFrameStart) : Bool :=
  l.flags.downlink = r.flags.downlink && l.flags.shouldAck = r.flags.shouldAck && l.flags.ctsRts = r.flags.ctsRts &&
    l.flags.priority = r.flags.priority && l.flags.ldpc = r.flags.ldpc && l.oui = r.oui && l.did = r.did &&
    l.fp = r.fp && l.seq = r.seq && l.fragments = r.fragments && payEq l.payLen l.pay r.payLen r.pay

def lfcDgFrameDataEq (l r : LfcDgFrameData) : Bool :=
  l.flags.ldpc = r.flags.ldpc && l.oui = r.oui && l.did = r.did && l.fp = r.fp && l.fragment = r.fragment &&
    payEq l.payLen l.pay r.payLen r.pay

def lfcDgAckEq (l r : LfcDgAck) : Bool :=
  l.flags.failure = r.flags.failure && l.flags.sessionExpired = r.flags.sessionExpired &&
    l.flags.ctsRts = r.flags.ctsRts && l.flags.retransmit = r.flags.retransmit && l.flags.ldpc = r.flags.ldpc &&
    l.oui = r.oui && l.did = r.did && l.fp = r.fp && l.seq = r.seq && payEq l.payLen l.pay r.payLen r.pay

end LongFi
