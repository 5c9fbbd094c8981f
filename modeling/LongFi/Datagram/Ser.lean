/-
Serialization (`src/lfc_dg_ser.c`).

`dgSer_writes`: a serializer writes the encoded header, the fields and the payload, in this order, if they fit; otherwise
it fails with `lfc_res_err_nomem`.
-/
import LongFi.Datagram.Datagram
import LongFi.Golay.Decode
import LongFi.Wire.Varint

namespace LongFi

open LongFi.Core

/-! ## lfc_dg_ser.c -/

def lfcDgHdrSer (B : Build) (type : LfcDgType) (flagBits : U8) : Call LfcRes Cursor Unit := do
  lift (check B (flagBits &&& 0xC0 = 0))
  let hdr := type.val <<< 6 ||| flagBits.setWidth 16
  let encoded ← lift (golayEncode12 B hdr)
  csrRes (cursorPut encoded 3)

/-- the variable-length fields nums -/
def packNums : List U32 → Call LfcRes Cursor Unit
  | [] => return
  | n :: nums => do
    csrRes (cursorPackVarLeU32 n)
    packNums nums

/-- the four `lfc_dg_*__ser`, which differ in the variable-length fields after `fp` -/
def dgSer (B : Build) (type : LfcDgType) (flagBits : U8) (oui did fp : U32) (nums : List U32) (pay : PayBuf)
    (payLen : ℕ) : Call LfcRes Cursor Unit := do
  lfcDgHdrSer B type flagBits
  csrRes (cursorPackVarLeU32 oui)
  csrRes (cursorPackVarLeU32 did)
  csrRes (cursorPackLeU32 fp)
  packNums nums
  csrRes (cursorPut pay.mem payLen)

def lfcDgMonolithicSer (B : Build) (inp : LfcDgMonolithic) : Call LfcRes Cursor Unit :=
  dgSer B .monolithic (lfcDgMonolithicFlagsSer inp.flags) inp.oui inp.did inp.fp [inp.seq] inp.pay inp.payLen

def lfcDgAckSer (B : Build) (inp : LfcDgAck) : Call LfcRes Cursor Unit :=
  dgSer B .ack (lfcDgAckFlagsSer inp.flags) inp.oui inp.did inp.fp [inp.seq] inp.pay inp.payLen

def lfcDgFrameStartSer (B : Build) (inp : LfcDgFrameStart) : Call LfcRes Cursor Unit :=
  dgSer B .frameStart (lfcDgFrameStartFlagsSer inp.flags) inp.oui inp.did inp.fp [inp.seq, inp.fragments] inp.pay
    inp.payLen

def lfcDgFrameDataSer (B : Build) (inp : LfcDgFrameData) : Call LfcRes Cursor Unit :=
  dgSer B .frameData (lfcDgFrameDataFlagsSer inp.flags) inp.oui inp.did inp.fp [inp.fragment] inp.pay inp.payLen

/-! ## What is written -/

/-- the header value of a datagram -/
def hdrValue (type : LfcDgType) (flagBits : U8) : U16 := type.val <<< 6 ||| flagBits.setWidth 16

/-- the fields and the payload on the wire -/
def bodyBytes (oui did fp : U32) (nums : List U32) (pay : List U8) : List U8 :=
  varint.encode oui ++ (varint.encode did ++ (le32.encode fp ++ (nums.flatMap varint.encode ++ pay)))

theorem hdrValue_lt (type : LfcDgType) {flagBits : U8} (h : flagBits &&& 0xC0 = 0) :
    (hdrValue type flagBits).toNat < 2 ^ 12 := by
  have hall : ∀ t ∈ [LfcDgType.monolithic, .frameStart, .frameData, .ack], ∀ f : U8, f &&& 0xC0 = 0 →
      (hdrValue t f).toNat < 2 ^ 12 := by decide +kernel
  exact hall type (by cases type <;> decide) flagBits h

theorem lfcDgHdrSer_writes (B : Build) (type : LfcDgType) {flagBits : U8} (h : flagBits &&& 0xC0 = 0) :
    Writes (lfcDgHdrSer B type flagBits) .errNomem (hdrBytes (codeword (hdrValue type flagBits))) := by
  have hlen : 3 ≤ (hdrBytes (codeword (hdrValue type flagBits))).length := le_rfl
  have hput := (cursorPut_writes hlen).recode fun _ => LfcRes.errNomem
  have heq : lfcDgHdrSer B type flagBits = csrRes (cursorPut (hdrBytes (codeword (hdrValue type flagBits))) 3) := by
    funext c
    rw [lfcDgHdrSer, check_of_true B h, bind_ok (lift_ok _ c)]
    show (lift (golayEncode12 B (hdrValue type flagBits)) >>= _) c = _
    rw [golayEncode12_run B (hdrValue_lt type h), bind_ok (lift_ok _ c)]
  rw [heq]
  exact hput

theorem packNums_writes (nums : List U32) : Writes (packNums nums) .errNomem (nums.flatMap varint.encode) := by
  induction nums with
  | nil => exact Writes.nil _
  | cons n nums ih => exact ((cursorPackVarLeU32_writes n).recode _).bind ih

theorem dgSer_writes (B : Build) (type : LfcDgType) {flagBits : U8} (h : flagBits &&& 0xC0 = 0) (oui did fp : U32)
    (nums : List U32) {pay : PayBuf} {payLen : ℕ} (hpay : payLen ≤ pay.mem.length) :
    Writes (dgSer B type flagBits oui did fp nums pay payLen) .errNomem
      (hdrBytes (codeword (hdrValue type flagBits)) ++ bodyBytes oui did fp nums (pay.mem.take payLen)) := by
  have hput := (cursorPut_writes hpay).recode fun _ => LfcRes.errNomem
  exact (lfcDgHdrSer_writes B type h).bind (((cursorPackVarLeU32_writes oui).recode _).bind
    (((cursorPackVarLeU32_writes did).recode _).bind (((cursorPackLeU32_writes fp).recode _).bind
      ((packNums_writes nums).bind hput))))

end LongFi
