/-
BLAKE2s (`extra/blake2/src/blake2s-ref.c`, with the loads and stores of `blake2-impl.h`).

Buffers are lists of bytes, and every `memcpy` and `memset` is a `load` or a `store` that faults outside its object. The
return value -1 is the error code `Failed`; output pointers are the caller's arrays and not null. Sizes are natural
numbers, so `BLAKE2S_BLOCKBYTES - left` is only the subtraction of the source while `left` is at most 64, which every
reachable state keeps.
-/
import LongFi.Wire.Cursor

namespace LongFi

/-! ## blake2.h -/

def blake2sBlockbytes : ℕ := 64
def blake2sOutbytes : ℕ := 32
def blake2sKeybytes : ℕ := 32

end LongFi

namespace LongFi.Blake2sRef

open LongFi.Core

/-! ## blake2-impl.h -/

def load32 (src : List U8) : U32 :=
  (src.getD 0 0).setWidth 32 <<< 0 ||| (src.getD 1 0).setWidth 32 <<< 8 ||| (src.getD 2 0).setWidth 32 <<< 16 |||
    (src.getD 3 0).setWidth 32 <<< 24

def store16 (w : U16) : List U8 := [w.setWidth 8, (w >>> 8).setWidth 8]

def store32 (w : U32) : List U8 :=
  [(w >>> 0).setWidth 8, (w >>> 8).setWidth 8, (w >>> 16).setWidth 8, (w >>> 24).setWidth 8]

def rotr32 (w : U32) (c : ℕ) : U32 := w >>> c ||| w <<< (32 - c)

/-! ## State and parameters -/

/-- the return value -1 -/
inductive Failed where
  | failed
deriving DecidableEq, Repr

/-- `blake2s_state` -/
structure State where
  h : Vector U32 8
  t0 : U32
  t1 : U32
  f0 : U32
  f1 : U32
  buf : List U8
  buflen : ℕ
  outlen : ℕ
  lastNode : U8
deriving DecidableEq

/-- `blake2s_param`, which is packed -/
structure Param where
  digestLength : U8
  keyLength : U8
  fanout : U8
  depth : U8
  leafLength : U32
  nodeOffset : U32
  xofLength : U16
  nodeDepth : U8
  innerLength : U8
  salt : Vector U8 8
  personal : Vector U8 8
deriving DecidableEq

/-- the parameter block in memory -/
def Param.bytes (P : Param) : List U8 :=
  [P.digestLength, P.keyLength, P.fanout, P.depth] ++ store32 P.leafLength ++ store32 P.nodeOffset ++
    store16 P.xofLength ++ [P.nodeDepth, P.innerLength] ++ P.salt.toList ++ P.personal.toList

def blake2sIV : Vector U32 8 :=
  #v[0x6A09E667, 0xBB67AE85, 0x3C6EF372, 0xA54FF53A, 0x510E527F, 0x9B05688C, 0x1F83D9AB, 0x5BE0CD19]

def blake2sSigma : Vector (Vector (Fin 16) 16) 10 :=
  #v[#v[0, 1, 2, 3, 4, 5, 6, 7, 8, 9, 10, 11, 12, 13, 14, 15],
    #v[14, 10, 4, 8, 9, 15, 13, 6, 1, 12, 0, 2, 11, 7, 5, 3],
    #v[11, 8, 12, 0, 5, 2, 15, 13, 10, 14, 3, 6, 7, 1, 9, 4],
    #v[7, 9, 3, 1, 13, 12, 11, 14, 2, 6, 5, 10, 4, 0, 15, 8],
    #v[9, 0, 5, 7, 2, 4, 10, 15, 14, 1, 11, 12, 6, 8, 3, 13],
    #v[2, 12, 6, 10, 0, 11, 8, 3, 4, 13, 7, 5, 15, 14, 1, 9],
    #v[12, 5, 1, 15, 14, 13, 4, 10, 0, 7, 6, 3, 9, 2, 8, 11],
    #v[13, 11, 7, 14, 12, 1, 3, 9, 5, 0, 15, 4, 8, 6, 2, 10],
    #v[6, 15, 14, 9, 11, 3, 0, 8, 12, 2, 13, 7, 1, 4, 10, 5],
    #v[10, 2, 8, 4, 7, 6, 1, 5, 15, 11, 9, 14, 3, 12, 13, 0]]

def blake2sSetLastnode (S : State) : State := { S with f1 := -1 }

def blake2sIsLastblock (S : State) : Prop := S.f0 ≠ 0

instance (S : State) : Decidable (blake2sIsLastblock S) := inferInstanceAs (Decidable (_ ≠ _))

def blake2sSetLastblock (S : State) : State :=
  let S := if S.lastNode ≠ 0 then blake2sSetLastnode S else S
  { S with f0 := -1 }

def blake2sIncrementCounter (S : State) (inc : U32) : State :=
  let t0 := S.t0 + inc
  { S with t0 := t0, t1 := S.t1 + if t0 < inc then 1 else 0 }

/-- `memset` to zero, then the IV; whatever `S` holds is overwritten -/
def blake2sInit0 : State :=
  { h := blake2sIV, t0 := 0, t1 := 0, f0 := 0, f1 := 0, buf := List.replicate blake2sBlockbytes 0, buflen := 0, outlen := 0,
    lastNode := 0 }

def blake2sInitParam (P : Param) : State :=
  let S := blake2sInit0
  { S with
    h := Vector.ofFn fun i : Fin 8 => S.h[i] ^^^ load32 (P.bytes.drop (i * 4))
    outlen := P.digestLength.toNat }

/-! ## Compression -/

/-- the macro `G(r, i, v[a], v[b], v[c], v[d])` -/
def G (m : Vector U32 16) (r : Fin 10) (i : Fin 8) (a b c d : Fin 16) (v : Vector U32 16) : Vector U32 16 :=
  let v := v.set a (v[a] + v[b] + m[blake2sSigma[r][2 * i.val + 0]])
  let v := v.set d (rotr32 (v[d] ^^^ v[a]) 16)
  let v := v.set c (v[c] + v[d])
  let v := v.set b (rotr32 (v[b] ^^^ v[c]) 12)
  let v := v.set a (v[a] + v[b] + m[blake2sSigma[r][2 * i.val + 1]])
  let v := v.set d (rotr32 (v[d] ^^^ v[a]) 8)
  let v := v.set c (v[c] + v[d])
  v.set b (rotr32 (v[b] ^^^ v[c]) 7)

/-- the macro `ROUND(r)` -/
def ROUND (m : Vector U32 16) (v : Vector U32 16) (r : Fin 10) : Vector U32 16 :=
  let v := G m r 0 0 4 8 12 v
  let v := G m r 1 1 5 9 13 v
  let v := G m r 2 2 6 10 14 v
  let v := G m r 3 3 7 11 15 v
  let v := G m r 4 0 5 10 15 v
  let v := G m r 5 1 6 11 12 v
  let v := G m r 6 2 7 8 13 v
  G m r 7 3 4 9 14 v

/-- `m[i]` -/
def messageWords (block : List U8) : Vector U32 16 := Vector.ofFn fun i : Fin 16 => load32 (block.drop (i * 4))

/-- `v[i]` before the first round -/
def workingVector (S : State) : Vector U32 16 :=
  S.h ++ #v[blake2sIV[0], blake2sIV[1], blake2sIV[2], blake2sIV[3], S.t0 ^^^ blake2sIV[4], S.t1 ^^^ blake2sIV[5],
    S.f0 ^^^ blake2sIV[6], S.f1 ^^^ blake2sIV[7]]

/-- `ROUND(0)` to `ROUND(9)` -/
def rounds (m v : Vector U32 16) : Vector U32 16 := (List.finRange 10).foldl (ROUND m) v

/-- `block` are the 64 bytes at `in` -/
def blake2sCompress (S : State) (block : List U8) : State :=
  let v := rounds (messageWords block) (workingVector S)
  { S with h := Vector.ofFn fun i : Fin 8 => S.h[i] ^^^ v[i.val] ^^^ v[i.val + 8] }

/-! ## Update and final -/

/-- `while (inlen > BLAKE2S_BLOCKBYTES)`: returns `in` and `inlen` -/
def blake2sUpdateLoop (pin : List U8) (pos inlen : ℕ) : Call Failed State (ℕ × ℕ) :=
  if inlen > blake2sBlockbytes then do
    modify fun S => blake2sIncrementCounter S (BitVec.ofNat 32 blake2sBlockbytes)
    let block ← lift (load pin pos blake2sBlockbytes)
    modify fun S => blake2sCompress S block
    blake2sUpdateLoop pin (pos + blake2sBlockbytes) (inlen - blake2sBlockbytes)
  else
    return (pos, inlen)
termination_by inlen
decreasing_by
  simp only [blake2sBlockbytes] at *
  omega

/-- `if (inlen > fill)`: fill the buffer, compress it, and go on with whole blocks of the input -/
def blake2sFillBuffer (pin : List U8) (inlen : ℕ) : Call Failed State (ℕ × ℕ) := do
  let left := (← get).buflen
  let fill := blake2sBlockbytes - left
  if inlen > fill then
    modify fun S => { S with buflen := 0 }
    let bytes ← lift (load pin 0 fill)
    let buf ← lift (store (← get).buf left bytes)
    modify fun S => { S with buf := buf }
    modify fun S => blake2sIncrementCounter S (BitVec.ofNat 32 blake2sBlockbytes)
    let block ← lift (load buf 0 blake2sBlockbytes)
    modify fun S => blake2sCompress S block
    blake2sUpdateLoop pin fill (inlen - fill)
  else
    return (0, inlen)

/-- `pin` is the object the caller points to -/
def blake2sUpdate (pin : List U8) (inlen : ℕ) : Call Failed State Unit := do
  if inlen > 0 then
    let (pos, inlen) ← blake2sFillBuffer pin inlen
    let bytes ← lift (load pin pos inlen)
    let S ← get
    let buf ← lift (store S.buf S.buflen bytes)
    set { S with buf := buf, buflen := S.buflen + inlen }

/-- returns the bytes copied to `out` -/
def blake2sFinal (outlen : ℕ) : Call Failed State (List U8) := do
  let S ← get
  if outlen < S.outlen then
    fail .failed
  else if blake2sIsLastblock S then
    fail .failed
  else
    modify fun S => blake2sIncrementCounter S (BitVec.ofNat 32 S.buflen)
    modify blake2sSetLastblock
    let buf ← lift (store S.buf S.buflen (List.replicate (blake2sBlockbytes - S.buflen) 0))
    modify fun S => { S with buf := buf }
    let block ← lift (load buf 0 blake2sBlockbytes)
    modify fun S => blake2sCompress S block
    let buffer := (← get).h.toList.flatMap store32
    lift (load buffer 0 outlen)

/-! ## Initialization -/

def blake2sInit (outlen : ℕ) : Call Failed State Unit := do
  if outlen = 0 ∨ outlen > blake2sOutbytes then
    fail .failed
  else
    set (blake2sInitParam
      { digestLength := BitVec.ofNat 8 outlen, keyLength := 0, fanout := 1, depth := 1, leafLength := 0, nodeOffset := 0,
        xofLength := 0, nodeDepth := 0, innerLength := 0, salt := .replicate 8 0, personal := .replicate 8 0 })

/-- the key in a block of its own, padded with zeros -/
def keyBlock (key : List U8) (keylen : ℕ) : Except Fault (List U8) := do
  let bytes ← load key 0 keylen
  store (List.replicate blake2sBlockbytes 0) 0 bytes

def blake2sInitKey (outlen : ℕ) (key : Option (List U8)) (keylen : ℕ) : Call Failed State Unit := do
  if outlen = 0 ∨ outlen > blake2sOutbytes then
    fail .failed
  else match key with
    | none => fail .failed
    | some key =>
      if keylen = 0 ∨ keylen > blake2sKeybytes then
        fail .failed
      else
        set (blake2sInitParam
          { digestLength := BitVec.ofNat 8 outlen, keyLength := BitVec.ofNat 8 keylen, fanout := 1, depth := 1,
            leafLength := 0, nodeOffset := 0, xofLength := 0, nodeDepth := 0, innerLength := 0, salt := .replicate 8 0,
            personal := .replicate 8 0 })
        let block ← lift (keyBlock key keylen)
        blake2sUpdate block blake2sBlockbytes

/-! ## The simple interface -/

/-- `blake2s` behind its checks; the results of `blake2s_update` and `blake2s_final` are ignored -/
def blake2sHash (outlen : ℕ) (inp : List U8) (inlen : ℕ) (key : Option (List U8)) (keylen : ℕ) (S : State) :
    Call Failed (List U8) Unit := do
  let (_, S) ← onLocals S (if keylen > 0 then blake2sInitKey outlen key keylen else blake2sInit outlen)
  let (_, S) ← onLocals S (attempt (blake2sUpdate inp inlen) : Call Failed State (Except Failed Unit))
  let (r, _) ← onLocals S (attempt (blake2sFinal outlen) : Call Failed State (Except Failed (List U8)))
  match r with
  | .error _ => return
  | .ok bytes =>
    let out ← lift (store (← get) 0 bytes)
    set out

/-- the state is the array at `out`; S is what the local state holds before it is initialized -/
def blake2s (outlen : ℕ) (inp : Option (List U8)) (inlen : ℕ) (key : Option (List U8)) (keylen : ℕ) (S : State) :
    Call Failed (List U8) Unit := do
  if inp = none ∧ inlen > 0 then fail .failed
  else if key = none ∧ keylen > 0 then fail .failed
  else if outlen = 0 ∨ outlen > blake2sOutbytes then fail .failed
  else if keylen > blake2sKeybytes then fail .failed
  else blake2sHash outlen (inp.getD []) inlen key keylen S

end LongFi.Blake2sRef
