/-
The extended Golay code of the datagram header (`extra/golay/src/golay.c`): 12 data bits in 24 coded bits, checks in the
high half, data in the low half.

`unsigned int` and `uint32_t` are 32-bit words; the `int` results are integers, with -1 for failure. A failing decode
leaves `*out` as it was, so `fecGolay2412DecodeSymbol` takes the value `out` points to and returns it unchanged.
-/
import LongFi.Wire.Cursor

namespace LongFi

open LongFi.Core

/-- P matrix [12 x 12] -/
def golay2412P : List U32 :=
  [0x08ed, 0x01db, 0x03b5, 0x0769, 0x0ed1, 0x0da3, 0x0b47, 0x068f, 0x0d1d, 0x0a3b, 0x0477, 0x0ffe]

/-- generator matrix transposed [24 x 12] -/
def golay2412Gt : List U32 :=
  [0x08ed, 0x01db, 0x03b5, 0x0769, 0x0ed1, 0x0da3, 0x0b47, 0x068f, 0x0d1d, 0x0a3b, 0x0477, 0x0ffe,
    0x0800, 0x0400, 0x0200, 0x0100, 0x0080, 0x0040, 0x0020, 0x0010, 0x0008, 0x0004, 0x0002, 0x0001]

/-- parity check matrix [12 x 24] -/
def golay2412H : List U32 :=
  [0x008008ed, 0x004001db, 0x002003b5, 0x00100769, 0x00080ed1, 0x00040da3,
    0x00020b47, 0x0001068f, 0x00008d1d, 0x00004a3b, 0x00002477, 0x00001ffe]

def popcount2 (x : U32) : U32 :=
  let m1 : U32 := 0x55555555
  let m2 : U32 := 0x33333333
  let m4 : U32 := 0x0f0f0f0f
  let x := x - (x >>> 1 &&& m1)
  let x := (x &&& m2) + (x >>> 2 &&& m2)
  let x := x + x >>> 4 &&& m4
  let x := x + x >>> 8
  x + x >>> 16 &&& 0x3f

/-- one row of `golay2412_matrix_mul`: shift the result and append the parity of the row -/
def golay2412MatrixMulRow (v x row : U32) : U32 :=
  let x := x <<< 1
  let p := row &&& v
  let c := popcount2 (p &&& 0xff)
  let p := p >>> 8
  let c := c + popcount2 (p &&& 0xff)
  let p := p >>> 8
  let c := c + popcount2 (p &&& 0xff)
  x ||| (c &&& 1)

def golay2412MatrixMul (v : U32) (A : List U32) (n : ℕ) : U32 := (A.take n).foldl (golay2412MatrixMulRow v) 0

/-- the loop of `golay2412_parity_search` from row i on -/
def golay2412ParityLoop (v : U32) : (rows : List U32) → (i : ℕ) → ℤ
  | [], _ => -1
  | row :: rows, i =>
    let p := v ^^^ row
    let wj := popcount2 (p &&& 0xff) + popcount2 (p >>> 8 &&& 0xff)
    if wj ≤ 2 then i else golay2412ParityLoop v rows (i + 1)

def golay2412ParitySearch (B : Build) (v : U32) : Except Fault ℤ := do
  check B (v < (1 : U32) <<< 12)
  return golay2412ParityLoop v golay2412P 0

def fecGolay2412EncodeSymbol (B : Build) (symDec : U16) : Except Fault U32 := do
  check B (symDec < (1 : U16) <<< 12)
  return golay2412MatrixMul (symDec.setWidth 32) golay2412Gt 24

/-- row i of P -/
def golay2412PRow (i : ℤ) : U32 := golay2412P.getD i.toNat 0

/-- steps 2 to 7 of `fec_golay2412_decode_symbol`: the estimated error for syndrome s; `none` is its `return -1` -/
def golay2412ErrorEstimate (B : Build) (s : U32) : Except Fault (Option U32) := do
  let ws := popcount2 s
  if ws ≤ 3 then
    return some (s <<< 12 &&& 0xfff000)
  else
    let sIndex ← golay2412ParitySearch B s
    if 0 ≤ sIndex then
      return some ((s ^^^ golay2412PRow sIndex) <<< 12 ||| (1 : U32) <<< (11 - sIndex).toNat)
    else
      let sP := golay2412MatrixMul s golay2412P 12
      let wsP := popcount2 sP
      if wsP = 2 ∨ wsP = 3 then
        return some sP
      else
        let sPIndex ← golay2412ParitySearch B sP
        if 0 ≤ sPIndex then
          return some ((1 : U32) <<< (23 - sPIndex).toNat ||| (sP ^^^ golay2412PRow sPIndex))
        else
          return none

def fecGolay2412DecodeSymbol (B : Build) (symEnc : U32) (out : U16) : Except Fault (ℤ × U16) := do
  check B (symEnc < (1 : U32) <<< 24)
  let s := golay2412MatrixMul symEnc golay2412H 12
  let eHat ← golay2412ErrorEstimate B s
  match eHat with
  | none => return (-1, out)
  | some eHat =>
    let vHat := symEnc ^^^ eHat
    return ((popcount2 eHat).toNat, (vHat &&& 0x0fff).setWidth 16)

def golayEncode12 (B : Build) (inp : U16) : Except Fault (List U8) := do
  check B (inp &&& 0xF000 = 0)
  let res ← fecGolay2412EncodeSymbol B inp
  return [(res &&& 0xff).setWidth 8, (res >>> 8 &&& 0xff).setWidth 8, (res >>> 16 &&& 0xff).setWidth 8]

/-- the 24 coded bits of three header bytes -/
def golayInput (inp : List U8) : U32 :=
  (inp.getD 2 0).setWidth 32 <<< 16 ||| (inp.getD 1 0).setWidth 32 <<< 8 ||| (inp.getD 0 0).setWidth 32

def golayDecode12 (B : Build) (inp : List U8) (out : U16) : Except Fault (ℤ × U16) :=
  fecGolay2412DecodeSymbol B (golayInput inp) out

end LongFi
