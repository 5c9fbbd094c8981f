/-
The decoder of `golay.c` against the code it decodes.

`golay2412ErrorEstimate` is the syndrome decoder of the self-dual code of `Pmat` (`errorEstimate_run`,
`estimateWord_halves`). So, with or without assertions and for every 24-bit word r:
- `decodeSymbol_near`: r at distance at most 3 from the codeword of m decodes to m, and the distance is returned;
- `decodeSymbol_far`: r at distance 4 or more from every codeword returns -1 and leaves `*out` unwritten.
`golayEncode12_run`, `golayDecode12_near` and `golayDecode12_uncorrectable` carry this to the three header bytes.
-/
import LongFi.Golay.Vectors

namespace LongFi

open LongFi.Core Finset Matrix

/-! ## The search for a parity row -/

/-- the first row of P within weight 2 of v -/
def findRow (v : Vec12) : Option (Fin 12) :=
  (golay2412P.findIdx? fun row => hammingNorm (v + lo row) ≤ 2).map (Fin.ofNat 12)

theorem xor_lt {x y : U32} {n : ℕ} (hx : x.toNat < 2 ^ n) (hy : y.toNat < 2 ^ n) : (x ^^^ y).toNat < 2 ^ n := by
  rw [BitVec.toNat_xor]
  exact Nat.xor_lt_two_pow hx hy

/-- the loop's test counts the low 16 bits, so it is the weight of a 12-bit word -/
theorem nearRow_iff {p : U32} (hp : p.toNat < 2 ^ 12) :
    popcount2 (p &&& 0xff) + popcount2 (p >>> 8 &&& 0xff) ≤ 2 ↔ hammingNorm (lo p) ≤ 2 := by
  have h0 := popcount2_byte p 0
  have h8 := popcount2_byte p 8
  have hp16 : p.toNat < 2 ^ 16 := hp.trans (by norm_num)
  have hnorm : hammingNorm (lo p) =
      ∑ j ∈ range 8, (p.getLsbD (0 + j)).toNat + ∑ j ∈ range 8, (p.getLsbD (8 + j)).toNat := by
    calc hammingNorm (lo p) = ∑ j ∈ range 32, (p.getLsbD j).toNat := (weight_eq_lo hp).symm
      _ = ∑ j ∈ range (8 + 8), (p.getLsbD j).toNat := sum_bits_of_lt hp16 (by norm_num)
      _ = ∑ j ∈ range 8, (p.getLsbD j).toNat + ∑ j ∈ range 8, (p.getLsbD (8 + j)).toNat := sum_range_add _ 8 8
      _ = _ := by simp only [Nat.zero_add]
  have hle : ∀ k, ∑ j ∈ range 8, (p.getLsbD (k + j)).toNat ≤ 8 := fun k =>
    (sum_le_sum fun j _ => Bool.toNat_le _).trans (by simp)
  have hle0 := hle 0
  have hle8 := hle 8
  rw [BitVec.ushiftRight_zero] at h0
  rw [BitVec.le_def, BitVec.toNat_add, h0, h8, hnorm, show (2 : U32).toNat = 2 from rfl]
  omega

theorem parityLoop_eq {v : U32} (hv : v.toNat < 2 ^ 12) {rows : List U32} (hrows : ∀ row ∈ rows, row.toNat < 2 ^ 12)
    (i : ℕ) : golay2412ParityLoop v rows i =
      match rows.findIdx? fun row => hammingNorm (lo v + lo row) ≤ 2 with
      | some j => (i + j : ℕ)
      | none => -1 := by
  induction rows generalizing i with
  | nil => rfl
  | cons row rows ih =>
    have hnear := nearRow_iff (xor_lt hv (hrows row List.mem_cons_self))
    rw [lo_xor] at hnear
    simp only [golay2412ParityLoop, hnear, List.findIdx?_cons, decide_eq_true_eq]
    by_cases h : hammingNorm (lo v + lo row) ≤ 2
    · rw [if_pos h, if_pos h]
      rfl
    · rw [if_neg h, if_neg h, ih fun r hr => hrows r (List.mem_cons_of_mem row hr)]
      cases rows.findIdx? fun row => decide (hammingNorm (lo v + lo row) ≤ 2) with
      | none => rfl
      | some j => simp [Nat.add_assoc, Nat.add_comm 1]

theorem golay2412P_lt : ∀ row ∈ golay2412P, row.toNat < 2 ^ 12 := by
  intro row h
  fin_cases h <;> simp

theorem paritySearch_run (B : Build) {v : U32} (hv : v.toNat < 2 ^ 12) : golay2412ParitySearch B v =
    .ok (match findRow (lo v) with
      | some i => (i : ℕ)
      | none => -1) := by
  have hlt : v < (1 : U32) <<< 12 := BitVec.lt_def.2 hv
  rw [golay2412ParitySearch, check_of_true B hlt, parityLoop_eq hv golay2412P_lt, findRow]
  cases h : golay2412P.findIdx? fun row => decide (hammingNorm (lo v + lo row) ≤ 2) with
  | none => rfl
  | some j =>
    have hj : j < 12 := (List.findIdx?_eq_some_iff_getElem.1 h).1
    have hval : (Fin.ofNat 12 j).val = j := Nat.mod_eq_of_lt hj
    simp only [Option.map_some, hval, Nat.zero_add]
    rfl

theorem row_eq_getElem {A : List U32} {j : ℕ} (hj : j < A.length) : row A j = A[j] := by
  rw [row, List.getD_eq_getElem?_getD, List.getElem?_eq_getElem hj, Option.getD_some]

theorem par_unit (i : Fin 12) : golayCode.par (golayCode.unit i) = lo (row golay2412P i) :=
  Pmat_selfDual.mulVec_single i

theorem findRow_finds : golayCode.Finds findRow where
  found := by
    intro v i h
    obtain ⟨j, hj, rfl⟩ := Option.map_eq_some_iff.1 h
    obtain ⟨hlt, hrow, -⟩ := List.findIdx?_eq_some_iff_getElem.1 hj
    have hval : (Fin.ofNat 12 j).val = j := Nat.mod_eq_of_lt hlt
    rw [par_unit, hval, row_eq_getElem hlt]
    exact of_decide_eq_true hrow
  missing := by
    intro v h i
    have hall := List.findIdx?_eq_none_iff.1 (Option.map_eq_none_iff.1 h)
    have hi := hall _ (List.getElem_mem (show i.val < golay2412P.length from i.isLt))
    rw [par_unit, row_eq_getElem (show i.val < golay2412P.length from i.isLt)]
    exact Nat.not_le.1 (of_decide_eq_false hi)

/-! ## The estimated error -/

theorem hi_shiftLeft (x : U32) : hi (x <<< 12) = lo x := by
  funext i
  have hlt : 12 + (11 - i.val) < 32 := by omega
  have hlt' : 11 - i.val < 32 := by omega
  simp [hi, lo, bits, hlt, BitVec.getLsbD_eq_getElem hlt']

theorem lo_shiftLeft (x : U32) : lo (x <<< 12) = 0 := by
  funext i
  have hlt : 11 - i.val < 12 := by omega
  simp [lo, bits, hlt]

theorem lo_bit : ∀ i : Fin 12, lo ((1 : U32) <<< (11 - i.val)) = Pi.single i 1 ∧ hi ((1 : U32) <<< (11 - i.val)) = 0 := by
  decide +kernel

theorem hi_bit : ∀ i : Fin 12, hi ((1 : U32) <<< (23 - i.val)) = Pi.single i 1 ∧ lo ((1 : U32) <<< (23 - i.val)) = 0 := by
  decide +kernel

theorem or_lt {x y : U32} {n : ℕ} (hx : x.toNat < 2 ^ n) (hy : y.toNat < 2 ^ n) : (x ||| y).toNat < 2 ^ n := by
  rw [BitVec.toNat_or]
  exact Nat.or_lt_two_pow hx hy

theorem shift_lt {x : U32} (hx : x.toNat < 2 ^ 12) : (x <<< 12).toNat < 2 ^ 24 := by
  rw [BitVec.toNat_shiftLeft, Nat.shiftLeft_eq]
  omega

theorem row_P_lt : ∀ i : Fin 12, (row golay2412P i).toNat < 2 ^ 12 := by decide

/-- the two halves of a 24-bit word -/
def halves (x : U32) : Vec12 × Vec12 := (hi x, lo x)

theorem hi_or {x y : U32} (h : hi y = 0) : hi (x ||| y) = hi x := bits_or_left h

theorem lo_or {x y : U32} (h : lo y = 0) : lo (x ||| y) = lo x := bits_or_left h

/-- errors in the check half only -/
theorem halves_checks (s : U32) : halves (s <<< 12 &&& 0xfff000) = (lo s, 0) := by
  have hmask : bits 12 (0xfff000 : U32) = 1 ∧ bits 0 (0xfff000 : U32) = 0 := by decide
  rw [halves, hi, lo, bits_and, bits_and, hmask.1, hmask.2, mul_one, mul_zero]
  exact congrArg (·, 0) (hi_shiftLeft s)

/-- one error in the data half, found by its row -/
theorem halves_data_unit (s : U32) (i : Fin 12) :
    halves ((s ^^^ row golay2412P i) <<< 12 ||| (1 : U32) <<< (11 - i.val)) =
      (lo s + golayCode.par (golayCode.unit i), golayCode.unit i) := by
  rw [halves, hi_or (lo_bit i).2, hi_shiftLeft, lo_xor, BitVec.or_comm, lo_or (lo_shiftLeft _), (lo_bit i).1, par_unit]
  rfl

/-- one error in the check half, found by its row -/
theorem halves_check_unit {sP : U32} (hsP : hi sP = 0) (i : Fin 12) :
    halves ((1 : U32) <<< (23 - i.val) ||| (sP ^^^ row golay2412P i)) =
      (golayCode.unit i, lo sP + golayCode.par (golayCode.unit i)) := by
  have hz : hi (sP ^^^ row golay2412P i) = 0 := by rw [hi_xor, hsP, row_P i, add_zero]
  rw [halves, hi_or hz, (hi_bit i).1, BitVec.or_comm, lo_or (hi_bit i).2, lo_xor, par_unit]
  rfl

theorem golay2412PRow_eq (i : Fin 12) : golay2412PRow (i.val : ℤ) = row golay2412P i := rfl

theorem hi_bit_lt : ∀ i : Fin 12, ((1 : U32) <<< (23 - i.val)).toNat < 2 ^ 24 := by decide

theorem lo_bit_lt : ∀ i : Fin 12, ((1 : U32) <<< (11 - i.val)).toNat < 2 ^ 24 := by decide

/-- the estimate on 24-bit words, with the search as a function -/
def estimateWord (s : U32) : Option U32 :=
  let sP := golay2412MatrixMul s golay2412P 12
  if golayCode.wt (lo s) ≤ 3 then some (s <<< 12 &&& 0xfff000)
  else match findRow (lo s) with
    | some i => some ((s ^^^ row golay2412P i) <<< 12 ||| (1 : U32) <<< (11 - i.val))
    | none =>
      if golayCode.wt (lo sP) = 2 ∨ golayCode.wt (lo sP) = 3 then some sP
      else (findRow (lo sP)).map fun i : Fin 12 => (1 : U32) <<< (23 - i.val) ||| (sP ^^^ row golay2412P i)

theorem popcount2_wt {x : U32} (hx : x.toNat < 2 ^ 12) : (popcount2 x).toNat = golayCode.wt (lo x) :=
  (popcount2_toNat x).trans (weight_eq_lo hx)

/-- the steps of the source, without the searches' index -1 -/
theorem errorEstimate_run (B : Build) {s : U32} (hs : s.toNat < 2 ^ 12) :
    golay2412ErrorEstimate B s = .ok (estimateWord s) := by
  have hsP12 : (golay2412MatrixMul s golay2412P 12).toNat < 2 ^ 12 := matrixMul_lt s rfl
  have h3 : popcount2 s ≤ 3 ↔ golayCode.wt (lo s) ≤ 3 := by
    rw [BitVec.le_def, popcount2_wt hs]
    rfl
  have h23 : popcount2 (golay2412MatrixMul s golay2412P 12) = 2 ∨ popcount2 (golay2412MatrixMul s golay2412P 12) = 3 ↔
      golayCode.wt (lo (golay2412MatrixMul s golay2412P 12)) = 2 ∨
        golayCode.wt (lo (golay2412MatrixMul s golay2412P 12)) = 3 := by
    rw [BitVec.toNat_eq, BitVec.toNat_eq, popcount2_wt hsP12]
    rfl
  have hpos : ∀ i : Fin 12, (0 : ℤ) ≤ (i.val : ℤ) := fun i => Int.natCast_nonneg _
  have hneg : ¬(0 : ℤ) ≤ -1 := by decide
  have hk : ∀ i : Fin 12, (11 - (i.val : ℤ)).toNat = 11 - i.val ∧ (23 - (i.val : ℤ)).toNat = 23 - i.val := fun i =>
    ⟨Int.toNat_sub 11 i.val, Int.toNat_sub 23 i.val⟩
  unfold golay2412ErrorEstimate estimateWord
  simp only [h3, h23, paritySearch_run B hs, paritySearch_run B hsP12]
  by_cases hc3 : golayCode.wt (lo s) ≤ 3
  · rw [if_pos hc3, if_pos hc3]
    rfl
  · rw [if_neg hc3, if_neg hc3]
    cases findRow (lo s) with
    | some i =>
      simp only [bind, Except.bind, if_pos (hpos i), (hk i).1, golay2412PRow_eq]
      rfl
    | none =>
      simp only [bind, Except.bind, if_neg hneg]
      by_cases hc23 : golayCode.wt (lo (golay2412MatrixMul s golay2412P 12)) = 2 ∨
          golayCode.wt (lo (golay2412MatrixMul s golay2412P 12)) = 3
      · rw [if_pos hc23, if_pos hc23]
        rfl
      · rw [if_neg hc23, if_neg hc23]
        cases findRow (lo (golay2412MatrixMul s golay2412P 12)) with
        | some i =>
          simp only [if_pos (hpos i), (hk i).2, golay2412PRow_eq]
          rfl
        | none => rfl

/-- **The steps of the source are the syndrome decoder** of the self-dual code of P. -/
theorem estimateWord_halves (s : U32) : (estimateWord s).map halves = golayCode.estimate findRow (lo s) := by
  have hsP : hi (golay2412MatrixMul s golay2412P 12) = 0 := hi_of_lt (matrixMul_lt s rfl)
  have hlo : lo (golay2412MatrixMul s golay2412P 12) = golayCode.par (lo s) := lo_mul_P s
  unfold estimateWord HalfRate.estimate
  simp only [hlo]
  by_cases hc3 : golayCode.wt (lo s) ≤ 3
  · rw [if_pos hc3, if_pos hc3, Option.map_some, halves_checks]
  · rw [if_neg hc3, if_neg hc3]
    cases findRow (lo s) with
    | some i => exact congrArg some (halves_data_unit s i)
    | none =>
      dsimp only
      split_ifs
      · rw [Option.map_some, halves, hsP, hlo]
      · cases findRow (golayCode.par (lo s)) with
        | some i =>
          have hunit := halves_check_unit hsP i
          rw [hlo] at hunit
          exact congrArg some hunit
        | none => rfl

theorem estimateWord_lt {s : U32} (hs : s.toNat < 2 ^ 12) : ∀ x ∈ estimateWord s, x.toNat < 2 ^ 24 := by
  have h24 : ∀ {x : U32}, x.toNat < 2 ^ 12 → x.toNat < 2 ^ 24 := fun h => h.trans (by norm_num)
  have hsP12 : (golay2412MatrixMul s golay2412P 12).toNat < 2 ^ 12 := matrixMul_lt s rfl
  intro x hx
  unfold estimateWord at hx
  by_cases hc3 : golayCode.wt (lo s) ≤ 3
  · rw [if_pos hc3] at hx
    obtain rfl := Option.mem_some_iff.1 hx
    rw [BitVec.toNat_and]
    exact lt_of_le_of_lt Nat.and_le_left (shift_lt hs)
  · rw [if_neg hc3] at hx
    cases hf : findRow (lo s) with
    | some i =>
      rw [hf] at hx
      obtain rfl := Option.mem_some_iff.1 hx
      exact or_lt (shift_lt (xor_lt hs (row_P_lt i))) (lo_bit_lt i)
    | none =>
      simp only [hf] at hx
      split_ifs at hx
      · obtain rfl := Option.mem_some_iff.1 hx
        exact h24 hsP12
      · obtain ⟨i, -, rfl⟩ := Option.mem_map.1 hx
        exact or_lt (hi_bit_lt i) (h24 (xor_lt hsP12 (row_P_lt i)))

/-! ## Decoding a word -/

/-- the distance from a codeword -/
theorem weight_xor_codeword {r : U32} (hr : r.toNat < 2 ^ 24) (m : U16) : weight (r ^^^ codeword m) =
    golayCode.wt (hi r + golayCode.par (lo (m.setWidth 32))) + golayCode.wt (lo r + lo (m.setWidth 32)) := by
  rw [weight_eq (xor_lt hr (codeword_lt m)), hi_xor, lo_xor, hi_codeword, lo_codeword, golayCode_wt, golayCode_wt]

/-- the estimate is the error pattern of weight at most 3 with the word's syndrome, if there is one -/
theorem errorEstimate_codeword (B : Build) {r : U32} {m : U16} (hr : r.toNat < 2 ^ 24)
    (hw : weight (r ^^^ codeword m) ≤ 3) :
    golay2412ErrorEstimate B (golay2412MatrixMul r golay2412H 12) = .ok (some (r ^^^ codeword m)) := by
  have he := xor_lt hr (codeword_lt m)
  have hs : (golay2412MatrixMul r golay2412H 12).toNat < 2 ^ 12 := matrixMul_lt r rfl
  have hsyn : golayCode.syn (hi (r ^^^ codeword m)) (lo (r ^^^ codeword m)) =
      lo (golay2412MatrixMul r golay2412H 12) := by
    rw [lo_mul_H, hi_xor, lo_xor, hi_codeword, lo_codeword, golayCode.syn_add_codeword]
  have hest := (golayCode.estimate_eq_some findRow_finds).2 ⟨(weight_eq he) ▸ hw, hsyn⟩
  rw [← estimateWord_halves] at hest
  obtain ⟨x, hx, hhalves⟩ := Option.map_eq_some_iff.1 hest
  obtain ⟨h1, h2⟩ := Prod.mk.inj hhalves
  rw [errorEstimate_run B hs, hx, word_ext (estimateWord_lt hs x hx) he h1 h2]

/-- the data bits of a codeword -/
theorem codeword_data {m : U16} (hm : m.toNat < 2 ^ 12) : (codeword m &&& 0x0fff).setWidth 16 = m := by
  have hmask : ∀ j < 16, (0x0fff : U32).getLsbD j = decide (j < 12) := by decide
  apply BitVec.eq_of_getLsbD_eq
  intro j hj
  rw [BitVec.getLsbD_setWidth, BitVec.getLsbD_and, hmask j hj]
  by_cases h12 : j < 12
  · have hb := bits_inj (lo_codeword m) h12
    rw [Nat.zero_add, BitVec.getLsbD_setWidth] at hb
    rw [hb]
    simp [hj, h12]; omega
  · have hz : m.getLsbD j = false :=
      Nat.testBit_lt_two_pow (lt_of_lt_of_le hm (Nat.pow_le_pow_right (by norm_num) (by omega)))
    simp [h12, hz]

/-- **Correction.** A word at distance at most 3 from the codeword of m decodes to m, with the distance. -/
theorem decodeSymbol_near (B : Build) {r : U32} {m : U16} (hr : r.toNat < 2 ^ 24) (hm : m.toNat < 2 ^ 12)
    (hw : weight (r ^^^ codeword m) ≤ 3) (out : U16) :
    fecGolay2412DecodeSymbol B r out = .ok (weight (r ^^^ codeword m), m) := by
  have hlt : r < (1 : U32) <<< 24 := BitVec.lt_def.2 hr
  have hxor : r ^^^ (r ^^^ codeword m) = codeword m := by rw [← BitVec.xor_assoc, BitVec.xor_self, BitVec.zero_xor]
  rw [fecGolay2412DecodeSymbol, check_of_true B hlt]
  simp only [bind, Except.bind, errorEstimate_codeword B hr hw, hxor, codeword_data hm, popcount2_toNat]
  rfl

/-- **Detection.** A word at distance 4 or more from every codeword fails, and `*out` is not written. -/
theorem decodeSymbol_far (B : Build) {r : U32} (hr : r.toNat < 2 ^ 24)
    (hfar : ∀ m : U16, m.toNat < 2 ^ 12 → 4 ≤ weight (r ^^^ codeword m)) (out : U16) :
    fecGolay2412DecodeSymbol B r out = .ok (-1, out) := by
  have hlt : r < (1 : U32) <<< 24 := BitVec.lt_def.2 hr
  have hs : (golay2412MatrixMul r golay2412H 12).toNat < 2 ^ 12 := matrixMul_lt r rfl
  have hnone : golayCode.estimate findRow (lo (golay2412MatrixMul r golay2412H 12)) = none := by
    rw [lo_mul_H]
    refine (golayCode.estimate_eq_none findRow_finds).2 fun v => ?_
    obtain ⟨m, hm, rfl⟩ := exists_lo v
    rw [← weight_xor_codeword hr]
    exact hfar m hm
  rw [← estimateWord_halves] at hnone
  rw [fecGolay2412DecodeSymbol, check_of_true B hlt]
  simp only [bind, Except.bind, errorEstimate_run B hs, Option.map_eq_none_iff.1 hnone]
  rfl

/-- four flips of a codeword leave it at distance 4 or more from every codeword -/
theorem four_flips_far {m : U16} {e : U32} (he : e.toNat < 2 ^ 24) (h4 : weight e = 4) (m' : U16) :
    4 ≤ weight (codeword m ^^^ e ^^^ codeword m') := by
  rw [weight_eq he] at h4
  have h := golayCode.far_of_weight_four h4 (lo (m.setWidth 32) + lo (m'.setWidth 32))
  rw [map_add, ← add_assoc, ← add_assoc, add_comm (hi e), add_comm (lo e)] at h
  rw [weight_xor_codeword (xor_lt (codeword_lt m) he), hi_xor, lo_xor, hi_codeword, lo_codeword]
  exact h

/-! ## The header bytes -/

/-- three bytes, lowest first -/
def hdrBytes (w : U32) : List U8 := [w.extractLsb' 0 8, w.extractLsb' 8 8, w.extractLsb' 16 8]

/-- a header value has no bits above the twelfth -/
theorem and_F000 {m : U16} (hm : m.toNat < 2 ^ 12) : m &&& 0xF000 = 0 := by
  have hmask : ∀ j < 16, (0xF000 : U16).getLsbD j = decide (12 ≤ j) := by decide
  apply BitVec.eq_of_getLsbD_eq
  intro j hj
  rw [BitVec.getLsbD_and, hmask j hj]
  by_cases h12 : 12 ≤ j
  · have hz : m.getLsbD j = false :=
      Nat.testBit_lt_two_pow (lt_of_lt_of_le hm (Nat.pow_le_pow_right (by norm_num) h12))
    simp [hz]
  · simp [h12]

theorem golayEncode12_run (B : Build) {m : U16} (hm : m.toNat < 2 ^ 12) :
    golayEncode12 B m = .ok (hdrBytes (codeword m)) := by
  have hlt : m < (1 : U16) <<< 12 := BitVec.lt_def.2 hm
  have h0 := byte_eq_extract (codeword m) 0
  rw [BitVec.ushiftRight_zero] at h0
  rw [golayEncode12, check_of_true B (and_F000 hm), fecGolay2412EncodeSymbol, check_of_true B hlt, hdrBytes, ← h0,
    ← byte_eq_extract, ← byte_eq_extract]
  rfl

theorem golayInput_getLsbD (a b c : U8) {j : ℕ} (hj : j < 32) : (golayInput [a, b, c]).getLsbD j =
    if j < 8 then a.getLsbD j else if j < 16 then b.getLsbD (j - 8) else c.getLsbD (j - 16) := by
  simp only [golayInput, List.getD_cons_zero, List.getD_cons_succ, BitVec.getLsbD_or, BitVec.getLsbD_shiftLeft,
    BitVec.getLsbD_setWidth]
  grind

theorem golayInput_lt (x : List U8) : (golayInput x).toNat < 2 ^ 24 := by
  apply Nat.lt_pow_two_of_testBit
  intro j hj
  by_cases h32 : j < 32
  · have h := golayInput_getLsbD (x.getD 0 0) (x.getD 1 0) (x.getD 2 0) h32
    rw [if_neg (by omega), if_neg (by omega), BitVec.getLsbD_of_ge _ _ (show 8 ≤ j - 16 by omega)] at h
    exact h
  · exact BitVec.getLsbD_of_ge (golayInput x) j (Nat.not_lt.1 h32)

theorem golayInput_hdrBytes {w : U32} (hw : w.toNat < 2 ^ 24) : golayInput (hdrBytes w) = w := by
  apply BitVec.eq_of_getLsbD_eq
  intro j hj
  rw [hdrBytes, golayInput_getLsbD _ _ _ hj]
  simp only [BitVec.getLsbD_extractLsb']
  by_cases h24 : j < 24
  · grind
  · rw [getLsbD_of_lt hw (Nat.not_lt.1 h24)]
    grind

theorem golayInput_xor (a b c d e f : U8) :
    golayInput [a ^^^ d, b ^^^ e, c ^^^ f] = golayInput [a, b, c] ^^^ golayInput [d, e, f] := by
  apply BitVec.eq_of_getLsbD_eq
  intro j hj
  rw [BitVec.getLsbD_xor, golayInput_getLsbD _ _ _ hj, golayInput_getLsbD _ _ _ hj, golayInput_getLsbD _ _ _ hj]
  simp only [BitVec.getLsbD_xor]
  split_ifs <;> rfl

/-! ## Received headers -/

/-- the first three bytes are within three bit errors of the coded header m -/
structure Near (x : List U8) (m : U16) : Prop where
  long : 3 ≤ x.length
  value : m.toNat < 2 ^ 12
  close : weight (golayInput x ^^^ codeword m) ≤ 3

/-- the first three bytes are four or more bit errors away from every coded header -/
structure Uncorrectable (x : List U8) : Prop where
  long : 3 ≤ x.length
  far : ∀ m : U16, m.toNat < 2 ^ 12 → 4 ≤ weight (golayInput x ^^^ codeword m)

theorem near_or_uncorrectable {x : List U8} (h : 3 ≤ x.length) : (∃ m, Near x m) ∨ Uncorrectable x := by
  by_cases hm : ∃ m : U16, m.toNat < 2 ^ 12 ∧ weight (golayInput x ^^^ codeword m) ≤ 3
  · obtain ⟨m, hlt, hw⟩ := hm
    exact Or.inl ⟨m, h, hlt, hw⟩
  · refine Or.inr ⟨h, fun m hlt => Nat.lt_of_not_le fun hw => hm ⟨m, hlt, hw⟩⟩

theorem golayInput_take (x : List U8) : golayInput (x.take 3) = golayInput x := by
  rcases x with _ | ⟨a, _ | ⟨b, _ | ⟨c, r⟩⟩⟩ <;> rfl

theorem golayDecode12_near (B : Build) {x : List U8} {m : U16} (h : Near x m) (out : U16) :
    golayDecode12 B (x.take 3) out = .ok (weight (golayInput x ^^^ codeword m), m) := by
  rw [golayDecode12, golayInput_take]
  exact decodeSymbol_near B (golayInput_lt x) h.value h.close out

theorem golayDecode12_uncorrectable (B : Build) {x : List U8} (h : Uncorrectable x) (out : U16) :
    golayDecode12 B (x.take 3) out = .ok (-1, out) := by
  rw [golayDecode12, golayInput_take]
  exact decodeSymbol_far B (golayInput_lt x) h.far out

/-- the header value a received header stands for is unique -/
theorem Near.unique {x : List U8} {m m' : U16} (h : Near x m) (h' : Near x m') : m = m' := by
  have heq := (golayDecode12_near .release h 0).symm.trans (golayDecode12_near .release h' 0)
  exact (Prod.mk.inj (Except.ok.inj heq)).2

/-- an undamaged header stands for itself -/
theorem near_hdrBytes {m : U16} (hm : m.toNat < 2 ^ 12) (r : List U8) : Near (hdrBytes (codeword m) ++ r) m := by
  have hinput : golayInput (hdrBytes (codeword m) ++ r) = codeword m := golayInput_hdrBytes (codeword_lt m)
  refine ⟨?_, hm, ?_⟩
  · rw [List.length_append]
    exact Nat.le_add_right 3 _
  · rw [hinput, BitVec.xor_self]
    decide

/-- the distances of the first three bytes to the coded headers -/
def headerDistances (x : List U8) : Set ℕ :=
  {n | ∃ m : U16, m.toNat < 2 ^ 12 ∧ weight (golayInput x ^^^ codeword m) = n}

/-- the coded header a received header stands for is the nearest one -/
theorem Near.nearest {x : List U8} {m : U16} (h : Near x m) :
    IsLeast (headerDistances x) (weight (golayInput x ^^^ codeword m)) := by
  refine ⟨⟨m, h.value, rfl⟩, ?_⟩
  rintro n ⟨m', hm', rfl⟩
  by_contra hlt
  have hle := Nat.lt_of_not_le hlt
  -- a nearer one would be another value for the same bytes
  obtain rfl := h.unique ⟨h.long, hm', hle.le.trans h.close⟩
  exact absurd hle (Nat.lt_irrefl _)

/-! ## Bit errors in transit -/

/-- the bytes x with the bits of e flipped in the first three -/
def damage (e : BitVec 24) (x : List U8) : List U8 :=
  (x.take 3).zipWith (· ^^^ ·) (hdrBytes (e.setWidth 32)) ++ x.drop 3

theorem setWidth_lt (e : BitVec 24) : (e.setWidth 32).toNat < 2 ^ 24 := by
  rw [BitVec.toNat_setWidth]
  exact lt_of_le_of_lt (Nat.mod_le _ _) e.isLt

theorem weight_setWidth (e : BitVec 24) : weight (e.setWidth 32) = weight e := by
  rw [weight, weight, sum_bits_of_lt (setWidth_lt e) (by norm_num)]
  refine sum_congr rfl fun i hi => ?_
  have h32 : i < 32 := (mem_range.1 hi).trans (by norm_num)
  rw [BitVec.getLsbD_setWidth, decide_eq_true h32, Bool.true_and]

@[simp] theorem damage_length (e : BitVec 24) (w : U32) (r : List U8) :
    (damage e (hdrBytes w ++ r)).length = 3 + r.length := Nat.add_comm r.length 3

theorem damage_input (e : BitVec 24) (m : U16) (r : List U8) :
    golayInput (damage e (hdrBytes (codeword m) ++ r)) = codeword m ^^^ e.setWidth 32 := by
  have hx := golayInput_xor ((codeword m).extractLsb' 0 8) ((codeword m).extractLsb' 8 8)
    ((codeword m).extractLsb' 16 8) ((e.setWidth 32).extractLsb' 0 8) ((e.setWidth 32).extractLsb' 8 8)
    ((e.setWidth 32).extractLsb' 16 8)
  have h1 := golayInput_hdrBytes (codeword_lt m)
  have h2 := golayInput_hdrBytes (setWidth_lt e)
  rw [hdrBytes] at h1 h2
  rw [h1, h2] at hx
  exact hx

/-- a damaged header with at most three errors stands for the header that was sent -/
theorem damage_near {e : BitVec 24} (he : weight e ≤ 3) {m : U16} (hm : m.toNat < 2 ^ 12) (r : List U8) :
    Near (damage e (hdrBytes (codeword m) ++ r)) m ∧
      weight (golayInput (damage e (hdrBytes (codeword m) ++ r)) ^^^ codeword m) = weight e := by
  have hw : weight (golayInput (damage e (hdrBytes (codeword m) ++ r)) ^^^ codeword m) = weight e := by
    rw [damage_input, BitVec.xor_comm (codeword m), BitVec.xor_assoc, BitVec.xor_self, BitVec.xor_zero, weight_setWidth]
  exact ⟨⟨(damage_length e _ r).symm ▸ Nat.le_add_right 3 _, hm, le_of_eq_of_le hw he⟩, hw⟩

/-- a header with exactly four errors is uncorrectable -/
theorem damage_uncorrectable {e : BitVec 24} (h4 : weight e = 4) (m : U16) (r : List U8) :
    Uncorrectable (damage e (hdrBytes (codeword m) ++ r)) := by
  refine ⟨(damage_length e _ r).symm ▸ Nat.le_add_right 3 _, fun m' _ => ?_⟩
  rw [damage_input]
  exact four_flips_far (setWidth_lt e) (by rw [weight_setWidth, h4]) m'

end LongFi
