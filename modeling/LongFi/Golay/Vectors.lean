/-
The words of `golay.c` as vectors over ZMod 2, and its matrix as a self-dual parity matrix.

A 24-bit word is a pair of vectors: its high 12 bits (`hi`, the checks) and its low 12 bits (`lo`, the data), most
significant bit first. XOR is addition, AND is the pointwise product, the number of one bits is the Hamming weight, and
`golay2412_matrix_mul` is a matrix-vector product (`matrixMul_bit`). So the encoder and the syndrome of the code are
those of the parity matrix `Pmat`, which passes the checks of a doubly-even self-dual code (`Pmat_selfDual`).
-/
import LongFi.Core.SelfDualCode
import LongFi.Golay.Popcount

namespace LongFi

open LongFi.Core Finset Matrix

/-! ## Words as vectors -/

abbrev Vec12 := Fin 12 → ZMod 2

/-- the 12 bits of x from bit off on, most significant first -/
def bits (off : ℕ) (x : U32) : Vec12 := fun i => if x.getLsbD (off + (11 - i)) then 1 else 0

/-- the check half of a word -/
def hi (x : U32) : Vec12 := bits 12 x

/-- the data half of a word -/
def lo (x : U32) : Vec12 := bits 0 x

theorem bits_xor (off : ℕ) (x y : U32) : bits off (x ^^^ y) = bits off x + bits off y := by
  funext i
  simp only [bits, BitVec.getLsbD_xor, Pi.add_apply]
  cases x.getLsbD (off + (11 - i)) <;> cases y.getLsbD (off + (11 - i)) <;> decide

theorem hi_xor (x y : U32) : hi (x ^^^ y) = hi x + hi y := bits_xor 12 x y

theorem lo_xor (x y : U32) : lo (x ^^^ y) = lo x + lo y := bits_xor 0 x y

theorem bits_and (off : ℕ) (x y : U32) : bits off (x &&& y) = bits off x * bits off y := by
  funext i
  simp only [bits, BitVec.getLsbD_and, Pi.mul_apply]
  cases x.getLsbD (off + (11 - i)) <;> cases y.getLsbD (off + (11 - i)) <;> decide

theorem bits_or_left {off : ℕ} {x y : U32} (h : bits off y = 0) : bits off (x ||| y) = bits off x := by
  funext i
  have hy := congrFun h i
  simp only [bits, BitVec.getLsbD_or, Pi.zero_apply] at hy ⊢
  cases hb : y.getLsbD (off + (11 - i)) <;> simp [hb] at hy ⊢

/-- a vector of bits determines them -/
theorem bits_inj {off : ℕ} {x y : U32} (h : bits off x = bits off y) {j : ℕ} (hj : j < 12) :
    x.getLsbD (off + j) = y.getLsbD (off + j) := by
  have hi := congrFun h ⟨11 - j, by omega⟩
  simp only [bits, show 11 - (11 - j) = j by omega] at hi
  cases hx : x.getLsbD (off + j) <;> cases hy : y.getLsbD (off + j) <;> simp [hx, hy] at hi ⊢

theorem getLsbD_of_lt {w : ℕ} {x : BitVec w} {n j : ℕ} (h : x.toNat < 2 ^ n) (hj : n ≤ j) : x.getLsbD j = false :=
  Nat.testBit_lt_two_pow (lt_of_lt_of_le h (Nat.pow_le_pow_right (by norm_num) hj))

/-- only the low n bits of an n-bit value count -/
theorem sum_bits_of_lt {w : ℕ} {x : BitVec w} {n k : ℕ} (h : x.toNat < 2 ^ n) (hk : n ≤ k) :
    ∑ i ∈ range k, (x.getLsbD i).toNat = ∑ i ∈ range n, (x.getLsbD i).toNat := by
  refine (sum_subset (range_mono hk) fun i _ hi => ?_).symm
  rw [getLsbD_of_lt h (Nat.not_lt.1 fun hlt => hi (mem_range.2 hlt))]
  rfl

theorem hi_of_lt {x : U32} (h : x.toNat < 2 ^ 12) : hi x = 0 := by
  funext i
  simp [hi, bits, getLsbD_of_lt h]

/-- a 24-bit word is determined by its two halves -/
theorem word_ext {x y : U32} (hx : x.toNat < 2 ^ 24) (hy : y.toNat < 2 ^ 24) (h1 : hi x = hi y) (h2 : lo x = lo y) :
    x = y := by
  apply BitVec.eq_of_getLsbD_eq
  intro j _
  by_cases h12 : j < 12
  · simpa using bits_inj h2 h12
  · by_cases h24 : j < 24
    · have := bits_inj h1 (show j - 12 < 12 by omega)
      rwa [show 12 + (j - 12) = j by omega] at this
    · rw [getLsbD_of_lt hx (by omega), getLsbD_of_lt hy (by omega)]

/-- every vector is the data half of a 12-bit word -/
theorem exists_lo (v : Vec12) : ∃ m : U16, m.toNat < 2 ^ 12 ∧ lo (m.setWidth 32) = v := by
  let f : Fin (2 ^ 12) → Vec12 := fun n => lo (BitVec.ofNat 32 n)
  have hf : Function.Injective f := by
    intro m n h
    have hm : (BitVec.ofNat 32 m.val).toNat < 2 ^ 12 := by simp; omega
    have hn : (BitVec.ofNat 32 n.val).toNat < 2 ^ 12 := by simp; omega
    have hw := word_ext (by omega) (by omega) ((hi_of_lt hm).trans (hi_of_lt hn).symm) h
    have := congrArg BitVec.toNat hw
    simp at this
    omega
  have hb : Function.Bijective f := (Fintype.bijective_iff_injective_and_card f).2 ⟨hf, by simp [ZMod.card]⟩
  obtain ⟨n, hn⟩ := hb.2 v
  refine ⟨BitVec.ofNat 16 n, by simp; omega, ?_⟩
  rw [← hn]
  congr 1
  apply BitVec.eq_of_toNat_eq
  simp
  omega

/-! ## Weight -/

theorem hammingNorm_bits (off : ℕ) (x : U32) :
    hammingNorm (bits off x) = ∑ j ∈ range 12, (x.getLsbD (off + j)).toNat := by
  have bit : ∀ b : Bool, (if (if b = true then (1 : ZMod 2) else 0) ≠ 0 then 1 else 0) = b.toNat := by decide
  rw [← sum_range_reflect, sum_range, hammingNorm, card_filter]
  exact sum_congr rfl fun i _ => bit _

/-- the number of one bits among the low 24 -/
theorem hammingNorm_halves (x : U32) :
    hammingNorm (hi x) + hammingNorm (lo x) = ∑ j ∈ range 24, (x.getLsbD j).toNat := by
  rw [hi, lo, hammingNorm_bits, hammingNorm_bits, show (24 : ℕ) = 12 + 12 from rfl, sum_range_add]
  simp [add_comm]

theorem weight_eq {x : U32} (h : x.toNat < 2 ^ 24) : weight x = hammingNorm (hi x) + hammingNorm (lo x) := by
  calc weight x = ∑ j ∈ range 24, (x.getLsbD j).toNat := sum_bits_of_lt h (by norm_num)
    _ = hammingNorm (hi x) + hammingNorm (lo x) := (hammingNorm_halves x).symm

theorem weight_eq_lo {x : U32} (h : x.toNat < 2 ^ 12) : weight x = hammingNorm (lo x) := by
  rw [weight_eq (by omega), hi_of_lt h, hammingNorm_zero, zero_add]

/-- the weight of the byte of x at bit k -/
theorem popcount2_byte (x : U32) (k : ℕ) :
    (popcount2 (x >>> k &&& 0xff)).toNat = ∑ j ∈ range 8, (x.getLsbD (k + j)).toNat := by
  have h255 : ∀ i < 8, (0xff : U32).getLsbD i = true := by decide
  have hlt : (x >>> k &&& 0xff).toNat < 2 ^ 8 := by
    rw [BitVec.toNat_and]
    exact lt_of_le_of_lt Nat.and_le_right (by decide)
  calc (popcount2 (x >>> k &&& 0xff)).toNat = ∑ j ∈ range 32, ((x >>> k &&& 0xff).getLsbD j).toNat := popcount2_toNat _
    _ = ∑ j ∈ range 8, ((x >>> k &&& 0xff).getLsbD j).toNat := sum_bits_of_lt hlt (by norm_num)
    _ = ∑ j ∈ range 8, (x.getLsbD (k + j)).toNat := sum_congr rfl fun j hj => by
      rw [BitVec.getLsbD_and, h255 j (mem_range.1 hj), BitVec.getLsbD_ushiftRight, Bool.and_true]

/-! ## The matrix product -/

/-- the parity of the bits that a row selects from v -/
def parity (v row : U32) : ZMod 2 := hi row ⬝ᵥ hi v + lo row ⬝ᵥ lo v

theorem parity_eq (v row : U32) : parity v row = ((∑ j ∈ range 24, ((row &&& v).getLsbD j).toNat : ℕ) : ZMod 2) := by
  rw [← hammingNorm_halves, hi, lo, bits_and, bits_and, Nat.cast_add, hammingNorm_mul_cast, hammingNorm_mul_cast]
  rfl

theorem and_one_getLsbD (c : U32) (j : ℕ) : (c &&& 1).getLsbD j = (decide (j = 0) && decide (c.toNat % 2 = 1)) := by
  cases j with
  | zero => simp [Nat.testBit_zero, BitVec.getLsbD]
  | succ j =>
    have h1 : (1 : U32).toNat < 2 ^ 1 := by decide
    rw [BitVec.getLsbD_and, getLsbD_of_lt h1 (by omega)]
    simp

/-- the counts of three bytes add up to the number of one bits among the low 24, modulo 2 -/
theorem byteCounts_mod (p : U32) :
    (popcount2 (p &&& 0xff) + popcount2 (p >>> 8 &&& 0xff) + popcount2 (p >>> 8 >>> 8 &&& 0xff)).toNat % 2 =
      (∑ j ∈ range 24, (p.getLsbD j).toNat) % 2 := by
  have h0 := popcount2_byte p 0
  have h8 := popcount2_byte p 8
  have h16 := popcount2_byte p 16
  have hsplit : ∑ j ∈ range 24, (p.getLsbD j).toNat = ∑ j ∈ range 8, (p.getLsbD (0 + j)).toNat +
      ∑ j ∈ range 8, (p.getLsbD (8 + j)).toNat + ∑ j ∈ range 8, (p.getLsbD (16 + j)).toNat := by
    rw [show 24 = 8 + 8 + 8 from rfl, sum_range_add, sum_range_add]
    simp
  rw [BitVec.ushiftRight_zero] at h0
  rw [← BitVec.shiftRight_add, BitVec.toNat_add, BitVec.toNat_add, h0, h8, h16, hsplit]
  omega

theorem ite_odd (n : ℕ) : (if n % 2 = 1 then (1 : ZMod 2) else 0) = n := by
  rcases Nat.mod_two_eq_zero_or_one n with h | h
  · rw [if_neg (by rw [h]; decide), (ZMod.natCast_eq_zero_iff_even).2 (Nat.even_iff.2 h)]
  · rw [if_pos h, (ZMod.natCast_eq_one_iff_odd).2 (Nat.odd_iff.2 h)]

/-- one row shifts the result and appends the parity of the row -/
theorem matrixMulRow_bit (v x row : U32) {j : ℕ} (hj : j < 32) :
    (if (golay2412MatrixMulRow v x row).getLsbD j then (1 : ZMod 2) else 0) =
      if j = 0 then parity v row else if x.getLsbD (j - 1) then 1 else 0 := by
  have hrow : golay2412MatrixMulRow v x row = x <<< 1 ||| (popcount2 (row &&& v &&& 0xff) +
      popcount2 ((row &&& v) >>> 8 &&& 0xff) + popcount2 ((row &&& v) >>> 8 >>> 8 &&& 0xff) &&& 1) := rfl
  rw [hrow, BitVec.getLsbD_or, and_one_getLsbD, byteCounts_mod, parity_eq]
  generalize (∑ j ∈ range 24, ((row &&& v).getLsbD j).toNat) = n
  cases j with
  | zero => simpa using ite_odd n
  | succ j => simp [hj, BitVec.getLsbD_eq_getElem (Nat.lt_of_succ_lt hj)]

/-- **The product is a matrix-vector product**: bit n - 1 - i of the result is the parity of row i. -/
theorem matrixMul_bit (v : U32) (rows : List U32) {j : ℕ} (hj : j < 32) :
    (if (rows.foldl (golay2412MatrixMulRow v) 0).getLsbD j then (1 : ZMod 2) else 0) =
      (rows.reverse.map (parity v)).getD j 0 := by
  induction rows using List.reverseRecOn generalizing j with
  | nil => simp
  | append_singleton rows row ih =>
    rw [List.foldl_append, List.foldl_cons, List.foldl_nil, matrixMulRow_bit v _ row hj, List.reverse_append]
    cases j with
    | zero => simp
    | succ j => simpa using ih (by omega)

/-- twelve bits of a product are the parities of twelve rows -/
theorem bits_matrixMul (v : U32) (n off : ℕ) {A : List U32} (hA : A.length = n) (hoff : off + 12 ≤ n) (hn : n ≤ 32)
    (i : Fin 12) : bits off (golay2412MatrixMul v A n) i = parity v (A.getD (n - 12 - off + i) 0) := by
  have hi := i.isLt
  have hj : n - 1 - (off + (11 - i)) = n - 12 - off + i := by omega
  rw [bits, golay2412MatrixMul, List.take_of_length_le hA.le, matrixMul_bit v A (by omega), List.map_reverse,
    List.getD_eq_getElem?_getD, List.getElem?_reverse (by simp; omega), List.length_map, hA, hj,
    List.getD_eq_getElem?_getD, List.getElem?_map, List.getElem?_eq_getElem (by omega)]
  rfl

/-- a product with n rows has n bits -/
theorem matrixMul_lt (v : U32) {A : List U32} {n : ℕ} (hA : A.length = n) :
    (golay2412MatrixMul v A n).toNat < 2 ^ n := by
  apply Nat.lt_pow_two_of_testBit
  intro j hj
  by_cases h32 : j < 32
  · have h := matrixMul_bit v A h32
    rw [List.getD_eq_getElem?_getD, List.getElem?_eq_none (by simp; omega), Option.getD_none] at h
    rw [golay2412MatrixMul, List.take_of_length_le hA.le]
    cases hb : (A.foldl (golay2412MatrixMulRow v) 0).toNat.testBit j
    · rfl
    · rw [BitVec.getLsbD, hb] at h
      exact absurd h (by decide)
  · exact Nat.testBit_lt_two_pow (lt_of_lt_of_le (BitVec.isLt _) (Nat.pow_le_pow_right (by norm_num) (by omega)))

/-! ## The matrices -/

/-- row i of a matrix in the source -/
def row (A : List U32) (i : ℕ) : U32 := A.getD i 0

/-- the parity matrix over ZMod 2 -/
def Pmat : Matrix (Fin 12) (Fin 12) (ZMod 2) := fun i => lo (row golay2412P i)

/-- the parity matrix passes the local checks of a doubly-even self-dual code -/
theorem Pmat_selfDual : SelfDual Pmat where
  symm := by decide +kernel
  invol := by decide +kernel
  row_even := by decide +kernel
  row_weight := by decide +kernel
  row_dist := by decide +kernel

/-- the extended Golay code -/
abbrev golayCode : HalfRate Vec12 (Fin 12) := Pmat_selfDual.code

theorem golayCode_wt (v : Vec12) : golayCode.wt v = hammingNorm v := rfl

theorem row_P : ∀ i : Fin 12, hi (row golay2412P i) = 0 := by decide +kernel

theorem row_H : ∀ i : Fin 12, hi (row golay2412H i) = Pi.single i 1 ∧ lo (row golay2412H i) = lo (row golay2412P i) := by
  decide +kernel

theorem row_Gt : ∀ i : Fin 12, row golay2412Gt i = row golay2412P i ∧ hi (row golay2412Gt (12 + i)) = 0 ∧
    lo (row golay2412Gt (12 + i)) = Pi.single i 1 := by decide +kernel

theorem parity_P (v : U32) (i : Fin 12) : parity v (row golay2412P i) = (Pmat *ᵥ lo v) i := by
  rw [parity, row_P i, zero_dotProduct, zero_add]
  rfl

/-- the product with P -/
theorem lo_mul_P (v : U32) : lo (golay2412MatrixMul v golay2412P 12) = Pmat *ᵥ lo v := by
  funext i
  have h := bits_matrixMul v 12 0 (A := golay2412P) rfl le_rfl (by norm_num) i
  rw [lo, h, ← parity_P]
  simp [row]

/-- the product with H is the syndrome -/
theorem lo_mul_H (v : U32) : lo (golay2412MatrixMul v golay2412H 12) = golayCode.syn (hi v) (lo v) := by
  funext i
  have h := bits_matrixMul v 12 0 (A := golay2412H) rfl le_rfl (by norm_num) i
  have hrow := row_H i
  rw [row] at hrow
  rw [lo, h, Nat.sub_self, Nat.zero_add, parity, hrow.1, hrow.2, single_one_dotProduct]
  rfl

/-- the coded word of 12 bits -/
def codeword (m : U16) : U32 := golay2412MatrixMul (m.setWidth 32) golay2412Gt 24

theorem codeword_lt (m : U16) : (codeword m).toNat < 2 ^ 24 := matrixMul_lt (n := 24) _ rfl

theorem hi_codeword (m : U16) : hi (codeword m) = golayCode.par (lo (m.setWidth 32)) := by
  funext i
  have h := bits_matrixMul (m.setWidth 32) 24 12 (A := golay2412Gt) rfl le_rfl (by norm_num) i
  have hp := parity_P (m.setWidth 32) i
  rw [hi, codeword, h, Nat.sub_self, Nat.zero_add]
  rw [← (row_Gt i).1] at hp
  exact hp

theorem lo_codeword (m : U16) : lo (codeword m) = lo (m.setWidth 32) := by
  funext i
  have h := bits_matrixMul (m.setWidth 32) 24 0 (A := golay2412Gt) rfl (by norm_num) (by norm_num) i
  obtain ⟨-, h0, h1⟩ := row_Gt i
  rw [row] at h0 h1
  rw [lo, codeword, h, show 24 - 12 - 0 + (i : ℕ) = 12 + i from rfl, parity, h0, h1, zero_dotProduct, zero_add,
    single_one_dotProduct]

end LongFi
