/-
Doubly-even self-dual binary codes: minimum weight 8 from local checks on the parity matrix.

P is a square matrix over ZMod 2. If P is symmetric with P * P = 1, the code { (P x, x) } is self-dual. If moreover every
generator (P eᵢ, eᵢ) has weight divisible by 4, every codeword has (`weight_dvd`): adding a generator changes the weight
by the generator's weight minus twice an overlap, and overlaps of orthogonal words are even. So a word of weight below 8
has weight 0 or 4, and a word of weight 4 has at most two message bits or, read through P, at most two check bits. Rows
of weight at least 7 at distance at least 6 from each other exclude it (`min_weight`).

`SelfDual.code` packs the result as a `HalfRate` code, ready for the syndrome decoder.
-/
import Mathlib.InformationTheory.Hamming
import Mathlib.LinearAlgebra.Matrix.ToLin
import Mathlib.Algebra.CharP.Two
import Mathlib.Data.ZMod.Basic
import LongFi.Core.SyndromeDecoder

namespace LongFi.Core

open Finset Matrix

/-! ## Hamming weight over ZMod 2 -/

section Weight

variable {ι : Type} [Fintype ι]

theorem zmod2_cases (a : ZMod 2) : a = 0 ∨ a = 1 := by
  revert a
  decide

/-- inclusion-exclusion for the weight of a sum -/
theorem hammingNorm_add (x y : ι → ZMod 2) :
    hammingNorm (x + y) + 2 * hammingNorm (x * y) = hammingNorm x + hammingNorm y := by
  have bit : ∀ a b : ZMod 2, ((if a + b ≠ 0 then 1 else 0) + 2 * if a * b ≠ 0 then 1 else 0) =
      (if a ≠ 0 then 1 else 0) + if b ≠ 0 then 1 else 0 := by decide
  simp only [hammingNorm, card_filter, Pi.add_apply, Pi.mul_apply, mul_sum, ← sum_add_distrib]
  exact sum_congr rfl fun i _ => bit (x i) (y i)

theorem hammingNorm_add_le (x y : ι → ZMod 2) : hammingNorm (x + y) ≤ hammingNorm x + hammingNorm y := by
  have := hammingNorm_add x y
  omega

/-- the overlap of two words is their dot product mod 2 -/
theorem hammingNorm_mul_cast (x y : ι → ZMod 2) : (hammingNorm (x * y) : ZMod 2) = x ⬝ᵥ y := by
  have bit : ∀ a b : ZMod 2, ((if a * b ≠ 0 then 1 else 0 : ℕ) : ZMod 2) = a * b := by decide
  simp only [hammingNorm, card_filter, Nat.cast_sum, dotProduct, Pi.mul_apply]
  exact sum_congr rfl fun i _ => bit (x i) (y i)

variable [DecidableEq ι]

theorem hammingNorm_single (i : ι) : hammingNorm (Pi.single i 1 : ι → ZMod 2) = 1 := by
  rw [hammingNorm, card_eq_one]
  refine ⟨i, ?_⟩
  ext j
  by_cases h : j = i <;> simp [Pi.single_apply, h]

/-- a word is the sum of the units on its support -/
theorem eq_sum_single (x : ι → ZMod 2) : x = ∑ i with x i ≠ 0, Pi.single i 1 := by
  funext j
  rw [Finset.sum_apply]
  simp only [Pi.single_apply, sum_ite_eq, mem_filter, mem_univ, true_and]
  rcases zmod2_cases (x j) with h | h <;> simp [h]

theorem exists_single {x : ι → ZMod 2} (h : hammingNorm x = 1) : ∃ i, x = Pi.single i 1 := by
  obtain ⟨i, hi⟩ := card_eq_one.1 h
  exact ⟨i, by rw [eq_sum_single x, hi, sum_singleton]⟩

theorem exists_pair {x : ι → ZMod 2} (h : hammingNorm x = 2) :
    ∃ i j, i ≠ j ∧ x = Pi.single i 1 + Pi.single j 1 := by
  obtain ⟨i, j, hij, hx⟩ := card_eq_two.1 h
  exact ⟨i, j, hij, by rw [eq_sum_single x, hx, sum_pair hij]⟩

end Weight

/-! ## Self-dual codes -/

variable {ι : Type} [Fintype ι] [DecidableEq ι]

/-- a symmetric involutive parity matrix whose rows have weight 3 mod 4, at least 7, at pairwise distance at least 6 -/
structure SelfDual (P : Matrix ι ι (ZMod 2)) : Prop where
  symm : Pᵀ = P
  invol : P * P = 1
  row_even : ∀ i, 4 ∣ hammingNorm (P i) + 1
  row_weight : ∀ i, 7 ≤ hammingNorm (P i)
  row_dist : ∀ i j, i ≠ j → 6 ≤ hammingNorm (P i + P j)

namespace SelfDual

variable {P : Matrix ι ι (ZMod 2)} (h : SelfDual P)
include h

theorem mulVec_single (i : ι) : P *ᵥ Pi.single i 1 = P i := by
  rw [mulVec_single_one]
  funext j
  exact congrFun (congrFun h.symm i) j

theorem mulVec_mulVec (x : ι → ZMod 2) : P *ᵥ (P *ᵥ x) = x := by
  rw [Matrix.mulVec_mulVec, h.invol, one_mulVec]

/-- P preserves dot products: codewords are orthogonal -/
theorem dotProduct_mulVec (x y : ι → ZMod 2) : (P *ᵥ x) ⬝ᵥ (P *ᵥ y) = x ⬝ᵥ y := by
  rw [Matrix.dotProduct_mulVec, ← mulVec_transpose, h.symm, h.mulVec_mulVec]

/-- **Doubly even.** Every codeword has weight divisible by 4. -/
theorem weight_dvd (x : ι → ZMod 2) : 4 ∣ hammingNorm x + hammingNorm (P *ᵥ x) := by
  rw [eq_sum_single x]
  generalize univ.filter (fun i => x i ≠ 0) = S
  induction S using Finset.induction_on with
  | empty => simp
  | insert i S hi ih =>
    rw [sum_insert hi, mulVec_add, h.mulVec_single]
    generalize (∑ j ∈ S, Pi.single j 1 : ι → ZMod 2) = y at ih ⊢
    have h1 := hammingNorm_add (Pi.single i 1) y
    have h2 := hammingNorm_add (P i) (P *ᵥ y)
    have h3 := h.row_even i
    -- the overlap of the generator with the codeword of y is even
    have hov : Even (hammingNorm (Pi.single i 1 * y) + hammingNorm (P i * (P *ᵥ y))) := by
      rw [← ZMod.natCast_eq_zero_iff_even, Nat.cast_add, hammingNorm_mul_cast, hammingNorm_mul_cast,
        ← h.mulVec_single, h.dotProduct_mulVec]
      exact CharTwo.add_self_eq_zero _
    rw [hammingNorm_single] at h1
    obtain ⟨k, hk⟩ := hov
    omega

/-- a codeword with one or two message bits has weight at least 8 -/
theorem light_weight {x : ι → ZMod 2} (hx : x ≠ 0) (h2 : hammingNorm x ≤ 2) :
    8 ≤ hammingNorm x + hammingNorm (P *ᵥ x) := by
  have h0 : hammingNorm x ≠ 0 := by rwa [Ne, hammingNorm_eq_zero]
  by_cases h1 : hammingNorm x = 1
  · obtain ⟨i, rfl⟩ := exists_single h1
    have := h.row_weight i
    rw [h.mulVec_single]
    omega
  · have hx2 : hammingNorm x = 2 := by omega
    obtain ⟨i, j, hij, rfl⟩ := exists_pair hx2
    have := h.row_dist i j hij
    rw [mulVec_add, h.mulVec_single, h.mulVec_single]
    omega

/-- **Minimum weight.** Every nonzero codeword has weight at least 8. -/
theorem min_weight (x : ι → ZMod 2) (hx : x ≠ 0) : 8 ≤ hammingNorm x + hammingNorm (P *ᵥ x) := by
  by_contra hlt
  have h4 := h.weight_dvd x
  have h0 : hammingNorm x ≠ 0 := by rwa [Ne, hammingNorm_eq_zero]
  by_cases h2 : hammingNorm x ≤ 2
  · exact hlt (h.light_weight hx h2)
  · -- at most two check bits: read the same word with the roles of checks and message exchanged
    have hPx : P *ᵥ x ≠ 0 := fun h0 => hx (by rw [← h.mulVec_mulVec x, h0, mulVec_zero])
    have h8 := h.light_weight hPx (by omega)
    rw [h.mulVec_mulVec] at h8
    omega

omit h in
/-- the code of a self-dual parity matrix -/
def code (h : SelfDual P) : HalfRate (ι → ZMod 2) ι where
  wt := hammingNorm
  unit i := Pi.single i 1
  par := (Matrix.mulVecLin P).toAddMonoidHom
  add_self x := funext fun i => CharTwo.add_self_eq_zero (x i)
  wt_add_le := hammingNorm_add_le
  wt_eq_zero := hammingNorm_eq_zero
  wt_unit := hammingNorm_single
  exists_unit := exists_single
  par_par := h.mulVec_mulVec
  min_weight := h.min_weight

end SelfDual

end LongFi.Core
