/-
Hamming weight of words, and the bit trick that computes it.

`weight x` counts the one bits of x. `popcount2_toNat`: `popcount_2` computes it for every 32-bit word. The proof splits
the word into its four bytes: no step of the trick carries across a byte, so each step is a function of one byte
(`byteSum`, checked on all 256), and the last two steps add the four bytes up.
-/
import LongFi.Golay.Golay

namespace LongFi

open LongFi.Core Finset

/-- number of one bits -/
def weight {w : ℕ} (x : BitVec w) : ℕ := ∑ i ∈ range w, (x.getLsbD i).toNat

/-! ## Four bytes in a number -/

/-- the number with bytes a, b, c, d, lowest first -/
def quad (a b c d : ℕ) : ℕ := a + 256 * b + 65536 * c + 16777216 * d

theorem and_split {k a b m n : ℕ} (ha : a < 2 ^ k) (hm : m < 2 ^ k) :
    (a + 2 ^ k * b) &&& (m + 2 ^ k * n) = (a &&& m) + 2 ^ k * (b &&& n) := by
  have ham : a &&& m < 2 ^ k := lt_of_le_of_lt Nat.and_le_left ha
  apply Nat.eq_of_testBit_eq
  intro i
  rw [Nat.testBit_and, Nat.add_comm a, Nat.add_comm m, Nat.add_comm (a &&& m), Nat.testBit_two_pow_mul_add _ ha,
    Nat.testBit_two_pow_mul_add _ hm, Nat.testBit_two_pow_mul_add _ ham]
  split_ifs <;> rw [Nat.testBit_and]

/-- a mask that repeats the byte m acts on each byte -/
theorem quad_and {a b c d m : ℕ} (ha : a < 256) (hb : b < 256) (hc : c < 256) (hm : m < 256) :
    quad a b c d &&& quad m m m m = quad (a &&& m) (b &&& m) (c &&& m) (d &&& m) := by
  have h0 := and_split (k := 8) (b := b + 256 * (c + 256 * d)) (n := m + 256 * (m + 256 * m)) ha hm
  have h1 := and_split (k := 8) (b := c + 256 * d) (n := m + 256 * m) hb hm
  have h2 := and_split (k := 8) (b := d) (n := m) hc hm
  norm_num at h0 h1 h2
  have e : ∀ p q r s, quad p q r s = p + 256 * (q + 256 * (r + 256 * s)) := fun p q r s => by unfold quad; ring
  rw [e, e, e, h0, h1, h2]

theorem exists_quad {x : ℕ} (hx : x < 2 ^ 32) :
    ∃ a b c d, a < 256 ∧ b < 256 ∧ c < 256 ∧ d < 256 ∧ x = quad a b c d :=
  ⟨x % 256, x / 256 % 256, x / 65536 % 256, x / 16777216, by omega, by omega, by omega, by omega, by unfold quad; omega⟩

/-! ## The steps of the trick on a byte -/

def pairSum (b : ℕ) : ℕ := b - (b / 2 &&& 0x55)
def nibbleSum (y : ℕ) : ℕ := (y &&& 0x33) + (y / 4 &&& 0x33)
def byteSum (b : ℕ) : ℕ := (nibbleSum (pairSum b) + nibbleSum (pairSum b) / 16) &&& 0x0f

/-- what the steps leave in a byte, with the bits that a shift pulls in from the next byte (t) masked away -/
theorem byte_steps : ∀ b < 256, (b / 2 &&& 0x55) ≤ b ∧ pairSum b < 256 ∧ nibbleSum (pairSum b) ≤ 68 ∧
    nibbleSum (pairSum b) % 16 ≤ 4 ∧ byteSum b ≤ 8 ∧ byteSum b = ∑ i ∈ range 8, (b.testBit i).toNat := by
  decide +kernel

theorem shift1_mask : ∀ b < 256, ∀ t < 2, (b / 2 + 128 * t) &&& 0x55 = b / 2 &&& 0x55 := by decide +kernel
theorem shift2_mask : ∀ y < 256, ∀ t < 4, (y / 4 + 64 * t) &&& 0x33 = y / 4 &&& 0x33 := by decide +kernel
theorem shift4_mask : ∀ z ≤ 68, ∀ t ≤ 4, (z + z / 16 + 16 * t) &&& 0x0f = (z + z / 16) &&& 0x0f := by decide +kernel

theorem quad_lt {a b c d : ℕ} (ha : a < 256) (hb : b < 256) (hc : c < 256) (hd : d < 256) : quad a b c d < 2 ^ 32 := by
  unfold quad
  omega

/-- bytes that do not borrow from the next one are subtracted separately -/
theorem quad_sub {a b c d p q r s : ℕ} (ha : p ≤ a) (hb : q ≤ b) (hc : r ≤ c) (hd : s ≤ d)
    (hlt : quad a b c d < 2 ^ 32) :
    (2 ^ 32 - quad p q r s + quad a b c d) % 2 ^ 32 = quad (a - p) (b - q) (c - r) (d - s) := by
  obtain ⟨a', rfl⟩ := Nat.exists_eq_add_of_le ha
  obtain ⟨b', rfl⟩ := Nat.exists_eq_add_of_le hb
  obtain ⟨c', rfl⟩ := Nat.exists_eq_add_of_le hc
  obtain ⟨d', rfl⟩ := Nat.exists_eq_add_of_le hd
  simp only [Nat.add_sub_cancel_left]
  unfold quad at *
  omega

/-- bytes are added separately, also with a carry into the next one -/
theorem quad_add (a b c d p q r s : ℕ) : quad a b c d + quad p q r s = quad (a + p) (b + q) (c + r) (d + s) := by
  unfold quad
  ring

/-- step 1: sums of bit pairs -/
theorem step1 {x : U32} {a b c d : ℕ} (ha : a < 256) (hb : b < 256) (hc : c < 256) (hd : d < 256)
    (hx : x.toNat = quad a b c d) :
    (x - (x >>> 1 &&& 0x55555555)).toNat = quad (pairSum a) (pairSum b) (pairSum c) (pairSum d) := by
  have hs : quad a b c d / 2 = quad (a / 2 + 128 * (b % 2)) (b / 2 + 128 * (c % 2)) (c / 2 + 128 * (d % 2))
      (d / 2 + 128 * 0) := by unfold quad; omega
  have hm : (x >>> 1 &&& 0x55555555).toNat =
      quad (a / 2 &&& 0x55) (b / 2 &&& 0x55) (c / 2 &&& 0x55) (d / 2 &&& 0x55) := by
    rw [BitVec.toNat_and, BitVec.toNat_ushiftRight, Nat.shiftRight_eq_div_pow, hx, pow_one, hs,
      show (0x55555555 : U32).toNat = quad 0x55 0x55 0x55 0x55 from rfl,
      quad_and (by omega) (by omega) (by omega) (by norm_num), shift1_mask a ha _ (by omega),
      shift1_mask b hb _ (by omega), shift1_mask c hc _ (by omega), shift1_mask d hd _ (by omega)]
  rw [BitVec.toNat_sub, hm, hx, quad_sub (byte_steps a ha).1 (byte_steps b hb).1 (byte_steps c hc).1
    (byte_steps d hd).1 (quad_lt ha hb hc hd)]
  rfl

/-- step 2: sums of nibbles -/
theorem step2 {x : U32} {a b c d : ℕ} (ha : a < 256) (hb : b < 256) (hc : c < 256) (hd : d < 256)
    (hx : x.toNat = quad a b c d) :
    ((x &&& (0x33333333 : U32)) + (x >>> 2 &&& (0x33333333 : U32))).toNat =
      quad (nibbleSum a) (nibbleSum b) (nibbleSum c) (nibbleSum d) := by
  have hs : quad a b c d / 2 ^ 2 = quad (a / 4 + 64 * (b % 4)) (b / 4 + 64 * (c % 4)) (c / 4 + 64 * (d % 4))
      (d / 4 + 64 * 0) := by unfold quad; omega
  have h33 : (0x33333333 : U32).toNat = quad 0x33 0x33 0x33 0x33 := rfl
  have hm : (x >>> 2 &&& 0x33333333).toNat =
      quad (a / 4 &&& 0x33) (b / 4 &&& 0x33) (c / 4 &&& 0x33) (d / 4 &&& 0x33) := by
    rw [BitVec.toNat_and, BitVec.toNat_ushiftRight, Nat.shiftRight_eq_div_pow, hx, hs, h33,
      quad_and (by omega) (by omega) (by omega) (by norm_num), shift2_mask a ha _ (by omega),
      shift2_mask b hb _ (by omega), shift2_mask c hc _ (by omega), shift2_mask d hd _ (by omega)]
  have hl : (x &&& 0x33333333).toNat = quad (a &&& 0x33) (b &&& 0x33) (c &&& 0x33) (d &&& 0x33) := by
    rw [BitVec.toNat_and, hx, h33, quad_and ha hb hc (by norm_num)]
  have hle : ∀ n, (n &&& 0x33) + (n / 4 &&& 0x33) < 256 := fun n =>
    lt_of_le_of_lt (Nat.add_le_add Nat.and_le_right Nat.and_le_right) (by norm_num : 0x33 + 0x33 < 256)
  rw [BitVec.toNat_add, hm, hl, quad_add, Nat.mod_eq_of_lt (quad_lt (hle a) (hle b) (hle c) (hle d))]
  rfl

/-- step 3: sums of bytes, for nibble sums of at most 4 -/
theorem step3 {x : U32} {a b c d : ℕ} (ha : a ≤ 68) (hb : b ≤ 68 ∧ b % 16 ≤ 4) (hc : c ≤ 68 ∧ c % 16 ≤ 4)
    (hd : d ≤ 68 ∧ d % 16 ≤ 4) (hx : x.toNat = quad a b c d) :
    (x + x >>> 4 &&& 0x0f0f0f0f).toNat =
      quad ((a + a / 16) &&& 0x0f) ((b + b / 16) &&& 0x0f) ((c + c / 16) &&& 0x0f) ((d + d / 16) &&& 0x0f) := by
  have hs : (x + x >>> 4).toNat = quad (a + a / 16 + 16 * (b % 16)) (b + b / 16 + 16 * (c % 16))
      (c + c / 16 + 16 * (d % 16)) (d + d / 16 + 16 * 0) := by
    rw [BitVec.toNat_add, BitVec.toNat_ushiftRight, Nat.shiftRight_eq_div_pow, hx]
    unfold quad
    omega
  rw [BitVec.toNat_and, hs, show (0x0f0f0f0f : U32).toNat = quad 0x0f 0x0f 0x0f 0x0f from rfl,
    quad_and (by omega) (by omega) (by omega) (by norm_num), shift4_mask a ha _ hb.2, shift4_mask b hb.1 _ hc.2,
    shift4_mask c hc.1 _ hd.2, shift4_mask d hd.1 _ (by norm_num)]

/-- steps 4 and 5: the sum of the four bytes -/
theorem step45 {x : U32} {a b c d : ℕ} (ha : a ≤ 8) (hb : b ≤ 8) (hc : c ≤ 8) (hd : d ≤ 8)
    (hx : x.toNat = quad a b c d) :
    (x + x >>> 8 + (x + x >>> 8) >>> 16 &&& 0x3f).toNat = a + b + c + d := by
  have h4 : (x + x >>> 8).toNat = quad (a + b) (b + c) (c + d) d := by
    rw [BitVec.toNat_add, BitVec.toNat_ushiftRight, Nat.shiftRight_eq_div_pow, hx]
    unfold quad
    omega
  have h63 : (0x3f : U32).toNat = 2 ^ 6 - 1 := rfl
  rw [BitVec.toNat_and, BitVec.toNat_add, BitVec.toNat_ushiftRight (x + x >>> 8), Nat.shiftRight_eq_div_pow, h4, h63,
    Nat.and_two_pow_sub_one_eq_mod]
  have hdiv : quad (a + b) (b + c) (c + d) d / 2 ^ 16 = c + d + 256 * d := by unfold quad; omega
  have hsum : quad (a + b) (b + c) (c + d) d + (c + d + 256 * d) =
      a + b + c + d + 64 * (4 * (b + c + d) + 1024 * (c + d) + 262144 * d) := by unfold quad; omega
  rw [hdiv, hsum]
  omega

/-! ## The whole trick -/

theorem weight_quad {x : U32} {a b c d : ℕ} (ha : a < 256) (hb : b < 256) (hc : c < 256) (hd : d < 256)
    (hx : x.toNat = quad a b c d) :
    weight x = byteSum a + byteSum b + byteSum c + byteSum d := by
  have hw : ∀ k < 4, ∀ n, n < 256 → x.toNat / 2 ^ (8 * k) % 256 = n →
      ∑ i ∈ range 8, (x.getLsbD (8 * k + i)).toNat = byteSum n := by
    intro k hk n hn hb
    rw [(byte_steps n hn).2.2.2.2.2, ← hb]
    refine sum_congr rfl fun i hi => ?_
    have hi8 := mem_range.1 hi
    rw [show (256 : ℕ) = 2 ^ 8 from rfl, Nat.testBit_mod_two_pow, Nat.testBit_div_two_pow, BitVec.getLsbD]
    simp [hi8, Nat.add_comm]
  have h0 := hw 0 (by norm_num) a ha (by rw [hx]; unfold quad; omega)
  have h1 := hw 1 (by norm_num) b hb (by rw [hx]; unfold quad; omega)
  have h2 := hw 2 (by norm_num) c hc (by rw [hx]; unfold quad; omega)
  have h3 := hw 3 (by norm_num) d hd (by rw [hx]; unfold quad; omega)
  have hsplit : ∀ f : ℕ → ℕ, ∑ i ∈ range (8 + 8 + 8 + 8), f i = ∑ i ∈ range 8, f (8 * 0 + i) +
      ∑ i ∈ range 8, f (8 * 1 + i) + ∑ i ∈ range 8, f (8 * 2 + i) + ∑ i ∈ range 8, f (8 * 3 + i) := fun f => by
    rw [sum_range_add, sum_range_add, sum_range_add]
    simp
  rw [← h0, ← h1, ← h2, ← h3]
  exact hsplit fun i => (x.getLsbD i).toNat

/-- **`popcount_2` counts the one bits** of every 32-bit word. -/
theorem popcount2_toNat (x : U32) : (popcount2 x).toNat = weight x := by
  obtain ⟨a, b, c, d, ha, hb, hc, hd, hx⟩ := exists_quad x.isLt
  obtain ⟨-, ha1, ha2, ha3, ha4, -⟩ := byte_steps a ha
  obtain ⟨-, hb1, hb2, hb3, hb4, -⟩ := byte_steps b hb
  obtain ⟨-, hc1, hc2, hc3, hc4, -⟩ := byte_steps c hc
  obtain ⟨-, hd1, hd2, hd3, hd4, -⟩ := byte_steps d hd
  have h1 := step1 ha hb hc hd hx
  have h2 := step2 ha1 hb1 hc1 hd1 h1
  have h3 := step3 ha2 ⟨hb2, hb3⟩ ⟨hc2, hc3⟩ ⟨hd2, hd3⟩ h2
  rw [weight_quad ha hb hc hd hx]
  exact step45 ha4 hb4 hc4 hd4 h3

end LongFi
