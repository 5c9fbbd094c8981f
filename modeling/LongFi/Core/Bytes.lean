/-
Words as bytes, in either byte order, for words of any width.

`toBytes n w` are the n lowest bytes of w and `ofBytes` is the word with given bytes, both with the lowest byte first; the
other order is the reversed list. On words of `8 * n` bits and lists of n bytes they are inverse to each other
(`ofBytes_toBytes`, `toBytes_ofBytes`).
Fields of one length in a row are told apart (`flatMap_inj`).
-/
import Mathlib.Tactic

namespace LongFi.Core

variable {w : ℕ}

/-- the n lowest bytes of a word -/
def toBytes : (n : ℕ) → BitVec w → List (BitVec 8)
  | 0, _ => []
  | n + 1, v => v.setWidth 8 :: toBytes n (v >>> 8)

/-- the word with these bytes -/
def ofBytes (w : ℕ) : List (BitVec 8) → BitVec w
  | [] => 0
  | b :: bs => ofBytes w bs <<< 8 ||| b.setWidth w

@[simp] theorem toBytes_length (n : ℕ) (v : BitVec w) : (toBytes n v).length = n := by
  induction n generalizing v with
  | zero => rfl
  | succ n ih => simp [toBytes, ih]

/-- the lowest byte and the others -/
theorem join_low (v : BitVec w) : (v >>> 8) <<< 8 ||| (v.setWidth 8).setWidth w = v := by
  apply BitVec.eq_of_getLsbD_eq
  intro i hi
  simp only [BitVec.getLsbD_or, BitVec.getLsbD_shiftLeft, BitVec.getLsbD_ushiftRight, BitVec.getLsbD_setWidth, hi,
    decide_true, Bool.true_and]
  by_cases h : i < 8
  · simp [h]
  · have hadd : 8 + (i - 8) = i := by omega
    simp [h, hadd]

theorem ofBytes_toBytes {n : ℕ} {v : BitVec w} (h : v.toNat < 2 ^ (8 * n)) : ofBytes w (toBytes n v) = v := by
  induction n generalizing v with
  | zero =>
    apply BitVec.eq_of_toNat_eq
    simp [toBytes, ofBytes]
    omega
  | succ n ih =>
    have hhigh : (v >>> 8).toNat < 2 ^ (8 * n) := by
      rw [BitVec.toNat_ushiftRight, Nat.shiftRight_eq_div_pow, Nat.div_lt_iff_lt_mul (by decide), ← pow_add]
      exact h
    rw [toBytes, ofBytes, ih hhigh, join_low]

/-- bits above the bytes are 0 -/
theorem ofBytes_high (bs : List (BitVec 8)) {i : ℕ} (hi : 8 * bs.length ≤ i) : (ofBytes w bs).getLsbD i = false := by
  induction bs generalizing i with
  | nil => simp [ofBytes]
  | cons b bs ih =>
    rw [List.length_cons] at hi
    have hb : b.getLsbD i = false := BitVec.getLsbD_of_ge _ _ (by omega)
    simp [ofBytes, ih (show 8 * bs.length ≤ i - 8 by omega), hb]

theorem toBytes_ofBytes {n : ℕ} {bs : List (BitVec 8)} (hn : bs.length = n) (h : 8 * n ≤ w) :
    toBytes n (ofBytes w bs) = bs := by
  subst hn
  induction bs with
  | nil => rfl
  | cons b bs ih =>
    rw [List.length_cons] at h
    have hlow : (ofBytes w bs <<< 8 ||| b.setWidth w).setWidth 8 = b := by
      apply BitVec.eq_of_getLsbD_eq
      intro i hi
      have hw : i < w := by omega
      simp [hi, hw]
    have hhigh : (ofBytes w bs <<< 8 ||| b.setWidth w) >>> 8 = ofBytes w bs := by
      apply BitVec.eq_of_getLsbD_eq
      intro i hi
      have hb : b.getLsbD (8 + i) = false := BitVec.getLsbD_of_ge _ _ (Nat.le_add_right 8 i)
      have hsub : 8 + i - 8 = i := Nat.add_sub_cancel_left 8 i
      have hge : ¬8 + i < 8 := by omega
      simp only [BitVec.getLsbD_ushiftRight, BitVec.getLsbD_or, BitVec.getLsbD_shiftLeft, BitVec.getLsbD_setWidth, hb,
        hsub, hge, decide_false, Bool.not_false, Bool.and_true, Bool.and_false, Bool.or_false]
      by_cases hw : 8 + i < w
      · simp [hw]
      · have hzero : (ofBytes w bs).getLsbD i = false := ofBytes_high bs (by omega)
        simp [hw, hzero]
    rw [List.length_cons, toBytes, ofBytes, hlow, hhigh, ih (by omega)]

/-- fields of one length in a row are told apart -/
theorem flatMap_inj {α σ : Type} {f : α → List σ} {n : ℕ} (hn : ∀ a, (f a).length = n) (hf : Function.Injective f)
    {l l' : List α} (hlen : l.length = l'.length) (h : l.flatMap f = l'.flatMap f) : l = l' := by
  induction l generalizing l' with
  | nil => exact (List.length_eq_zero_iff.1 hlen.symm).symm
  | cons a l ih =>
    cases l' with
    | nil => exact absurd hlen (Nat.succ_ne_zero _)
    | cons b l' =>
      rw [List.flatMap_cons, List.flatMap_cons] at h
      obtain ⟨hhead, htail⟩ := List.append_inj h ((hn a).trans (hn b).symm)
      rw [hf hhead, ih (Nat.succ.inj hlen) htail]

end LongFi.Core
