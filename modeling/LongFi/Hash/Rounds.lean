/-
The rounds of the BLAKE2s compression function lose nothing.

The macro `G` changes one of its four words at a time, by an addition or by an exclusive or and a rotation, with the other
words and a word of the message. So each round, and all ten of them, permute the working vectors, whatever the message
(`rounds_lose_nothing`), and each row of `blake2s_sigma` has every word of the message in one place of its round.
-/
import Mathlib.Data.FinEnum
import LongFi.Core.Registers
import LongFi.Hash.Blake2s

namespace LongFi.Blake2sRef

open LongFi.Core

/-! ## Rotations -/

theorem rotr32_getLsbD (w : U32) {c : ℕ} (hc : c < 32) {i : ℕ} (hi : i < 32) :
    (rotr32 w c).getLsbD i = w.getLsbD ((i + c) % 32) := by
  simp only [rotr32, BitVec.getLsbD_or, BitVec.getLsbD_ushiftRight, BitVec.getLsbD_shiftLeft, hi, decide_true,
    Bool.true_and]
  by_cases h : i + c < 32
  · have hlt : i < 32 - c := by omega
    rw [Nat.mod_eq_of_lt h, decide_eq_true hlt, Bool.not_true, Bool.false_and, Bool.or_false, Nat.add_comm]
  · have hge : ¬i < 32 - c := by omega
    have hmod : (i + c) % 32 = i - (32 - c) := by omega
    rw [hmod, decide_eq_false hge, BitVec.getLsbD_of_ge _ _ (show 32 ≤ c + i by omega), Bool.false_or, Bool.not_false,
      Bool.true_and]

theorem rotr32_injective {c : ℕ} (hc : c < 32) : Function.Injective fun w => rotr32 w c := by
  intro w w' h
  apply BitVec.eq_of_getLsbD_eq
  intro i hi
  -- bit i comes from bit i - c of the rotated word
  have hj : (i + (32 - c)) % 32 < 32 := Nat.mod_lt _ (by decide)
  have hi' : ((i + (32 - c)) % 32 + c) % 32 = i := by omega
  have hbit := congrArg (fun x => x.getLsbD ((i + (32 - c)) % 32)) h
  simp only [rotr32_getLsbD _ hc hj, hi'] at hbit
  exact hbit

/-! ## One mixing step -/

/-- entries other than x do not change with it -/
theorem set_indep {x y : Fin 16} (hxy : x ≠ y) (v : Vector U32 16) (w : U32) : (v.set x w x.isLt).get y = v.get y :=
  Vector.getElem_set_ne _ _ (Fin.val_ne_of_ne hxy)

/-- `v[x] + v[y]` -/
theorem add_mixes {x y : Fin 16} (hxy : x ≠ y) : Mixes x fun (v : Vector U32 16) w => w + v.get y where
  indep v w := by simp only [set_indep hxy]
  inj v w w' h := (BitVec.add_left_inj _).1 h

/-- `v[x] + v[y] + k` -/
theorem addWord_mixes {x y : Fin 16} (hxy : x ≠ y) (k : U32) : Mixes x fun (v : Vector U32 16) w => w + v.get y + k where
  indep v w := by simp only [set_indep hxy]
  inj v w w' h := (BitVec.add_left_inj _).1 ((BitVec.add_left_inj _).1 h)

/-- `rotr32(v[x] ^ v[y], c)` -/
theorem rot_mixes {x y : Fin 16} (hxy : x ≠ y) {c : ℕ} (hc : c < 32) :
    Mixes x fun (v : Vector U32 16) w => rotr32 (w ^^^ v.get y) c where
  indep v w := by simp only [set_indep hxy]
  inj v w w' h := (BitVec.xor_left_inj _).1 (rotr32_injective hc h)

/-! ## The rounds -/

/-- a mixing function changes one word after the other -/
theorem G_injective (m : Vector U32 16) (r : Fin 10) (i : Fin 8) {a b c d : Fin 16} (hab : a ≠ b) (hda : d ≠ a)
    (hcd : c ≠ d) (hbc : b ≠ c) : Function.Injective (G m r i a b c d) := by
  have ha := fun k => (addWord_mixes hab k).injective
  have hd := fun k (hk : k < 32) => (rot_mixes hda hk).injective
  have hc := (add_mixes hcd).injective
  have hb := fun k (hk : k < 32) => (rot_mixes hbc hk).injective
  have hfirst := (hb 12 (by decide)).comp (hc.comp ((hd 16 (by decide)).comp (ha m[blake2sSigma[r][2 * i.val + 0]])))
  have hsecond := (hb 7 (by decide)).comp (hc.comp ((hd 8 (by decide)).comp (ha m[blake2sSigma[r][2 * i.val + 1]])))
  exact hsecond.comp hfirst

/-- the columns and the diagonals of a round -/
theorem ROUND_injective (m : Vector U32 16) (r : Fin 10) : Function.Injective fun v => ROUND m v r := by
  have hG := fun i (a b c d : Fin 16) (h : a ≠ b ∧ d ≠ a ∧ c ≠ d ∧ b ≠ c) => G_injective m r i h.1 h.2.1 h.2.2.1 h.2.2.2
  have hcolumns := ((hG 3 3 7 11 15 (by decide)).comp (hG 2 2 6 10 14 (by decide))).comp
    ((hG 1 1 5 9 13 (by decide)).comp (hG 0 0 4 8 12 (by decide)))
  have hdiagonals := ((hG 7 3 4 9 14 (by decide)).comp (hG 6 2 7 8 13 (by decide))).comp
    ((hG 5 1 6 11 12 (by decide)).comp (hG 4 0 5 10 15 (by decide)))
  exact hdiagonals.comp hcolumns

theorem foldl_injective {α β : Type} {f : α → β → α} (h : ∀ b, Function.Injective fun a => f a b) (bs : List β) :
    Function.Injective fun a => bs.foldl f a := by
  induction bs with
  | nil => exact fun _ _ heq => heq
  | cons b bs ih => exact ih.comp (h b)

theorem rounds_injective (m : Vector U32 16) : Function.Injective (rounds m) :=
  foldl_injective (ROUND_injective m) _

theorem append_injective {α : Type} {m n : ℕ} {a a' : Vector α m} {b b' : Vector α n} (h : a ++ b = a' ++ b') :
    a = a' ∧ b = b' := by
  have hlist := congrArg Vector.toList h
  rw [Vector.toList_append, Vector.toList_append] at hlist
  obtain ⟨ha, hb⟩ := List.append_inj hlist (by rw [Vector.length_toList, Vector.length_toList])
  exact ⟨Vector.toList_inj.1 ha, Vector.toList_inj.1 hb⟩

/-- the words that a compression depends on -/
theorem workingVector_injective {S S' : State} (h : workingVector S = workingVector S') :
    S.h = S'.h ∧ S.t0 = S'.t0 ∧ S.t1 = S'.t1 ∧ S.f0 = S'.f0 ∧ S.f1 = S'.f1 := by
  obtain ⟨hh, hrest⟩ := append_injective h
  have hwords := congrArg Vector.toList hrest
  simp only [Vector.toList_mk, List.cons.injEq, BitVec.xor_left_inj, true_and, and_true] at hwords
  exact ⟨hh, hwords⟩

/-- every row of the table names every word of the message once -/
theorem sigma_bijective : ∀ r : Fin 10, Function.Bijective fun i : Fin 16 => (blake2sSigma.get r).get i := by
  decide

/-- **The rounds lose nothing.** For every block they permute the working vectors, each round mixes in every word of the
block once, and what comes out of them determines the chaining value, the counter and the flags that went in. -/
theorem rounds_lose_nothing :
    (∀ m, Function.Bijective (rounds m)) ∧ (∀ r : Fin 10, Function.Bijective fun i : Fin 16 => (blake2sSigma.get r).get i) ∧
      ∀ (S S' : State) (block : List U8),
        rounds (messageWords block) (workingVector S) = rounds (messageWords block) (workingVector S') →
          S.h = S'.h ∧ S.t0 = S'.t0 ∧ S.t1 = S'.t1 ∧ S.f0 = S'.f0 ∧ S.f1 = S'.f1 := by
  refine ⟨fun m => Finite.injective_iff_bijective.1 (rounds_injective m), sigma_bijective, fun S S' block h => ?_⟩
  exact workingVector_injective (rounds_injective _ h)

end LongFi.Blake2sRef
