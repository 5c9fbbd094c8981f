/-
How the light error patterns of an extended Golay code cover its syndromes.

A binary code of length 24 with 2^12 syndromes, minimum weight 8 and even weights is given by its syndrome map. Patterns
of weight at most 3 have different syndromes (`light_inj`), and there are as many patterns of weight 1 or 3 as odd
syndromes, so these cover all of them (`odd_covered`). An even syndrome that no pattern of weight 0 or 2 has is had by
patterns of weight 4. Two of them have disjoint supports, so there are at most six (`tetrads_le`), and counting shows that
there are exactly six (`card_tetrads`) and that 1771 syndromes are such (`card_deep`).
-/
import Mathlib.Algebra.Order.BigOperators.Group.Finset
import LongFi.Core.SelfDualCode

namespace LongFi.Core

open Finset

instance bitFintype : Fintype (ZMod 2) := inferInstanceAs (Fintype (Fin 2))

/-! ## Patterns by weight -/

section Patterns

variable {κ : Type}

theorem add_self_pattern (e : κ → ZMod 2) : e + e = 0 := funext fun i => CharTwo.add_self_eq_zero (e i)

variable [Fintype κ]

/-- the places where a pattern is not 0 -/
def support (e : κ → ZMod 2) : Finset κ := univ.filter fun i => e i ≠ 0

/-- patterns of weight 4 at distance 8 or more have disjoint supports -/
theorem disjoint_support {e f : κ → ZMod 2} (he : hammingNorm e = 4) (hf : hammingNorm f = 4)
    (hef : 8 ≤ hammingNorm (e + f)) : Disjoint (support e) (support f) := by
  have hsum := hammingNorm_add e f
  have hzero : hammingNorm (e * f) = 0 := by omega
  rw [disjoint_left]
  intro i hi hj
  have hei : e i ≠ 0 := (mem_filter.1 hi).2
  have hfi : f i ≠ 0 := (mem_filter.1 hj).2
  have hprod : (e * f) i = 0 := by rw [hammingNorm_eq_zero.1 hzero, Pi.zero_apply]
  exact mul_ne_zero hei hfi hprod

theorem hammingNorm_elim {κ' : Type} [Fintype κ'] (a : κ → ZMod 2) (b : κ' → ZMod 2) :
    hammingNorm (Sum.elim a b) = hammingNorm a + hammingNorm b := by
  simp only [hammingNorm, card_filter]
  exact Fintype.sum_sum_type _

variable [DecidableEq κ]

theorem support_injective : Function.Injective (support : (κ → ZMod 2) → Finset κ) := by
  intro e f h
  rw [eq_sum_single e, eq_sum_single f]
  exact congrArg (fun S => ∑ i ∈ S, Pi.single i (1 : ZMod 2)) h

theorem exists_support (S : Finset κ) : ∃ e : κ → ZMod 2, support e = S := by
  refine ⟨fun i => if i ∈ S then 1 else 0, ?_⟩
  ext i
  by_cases h : i ∈ S <;> simp [support, h]

variable (κ) in
/-- the patterns of weight k -/
def sphere (k : ℕ) : Finset (κ → ZMod 2) := univ.filter fun e => hammingNorm e = k

theorem mem_sphere {e : κ → ZMod 2} {k : ℕ} : e ∈ sphere κ k ↔ hammingNorm e = k := by
  simp [sphere]

theorem card_sphere (k : ℕ) : (sphere κ k).card = (Fintype.card κ).choose k := by
  rw [← card_univ, ← card_powersetCard]
  apply card_bij fun e _ => support e
  · intro e he
    rw [mem_powersetCard]
    exact ⟨subset_univ _, mem_sphere.1 he⟩
  · intro e _ f _ h
    exact support_injective h
  · intro S hS
    obtain ⟨e, rfl⟩ := exists_support S
    exact ⟨e, mem_sphere.2 (mem_powersetCard.1 hS).2, rfl⟩

/-- the patterns of weight at most r -/
theorem card_ball (r : ℕ) : (univ.filter fun e : κ → ZMod 2 => hammingNorm e ≤ r).card =
    ∑ k ∈ range (r + 1), (Fintype.card κ).choose k := by
  rw [card_eq_sum_card_fiberwise (f := hammingNorm) (t := range (r + 1))]
  · refine sum_congr rfl fun k hk => ?_
    rw [← card_sphere, filter_filter]
    congr 1
    ext e
    have hle : k ≤ r := Nat.lt_succ_iff.1 (mem_range.1 hk)
    simp only [mem_filter, mem_univ, true_and, mem_sphere]
    exact ⟨fun h => h.2, fun h => ⟨h.trans_le hle, h⟩⟩
  · intro e he
    exact mem_range.2 (Nat.lt_succ_of_le (mem_filter.1 he).2)

theorem disjoint_spheres {j k : ℕ} (h : j ≠ k) : Disjoint (sphere κ j) (sphere κ k) := by
  rw [disjoint_left]
  intro e hj hk
  exact h ((mem_sphere.1 hj).symm.trans (mem_sphere.1 hk))

/-- the patterns of one parity, by weight -/
theorem card_parity (a : ZMod 2) : (univ.filter fun e : κ → ZMod 2 => (hammingNorm e : ZMod 2) = a).card =
    ∑ k ∈ (range (Fintype.card κ + 1)).filter (fun k : ℕ => (k : ZMod 2) = a), (Fintype.card κ).choose k := by
  rw [card_eq_sum_card_fiberwise (f := hammingNorm)
    (t := (range (Fintype.card κ + 1)).filter fun k : ℕ => (k : ZMod 2) = a)]
  · refine sum_congr rfl fun k hk => ?_
    rw [← card_sphere, filter_filter]
    congr 1
    ext e
    have hk' := (mem_filter.1 hk).2
    simp only [mem_filter, mem_univ, true_and, mem_sphere]
    exact ⟨fun h => h.2, fun h => ⟨by rw [h, hk'], h⟩⟩
  · intro e he
    have hle : hammingNorm e ≤ Fintype.card κ := hammingNorm_le_card_fintype
    exact mem_filter.2 ⟨mem_range.2 (Nat.lt_succ_of_le hle), (mem_filter.1 he).2⟩

end Patterns

/-! ## The code -/

/-- the syndrome map of a code of length 24 with 2^12 syndromes, minimum weight 8 and even weights -/
structure Golay24 (κ S : Type) [Fintype κ] [AddCommGroup S] [Fintype S] where
  syn : (κ → ZMod 2) →+ S
  /-- the parity of a syndrome -/
  par : S → ZMod 2
  length : Fintype.card κ = 24
  min_weight : ∀ e, syn e = 0 → e ≠ 0 → 8 ≤ hammingNorm e
  par_syn : ∀ e, par (syn e) = hammingNorm e
  card_odd : (univ.filter fun s => par s = 1).card = 2048
  card_even : (univ.filter fun s => par s = 0).card = 2048

namespace Golay24

variable {κ S : Type} [Fintype κ] [AddCommGroup S] [Fintype S] (C : Golay24 κ S)

/-- patterns with the same syndrome are equal, or differ in at least 8 places -/
theorem eq_or_far {e f : κ → ZMod 2} (h : C.syn e = C.syn f) : e = f ∨ 8 ≤ hammingNorm (e + f) := by
  by_cases hef : e + f = 0
  · refine Or.inl ?_
    rw [← add_zero e, ← add_self_pattern f, ← add_assoc, hef, zero_add]
  · have hsyn : C.syn (e + f) = 0 := by
      rw [map_add, ← h, ← map_add, add_self_pattern, map_zero]
    exact Or.inr (C.min_weight _ hsyn hef)

theorem light_inj {e f : κ → ZMod 2} (he : hammingNorm e ≤ 3) (hf : hammingNorm f ≤ 4) (h : C.syn e = C.syn f) : e = f := by
  rcases C.eq_or_far h with hef | hfar
  · exact hef
  · have hle := hammingNorm_add_le e f
    omega

variable [DecidableEq κ] [DecidableEq S]

/-- **Odd syndromes** are those of one error or of three. -/
theorem odd_covered {s : S} (hs : C.par s = 1) : ∃ e, (hammingNorm e = 1 ∨ hammingNorm e = 3) ∧ C.syn e = s := by
  have hcard : (sphere κ 1 ∪ sphere κ 3).card = 2048 := by
    rw [card_union_of_disjoint (disjoint_spheres (by decide)), card_sphere, card_sphere, C.length]
    decide
  have hmem : ∀ e ∈ sphere κ 1 ∪ sphere κ 3, hammingNorm e = 1 ∨ hammingNorm e = 3 := fun e he =>
    (mem_union.1 he).imp mem_sphere.1 mem_sphere.1
  have hinj : Set.InjOn C.syn (sphere κ 1 ∪ sphere κ 3 : Finset (κ → ZMod 2)) := by
    intro e he f hf h
    have h1 := hmem e (mem_coe.1 he)
    have h2 := hmem f (mem_coe.1 hf)
    exact C.light_inj (by omega) (by omega) h
  have hsub : (sphere κ 1 ∪ sphere κ 3).image C.syn ⊆ univ.filter fun s => C.par s = 1 := by
    intro t ht
    obtain ⟨e, he, rfl⟩ := mem_image.1 ht
    rw [mem_filter, C.par_syn]
    refine ⟨mem_univ _, ?_⟩
    rcases hmem e he with h | h
    · rw [h]
      rfl
    · rw [h]
      rfl
  have hall := eq_of_subset_of_card_le hsub (by rw [card_image_of_injOn hinj, hcard, C.card_odd])
  have hs' : s ∈ (sphere κ 1 ∪ sphere κ 3).image C.syn := by
    rw [hall, mem_filter]
    exact ⟨mem_univ _, hs⟩
  obtain ⟨e, he, hsyn⟩ := mem_image.1 hs'
  exact ⟨e, hmem e he, hsyn⟩

/-- the syndromes of no error and of two -/
def shallow : Finset S := (sphere κ 0 ∪ sphere κ 2).image C.syn

/-- the other even syndromes -/
def deep : Finset S := (univ.filter fun s => C.par s = 0) \ C.shallow

theorem mem_deep {s : S} : s ∈ C.deep ↔ C.par s = 0 ∧ s ∉ C.shallow := by
  rw [deep, mem_sdiff, mem_filter, and_iff_right (mem_univ s)]

theorem mem_shallow {s : S} : s ∈ C.shallow ↔ ∃ e, (hammingNorm e = 0 ∨ hammingNorm e = 2) ∧ C.syn e = s := by
  simp only [shallow, mem_image, mem_union, mem_sphere]

theorem par_shallow {s : S} (h : s ∈ C.shallow) : C.par s = 0 := by
  obtain ⟨e, he, rfl⟩ := C.mem_shallow.1 h
  rw [C.par_syn]
  rcases he with h | h
  · rw [h]
    rfl
  · rw [h]
    rfl

theorem card_deep : C.deep.card = 1771 := by
  have hcard : C.shallow.card = 277 := by
    have hinj : Set.InjOn C.syn (sphere κ 0 ∪ sphere κ 2 : Finset (κ → ZMod 2)) := by
      intro e he f hf h
      have h1 := (mem_union.1 (mem_coe.1 he)).imp mem_sphere.1 mem_sphere.1
      have h2 := (mem_union.1 (mem_coe.1 hf)).imp mem_sphere.1 mem_sphere.1
      exact C.light_inj (by omega) (by omega) h
    rw [shallow, card_image_of_injOn hinj, card_union_of_disjoint (disjoint_spheres (by decide)), card_sphere,
      card_sphere, C.length]
    decide
  have hsub : C.shallow ⊆ univ.filter fun s => C.par s = 0 := fun s hs =>
    mem_filter.2 ⟨mem_univ _, C.par_shallow hs⟩
  rw [deep, card_sdiff_of_subset hsub, C.card_even, hcard]

/-- a pattern with a deep syndrome has weight at least 4 -/
theorem four_le_of_deep {s : S} (hs : s ∈ C.deep) {e : κ → ZMod 2} (he : C.syn e = s) : 4 ≤ hammingNorm e := by
  obtain ⟨hpar, hno⟩ := C.mem_deep.1 hs
  rw [← he, C.par_syn, ZMod.natCast_eq_zero_iff_even] at hpar
  by_contra hlt
  refine hno (C.mem_shallow.2 ⟨e, ?_, he⟩)
  obtain ⟨k, hk⟩ := hpar
  omega

/-- the patterns of weight 4 with syndrome s -/
def tetrads (s : S) : Finset (κ → ZMod 2) := (sphere κ 4).filter fun e => C.syn e = s

theorem mem_tetrads {s : S} {e : κ → ZMod 2} : e ∈ C.tetrads s ↔ hammingNorm e = 4 ∧ C.syn e = s := by
  rw [tetrads, mem_filter, mem_sphere]

theorem tetrads_le (s : S) : (C.tetrads s).card ≤ 6 := by
  have hdisj : ∀ e ∈ C.tetrads s, ∀ f ∈ C.tetrads s, e ≠ f → Disjoint (support e) (support f) := by
    intro e he f hf hne
    obtain ⟨hwe, hse⟩ := C.mem_tetrads.1 he
    obtain ⟨hwf, hsf⟩ := C.mem_tetrads.1 hf
    exact disjoint_support hwe hwf ((C.eq_or_far (hse.trans hsf.symm)).resolve_left hne)
  have hcard : ((C.tetrads s).biUnion support).card = (C.tetrads s).card * 4 := by
    rw [card_biUnion hdisj, sum_const_nat]
    exact fun e he => (C.mem_tetrads.1 he).1
  have hle : ((C.tetrads s).biUnion support).card ≤ 24 := by
    rw [← C.length]
    exact card_le_univ _
  omega

theorem syn_tetrad_deep {e : κ → ZMod 2} (he : e ∈ sphere κ 4) : C.syn e ∈ C.deep := by
  have hw : hammingNorm e = 4 := mem_sphere.1 he
  refine C.mem_deep.2 ⟨by rw [C.par_syn, hw]; rfl, fun hmem => ?_⟩
  obtain ⟨f, hf, hsyn⟩ := C.mem_shallow.1 hmem
  have heq := C.light_inj (by omega) hw.le hsyn
  rw [heq] at hf
  omega

/-- **Deep syndromes** are those of exactly six patterns of weight 4. -/
theorem card_tetrads {s : S} (hs : s ∈ C.deep) : (C.tetrads s).card = 6 := by
  have hsum : ∑ s ∈ C.deep, (C.tetrads s).card = ∑ _s ∈ C.deep, 6 := by
    rw [sum_const, C.card_deep]
    calc ∑ s ∈ C.deep, (C.tetrads s).card = (sphere κ 4).card :=
          (card_eq_sum_card_fiberwise fun e he => C.syn_tetrad_deep he).symm
      _ = 1771 • 6 := by
          rw [card_sphere, C.length]
          decide
  exact (sum_eq_sum_iff_of_le fun s _ => C.tetrads_le s).1 hsum s hs

-- these are sets of thousands of elements, which no unification should compute
attribute [irreducible] shallow deep tetrads

end Golay24

end LongFi.Core
