/-
Syndrome decoding of a binary code of rate one half with an involutive parity map and minimum weight 8.

Words are pairs (a, b) of check part and message part over a group V of exponent 2 with a weight. A word is a codeword
when a = par b, its syndrome is a + par b. The decoder (`estimate`) looks for an error pattern in four places: in the
check part alone, one unit of the message part plus few checks, in the message part alone, one unit of the check part
plus few message bits. It needs a search for a unit whose parity row is within weight 2 of a given vector.

- `estimate_eq_some`: the decoder returns (a, b) iff (a, b) has weight at most 3 and the given syndrome; so it corrects
  every pattern of at most three errors and returns nothing else.
- `estimate_eq_none`: it fails iff the word is at distance 4 or more from every codeword.
- `near_unique`: a word has at most one codeword within distance 3.
- `far_of_weight_four`: four errors never bring a codeword within distance 3 of a codeword.
-/
import Mathlib.Tactic

namespace LongFi.Core

/-- a group of exponent 2 with a weight, units, and an involutive parity map of minimum weight 8 -/
structure HalfRate (V ι : Type) [AddCommGroup V] where
  wt : V → ℕ
  unit : ι → V
  par : V →+ V
  add_self : ∀ x : V, x + x = 0
  wt_add_le : ∀ x y, wt (x + y) ≤ wt x + wt y
  wt_eq_zero : ∀ {x}, wt x = 0 ↔ x = 0
  wt_unit : ∀ i, wt (unit i) = 1
  exists_unit : ∀ {x}, wt x = 1 → ∃ i, x = unit i
  par_par : ∀ x, par (par x) = x
  min_weight : ∀ x, x ≠ 0 → 8 ≤ wt x + wt (par x)

namespace HalfRate

variable {V ι : Type} [AddCommGroup V] (C : HalfRate V ι)

/-- the syndrome of a word -/
def syn (a b : V) : V := a + C.par b

/-- a search for a unit whose parity row is within weight 2 of v -/
structure Finds (find : V → Option ι) : Prop where
  found : ∀ {v i}, find v = some i → C.wt (v + C.par (C.unit i)) ≤ 2
  missing : ∀ {v}, find v = none → ∀ i, 2 < C.wt (v + C.par (C.unit i))

/-- the estimated error pattern for syndrome s -/
def estimate (find : V → Option ι) (s : V) : Option (V × V) :=
  if C.wt s ≤ 3 then some (s, 0)
  else match find s with
    | some i => some (s + C.par (C.unit i), C.unit i)
    | none =>
      if C.wt (C.par s) = 2 ∨ C.wt (C.par s) = 3 then some (0, C.par s)
      else (find (C.par s)).map fun i => (C.unit i, C.par s + C.par (C.unit i))

include C in
theorem add_add_self (x y : V) : x + y + y = x := by rw [add_assoc, C.add_self, add_zero]

theorem wt_zero : C.wt 0 = 0 := C.wt_eq_zero.2 rfl

/-- adding a codeword does not change the syndrome -/
theorem syn_add_codeword (a b m : V) : C.syn (a + C.par m) (b + m) = C.syn a b := by
  rw [syn, syn, map_add, add_assoc, ← add_assoc (C.par m), add_comm (C.par m), C.add_add_self]

/-- two words with the same syndrome and at most three errors each are equal -/
theorem near_unique {a b a' b' : V} (h : C.wt a + C.wt b ≤ 3) (h' : C.wt a' + C.wt b' ≤ 3)
    (hs : C.syn a b = C.syn a' b') : a = a' ∧ b = b' := by
  have hpar : C.par (b + b') = a + a' := by
    rw [map_add]
    calc C.par b + C.par b' = (a + C.par b) + C.par b' + a := by
          rw [add_comm a, add_right_comm _ a, add_assoc _ a, C.add_self, add_zero]
      _ = (a' + C.par b') + C.par b' + a := by rw [show a + C.par b = _ from hs]; rfl
      _ = a + a' := by rw [C.add_add_self, add_comm]
  have hb : b + b' = 0 := by
    by_contra hne
    have h8 := C.min_weight _ hne
    have h1 := C.wt_add_le b b'
    have h2 := C.wt_add_le a a'
    rw [hpar] at h8
    omega
  have ha : a + a' = 0 := by rw [← hpar, hb, map_zero]
  have eq_of_add : ∀ {x y : V}, x + y = 0 → x = y := fun {x y} hxy => by
    rw [← C.add_add_self x y, hxy, zero_add]
  exact ⟨eq_of_add ha, eq_of_add hb⟩

/-- a pattern of weight 4 leaves a codeword at distance 4 or more from every codeword -/
theorem far_of_weight_four {a b : V} (h : C.wt a + C.wt b = 4) (m : V) : 4 ≤ C.wt (a + C.par m) + C.wt (b + m) := by
  by_cases hm : m = 0
  · rw [hm, map_zero, add_zero, add_zero, h]
  · have h8 := C.min_weight m hm
    have h1 := C.wt_add_le (b + m) b
    have h2 := C.wt_add_le (a + C.par m) a
    rw [add_comm b, C.add_add_self] at h1
    rw [add_comm a, C.add_add_self] at h2
    rw [add_comm a, add_comm b]
    omega

section Decoder

variable {find : V → Option ι} (hf : C.Finds find)
include hf

theorem estimate_sound {s a b : V} (h : C.estimate find s = some (a, b)) : C.wt a + C.wt b ≤ 3 ∧ C.syn a b = s := by
  unfold estimate at h
  by_cases h3 : C.wt s ≤ 3
  · rw [if_pos h3] at h
    obtain ⟨rfl, rfl⟩ := Prod.mk.inj (Option.some.inj h)
    exact ⟨by rw [C.wt_zero]; omega, by rw [syn, map_zero, add_zero]⟩
  · rw [if_neg h3] at h
    cases hs : find s with
    | some i =>
      rw [hs] at h
      obtain ⟨rfl, rfl⟩ := Prod.mk.inj (Option.some.inj h)
      have := hf.found hs
      have := C.wt_unit i
      exact ⟨by omega, C.add_add_self s _⟩
    | none =>
      rw [hs] at h
      by_cases h23 : C.wt (C.par s) = 2 ∨ C.wt (C.par s) = 3
      · simp only [if_pos h23] at h
        obtain ⟨rfl, rfl⟩ := Prod.mk.inj (Option.some.inj h)
        exact ⟨by rw [C.wt_zero]; omega, by rw [syn, zero_add, C.par_par]⟩
      · simp only [if_neg h23] at h
        obtain ⟨i, hi, he⟩ := Option.map_eq_some_iff.1 h
        obtain ⟨rfl, rfl⟩ := Prod.mk.inj he
        have := hf.found hi
        have := C.wt_unit i
        refine ⟨by omega, ?_⟩
        rw [syn, map_add, C.par_par, C.par_par, add_comm, C.add_add_self]

/-- a pattern of at most three errors is in one of the four places the decoder looks -/
theorem estimate_isSome {a b : V} (h : C.wt a + C.wt b ≤ 3) : C.estimate find (C.syn a b) ≠ none := by
  intro hn
  unfold estimate at hn
  have h3 : ¬C.wt (C.syn a b) ≤ 3 := fun h3 => by simp [h3] at hn
  rw [if_neg h3] at hn
  cases hs : find (C.syn a b) with
  | some i => simp [hs] at hn
  | none =>
    have h23 : ¬(C.wt (C.par (C.syn a b)) = 2 ∨ C.wt (C.par (C.syn a b)) = 3) := fun h23 => by simp [hs, h23] at hn
    simp only [hs, if_neg h23] at hn
    have hs' := Option.map_eq_none_iff.1 hn
    have hb0 : C.wt b ≠ 0 := fun h0 => by
      rw [syn, C.wt_eq_zero.1 h0, map_zero, add_zero] at h3
      omega
    have hb1 : C.wt b ≠ 1 := fun h1 => by
      obtain ⟨i, rfl⟩ := C.exists_unit h1
      have := hf.missing hs i
      rw [syn, C.add_add_self] at this
      omega
    have hpar : C.par (C.syn a b) = C.par a + b := by rw [syn, map_add, C.par_par]
    have ha0 : C.wt a ≠ 0 := fun h0 => by
      rw [hpar, C.wt_eq_zero.1 h0, map_zero, zero_add] at h23
      omega
    obtain ⟨i, rfl⟩ := C.exists_unit (show C.wt a = 1 by omega)
    have := hf.missing hs' i
    rw [hpar, add_comm (C.par _), C.add_add_self] at this
    omega

/-- **The decoder is exact**: it returns the pattern of weight at most 3 with the given syndrome, if there is one. -/
theorem estimate_eq_some {s a b : V} :
    C.estimate find s = some (a, b) ↔ C.wt a + C.wt b ≤ 3 ∧ C.syn a b = s := by
  refine ⟨C.estimate_sound hf, fun ⟨hw, hs⟩ => ?_⟩
  subst hs
  obtain ⟨⟨a', b'⟩, he⟩ := Option.ne_none_iff_exists'.1 (C.estimate_isSome hf hw)
  obtain ⟨hw', hs'⟩ := C.estimate_sound hf he
  obtain ⟨rfl, rfl⟩ := C.near_unique hw' hw hs'
  exact he

/-- the decoder fails exactly on the words at distance 4 or more from every codeword -/
theorem estimate_eq_none {a b : V} :
    C.estimate find (C.syn a b) = none ↔ ∀ m, 4 ≤ C.wt (a + C.par m) + C.wt (b + m) := by
  constructor
  · intro h m
    by_contra hlt
    exact C.estimate_isSome hf (show C.wt (a + C.par m) + C.wt (b + m) ≤ 3 by omega) (C.syn_add_codeword a b m ▸ h)
  · intro h
    by_contra hne
    obtain ⟨⟨e, f⟩, he⟩ := Option.ne_none_iff_exists'.1 hne
    obtain ⟨hw, hs⟩ := C.estimate_sound hf he
    have hm := h (b + f)
    have h1 : a + C.par (b + f) = e := by
      rw [map_add, ← add_assoc, show a + C.par b = C.syn a b from rfl, ← hs, syn, C.add_add_self]
    rw [h1, ← add_assoc, C.add_self, zero_add] at hm
    omega

end Decoder

end HalfRate

end LongFi.Core
