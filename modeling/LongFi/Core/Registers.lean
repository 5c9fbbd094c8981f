/-
Register files changed one register at a time.

A step replaces one entry of a vector by a function of its old value, and the other entries choose the function. If every
choice is injective, no two vectors are merged (`Mixes.injective`); a mixing function made of such steps is then a
permutation of the vectors over a finite type.
-/
import Mathlib.Tactic
import Mathlib.Data.Fintype.Pi

namespace LongFi.Core

variable {α : Type} {n : ℕ}

/-- φ gives an injective function of entry x, and does not depend on that entry -/
structure Mixes (x : Fin n) (φ : Vector α n → α → α) : Prop where
  indep : ∀ v w, φ (v.set x w) = φ v
  inj : ∀ v, Function.Injective (φ v)

/-- the step on entry x -/
def mixAt (x : Fin n) (φ : Vector α n → α → α) (v : Vector α n) : Vector α n := v.set x (φ v v[x])

theorem mixAt_ne (x : Fin n) (φ : Vector α n → α → α) (v : Vector α n) {i : ℕ} (hi : i < n) (hx : x.val ≠ i) :
    (mixAt x φ v)[i] = v[i] := Vector.getElem_set_ne _ _ hx

theorem mixAt_self (x : Fin n) (φ : Vector α n → α → α) (v : Vector α n) : (mixAt x φ v)[x] = φ v v[x] :=
  Vector.getElem_set_self _

theorem Mixes.injective {x : Fin n} {φ : Vector α n → α → α} (h : Mixes x φ) : Function.Injective (mixAt x φ) := by
  intro v v' heq
  -- the vectors agree outside x, so the same function was applied at x
  have hv' : v' = v.set x v'[x] := by
    apply Vector.ext
    intro i hi
    by_cases hx : x.val = i
    · subst hx
      rw [Vector.getElem_set_self]
      rfl
    · rw [Vector.getElem_set_ne _ _ hx, ← mixAt_ne x φ v hi hx, heq, mixAt_ne x φ v' hi hx]
  have hφ : φ v' = φ v := by rw [hv', h.indep]
  have hx : φ v v[x] = φ v v'[x] := by
    rw [← mixAt_self x φ v, heq, mixAt_self, hφ]
  rw [hv', ← h.inj v hx]
  exact (Vector.set_getElem_self _).symm

instance vector_finite [Finite α] : Finite (Vector α n) :=
  Finite.of_injective (fun (v : Vector α n) (i : Fin n) => v[i]) fun _ _ h =>
    Vector.ext fun i hi => congrFun h ⟨i, hi⟩

end LongFi.Core
