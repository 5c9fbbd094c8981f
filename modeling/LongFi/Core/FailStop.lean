/-
A program with its assertions, and the same program without them.

`FailStop p q`: from every state p does what q does, or stops at a failing assertion. Everything that calls are made of
keeps the relation, so between two builds of one function it follows the text of the function down to its `check`s.

- `FailStop.bind`, `FailStop.check` and the rules for `zoom`, `attempt`, `onLocals`: one for each way to make a call.
- `FailStop.ok`, `FailStop.code`: every regular outcome of p is the outcome of q.
-/
import LongFi.Core.Call

namespace LongFi.Core

variable {ε ε' σ τ α β : Type}

/-! ## Computations that touch no state -/

/-- x is y, or an assertion of x fails -/
def Asserts (x y : Except Fault α) : Prop := x = y ∨ x = .error .assertion

theorem Asserts.refl (x : Except Fault α) : Asserts x x := Or.inl rfl

theorem Asserts.bind {x y : Except Fault α} {k l : α → Except Fault β} (h : Asserts x y) (hk : ∀ a, Asserts (k a) (l a)) :
    Asserts (x >>= k) (y >>= l) := by
  rcases h with rfl | rfl
  · cases x with
    | error f => exact Or.inl rfl
    | ok a => exact hk a
  · exact Or.inr rfl

/-- an assertion that is compiled out does nothing -/
theorem check_asserts (B : Build) (p : Prop) [Decidable p] : Asserts (check B p) (check .release p) := by
  rw [check_release]
  by_cases h : B = .debug ∧ ¬p
  · exact Or.inr (if_pos h)
  · exact Or.inl (if_neg h)

/-! ## Calls -/

/-- the call stops at a failing assertion -/
def Stops (r : EStateM.Result (Exit ε) σ α) : Prop := ∃ t, r = .error (.fault .assertion) t

def FailStop (p q : Call ε σ α) : Prop := ∀ s, p s = q s ∨ Stops (p s)

theorem FailStop.refl (p : Call ε σ α) : FailStop p p := fun _ => Or.inl rfl

/-- what p returns, q returns -/
theorem FailStop.ok {p q : Call ε σ α} (h : FailStop p q) {s t : σ} {a : α} (hp : p s = .ok a t) : q s = .ok a t := by
  rcases h s with heq | ⟨u, hstop⟩
  · exact heq.symm.trans hp
  · rw [hp] at hstop
    cases hstop

theorem FailStop.code {p q : Call ε σ α} (h : FailStop p q) {s t : σ} {e : ε} (hp : p s = .error (.code e) t) :
    q s = .error (.code e) t := by
  rcases h s with heq | ⟨u, hstop⟩
  · exact heq.symm.trans hp
  · rw [hp] at hstop
    cases hstop

theorem FailStop.bind {p q : Call ε σ α} {k l : α → Call ε σ β} (h : FailStop p q) (hk : ∀ a, FailStop (k a) (l a)) :
    FailStop (p >>= k) (q >>= l) := by
  intro s
  rcases h s with heq | ⟨t, hstop⟩
  · cases hq : q s with
    | ok a t =>
      rw [bind_ok (heq.trans hq), bind_ok hq]
      exact hk a t
    | error x t => exact Or.inl (by rw [bind_error (heq.trans hq), bind_error hq])
  · exact Or.inr ⟨t, bind_error hstop⟩

theorem FailStop.lift {x y : Except Fault α} (h : Asserts x y) : FailStop (lift x : Call ε σ α) (lift y) := by
  intro s
  rcases h with rfl | rfl
  · exact Or.inl rfl
  · exact Or.inr ⟨s, rfl⟩

/-- a call without assertions of its own comes first -/
theorem FailStop.after {p : Call ε σ α} {k l : α → Call ε σ β} (hk : ∀ a, FailStop (k a) (l a)) :
    FailStop (p >>= k) (p >>= l) :=
  (FailStop.refl p).bind hk

theorem FailStop.check (B : Build) (p : Prop) [Decidable p] :
    FailStop (Core.lift (Core.check B p) : Call ε σ Unit) (Core.lift (Core.check .release p)) :=
  .lift (check_asserts B p)

theorem FailStop.zoom {get : τ → σ} {put : σ → τ → τ} {p q : Call ε σ α} (h : FailStop p q) :
    FailStop (zoom get put p) (zoom get put q) := by
  intro t
  rcases h (get t) with heq | ⟨s, hstop⟩
  · exact Or.inl (by rw [Core.zoom, Core.zoom, heq])
  · exact Or.inr ⟨put s t, zoom_error hstop⟩

theorem FailStop.attempt {p q : Call ε σ α} (h : FailStop p q) :
    FailStop (attempt p : Call ε' σ (Except ε α)) (attempt q) := by
  intro s
  rcases h s with heq | ⟨t, hstop⟩
  · exact Or.inl (by rw [Core.attempt, Core.attempt, heq])
  · exact Or.inr ⟨t, attempt_fault hstop⟩

theorem FailStop.onLocals (s : σ) {p q : Call ε σ α} (h : FailStop p q) :
    FailStop (onLocals s p : Call ε τ (α × σ)) (onLocals s q) := by
  intro t
  rcases h s with heq | ⟨s', hstop⟩
  · exact Or.inl (by rw [Core.onLocals, Core.onLocals, heq])
  · exact Or.inr ⟨t, onLocals_error hstop t⟩

theorem FailStop.ite {c : Prop} [Decidable c] {p p' q q' : Call ε σ α} (hp : FailStop p p') (hq : FailStop q q') :
    FailStop (if c then p else q) (if c then p' else q') := by
  by_cases h : c
  · rw [if_pos h, if_pos h]
    exact hp
  · rw [if_neg h, if_neg h]
    exact hq

end LongFi.Core
