/-
Calls of a C program: a calling convention for shallow embeddings.

A call works on a state σ (whatever its pointer arguments reach) and either returns a value or exits early. An early
exit is an error code, or a fault: a failing assertion or an access outside an object, after which the call never
returns. Every exit keeps the state reached so far, so what a failing call has already written stays visible.

- `Build` says whether assertions are compiled in; `check` is `assert` under a build.
- `load` and `store` are `memcpy` from and into an object given by its bytes; they fault outside it.
- `zoom` runs a call on one part of a larger state (a pointer to a member), `recode` maps its error codes (the
  usual early-return macros), `attempt` lets the caller look at the code itself, `onLocals` runs it on local variables.
- `bind_ok`, `bind_error` and the `zoom` rules step through a `do` block.
-/
import Mathlib.Tactic

namespace LongFi.Core

/-! ## Calls -/

/-- how the program was compiled: with its assertions, or with `NDEBUG` -/
inductive Build where
  | debug
  | release
deriving DecidableEq, Repr

/-- why a call does not return -/
inductive Fault where
  | assertion
  | outOfBounds
deriving DecidableEq, Repr

/-- why a call stops before its last statement -/
inductive Exit (ε : Type) where
  | code (e : ε)
  | fault (f : Fault)
deriving DecidableEq, Repr

/-- a call on state σ with result α and error codes ε -/
abbrev Call (ε σ α : Type) := EStateM (Exit ε) σ α

variable {ε ε' σ τ α β : Type}

/-- return early with an error code -/
def fail (e : ε) : Call ε σ α := throw (.code e)

/-- run a computation that may fault but touches no state -/
def lift : Except Fault α → Call ε σ α
  | .ok a => pure a
  | .error f => throw (.fault f)

/-- `assert(p)` under build B -/
def check (B : Build) (p : Prop) [Decidable p] : Except Fault Unit :=
  if B = .debug ∧ ¬p then .error .assertion else .ok ()

/-- the n bytes of object m from offset i on -/
def load (m : List β) (i n : ℕ) : Except Fault (List β) :=
  if i + n ≤ m.length then .ok ((m.drop i).take n) else .error .outOfBounds

/-- object m with bs written from offset i on -/
def splice (m : List β) (i : ℕ) (bs : List β) : List β := m.take i ++ bs ++ m.drop (i + bs.length)

/-- write bs into object m from offset i on -/
def store (m : List β) (i : ℕ) (bs : List β) : Except Fault (List β) :=
  if i + bs.length ≤ m.length then .ok (splice m i bs) else .error .outOfBounds

/-- run a call on the part of the state selected by `get` and written back by `put` -/
def zoom (get : τ → σ) (put : σ → τ → τ) (p : Call ε σ α) : Call ε τ α := fun t =>
  match p (get t) with
  | .ok a s => .ok a (put s t)
  | .error x s => .error x (put s t)

/-- rename the error codes of a call -/
def recode (f : ε → ε') (p : Call ε σ α) : Call ε' σ α := fun s =>
  match p s with
  | .ok a s' => .ok a s'
  | .error (.code e) s' => .error (.code (f e)) s'
  | .error (.fault x) s' => .error (.fault x) s'

/-- run a call and hand its return code to the caller instead of passing it on -/
def attempt (p : Call ε σ α) : Call ε' σ (Except ε α) := fun s =>
  match p s with
  | .ok a s' => .ok (.ok a) s'
  | .error (.code e) s' => .ok (.error e) s'
  | .error (.fault x) s' => .error (.fault x) s'

/-- return early with the code of a failed computation -/
def orFail : Except ε α → Call ε σ α
  | .ok a => pure a
  | .error e => fail e

/-- run a call on local variables that hold s; their final content is returned -/
def onLocals (s : σ) (p : Call ε σ α) : Call ε τ (α × σ) := fun t =>
  match p s with
  | .ok a s' => .ok (a, s') t
  | .error x _ => .error x t

/-- the state a call ends in, however it ends -/
def final : EStateM.Result (Exit ε) σ α → σ
  | .ok _ s => s
  | .error _ s => s

/-! ## Rules -/

theorem bind_ok {p : Call ε σ α} {k : α → Call ε σ β} {s t : σ} {a : α} (h : p s = .ok a t) :
    (p >>= k) s = k a t := by
  simp [bind, EStateM.bind, h]

theorem bind_error {p : Call ε σ α} {k : α → Call ε σ β} {s t : σ} {x : Exit ε} (h : p s = .error x t) :
    (p >>= k) s = .error x t := by
  simp [bind, EStateM.bind, h]

/-- a sequence that returns went through its first call -/
theorem of_bind_ok {p : Call ε σ α} {k : α → Call ε σ β} {s u : σ} {b : β} (h : (p >>= k) s = .ok b u) :
    ∃ a t, p s = .ok a t ∧ k a t = .ok b u := by
  cases hp : p s with
  | ok a t =>
    rw [bind_ok hp] at h
    exact ⟨a, t, rfl, h⟩
  | error x t =>
    rw [bind_error hp] at h
    cases h

@[simp] theorem pure_run (a : α) (s : σ) : (pure a : Call ε σ α) s = .ok a s := rfl

@[simp] theorem get_run (s : σ) : (get : Call ε σ σ) s = .ok s s := rfl

@[simp] theorem set_run (s t : σ) : (set t : Call ε σ PUnit) s = .ok ⟨⟩ t := rfl

@[simp] theorem modify_run (f : σ → σ) (s : σ) : (modify f : Call ε σ PUnit) s = .ok ⟨⟩ (f s) := rfl

@[simp] theorem fail_run (e : ε) (s : σ) : (fail e : Call ε σ α) s = .error (.code e) s := rfl

@[simp] theorem lift_ok (a : α) (s : σ) : (lift (.ok a) : Call ε σ α) s = .ok a s := rfl

@[simp] theorem lift_error (f : Fault) (s : σ) : (lift (.error f) : Call ε σ α) s = .error (.fault f) s := rfl

theorem check_of_true (B : Build) {p : Prop} [Decidable p] (h : p) : check B p = .ok () := by
  simp [check, h]

/-- compiled out, an assertion never fails -/
@[simp] theorem check_release (p : Prop) [Decidable p] : check .release p = .ok () := by
  simp [check]

theorem load_ok {m : List β} {i n : ℕ} (h : i + n ≤ m.length) : load m i n = .ok ((m.drop i).take n) := by
  simp [load, h]

/-- the front of an object -/
theorem load_front {m : List β} {n : ℕ} (h : n ≤ m.length) : load m 0 n = .ok (m.take n) := by
  rw [load_ok (by rwa [Nat.zero_add]), List.drop_zero]

theorem load_all {m : List β} {n : ℕ} (h : m.length = n) : load m 0 n = .ok m := by
  rw [load_front h.ge, List.take_of_length_le h.le]

theorem store_ok {m : List β} {i : ℕ} {bs : List β} (h : i + bs.length ≤ m.length) :
    store m i bs = .ok (splice m i bs) := by
  simp [store, h]

theorem zoom_ok {get : τ → σ} {put : σ → τ → τ} {p : Call ε σ α} {t : τ} {s : σ} {a : α}
    (h : p (get t) = .ok a s) : zoom get put p t = .ok a (put s t) := by
  simp [zoom, h]

theorem zoom_error {get : τ → σ} {put : σ → τ → τ} {p : Call ε σ α} {t : τ} {s : σ} {x : Exit ε}
    (h : p (get t) = .error x s) : zoom get put p t = .error x (put s t) := by
  simp [zoom, h]

theorem recode_ok {f : ε → ε'} {p : Call ε σ α} {s t : σ} {a : α} (h : p s = .ok a t) :
    recode f p s = .ok a t := by
  simp [recode, h]

theorem recode_code {f : ε → ε'} {p : Call ε σ α} {s t : σ} {e : ε} (h : p s = .error (.code e) t) :
    recode f p s = .error (.code (f e)) t := by
  simp [recode, h]

theorem attempt_ok {p : Call ε σ α} {s t : σ} {a : α} (h : p s = .ok a t) :
    (attempt p : Call ε' σ (Except ε α)) s = .ok (.ok a) t := by
  simp [attempt, h]

theorem attempt_code {p : Call ε σ α} {s t : σ} {e : ε} (h : p s = .error (.code e) t) :
    (attempt p : Call ε' σ (Except ε α)) s = .ok (.error e) t := by
  simp [attempt, h]

theorem attempt_fault {p : Call ε σ α} {s t : σ} {f : Fault} (h : p s = .error (.fault f) t) :
    (attempt p : Call ε' σ (Except ε α)) s = .error (.fault f) t := by
  simp [attempt, h]

@[simp] theorem orFail_ok (a : α) (s : σ) : (orFail (.ok a) : Call ε σ α) s = .ok a s := rfl

@[simp] theorem orFail_error (e : ε) (s : σ) : (orFail (.error e) : Call ε σ α) s = .error (.code e) s := rfl

theorem onLocals_ok {p : Call ε σ α} {s s' : σ} {a : α} (h : p s = .ok a s') (t : τ) :
    onLocals s p t = .ok (a, s') t := by
  simp [onLocals, h]

theorem onLocals_error {p : Call ε σ α} {s s' : σ} {x : Exit ε} (h : p s = .error x s') (t : τ) :
    (onLocals s p : Call ε τ (α × σ)) t = .error x t := by
  simp [onLocals, h]

/-! ## Writing into an object -/

theorem splice_length {m : List β} {i : ℕ} {bs : List β} (h : i + bs.length ≤ m.length) :
    (splice m i bs).length = m.length := by
  simp only [splice, List.length_append, List.length_take, List.length_drop]
  omega

/-- bytes outside the written range are unchanged -/
theorem splice_frame {m : List β} {i : ℕ} {bs : List β} (h : i + bs.length ≤ m.length) {j : ℕ}
    (hj : j < i ∨ i + bs.length ≤ j) : (splice m i bs)[j]? = m[j]? := by
  have hi : (m.take i).length = i := by simp; omega
  rcases hj with hj | hj
  · rw [splice, List.append_assoc, List.getElem?_append_left (by omega), List.getElem?_take_of_lt hj]
  · rw [splice, List.getElem?_append_right (by simp; omega), List.getElem?_drop]
    congr 1
    simp; omega

/-- the written range holds the bytes written -/
theorem splice_read {m : List β} {i : ℕ} {bs : List β} (h : i ≤ m.length) :
    ((splice m i bs).drop i).take bs.length = bs := by
  have hi : (m.take i).length = i := by simp; omega
  rw [splice, List.append_assoc, List.drop_left' hi, List.take_left' rfl]

/-- two adjacent writes are one write -/
theorem splice_splice {m : List β} {i : ℕ} {as bs : List β} (h : i + as.length ≤ m.length) :
    splice (splice m i as) (i + as.length) bs = splice m i (as ++ bs) := by
  have hi : (m.take i ++ as).length = i + as.length := by simp; omega
  rw [splice, splice, List.take_left' hi, ← hi, List.drop_length_add_append, List.drop_drop, hi, splice,
    List.length_append, ← Nat.add_assoc, List.append_assoc, List.append_assoc, List.append_assoc, List.append_assoc]

end LongFi.Core
