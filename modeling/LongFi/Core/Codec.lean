/-
Prefix codecs over an arbitrary alphabet.

A codec writes a value as a word and reads a value off the front of a word, leaving the rest. Three laws are fields, so
a codec that breaks one cannot be built:
- `decode_encode`: reading what was written gives the value and leaves exactly what followed it;
- `decode_local`: what is read depends only on the symbols consumed;
- `encode_short`: no accepted spelling of a value is shorter than the written one (the writer is minimal).
The laws are closed under sequencing (`seq`), change of representation (`iso`) and repetition (`rep`), so the laws of
a record format follow from those of its fields.

- `decode_truncated`: no proper prefix of a written word is accepted.
- `decode_suffix`: the rest is a suffix of the input.
-/
import Mathlib.Tactic

namespace LongFi.Core

structure Codec (σ α : Type) where
  encode : α → List σ
  decode : List σ → Option (α × List σ)
  decode_encode : ∀ a r, decode (encode a ++ r) = some (a, r)
  decode_local : ∀ {x a r}, decode x = some (a, r) → ∃ c, x = c ++ r ∧ ∀ r', decode (c ++ r') = some (a, r')
  encode_short : ∀ {x a r}, decode x = some (a, r) → (encode a).length + r.length ≤ x.length

namespace Codec

variable {σ α β : Type}

/-! ## Consequences of the laws -/

theorem decode_suffix (C : Codec σ α) {x r : List σ} {a : α} (h : C.decode x = some (a, r)) : r <:+ x := by
  obtain ⟨c, rfl, -⟩ := C.decode_local h
  exact List.suffix_append c r

/-- a written word that lost its end is not read -/
theorem decode_truncated (C : Codec σ α) {a : α} {x s : List σ} (h : C.encode a = x ++ s) (hs : s ≠ []) :
    C.decode x = none := by
  cases hd : C.decode x with
  | none => rfl
  | some p =>
    obtain ⟨a', r⟩ := p
    obtain ⟨c, rfl, hc⟩ := C.decode_local hd
    -- what was read from x is read from the whole word, so nothing can follow it there
    have hfull := C.decode_encode a []
    rw [List.append_nil, h, List.append_assoc, hc] at hfull
    have hnil := (Prod.mk.inj (Option.some.inj hfull)).2
    exact absurd (List.append_eq_nil_iff.1 hnil).2 hs

/-! ## Sequencing -/

/-- the decoder of two fields in a row -/
def seqDecode (C : Codec σ α) (D : Codec σ β) (x : List σ) : Option ((α × β) × List σ) :=
  (C.decode x).bind fun p => (D.decode p.2).map fun q => ((p.1, q.1), q.2)

theorem seqDecode_some {C : Codec σ α} {D : Codec σ β} {x r : List σ} {p : α × β} :
    seqDecode C D x = some (p, r) ↔ ∃ y, C.decode x = some (p.1, y) ∧ D.decode y = some (p.2, r) := by
  obtain ⟨a, b⟩ := p
  simp only [seqDecode, Option.bind_eq_some_iff, Option.map_eq_some_iff, Prod.exists, Prod.mk.injEq]
  constructor
  · rintro ⟨a', y, hC, b', r', hD, ⟨rfl, rfl⟩, rfl⟩
    exact ⟨y, hC, hD⟩
  · rintro ⟨y, hC, hD⟩
    exact ⟨a, y, hC, b, r, hD, ⟨rfl, rfl⟩, rfl⟩

/-- one field after the other -/
def seq (C : Codec σ α) (D : Codec σ β) : Codec σ (α × β) where
  encode p := C.encode p.1 ++ D.encode p.2
  decode := seqDecode C D
  decode_encode p r := by
    rw [seqDecode_some]
    exact ⟨D.encode p.2 ++ r, by rw [List.append_assoc, C.decode_encode], D.decode_encode p.2 r⟩
  decode_local := by
    intro x p r h
    obtain ⟨y, hC, hD⟩ := seqDecode_some.1 h
    obtain ⟨c, rfl, hc⟩ := C.decode_local hC
    obtain ⟨d, rfl, hd⟩ := D.decode_local hD
    refine ⟨c ++ d, by rw [List.append_assoc], fun r' => ?_⟩
    rw [seqDecode_some]
    exact ⟨d ++ r', by rw [List.append_assoc, hc], hd r'⟩
  encode_short := by
    intro x p r h
    obtain ⟨y, hC, hD⟩ := seqDecode_some.1 h
    have h1 := C.encode_short hC
    have h2 := D.encode_short hD
    rw [List.length_append]
    omega

@[simp] theorem seq_encode (C : Codec σ α) (D : Codec σ β) (p : α × β) :
    (C.seq D).encode p = C.encode p.1 ++ D.encode p.2 := rfl

theorem seq_decode_some {C : Codec σ α} {D : Codec σ β} {x r : List σ} {p : α × β} :
    (C.seq D).decode x = some (p, r) ↔ ∃ y, C.decode x = some (p.1, y) ∧ D.decode y = some (p.2, r) :=
  seqDecode_some

theorem seq_decode (C : Codec σ α) (D : Codec σ β) (x : List σ) :
    (C.seq D).decode x = (C.decode x).bind fun p => (D.decode p.2).map fun q => ((p.1, q.1), q.2) := rfl

/-! ## Change of representation -/

/-- the same words for values of another type -/
def iso (C : Codec σ α) (e : α ≃ β) : Codec σ β where
  encode b := C.encode (e.symm b)
  decode x := (C.decode x).map fun p => (e p.1, p.2)
  decode_encode b r := by rw [C.decode_encode]; simp
  decode_local := by
    intro x b r h
    obtain ⟨⟨a, r'⟩, hC, he⟩ := Option.map_eq_some_iff.1 h
    obtain ⟨rfl, rfl⟩ := Prod.mk.inj he
    obtain ⟨c, rfl, hc⟩ := C.decode_local hC
    exact ⟨c, rfl, fun s => by rw [hc]; rfl⟩
  encode_short := by
    intro x b r h
    obtain ⟨⟨a, r'⟩, hC, he⟩ := Option.map_eq_some_iff.1 h
    obtain ⟨rfl, rfl⟩ := Prod.mk.inj he
    simpa using C.encode_short hC

@[simp] theorem iso_encode (C : Codec σ α) (e : α ≃ β) (b : β) : (C.iso e).encode b = C.encode (e.symm b) := rfl

@[simp] theorem iso_decode (C : Codec σ α) (e : α ≃ β) (x : List σ) :
    (C.iso e).decode x = (C.decode x).map fun p => (e p.1, p.2) := rfl

/-! ## Repetition -/

/-- the empty format -/
def unit : Codec σ Unit where
  encode _ := []
  decode x := some ((), x)
  decode_encode _ _ := rfl
  decode_local := by
    intro x a r h
    obtain ⟨-, rfl⟩ := Prod.mk.inj (Option.some.inj h)
    exact ⟨[], rfl, fun _ => rfl⟩
  encode_short := by
    intro x a r h
    obtain ⟨-, rfl⟩ := Prod.mk.inj (Option.some.inj h)
    simp

/-- lists of a fixed length -/
abbrev Row (α : Type) (n : ℕ) := {l : List α // l.length = n}

def Row.nilEquiv : Unit ≃ Row α 0 where
  toFun _ := ⟨[], rfl⟩
  invFun _ := ()
  left_inv _ := rfl
  right_inv := fun ⟨_, h⟩ => Subtype.ext (List.length_eq_zero_iff.1 h).symm

def Row.consEquiv (n : ℕ) : α × Row α n ≃ Row α (n + 1) where
  toFun p := ⟨p.1 :: p.2.1, by simp [p.2.2]⟩
  invFun
    | ⟨a :: l, h⟩ => (a, ⟨l, by simpa using h⟩)
  left_inv _ := rfl
  right_inv := fun ⟨_ :: _, _⟩ => rfl

/-- n fields of the same format in a row -/
def rep (C : Codec σ α) : (n : ℕ) → Codec σ (Row α n)
  | 0 => unit.iso Row.nilEquiv
  | n + 1 => (C.seq (C.rep n)).iso (Row.consEquiv n)

theorem rep_encode (C : Codec σ α) (n : ℕ) (l : Row α n) : (C.rep n).encode l = l.1.flatMap C.encode := by
  induction n with
  | zero =>
    obtain ⟨l, h⟩ := l
    obtain rfl := List.length_eq_zero_iff.1 h
    rfl
  | succ n ih =>
    obtain ⟨_ | ⟨a, l⟩, h⟩ := l
    · simp at h
    · simp [rep, ih, Row.consEquiv]

end Codec

end LongFi.Core
