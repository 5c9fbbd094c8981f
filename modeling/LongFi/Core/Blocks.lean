/-
Iterated hashing in blocks of a fixed size, over any symbols, with the last block held back.

A `BlockHash` maps a chaining value and a full block to the next chaining value, and the last block, which may be short,
to the result. Both are told how many symbols have been hashed with the block. A block is known to be the last only at
the end of the message, so a streaming implementation keeps up to one whole block (`held`) and hashes it when another
symbol arrives (`drain`).

- `push_push`: pushing two pieces is pushing their concatenation, wherever the cut is.
- `finish_drain`: what a message ends with is the hash of its held symbols, block by block (`hashFrom`).
- `eq_or_collide`: messages with the same hash are equal, or two of the inputs of their blocks collide.
-/
import Mathlib.Tactic

namespace LongFi.Core

structure BlockHash (α κ ω : Type) where
  size : ℕ
  size_pos : 0 < size
  step : (chain : κ) → (count : ℕ) → (block : List α) → κ
  last : (chain : κ) → (count : ℕ) → (block : List α) → ω

namespace BlockHash

variable {α κ ω : Type} (P : BlockHash α κ ω)

/-- the hash of m after `count` symbols that ended in `chain` -/
def hashFrom (chain : κ) (count : ℕ) (m : List α) : ω :=
  if P.size < m.length then
    hashFrom (P.step chain (count + P.size) (m.take P.size)) (count + P.size) (m.drop P.size)
  else
    P.last chain (count + m.length) m
termination_by m.length
decreasing_by
  have := P.size_pos
  rw [List.length_drop]
  omega

/-- a message on its way: the symbols hashed, and the symbols held back -/
structure Pending (α κ : Type) where
  chain : κ
  count : ℕ
  held : List α

def start (chain : κ) : Pending α κ := ⟨chain, 0, []⟩

/-- hash all blocks that are not the last -/
def drain (s : Pending α κ) : Pending α κ :=
  if P.size < s.held.length then
    drain ⟨P.step s.chain (s.count + P.size) (s.held.take P.size), s.count + P.size, s.held.drop P.size⟩
  else
    s
termination_by s.held.length
decreasing_by
  have := P.size_pos
  rw [List.length_drop]
  omega

def Pending.append (s : Pending α κ) (x : List α) : Pending α κ := { s with held := s.held ++ x }

def push (s : Pending α κ) (x : List α) : Pending α κ := P.drain (s.append x)

def finish (s : Pending α κ) : ω := P.last s.chain (s.count + s.held.length) s.held

theorem hashFrom_of_le {m : List α} (h : m.length ≤ P.size) (chain : κ) (count : ℕ) :
    P.hashFrom chain count m = P.last chain (count + m.length) m := by
  rw [hashFrom, if_neg (Nat.not_lt.2 h)]

theorem hashFrom_of_lt {m : List α} (h : P.size < m.length) (chain : κ) (count : ℕ) : P.hashFrom chain count m =
    P.hashFrom (P.step chain (count + P.size) (m.take P.size)) (count + P.size) (m.drop P.size) := by
  rw [hashFrom, if_pos h]

/-! ## Draining -/

theorem drain_of_le {s : Pending α κ} (h : s.held.length ≤ P.size) : P.drain s = s := by
  rw [drain, if_neg (Nat.not_lt.2 h)]

theorem drain_of_lt {s : Pending α κ} (h : P.size < s.held.length) : P.drain s =
    P.drain ⟨P.step s.chain (s.count + P.size) (s.held.take P.size), s.count + P.size, s.held.drop P.size⟩ := by
  rw [drain, if_pos h]

/-- draining early makes no difference to what follows -/
theorem drain_append (s : Pending α κ) (x : List α) : P.drain ((P.drain s).append x) = P.drain (s.append x) := by
  fun_induction drain P s with
  | case1 s h ih =>
    have hlt : P.size < (s.append x).held.length := by
      rw [Pending.append, List.length_append]
      exact Nat.lt_add_right _ h
    rw [ih, P.drain_of_lt hlt]
    simp only [Pending.append, List.take_append_of_le_length h.le, List.drop_append_of_le_length h.le]
  | case2 s h => rfl

theorem finish_drain (s : Pending α κ) : P.finish (P.drain s) = P.hashFrom s.chain s.count s.held := by
  fun_induction drain P s with
  | case1 s h ih => rw [ih, P.hashFrom_of_lt h]
  | case2 s h => rw [P.hashFrom_of_le (Nat.not_lt.1 h), finish]

/-! ## Pushing -/

theorem push_nil {s : Pending α κ} (h : s.held.length ≤ P.size) : P.push s [] = s := by
  rw [push, Pending.append, List.append_nil, P.drain_of_le h]

theorem push_push (s : Pending α κ) (x y : List α) : P.push (P.push s x) y = P.push s (x ++ y) := by
  rw [push, push, P.drain_append, Pending.append, Pending.append, List.append_assoc]
  rfl

/-- a message ends with the hash of what was pushed into it -/
theorem finish_push (chain : κ) (m : List α) : P.finish (P.push (start chain) m) = P.hashFrom chain 0 m :=
  P.finish_drain _

/-! ## Collisions -/

/-- what a block is hashed with, and whether it is the last one -/
@[ext]
structure Input (α κ : Type) where
  chain : κ
  count : ℕ
  block : List α
  last : Bool

/-- the inputs of the blocks of m -/
def inputs (chain : κ) (count : ℕ) (m : List α) : List (Input α κ) :=
  if P.size < m.length then
    ⟨chain, count + P.size, m.take P.size, false⟩ ::
      inputs (P.step chain (count + P.size) (m.take P.size)) (count + P.size) (m.drop P.size)
  else
    [⟨chain, count + m.length, m, true⟩]
termination_by m.length
decreasing_by
  have := P.size_pos
  rw [List.length_drop]
  omega

theorem inputs_of_le {m : List α} (h : m.length ≤ P.size) (chain : κ) (count : ℕ) :
    P.inputs chain count m = [⟨chain, count + m.length, m, true⟩] := by
  rw [inputs, if_neg (Nat.not_lt.2 h)]

theorem inputs_of_lt {m : List α} (h : P.size < m.length) (chain : κ) (count : ℕ) : P.inputs chain count m =
    ⟨chain, count + P.size, m.take P.size, false⟩ ::
      P.inputs (P.step chain (count + P.size) (m.take P.size)) (count + P.size) (m.drop P.size) := by
  rw [inputs, if_pos h]

/-- different inputs, of blocks of one length if they are at the same place, with the same result -/
structure Collide (a b : Input α κ) : Prop where
  ne : a ≠ b
  last_eq : a.last = b.last
  length_eq : a.count = b.count → a.block.length = b.block.length
  step : a.last = false → P.step a.chain a.count a.block = P.step b.chain b.count b.block
  last : a.last = true → P.last a.chain a.count a.block = P.last b.chain b.count b.block

theorem mem_inputs {chain : κ} {count : ℕ} {m : List α} {a : Input α κ} (ha : a ∈ P.inputs chain count m) :
    a.block.length ≤ P.size ∧ (a.last = false → a.block.length = P.size) ∧ a.count ≤ count + m.length := by
  fun_induction inputs P chain count m with
  | case1 chain count m h ih =>
    rcases List.mem_cons.1 ha with rfl | ha
    · have htake := List.length_take_of_le h.le
      exact ⟨htake.le, fun _ => htake, Nat.add_le_add_left h.le count⟩
    · obtain ⟨hblock, hfull, hcount⟩ := ih ha
      rw [List.length_drop] at hcount
      exact ⟨hblock, hfull, by omega⟩
  | case2 chain count m h =>
    obtain rfl := List.mem_singleton.1 ha
    exact ⟨Nat.not_lt.1 h, nofun, le_rfl⟩

/-- the last block is told the length of the message -/
theorem exists_last (chain : κ) (count : ℕ) (m : List α) : ∃ a ∈ P.inputs chain count m, a.last = true ∧
    a.count = count + m.length ∧ P.hashFrom chain count m = P.last a.chain a.count a.block := by
  fun_induction inputs P chain count m with
  | case1 chain count m h ih =>
    obtain ⟨a, ha, hlast, hcount, hhash⟩ := ih
    rw [List.length_drop] at hcount
    refine ⟨a, List.mem_cons_of_mem _ ha, hlast, by omega, ?_⟩
    rw [P.hashFrom_of_lt h, hhash]
  | case2 chain count m h =>
    exact ⟨_, List.mem_singleton_self _, rfl, rfl, P.hashFrom_of_le (Nat.not_lt.1 h) chain count⟩

/-- messages of one length are cut into blocks in the same way, so a collision is found going back from the end -/
theorem eq_or_collide_aligned {chain chain' : κ} {count : ℕ} {m m' : List α} (hlen : m.length = m'.length)
    (h : P.hashFrom chain count m = P.hashFrom chain' count m') :
    (chain = chain' ∧ m = m') ∨ ∃ a ∈ P.inputs chain count m, ∃ b ∈ P.inputs chain' count m', P.Collide a b := by
  fun_induction inputs P chain count m generalizing chain' m' with
  | case1 chain count m hlt ih =>
    have hlt' : P.size < m'.length := hlen ▸ hlt
    rw [P.hashFrom_of_lt hlt, P.hashFrom_of_lt hlt'] at h
    rw [P.inputs_of_lt hlt']
    rcases ih (by rw [List.length_drop, List.length_drop, hlen]) h with ⟨hchain, hrest⟩ | ⟨a, ha, b, hb, hab⟩
    · by_cases heq : chain = chain' ∧ m.take P.size = m'.take P.size
      · left
        refine ⟨heq.1, ?_⟩
        rw [← List.take_append_drop P.size m, heq.2, hrest, List.take_append_drop]
      · right
        refine ⟨_, List.mem_cons_self, _, List.mem_cons_self, ?_, rfl, fun _ => ?_, fun _ => hchain, nofun⟩
        · intro hsame
          exact heq ⟨(Input.mk.inj hsame).1, (Input.mk.inj hsame).2.2.1⟩
        · rw [List.length_take_of_le hlt.le, List.length_take_of_le hlt'.le]
    · exact Or.inr ⟨a, List.mem_cons_of_mem _ ha, b, List.mem_cons_of_mem _ hb, hab⟩
  | case2 chain count m hge =>
    have hge' : ¬P.size < m'.length := hlen ▸ hge
    rw [P.hashFrom_of_le (Nat.not_lt.1 hge), P.hashFrom_of_le (Nat.not_lt.1 hge')] at h
    rw [P.inputs_of_le (Nat.not_lt.1 hge')]
    by_cases heq : chain = chain' ∧ m = m'
    · exact Or.inl heq
    · right
      refine ⟨_, List.mem_singleton_self _, _, List.mem_singleton_self _, ?_, rfl, fun _ => hlen, nofun, fun _ => h⟩
      intro hsame
      exact heq ⟨(Input.mk.inj hsame).1, (Input.mk.inj hsame).2.2.1⟩

/-- **Collisions of the hash.** Messages that end with the same hash, from any two chaining values, are equal and start with
the same one, or inputs of two of their blocks collide. -/
theorem eq_or_collide {chain chain' : κ} {count : ℕ} {m m' : List α}
    (h : P.hashFrom chain count m = P.hashFrom chain' count m') :
    (chain = chain' ∧ m = m') ∨ ∃ a ∈ P.inputs chain count m, ∃ b ∈ P.inputs chain' count m', P.Collide a b := by
  by_cases hlen : m.length = m'.length
  · exact P.eq_or_collide_aligned hlen h
  · obtain ⟨a, ha, hlast, hcount, hhash⟩ := P.exists_last chain count m
    obtain ⟨b, hb, hlast', hcount', hhash'⟩ := P.exists_last chain' count m'
    have hne : a.count ≠ b.count := by omega
    refine Or.inr ⟨a, ha, b, hb, fun hab => hne (by rw [hab]), hlast.trans hlast'.symm, fun hc => absurd hc hne, ?_, ?_⟩
    · intro hstep
      exact absurd (hlast.symm.trans hstep) nofun
    · intro _
      rw [← hhash, ← hhash', h]

end BlockHash

end LongFi.Core
