/-
Base-128 variable-length integers: seven bits a byte, lowest group first, the top bit set on every byte but the last.

The writer emits `Nat.log 128 n + 1` bytes, the least l ≥ 1 with n < 128^l (`groups_isLeast`). The reader stops at the
first byte with a clear top bit or after k bytes, whichever comes first; the k-th byte ends the number whatever its top
bit says (`decode_iff`). `word w k` is the codec for w-bit words read in at most k bytes, the value taken modulo 2^w.
-/
import LongFi.Core.Codec

namespace LongFi.Core.Base128

/-- number of seven-bit groups of n, at least one -/
def groups (n : ℕ) : ℕ := Nat.log 128 n + 1

def encode (n : ℕ) : List (BitVec 8) :=
  if n < 128 then [BitVec.ofNat 8 n] else BitVec.ofNat 8 (n % 128 + 128) :: encode (n / 128)
termination_by n
decreasing_by omega

def decode : ℕ → List (BitVec 8) → Option (ℕ × List (BitVec 8))
  | 0, x => some (0, x)
  | _ + 1, [] => none
  | k + 1, b :: x =>
    if b.toNat < 128 then some (b.toNat, x)
    else (decode k x).map fun p => (b.toNat % 128 + 128 * p.1, p.2)

/-! ## Lengths -/

theorem groups_of_lt {n : ℕ} (h : n < 128) : groups n = 1 := by
  rw [groups, Nat.log_of_lt h]

theorem groups_of_le {n : ℕ} (h : 128 ≤ n) : groups n = groups (n / 128) + 1 := by
  rw [groups, groups, Nat.log_of_one_lt_of_le (by norm_num) h]

theorem encode_length (n : ℕ) : (encode n).length = groups n := by
  induction n using Nat.strong_induction_on with
  | _ n ih =>
    rw [encode]
    split_ifs with h
    · rw [groups_of_lt h]; rfl
    · rw [List.length_cons, ih (n / 128) (by omega), groups_of_le (Nat.le_of_not_lt h)]

theorem groups_le {n l : ℕ} (hl : 0 < l) (h : n < 128 ^ l) : groups n ≤ l := by
  have := Nat.log_lt_of_lt_pow' (b := 128) (by omega) h
  rw [groups]
  omega

theorem groups_mono {m n : ℕ} (h : m ≤ n) : groups m ≤ groups n := Nat.succ_le_succ (Nat.log_mono_right h)

/-- the writer is as short as seven bits a byte allow -/
theorem groups_isLeast (n : ℕ) : IsLeast {l | 1 ≤ l ∧ n < 2 ^ (7 * l)} (groups n) := by
  have hpow : ∀ l, 2 ^ (7 * l) = 128 ^ l := fun l => by rw [pow_mul]; norm_num
  refine ⟨⟨Nat.le_add_left 1 _, ?_⟩, fun l hl => ?_⟩
  · rw [hpow]
    exact Nat.lt_pow_succ_log_self (by norm_num) n
  · obtain ⟨h1, h2⟩ := hl
    rw [hpow] at h2
    exact groups_le h1 h2

/-! ## Round trip -/

theorem decode_encode {k n : ℕ} (hk : 0 < k) (h : n < 128 ^ k) (r : List (BitVec 8)) :
    decode k (encode n ++ r) = some (n, r) := by
  induction k generalizing n with
  | zero => omega
  | succ k ih =>
    rw [encode]
    split_ifs with hn
    · have hb : (BitVec.ofNat 8 n).toNat = n := by simp; omega
      simp [decode, hb, hn]
    · have hb : (BitVec.ofNat 8 (n % 128 + 128)).toNat = n % 128 + 128 := by simp; omega
      have hk' : 0 < k := by
        by_contra h0
        obtain rfl : k = 0 := by omega
        simp at h
        omega
      have hd : n / 128 < 128 ^ k := by
        rw [pow_succ] at h
        exact Nat.div_lt_of_lt_mul (by omega)
      rw [List.cons_append, decode, hb, if_neg (by omega), ih hk' hd]
      simp only [Option.map_some, Option.some.injEq, Prod.mk.injEq, and_true]
      omega

/-- what an accepted spelling looks like: at most k bytes, a value below 128^(bytes), independent of what follows -/
theorem decode_some {k v : ℕ} {x r : List (BitVec 8)} (h : decode k x = some (v, r)) :
    ∃ c, x = c ++ r ∧ c.length ≤ k ∧ v < 128 ^ c.length ∧ ∀ r', decode k (c ++ r') = some (v, r') := by
  induction k generalizing x v with
  | zero =>
    obtain ⟨rfl, rfl⟩ := Prod.mk.inj (Option.some.inj h)
    exact ⟨[], rfl, le_rfl, by simp, fun _ => rfl⟩
  | succ k ih =>
    cases x with
    | nil => simp [decode] at h
    | cons b x =>
      rw [decode] at h
      split_ifs at h with hb
      · obtain ⟨rfl, rfl⟩ := Prod.mk.inj (Option.some.inj h)
        exact ⟨[b], rfl, by simp, by simpa using hb, fun r' => by simp [decode, hb]⟩
      · obtain ⟨⟨v', r'⟩, hd, he⟩ := Option.map_eq_some_iff.1 h
        obtain ⟨rfl, rfl⟩ := Prod.mk.inj he
        obtain ⟨c, rfl, hlen, hlt, hc⟩ := ih hd
        refine ⟨b :: c, rfl, by simp; omega, ?_, fun s => by simp [decode, hb, hc]⟩
        rw [List.length_cons, pow_succ]
        have := Nat.mod_lt b.toNat (y := 128) (by omega)
        simp only
        omega

/-! ## What a spelling stands for -/

/-- the number the bytes spell, whatever their top bits -/
def value : List (BitVec 8) → ℕ
  | [] => 0
  | b :: x => b.toNat % 128 + 128 * value x

theorem value_append (x y : List (BitVec 8)) : value (x ++ y) = value x + 128 ^ x.length * value y := by
  induction x with
  | nil => simp [value]
  | cons b x ih =>
    rw [List.cons_append, value, value, ih, List.length_cons, pow_succ]
    ring

theorem value_lt (x : List (BitVec 8)) : value x < 128 ^ x.length := by
  induction x with
  | nil => simp [value]
  | cons b x ih =>
    have := Nat.mod_lt b.toNat (y := 128) (by omega)
    rw [value, List.length_cons, pow_succ]
    omega

theorem value_eq_sum (x : List (BitVec 8)) :
    value x = ∑ i ∈ Finset.range x.length, (x.getD i 0).toNat % 128 * 2 ^ (7 * i) := by
  induction x with
  | nil => rfl
  | cons b x ih =>
    rw [value, ih, List.length_cons, Finset.sum_range_succ', Finset.mul_sum, Nat.add_comm]
    congr 1
    · refine Finset.sum_congr rfl fun i _ => ?_
      rw [List.getD_cons_succ, Nat.mul_add, pow_add]
      ring
    · simp

/-- **The spellings that are accepted**: bytes with the top bit set, then a last one, which has it clear or is the
k-th. -/
theorem decode_iff {k v : ℕ} (hk : 0 < k) {x r : List (BitVec 8)} : decode k x = some (v, r) ↔
    ∃ init last, x = init ++ last :: r ∧ (∀ b ∈ init, 128 ≤ b.toNat) ∧
      (last.toNat < 128 ∧ init.length < k ∨ init.length + 1 = k) ∧ v = value (init ++ [last]) := by
  induction k generalizing x v with
  | zero => omega
  | succ k ih =>
    constructor
    · intro h
      cases x with
      | nil => cases h
      | cons b x =>
        rw [decode] at h
        split_ifs at h with hb
        · obtain ⟨rfl, rfl⟩ := Prod.mk.inj (Option.some.inj h)
          exact ⟨[], b, rfl, by simp, Or.inl ⟨hb, Nat.succ_pos k⟩, by simp [value, Nat.mod_eq_of_lt hb]⟩
        · obtain ⟨⟨v', r'⟩, hd, he⟩ := Option.map_eq_some_iff.1 h
          obtain ⟨rfl, rfl⟩ := Prod.mk.inj he
          rcases Nat.eq_zero_or_pos k with rfl | hk'
          · obtain ⟨rfl, rfl⟩ := Prod.mk.inj (Option.some.inj hd)
            exact ⟨[], b, rfl, by simp, Or.inr rfl, by simp [value]⟩
          · obtain ⟨init, last, rfl, hinit, hlast, rfl⟩ := (ih hk').1 hd
            refine ⟨b :: init, last, rfl, ?_, ?_, rfl⟩
            · exact List.forall_mem_cons.2 ⟨Nat.le_of_not_lt hb, hinit⟩
            · rw [List.length_cons]
              omega
    · rintro ⟨init, last, rfl, hinit, hlast, rfl⟩
      cases init with
      | nil =>
        rw [List.nil_append, decode]
        split_ifs with hb
        · simp [value, Nat.mod_eq_of_lt hb]
        · obtain rfl : k = 0 := by simp at hlast; omega
          simp [decode, value]
      | cons b init =>
        obtain ⟨hb, hinit⟩ := List.forall_mem_cons.1 hinit
        rw [List.length_cons] at hlast
        have hd := (ih (by omega)).2 ⟨init, last, rfl, hinit, by omega, rfl⟩
        rw [List.cons_append, decode, if_neg (Nat.not_lt.2 hb), hd]
        rfl

/-! ## Words -/

/-- w-bit words in at most k groups -/
def word (w k : ℕ) (hk : 0 < k) (hw : 2 ^ w ≤ 128 ^ k) : Codec (BitVec 8) (BitVec w) where
  encode v := encode v.toNat
  decode x := (decode k x).map fun p => (BitVec.ofNat w p.1, p.2)
  decode_encode v r := by
    rw [decode_encode hk (lt_of_lt_of_le v.isLt hw)]
    simp
  decode_local := by
    intro x a r h
    obtain ⟨⟨v, r'⟩, hd, he⟩ := Option.map_eq_some_iff.1 h
    obtain ⟨rfl, rfl⟩ := Prod.mk.inj he
    obtain ⟨c, rfl, -, -, hc⟩ := decode_some hd
    exact ⟨c, rfl, fun s => by rw [hc]; rfl⟩
  encode_short := by
    intro x a r h
    obtain ⟨⟨v, r'⟩, hd, he⟩ := Option.map_eq_some_iff.1 h
    obtain ⟨rfl, rfl⟩ := Prod.mk.inj he
    obtain ⟨c, rfl, hlen, hlt, hc⟩ := decode_some hd
    have hc0 : 0 < c.length := by
      by_contra h0
      obtain rfl := List.length_eq_zero_iff.1 (Nat.eq_zero_of_not_pos h0)
      have := hc []
      obtain ⟨k, rfl⟩ := Nat.exists_eq_succ_of_ne_zero hk.ne'
      simp [decode] at this
    have hv : (BitVec.ofNat w v).toNat ≤ v := by rw [BitVec.toNat_ofNat]; exact Nat.mod_le _ _
    have hg := (groups_mono hv).trans (groups_le hc0 hlt)
    rw [encode_length, List.length_append]
    exact Nat.add_le_add_right hg _

end LongFi.Core.Base128
