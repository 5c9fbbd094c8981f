/-
How many words a codec reads as the same value.

The written word is one of them. A decoder that accepts longer forms or ignores bits has more. What is read depends only on
the symbols consumed, so the spellings of fields in a row are put together in one way, and their numbers multiply.

- `Codec.decode_iff`: reading is splitting off a spelling.
- `Codec.card_seq`, `Codec.card_rep`: the number of spellings of a record and of a row.
- `Base128.card_word`: a base-128 integer has one spelling of each length from the shortest on, and of the greatest length
  as many as there are values for the bits of the last byte that do not matter.
-/
import Mathlib.Data.Set.Card
import LongFi.Core.Base128

namespace LongFi.Core

namespace Codec

variable {σ α β : Type}

/-- the words that are read as a, to their end -/
def spellings (C : Codec σ α) (a : α) : Set (List σ) := {c | C.decode c = some (a, [])}

theorem mem_spellings {C : Codec σ α} {a : α} {c : List σ} : c ∈ C.spellings a ↔ C.decode c = some (a, []) := Iff.rfl

theorem encode_mem (C : Codec σ α) (a : α) : C.encode a ∈ C.spellings a := by
  have h := C.decode_encode a []
  rwa [List.append_nil] at h

theorem decode_iff (C : Codec σ α) {x r : List σ} {a : α} :
    C.decode x = some (a, r) ↔ ∃ c ∈ C.spellings a, x = c ++ r := by
  constructor
  · intro h
    obtain ⟨c, rfl, hc⟩ := C.decode_local h
    have hnil := hc []
    rw [List.append_nil] at hnil
    exact ⟨c, hnil, rfl⟩
  · rintro ⟨c, hc, rfl⟩
    obtain ⟨d, hd, hlocal⟩ := C.decode_local hc
    rw [List.append_nil] at hd
    subst hd
    exact hlocal r

/-- a spelling and what follows it are told apart -/
theorem append_injOn (C : Codec σ α) (a : α) (t : Set (List σ)) :
    Set.InjOn (fun q : List σ × List σ => q.1 ++ q.2) (C.spellings a ×ˢ t) := by
  rintro ⟨c, x⟩ ⟨hc, -⟩ ⟨d, y⟩ ⟨hd, -⟩ h
  have heq : c ++ x = d ++ y := h
  have hx : C.decode (c ++ x) = some (a, x) := C.decode_iff.2 ⟨c, hc, rfl⟩
  have hy : C.decode (d ++ y) = some (a, y) := C.decode_iff.2 ⟨d, hd, rfl⟩
  rw [heq, hy] at hx
  obtain rfl := (Prod.mk.inj (Option.some.inj hx)).2
  rw [List.append_cancel_right heq]

theorem spellings_seq (C : Codec σ α) (D : Codec σ β) (p : α × β) :
    (C.seq D).spellings p = (fun q : List σ × List σ => q.1 ++ q.2) '' (C.spellings p.1 ×ˢ D.spellings p.2) := by
  ext x
  rw [mem_spellings, seq_decode_some]
  constructor
  · rintro ⟨y, hC, hD⟩
    obtain ⟨c, hc, rfl⟩ := C.decode_iff.1 hC
    exact ⟨(c, y), ⟨hc, hD⟩, rfl⟩
  · rintro ⟨⟨c, y⟩, ⟨hc, hD⟩, rfl⟩
    exact ⟨y, C.decode_iff.2 ⟨c, hc, rfl⟩, hD⟩

theorem card_seq (C : Codec σ α) (D : Codec σ β) (p : α × β) :
    ((C.seq D).spellings p).encard = (C.spellings p.1).encard * (D.spellings p.2).encard := by
  rw [spellings_seq, (C.append_injOn p.1 _).encard_image, Set.encard_prod]

theorem spellings_iso (C : Codec σ α) (e : α ≃ β) (b : β) : (C.iso e).spellings b = C.spellings (e.symm b) := by
  ext x
  rw [mem_spellings, mem_spellings, iso_decode, Option.map_eq_some_iff]
  constructor
  · rintro ⟨⟨a, r⟩, hd, he⟩
    obtain ⟨rfl, rfl⟩ := Prod.mk.inj he
    rw [hd, Equiv.symm_apply_apply]
  · intro hd
    exact ⟨_, hd, by rw [Equiv.apply_symm_apply]⟩

theorem card_rep (C : Codec σ α) (n : ℕ) (l : Row α n) :
    ((C.rep n).spellings l).encard = (l.1.map fun a => (C.spellings a).encard).prod := by
  induction n with
  | zero =>
    obtain ⟨l, h⟩ := l
    obtain rfl := List.length_eq_zero_iff.1 h
    have hnil : (unit : Codec σ Unit).spellings () = {[]} := by
      ext x
      simp [mem_spellings, unit]
    rw [rep, spellings_iso, List.map_nil, List.prod_nil]
    exact hnil ▸ Set.encard_singleton []
  | succ n ih =>
    obtain ⟨_ | ⟨a, l⟩, h⟩ := l
    · simp at h
    · rw [rep, spellings_iso, card_seq, List.map_cons, List.prod_cons]
      exact congrArg _ (ih ⟨l, _⟩)

/-- a word that is written as it is read has one spelling -/
theorem card_of_unique {C : Codec σ α} {a : α} (h : ∀ c ∈ C.spellings a, c = C.encode a) : (C.spellings a).encard = 1 :=
  Set.encard_eq_one.2 ⟨C.encode a, Set.eq_singleton_iff_unique_mem.2 ⟨C.encode_mem a, h⟩⟩

end Codec

namespace Base128

/-- the words of at most k bytes that are read to their end as v, of which w bits count -/
def forms (k w v : ℕ) : Set (List (BitVec 8)) := {c | ∃ n, decode k c = some (n, []) ∧ n % 2 ^ w = v}

theorem word_spellings {w k : ℕ} (hk : 0 < k) (hw : 2 ^ w ≤ 128 ^ k) (v : BitVec w) :
    (word w k hk hw).spellings v = forms k w v.toNat := by
  ext c
  rw [Codec.mem_spellings]
  constructor
  · intro h
    obtain ⟨⟨n, r⟩, hd, he⟩ := Option.map_eq_some_iff.1 h
    obtain ⟨rfl, rfl⟩ := Prod.mk.inj he
    exact ⟨n, hd, (BitVec.toNat_ofNat n w).symm⟩
  · rintro ⟨n, hd, hn⟩
    have hv : BitVec.ofNat w n = v := BitVec.eq_of_toNat_eq ((BitVec.toNat_ofNat n w).trans hn)
    exact Option.map_eq_some_iff.2 ⟨(n, []), hd, by rw [hv]⟩

/-- a single byte ends the number, whatever its top bits say -/
theorem mem_forms_one {j v : ℕ} (hj : j ≤ 7) {c : List (BitVec 8)} :
    c ∈ forms 1 j v ↔ ∃ b : BitVec 8, c = [b] ∧ b.toNat % 2 ^ j = v := by
  have hdvd : 2 ^ j ∣ 128 := pow_dvd_pow 2 hj
  have hdecode (b : BitVec 8) : decode 1 [b] = some (b.toNat % 128, []) := by
    by_cases hb : b.toNat < 128
    · rw [decode, if_pos hb, Nat.mod_eq_of_lt hb]
    · rw [decode, if_neg hb]
      rfl
  constructor
  · rintro ⟨n, hd, rfl⟩
    cases c with
    | nil => cases hd
    | cons b x =>
      obtain ⟨init, last, hx, -, hlast, -⟩ := (decode_iff Nat.one_pos).1 hd
      have hinit : init = [] := List.length_eq_zero_iff.1 (by omega)
      rw [hinit] at hx
      obtain ⟨rfl, rfl⟩ := List.cons.inj hx
      rw [hdecode] at hd
      obtain rfl := (Prod.mk.inj (Option.some.inj hd)).1
      exact ⟨b, rfl, (Nat.mod_mod_of_dvd _ hdvd).symm⟩
  · rintro ⟨b, rfl, rfl⟩
    exact ⟨_, hdecode b, Nat.mod_mod_of_dvd _ hdvd⟩

theorem card_forms_one {j v : ℕ} (hj : j ≤ 7) (hv : v < 2 ^ j) : (forms 1 j v).encard = (2 ^ (8 - j) : ℕ) := by
  have hsplit : 2 ^ j * 2 ^ (8 - j) = 256 := by
    rw [← pow_add, Nat.add_sub_cancel' (by omega)]
    norm_num
  have hlt {i : ℕ} (hi : i < 2 ^ (8 - j)) : v + 2 ^ j * i < 256 := by
    calc v + 2 ^ j * i < 2 ^ j * 1 + 2 ^ j * i := by omega
      _ = 2 ^ j * (i + 1) := by ring
      _ ≤ 2 ^ j * 2 ^ (8 - j) := Nat.mul_le_mul_left _ hi
      _ = 256 := hsplit
  have himage : forms 1 j v = (fun i => [BitVec.ofNat 8 (v + 2 ^ j * i)]) '' (Finset.range (2 ^ (8 - j)) : Set ℕ) := by
    ext c
    rw [mem_forms_one hj]
    constructor
    · rintro ⟨b, rfl, rfl⟩
      refine ⟨b.toNat / 2 ^ j, ?_, ?_⟩
      · rw [Finset.mem_coe, Finset.mem_range]
        exact Nat.div_lt_of_lt_mul (hsplit ▸ b.isLt)
      · dsimp only
        rw [Nat.mod_add_div, BitVec.ofNat_toNat, BitVec.setWidth_eq]
    · rintro ⟨i, hi, rfl⟩
      refine ⟨_, rfl, ?_⟩
      rw [BitVec.toNat_ofNat, Nat.mod_eq_of_lt (hlt (Finset.mem_range.1 hi)), Nat.add_mul_mod_self_left,
        Nat.mod_eq_of_lt hv]
  have hinj : Set.InjOn (fun i => [BitVec.ofNat 8 (v + 2 ^ j * i)]) (Finset.range (2 ^ (8 - j)) : Set ℕ) := by
    intro i hi i' hi' h
    have hb := congrArg BitVec.toNat (List.singleton_inj.1 h)
    rw [BitVec.toNat_ofNat, BitVec.toNat_ofNat, Nat.mod_eq_of_lt (hlt (Finset.mem_range.1 hi)),
      Nat.mod_eq_of_lt (hlt (Finset.mem_range.1 hi'))] at hb
    exact Nat.eq_of_mul_eq_mul_left (Nat.two_pow_pos j) (Nat.add_left_cancel hb)
  rw [himage, hinj.encard_image, Set.encard_coe_eq_coe_finsetCard, Finset.card_range]

/-- the first byte holds the low group, the others the rest -/
theorem first_group {b n v w : ℕ} (hb : b < 128) :
    (b + 128 * n) % 2 ^ (w + 7) = v ↔ b = v % 128 ∧ n % 2 ^ w = v / 128 := by
  have hpow : 2 ^ (w + 7) = 128 * 2 ^ w := by rw [pow_add, Nat.mul_comm]; norm_num
  have hmod : (b + 128 * n) % 2 ^ (w + 7) = b + 128 * (n % 2 ^ w) := by
    rw [hpow, Nat.mod_mul, Nat.add_mul_mod_self_left, Nat.mod_eq_of_lt hb, Nat.add_mul_div_left _ _ (by norm_num),
      Nat.div_eq_of_lt hb, Nat.zero_add]
  rw [hmod]
  omega

/-- a form of more than one byte, and the one-byte form of a small number -/
theorem forms_succ {k w v : ℕ} (hv : v < 2 ^ (w + 7)) : forms (k + 2) (w + 7) v =
    {c | v < 128 ∧ c = [BitVec.ofNat 8 v]} ∪
      List.cons (BitVec.ofNat 8 (v % 128 + 128)) '' forms (k + 1) w (v / 128) := by
  have h7 : 128 ≤ 2 ^ (w + 7) := by
    calc 128 = 2 ^ 7 := by norm_num
      _ ≤ 2 ^ (w + 7) := Nat.pow_le_pow_right (by norm_num) (by omega)
  ext c
  constructor
  · rintro ⟨n, hd, hn⟩
    cases c with
    | nil => cases hd
    | cons b x =>
      rw [decode] at hd
      split_ifs at hd with hb
      · obtain ⟨rfl, rfl⟩ := Prod.mk.inj (Option.some.inj hd)
        rw [Nat.mod_eq_of_lt (lt_of_lt_of_le hb h7)] at hn
        subst hn
        exact Or.inl ⟨hb, by rw [BitVec.ofNat_toNat, BitVec.setWidth_eq]⟩
      · obtain ⟨⟨n', r⟩, hd', he⟩ := Option.map_eq_some_iff.1 hd
        obtain ⟨rfl, rfl⟩ := Prod.mk.inj he
        obtain ⟨hlow, hhigh⟩ := (first_group (Nat.mod_lt _ (by norm_num))).1 hn
        refine Or.inr ⟨x, ⟨n', hd', hhigh⟩, ?_⟩
        congr 1
        apply BitVec.eq_of_toNat_eq
        rw [BitVec.toNat_ofNat, ← hlow]
        have hbyte := b.isLt
        omega
  · rintro (⟨h128, rfl⟩ | ⟨x, ⟨n', hd', hn'⟩, rfl⟩)
    · have hb : (BitVec.ofNat 8 v).toNat = v := by
        rw [BitVec.toNat_ofNat]
        exact Nat.mod_eq_of_lt (by omega)
      exact ⟨v, by rw [decode, hb, if_pos h128], Nat.mod_eq_of_lt hv⟩
    · have hb : (BitVec.ofNat 8 (v % 128 + 128)).toNat = v % 128 + 128 := by
        rw [BitVec.toNat_ofNat]
        omega
      refine ⟨v % 128 + 128 * n', ?_, (first_group (Nat.mod_lt _ (by norm_num))).2 ⟨rfl, hn'⟩⟩
      rw [decode, hb, if_neg (by omega), hd']
      simp

theorem card_forms {j : ℕ} (h0 : 0 < j) (h7 : j ≤ 7) (k : ℕ) {v : ℕ} (hv : v < 2 ^ (7 * k + j)) :
    (forms (k + 1) (7 * k + j) v).encard = (k + 1 - groups v + 2 ^ (8 - j) : ℕ) := by
  induction k generalizing v with
  | zero =>
    have h128 : v < 128 := lt_of_lt_of_le hv (Nat.pow_le_pow_right (by norm_num) (by omega) : 2 ^ (7 * 0 + j) ≤ 2 ^ 7)
    rw [groups_of_lt h128]
    rw [Nat.mul_zero, Nat.zero_add] at hv
    rw [Nat.mul_zero, Nat.zero_add, Nat.zero_add, card_forms_one h7 hv, Nat.sub_self, Nat.zero_add]
  | succ k ih =>
    have hw : 7 * (k + 1) + j = 7 * k + j + 7 := by omega
    rw [hw] at hv ⊢
    have hv' : v / 128 < 2 ^ (7 * k + j) := by
      rw [pow_add] at hv
      exact Nat.div_lt_of_lt_mul (by omega)
    have hcons : (List.cons (BitVec.ofNat 8 (v % 128 + 128)) '' forms (k + 1) (7 * k + j) (v / 128)).encard =
        (k + 1 - groups (v / 128) + 2 ^ (8 - j) : ℕ) := by
      rw [(List.cons_injective.injOn).encard_image, ih hv']
    rw [forms_succ hv]
    by_cases h128 : v < 128
    · have hone : {c | v < 128 ∧ c = [BitVec.ofNat 8 v]} = {[BitVec.ofNat 8 v]} := by
        ext c
        simp [h128]
      have hdisj : Disjoint {[BitVec.ofNat 8 v]}
          (List.cons (BitVec.ofNat 8 (v % 128 + 128)) '' forms (k + 1) (7 * k + j) (v / 128)) := by
        rw [Set.disjoint_singleton_left]
        rintro ⟨x, -, hx⟩
        have hb := congrArg BitVec.toNat (List.cons.inj hx).1
        rw [BitVec.toNat_ofNat, BitVec.toNat_ofNat] at hb
        omega
      rw [hone, Set.encard_union_eq hdisj, Set.encard_singleton, hcons, Nat.div_eq_of_lt h128,
        groups_of_lt (by norm_num : 0 < 128), groups_of_lt h128]
      norm_cast
      omega
    · have hnone : {c | v < 128 ∧ c = [BitVec.ofNat 8 v]} = ∅ := by
        ext c
        simp [h128]
      rw [hnone, Set.empty_union, hcons, groups_of_le (Nat.le_of_not_lt h128), Nat.add_sub_add_right]

/-- **The spellings of a word** of 7 k + j bits: one of each length from the shortest to k, and those of length k + 1, in
which 8 - j bits of the last byte do not matter. -/
theorem card_word {k j : ℕ} (h0 : 0 < j) (h7 : j ≤ 7) (hw : 2 ^ (7 * k + j) ≤ 128 ^ (k + 1)) (v : BitVec (7 * k + j)) :
    ((word (7 * k + j) (k + 1) k.succ_pos hw).spellings v).encard = (k + 1 - groups v.toNat + 2 ^ (8 - j) : ℕ) := by
  rw [word_spellings]
  exact card_forms h0 h7 k v.isLt

end Base128

end LongFi.Core
