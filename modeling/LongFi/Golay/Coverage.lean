/-
What the decoder makes of every received word.

The syndrome map of `golay.c` has the parameters of an extended Golay code (`golay24`), so its syndromes are covered as the
library says, and the decoder is exact on them.

- `decode_by_parity`: a word of odd weight always decodes, with one or three corrections; a word of even weight decodes
  with none or two, or is rejected because exactly six codewords are nearest to it, at distance 4.
- `card_rejected`, `card_near_words`: 7254016 of the 2^24 words are rejected, and 2325 decode to each value.
- `flips_by_weight`: what the decoder makes of any number of flipped bits, so that five or more are never corrected, and
  an odd number of them is never rejected.
-/
import Mathlib.Data.FinEnum
import LongFi.Core.Covering
import LongFi.Golay.Decode

namespace LongFi

open LongFi.Core Finset

/-! ## The code of the source -/

/-- the check bits and the data bits of a word -/
def pattern (x : U32) : Fin 12 ⊕ Fin 12 → ZMod 2 := Sum.elim (hi x) (lo x)

theorem pattern_wt {x : U32} (hx : x.toNat < 2 ^ 24) : hammingNorm (pattern x) = weight x := by
  rw [pattern, hammingNorm_elim, weight_eq hx]

theorem pattern_xor (x y : U32) : pattern (x ^^^ y) = pattern x + pattern y := by
  rw [pattern, hi_xor, lo_xor, pattern, pattern]
  funext i
  cases i with
  | inl i => rfl
  | inr i => rfl

theorem pattern_inj {x y : U32} (hx : x.toNat < 2 ^ 24) (hy : y.toNat < 2 ^ 24) (h : pattern x = pattern y) : x = y :=
  word_ext hx hy (funext fun i => congrFun h (.inl i)) (funext fun i => congrFun h (.inr i))

/-- the syndrome of a pattern -/
def synHom : (Fin 12 ⊕ Fin 12 → ZMod 2) →+ Vec12 where
  toFun e := golayCode.syn (fun i => e (.inl i)) fun i => e (.inr i)
  map_zero' := by
    show (0 : Vec12) + golayCode.par 0 = 0
    rw [map_zero, add_zero]
  map_add' e f := by
    show ((fun i => e (.inl i)) + fun i => f (.inl i)) + golayCode.par ((fun i => e (.inr i)) + fun i => f (.inr i)) = _
    rw [map_add, HalfRate.syn, HalfRate.syn, add_add_add_comm]

theorem elim_eta (e : Fin 12 ⊕ Fin 12 → ZMod 2) : Sum.elim (fun i => e (.inl i)) (fun i => e (.inr i)) = e := by
  funext i
  cases i with
  | inl i => rfl
  | inr i => rfl

theorem norm_halves (e : Fin 12 ⊕ Fin 12 → ZMod 2) :
    hammingNorm e = hammingNorm (fun i => e (.inl i)) + hammingNorm fun i => e (.inr i) := by
  rw [← hammingNorm_elim, elim_eta]

/-- `golay.c` has an extended Golay code -/
def golay24 : Golay24 (Fin 12 ⊕ Fin 12) Vec12 where
  syn := synHom
  par s := hammingNorm s
  length := by decide
  min_weight e he hne := by
    -- a word without syndrome is the codeword of its data half
    have hchecks : (fun i => e (.inl i)) = golayCode.par fun i => e (.inr i) := by
      rw [← golayCode.add_add_self (fun i => e (.inl i)) (golayCode.par fun i => e (.inr i))]
      exact (congrArg (· + _) he).trans (zero_add _)
    have hdata : (fun i => e (.inr i)) ≠ 0 := by
      intro h0
      rw [h0, map_zero] at hchecks
      exact hne (by rw [← elim_eta e, h0, hchecks]; exact Sum.elim_const_const 0)
    rw [norm_halves, hchecks, add_comm]
    exact Pmat_selfDual.min_weight _ hdata
  par_syn e := by
    have hsum := hammingNorm_add (fun i => e (.inl i)) (golayCode.par fun i => e (.inr i))
    have hdvd : 4 ∣ hammingNorm (fun i => e (.inr i)) + hammingNorm (golayCode.par fun i => e (.inr i)) :=
      Pmat_selfDual.weight_dvd _
    rw [norm_halves]
    refine (ZMod.natCast_eq_natCast_iff' _ _ 2).2 ?_
    show hammingNorm ((fun i => e (.inl i)) + golayCode.par fun i => e (.inr i)) % 2 = _
    omega
  card_odd := by
    rw [card_parity]
    decide
  card_even := by
    rw [card_parity]
    decide

/-! ## Error patterns and codewords -/

theorem syn_codeword (r : U32) (m : U16) : synHom (pattern (r ^^^ codeword m)) = synHom (pattern r) := by
  rw [pattern_xor, map_add]
  have hzero : synHom (pattern (codeword m)) = 0 := by
    show hi (codeword m) + golayCode.par (lo (codeword m)) = 0
    rw [hi_codeword, lo_codeword, golayCode.add_self]
  rw [hzero, add_zero]

/-- a pattern with the syndrome of a word is what separates it from a codeword -/
theorem exists_codeword {r : U32} {e : Fin 12 ⊕ Fin 12 → ZMod 2} (h : synHom e = synHom (pattern r)) :
    ∃ m : U16, m.toNat < 2 ^ 12 ∧ pattern (r ^^^ codeword m) = e := by
  obtain ⟨m, hm, hlo⟩ := exists_lo (lo r + fun i => e (.inr i))
  refine ⟨m, hm, ?_⟩
  have hhi : hi (codeword m) = hi r + fun i => e (.inl i) := by
    have hsyn : (fun i => e (.inl i)) + golayCode.par (fun i => e (.inr i)) = hi r + golayCode.par (lo r) := h
    have bit : ∀ a b c d : ZMod 2, a + b = c + d → d + b = c + a := by decide
    rw [hi_codeword, hlo, map_add]
    funext i
    exact bit _ _ _ _ (congrFun hsyn i)
  rw [pattern, hi_xor, lo_xor, hhi, lo_codeword, hlo, ← add_assoc, ← add_assoc, golayCode.add_self, golayCode.add_self,
    zero_add, zero_add, elim_eta]

/-! ## Decoding -/

/-- the weight of a word and of its syndrome have one parity -/
theorem par_pattern {r : U32} (hr : r.toNat < 2 ^ 24) : golay24.par (golay24.syn (pattern r)) = weight r := by
  rw [golay24.par_syn, pattern_wt hr]

/-- the values whose codewords are at distance 4 of a word -/
def nearest (r : U32) : Finset U16 := univ.filter fun m => m.toNat < 2 ^ 12 ∧ weight (r ^^^ codeword m) = 4

theorem mem_nearest {r : U32} {m : U16} : m ∈ nearest r ↔ m.toNat < 2 ^ 12 ∧ weight (r ^^^ codeword m) = 4 := by
  rw [nearest, mem_filter, and_iff_right (mem_univ m)]

theorem xor_codeword_inj {r : U32} {m m' : U16} (hm : m.toNat < 2 ^ 12) (hm' : m'.toNat < 2 ^ 12)
    (h : r ^^^ codeword m = r ^^^ codeword m') : m = m' := by
  rw [← codeword_data hm, (BitVec.xor_right_inj r).1 h, codeword_data hm']

theorem card_nearest {r : U32} (hr : r.toNat < 2 ^ 24) :
    (nearest r).card = (golay24.tetrads (golay24.syn (pattern r))).card := by
  apply card_bij fun m _ => pattern (r ^^^ codeword m)
  · intro m hm
    obtain ⟨-, hw⟩ := mem_nearest.1 hm
    rw [golay24.mem_tetrads, pattern_wt (xor_lt hr (codeword_lt m))]
    exact ⟨hw, syn_codeword r m⟩
  · intro m hm m' hm' h
    have hx := pattern_inj (xor_lt hr (codeword_lt m)) (xor_lt hr (codeword_lt m')) h
    exact xor_codeword_inj (mem_nearest.1 hm).1 (mem_nearest.1 hm').1 hx
  · intro e he
    obtain ⟨hw, hsyn⟩ := golay24.mem_tetrads.1 he
    obtain ⟨m, hm, rfl⟩ := exists_codeword hsyn
    rw [pattern_wt (xor_lt hr (codeword_lt m))] at hw
    exact ⟨m, mem_nearest.2 ⟨hm, hw⟩, rfl⟩

/-- the word decodes to m with n corrections -/
structure Decodes (r : U32) (n : ℕ) (m : U16) : Prop where
  value : m.toNat < 2 ^ 12
  close : weight (r ^^^ codeword m) = n
  light : n ≤ 3

theorem Decodes.run (B : Build) {r : U32} (hr : r.toNat < 2 ^ 24) {n : ℕ} {m : U16} (h : Decodes r n m) (out : U16) :
    fecGolay2412DecodeSymbol B r out = .ok (n, m) := by
  rw [decodeSymbol_near B hr h.value (by rw [h.close]; exact h.light), h.close]

/-- a pattern of at most three errors with the syndrome of a word decodes it -/
theorem decodes_of_pattern {r : U32} (hr : r.toNat < 2 ^ 24) {e : Fin 12 ⊕ Fin 12 → ZMod 2}
    (h : synHom e = synHom (pattern r)) (he : hammingNorm e ≤ 3) : ∃ m, Decodes r (hammingNorm e) m := by
  obtain ⟨m, hm, rfl⟩ := exists_codeword h
  exact ⟨m, hm, (pattern_wt (xor_lt hr (codeword_lt m))).symm, he⟩

/-- no codeword is within distance 3, and six are nearest, at distance 4 -/
structure Deep (r : U32) : Prop where
  far : ∀ m : U16, m.toNat < 2 ^ 12 → 4 ≤ weight (r ^^^ codeword m)
  six : (nearest r).card = 6

theorem deep_of_syn {r : U32} (hr : r.toNat < 2 ^ 24) (h : golay24.syn (pattern r) ∈ golay24.deep) : Deep r where
  far m _ := by
    rw [← pattern_wt (xor_lt hr (codeword_lt m))]
    exact golay24.four_le_of_deep h (syn_codeword r m)
  six := (card_nearest hr).trans (golay24.card_tetrads h)

theorem odd_word {r : U32} (hr : r.toNat < 2 ^ 24) (hodd : Odd (weight r)) :
    ∃ n m, (n = 1 ∨ n = 3) ∧ Decodes r n m := by
  have hpar : golay24.par (golay24.syn (pattern r)) = 1 := by
    rw [par_pattern hr]
    exact ZMod.natCast_eq_one_iff_odd.2 hodd
  obtain ⟨e, he, hsyn⟩ := golay24.odd_covered hpar
  obtain ⟨m, hm⟩ := decodes_of_pattern hr hsyn (by omega)
  exact ⟨_, m, he, hm⟩

theorem even_word {r : U32} (hr : r.toNat < 2 ^ 24) (heven : Even (weight r)) :
    (∃ n m, (n = 0 ∨ n = 2) ∧ Decodes r n m) ∨ golay24.syn (pattern r) ∈ golay24.deep := by
  have hpar : golay24.par (golay24.syn (pattern r)) = 0 := by
    rw [par_pattern hr]
    exact (ZMod.natCast_eq_zero_iff_even).2 heven
  by_cases h : golay24.syn (pattern r) ∈ golay24.shallow
  · obtain ⟨e, he, hsyn⟩ := golay24.mem_shallow.1 h
    obtain ⟨m, hm⟩ := decodes_of_pattern hr hsyn (by omega)
    exact Or.inl ⟨_, m, he, hm⟩
  · exact Or.inr (golay24.mem_deep.2 ⟨hpar, h⟩)

theorem Deep.run (B : Build) {r : U32} (hr : r.toNat < 2 ^ 24) (h : Deep r) (out : U16) :
    fecGolay2412DecodeSymbol B r out = .ok (-1, out) := decodeSymbol_far B hr h.far out

/-- **Every received word.** A word of odd weight always decodes, with one correction or three. A word of even weight
decodes with none or two, or is rejected, and then exactly six codewords are nearest to it, at distance 4. -/
theorem decode_by_parity (B : Build) (x : List U8) (out : U16) :
    (Odd (weight (golayInput x)) → ∃ n m, (n = 1 ∨ n = 3) ∧ Decodes (golayInput x) n m ∧
        golayDecode12 B x out = .ok ((n : ℕ), m)) ∧
      (Even (weight (golayInput x)) →
        (∃ n m, (n = 0 ∨ n = 2) ∧ Decodes (golayInput x) n m ∧ golayDecode12 B x out = .ok ((n : ℕ), m)) ∨
          Deep (golayInput x) ∧ golayDecode12 B x out = .ok (-1, out)) := by
  have hr := golayInput_lt x
  constructor
  · intro hodd
    obtain ⟨n, m, hn, hm⟩ := odd_word hr hodd
    exact ⟨n, m, hn, hm, hm.run B hr out⟩
  · intro heven
    rcases even_word hr heven with ⟨n, m, hn, hm⟩ | hdeep
    · exact Or.inl ⟨n, m, hn, hm, hm.run B hr out⟩
    · have h := deep_of_syn hr hdeep
      exact Or.inr ⟨h, h.run B hr out⟩

/-! ## How many words are rejected -/

theorem word_inj {w v : BitVec 24} (h : w.setWidth 32 = v.setWidth 32) : w = v := by
  have hnat := congrArg BitVec.toNat h
  rw [BitVec.toNat_setWidth_of_le (by decide), BitVec.toNat_setWidth_of_le (by decide)] at hnat
  exact BitVec.eq_of_toNat_eq hnat

/-- every pair of halves is those of a word -/
theorem exists_word (a b : Vec12) : ∃ w : BitVec 24, hi (w.setWidth 32) = a ∧ lo (w.setWidth 32) = b := by
  obtain ⟨m, hm, ha⟩ := exists_lo a
  obtain ⟨n, hn, hb⟩ := exists_lo b
  have hm32 : (m.setWidth 32).toNat < 2 ^ 12 := by rwa [BitVec.toNat_setWidth_of_le (by decide)]
  have hn32 : (n.setWidth 32).toNat < 2 ^ 12 := by rwa [BitVec.toNat_setWidth_of_le (by decide)]
  have hlt : (m.setWidth 32 <<< 12 ||| n.setWidth 32).toNat < 2 ^ 24 :=
    or_lt (shift_lt hm32) (hn32.trans (by norm_num))
  have hw : ((m.setWidth 32 <<< 12 ||| n.setWidth 32).setWidth 24).setWidth 32 =
      m.setWidth 32 <<< 12 ||| n.setWidth 32 := by
    apply BitVec.eq_of_toNat_eq
    rw [BitVec.toNat_setWidth, BitVec.toNat_setWidth, Nat.mod_eq_of_lt hlt, Nat.mod_eq_of_lt (hlt.trans (by norm_num))]
  refine ⟨(m.setWidth 32 <<< 12 ||| n.setWidth 32).setWidth 24, ?_, ?_⟩
  · rw [hw, hi_or (hi_of_lt hn32), hi_shiftLeft, ha]
  · rw [hw, BitVec.or_comm, lo_or (lo_shiftLeft _), hb]

/-- a word is rejected exactly if its syndrome is deep -/
theorem rejected_iff (B : Build) (w : BitVec 24) (out : U16) :
    golayDecode12 B (hdrBytes (w.setWidth 32)) out = .ok (-1, out) ↔ golay24.syn (pattern (w.setWidth 32)) ∈ golay24.deep := by
  have hr := setWidth_lt w
  rw [golayDecode12, golayInput_hdrBytes hr]
  constructor
  · intro h
    have hno : ∀ n m, ¬Decodes (w.setWidth 32) n m := by
      intro n m hm
      rw [hm.run B hr out] at h
      have hneg : (n : ℤ) = -1 := (Prod.mk.inj (Except.ok.inj h)).1
      omega
    rcases Nat.even_or_odd (weight (w.setWidth 32)) with heven | hodd
    · rcases even_word hr heven with ⟨n, m, -, hm⟩ | hdeep
      · exact absurd hm (hno n m)
      · exact hdeep
    · obtain ⟨n, m, -, hm⟩ := odd_word hr hodd
      exact absurd hm (hno n m)
  · intro h
    exact (deep_of_syn hr h).run B hr out

/-- 1771 syndromes are deep, each had by 4096 words -/
theorem card_deep_words : (univ.filter fun w : BitVec 24 => golay24.syn (pattern (w.setWidth 32)) ∈ golay24.deep).card =
    7254016 := by
  have hcard : (golay24.deep ×ˢ (univ : Finset Vec12)).card = 7254016 := by
    rw [card_product, golay24.card_deep, card_univ, Fintype.card_fun, ZMod.card, Fintype.card_fin]
    norm_num
  rw [← hcard]
  apply card_bij fun w _ => (golay24.syn (pattern (w.setWidth 32)), lo (w.setWidth 32))
  · intro w hw
    exact mem_product.2 ⟨(mem_filter.1 hw).2, mem_univ _⟩
  · intro w _ v _ h
    obtain ⟨hsyn, hlo⟩ := Prod.mk.inj h
    have hhi : hi (w.setWidth 32) = hi (v.setWidth 32) := by
      have hadd : hi (w.setWidth 32) + golayCode.par (lo (w.setWidth 32)) =
          hi (v.setWidth 32) + golayCode.par (lo (v.setWidth 32)) := hsyn
      rw [hlo] at hadd
      exact add_right_cancel hadd
    exact word_inj (word_ext (setWidth_lt w) (setWidth_lt v) hhi hlo)
  · rintro ⟨s, b⟩ h
    obtain ⟨w, hhi, hlo⟩ := exists_word (s + golayCode.par b) b
    have hsyn : golay24.syn (pattern (w.setWidth 32)) = s := by
      show hi (w.setWidth 32) + golayCode.par (lo (w.setWidth 32)) = s
      rw [hhi, hlo, golayCode.add_add_self]
    refine ⟨w, mem_filter.2 ⟨mem_univ _, ?_⟩, Prod.ext hsyn hlo⟩
    rw [hsyn]
    exact (mem_product.1 h).1

/-- **How many words are rejected**: 1771 syndromes, each had by 4096 words. -/
theorem card_rejected (B : Build) (out : U16) :
    (univ.filter fun w : BitVec 24 => golayDecode12 B (hdrBytes (w.setWidth 32)) out = .ok (-1, out)).card = 7254016 := by
  rw [filter_congr fun w _ => rejected_iff B w out]
  exact card_deep_words

/-- a word is far from every codeword exactly if its syndrome is deep -/
theorem far_iff (w : BitVec 24) : (∀ m : U16, m.toNat < 2 ^ 12 → 4 ≤ weight (w.setWidth 32 ^^^ codeword m)) ↔
    golay24.syn (pattern (w.setWidth 32)) ∈ golay24.deep := by
  have hr := setWidth_lt w
  constructor
  · intro h
    rw [← rejected_iff .release w 0, golayDecode12, golayInput_hdrBytes hr]
    exact decodeSymbol_far .release hr h 0
  · intro h
    exact (deep_of_syn hr h).far

/-- the words that decode to one value -/
theorem card_near_words (m : U16) :
    (univ.filter fun w : BitVec 24 => weight (w.setWidth 32 ^^^ codeword m) ≤ 3).card = 2325 := by
  have hball : (univ.filter fun e : Fin 12 ⊕ Fin 12 → ZMod 2 => hammingNorm e ≤ 3).card = 2325 := by
    rw [card_ball, golay24.length]
    decide
  rw [← hball]
  apply card_bij fun w _ => pattern (w.setWidth 32 ^^^ codeword m)
  · intro w hw
    rw [mem_filter, pattern_wt (xor_lt (setWidth_lt w) (codeword_lt m))]
    exact ⟨mem_univ _, (mem_filter.1 hw).2⟩
  · intro w _ v _ h
    have hx := pattern_inj (xor_lt (setWidth_lt w) (codeword_lt m)) (xor_lt (setWidth_lt v) (codeword_lt m)) h
    exact word_inj ((BitVec.xor_left_inj (codeword m)).1 hx)
  · intro e he
    obtain ⟨w, hhi, hlo⟩ := exists_word ((fun i => e (.inl i)) + hi (codeword m)) ((fun i => e (.inr i)) + lo (codeword m))
    have hpat : pattern (w.setWidth 32 ^^^ codeword m) = e := by
      rw [pattern, hi_xor, lo_xor, hhi, hlo, golayCode.add_add_self, golayCode.add_add_self, elim_eta]
    refine ⟨w, mem_filter.2 ⟨mem_univ _, ?_⟩, hpat⟩
    rw [← pattern_wt (xor_lt (setWidth_lt w) (codeword_lt m)), hpat]
    exact (mem_filter.1 he).2

/-! ## Flipped bits -/

theorem weight_codeword_even (m : U16) : Even (weight (codeword m)) := by
  have hdvd := Pmat_selfDual.weight_dvd (lo (m.setWidth 32))
  have hw : weight (codeword m) = hammingNorm (Pmat.mulVec (lo (m.setWidth 32))) + hammingNorm (lo (m.setWidth 32)) := by
    rw [weight_eq (codeword_lt m), hi_codeword, lo_codeword]
    rfl
  rw [hw, Nat.even_iff]
  omega

/-- flipping bits of a codeword changes the parity with their number -/
theorem even_flips (m : U16) {e : U32} (he : e.toNat < 2 ^ 24) : Even (weight (codeword m ^^^ e)) ↔ Even (weight e) := by
  have hadd := hammingNorm_add (pattern (codeword m)) (pattern e)
  rw [pattern_wt (codeword_lt m), pattern_wt he, ← pattern_xor, pattern_wt (xor_lt (codeword_lt m) he)] at hadd
  obtain ⟨k, hk⟩ := weight_codeword_even m
  rw [Nat.even_iff, Nat.even_iff]
  omega

/-- a value that a word with more than three flipped bits decodes to is not the one that was sent -/
theorem Decodes.other {m m' : U16} {e : U32} {n : ℕ} (h : Decodes (codeword m ^^^ e) n m') (he : 4 < weight e) : m' ≠ m := by
  rintro rfl
  have hclose := h.close
  have hlight := h.light
  rw [BitVec.xor_comm (codeword m'), BitVec.xor_assoc, BitVec.xor_self, BitVec.xor_zero] at hclose
  omega

/-- **Flipped bits.** Up to three are corrected and four are detected. More are never corrected: an odd number of them is
never detected either, but decodes to another value with one reported error or three; an even number is detected, or
decodes to another value with none reported or two. -/
theorem flips_by_weight (B : Build) (m : U16) (hm : m.toNat < 2 ^ 12) (e : BitVec 24) (out : U16) :
    ∃ bytes, golayEncode12 B m = .ok bytes ∧
      (weight e ≤ 3 → golayDecode12 B (damage e bytes) out = .ok (weight e, m)) ∧
      (weight e = 4 → golayDecode12 B (damage e bytes) out = .ok (-1, out)) ∧
      (4 < weight e → Odd (weight e) → ∃ n m', (n = 1 ∨ n = 3) ∧ m' ≠ m ∧
        golayDecode12 B (damage e bytes) out = .ok ((n : ℕ), m')) ∧
      (4 < weight e → Even (weight e) → golayDecode12 B (damage e bytes) out = .ok (-1, out) ∨
        ∃ n m', (n = 0 ∨ n = 2) ∧ m' ≠ m ∧ golayDecode12 B (damage e bytes) out = .ok ((n : ℕ), m')) := by
  have hrun : golayEncode12 B m = .ok (hdrBytes (codeword m)) := golayEncode12_run B hm
  have he := setWidth_lt e
  have hr := xor_lt (codeword_lt m) he
  have hinput : golayInput (damage e (hdrBytes (codeword m))) = codeword m ^^^ e.setWidth 32 := damage_input e m []
  have hdecode : ∀ out, golayDecode12 B (damage e (hdrBytes (codeword m))) out =
      fecGolay2412DecodeSymbol B (codeword m ^^^ e.setWidth 32) out := fun out => by rw [golayDecode12, hinput]
  have hself : codeword m ^^^ e.setWidth 32 ^^^ codeword m = e.setWidth 32 := by
    rw [BitVec.xor_comm (codeword m), BitVec.xor_assoc, BitVec.xor_self, BitVec.xor_zero]
  have hw := weight_setWidth e
  refine ⟨_, hrun, fun h3 => ?_, fun h4 => ?_, fun h5 hodd => ?_, fun h5 heven => ?_⟩
  · have hnear := decodeSymbol_near B hr hm (by rw [hself, hw]; exact h3) out
    rw [hdecode, hnear, hself, hw]
  · rw [hdecode]
    exact decodeSymbol_far B hr (fun m' _ => four_flips_far he (by rw [hw, h4]) m') out
  · have hno : ¬Even (weight (codeword m ^^^ e.setWidth 32)) := by
      rw [even_flips m he, hw]
      exact Nat.not_even_iff_odd.2 hodd
    obtain ⟨n, m', hn, hm'⟩ := odd_word hr (Nat.not_even_iff_odd.1 hno)
    exact ⟨n, m', hn, hm'.other (by rw [hw]; exact h5), by rw [hdecode, hm'.run B hr out]⟩
  · rcases even_word hr ((even_flips m he).2 (by rw [hw]; exact heven)) with ⟨n, m', hn, hm'⟩ | hdeep
    · exact Or.inr ⟨n, m', hn, hm'.other (by rw [hw]; exact h5), by rw [hdecode, hm'.run B hr out]⟩
    · exact Or.inl (by rw [hdecode, (deep_of_syn hr hdeep).run B hr out])

/-- five flipped bits of the header 0 -/
theorem flips_by_weight_sample : ∃ bytes, golayEncode12 .debug 0 = .ok bytes ∧ ∃ n m', (n = 1 ∨ n = 3) ∧ m' ≠ 0 ∧
    golayDecode12 .debug (damage 0x1f bytes) 7 = .ok ((n : ℕ), m') := by
  obtain ⟨bytes, hrun, -, -, hodd, -⟩ := flips_by_weight .debug 0 (by decide) 0x1f 7
  exact ⟨bytes, hrun, hodd (by decide +kernel) (by decide +kernel)⟩

end LongFi
