/-
Variable-length 32-bit integers (`extra/cursor_varint/varint.c`).

`cursorPackVarLeU32_writes`: the packing loop writes the minimal base-128 form of the value.
`cursorUnpackVarLeU32_reads`: the unpacking loop reads at most five bytes; the fifth ends the number whatever its
continuation bit says, and its bits beyond bit 31 are shifted out.
-/
import LongFi.Core.Base128
import LongFi.Wire.Cursor

namespace LongFi

open LongFi.Core

/-! ## varint.c -/

def isExtended (b : U8) : Bool := b &&& 128 ≠ 0

/-- `k` iterations of the loop are left, `i` are done -/
def unpackVarLoop : (k i : ℕ) → (out : U32) → Call CursorRes Cursor U32
  | 0, _, out => return out
  | k + 1, i, out => do
    let input ← cursorUnpackLeU8
    let out := out ||| (input &&& 127).setWidth 32 <<< (7 * i)
    if isExtended input then unpackVarLoop k (i + 1) out else return out

/-- `for (i = 0; i <= sizeof(*dst); i++)` -/
def cursorUnpackVarLeU32 : Call CursorRes Cursor U32 := unpackVarLoop 5 0 0

def cursorPackVarLeU32 (val : U32) : Call CursorRes Cursor Unit :=
  if 127 < val then do
    cursorPackLeU8 ((val &&& 127 ||| 128).setWidth 8)
    cursorPackVarLeU32 (val >>> 7)
  else
    cursorPackLeU8 ((val &&& 127).setWidth 8)
termination_by val.toNat
decreasing_by
  simp only [BitVec.lt_def] at *
  rw [BitVec.toNat_ushiftRight, Nat.shiftRight_eq_div_pow]
  omega

/-- the varint field -/
def varint : Codec U8 U32 := Base128.word 32 5 (by norm_num) (by norm_num)

/-! ## Byte arithmetic -/

theorem isExtended_iff (b : U8) : isExtended b = true ↔ ¬b.toNat < 128 := by
  revert b
  decide +kernel

theorem and_127_toNat {w : ℕ} (hw : 7 ≤ w) (v : BitVec w) : (v &&& 127).toNat = v.toNat % 128 := by
  have h : 127 < 2 ^ w := lt_of_lt_of_le (by norm_num) (Nat.pow_le_pow_right (by norm_num) hw)
  have h127 : (127 : BitVec w).toNat = 2 ^ 7 - 1 := Nat.mod_eq_of_lt h
  rw [BitVec.toNat_and, h127]
  exact Nat.and_two_pow_sub_one_eq_mod v.toNat 7

theorem lowByte_eq (val : U32) : (val &&& 127).setWidth 8 = BitVec.ofNat 8 (val.toNat % 128) := by
  apply BitVec.eq_of_toNat_eq
  rw [BitVec.toNat_setWidth, and_127_toNat (by norm_num), BitVec.toNat_ofNat]

theorem contByte_eq (val : U32) : (val &&& 127 ||| 128).setWidth 8 = BitVec.ofNat 8 (val.toNat % 128 + 128) := by
  apply BitVec.eq_of_toNat_eq
  have h := Nat.two_pow_add_eq_or_of_lt (Nat.mod_lt val.toNat (y := 2 ^ 7) (by norm_num)) 1
  rw [BitVec.toNat_setWidth, BitVec.toNat_or, and_127_toNat (by norm_num), BitVec.toNat_ofNat, Nat.add_comm, Nat.or_comm]
  exact congrArg (· % 2 ^ 8) h.symm

/-- one more group in front: the shifted groups do not overlap -/
theorem group_or (out : U32) (b : U8) (v i : ℕ) :
    out ||| (b &&& 127).setWidth 32 <<< (7 * i) ||| BitVec.ofNat 32 v <<< (7 * (i + 1)) =
      out ||| BitVec.ofNat 32 (b.toNat % 128 + 128 * v) <<< (7 * i) := by
  have hb : (b &&& 127).setWidth 32 = BitVec.ofNat 32 (b.toNat % 128) := by
    apply BitVec.eq_of_toNat_eq
    rw [BitVec.toNat_setWidth, and_127_toNat (by norm_num), BitVec.toNat_ofNat]
  have hv : BitVec.ofNat 32 v <<< (7 * (i + 1)) = BitVec.ofNat 32 (v <<< 7) <<< (7 * i) := by
    rw [show 7 * (i + 1) = 7 + 7 * i by omega, BitVec.shiftLeft_add]
    congr 1
    apply BitVec.eq_of_toNat_eq
    simp [Nat.shiftLeft_eq]
  have hs : b.toNat % 128 + 128 * v = b.toNat % 128 ||| v <<< 7 := by
    have h := Nat.two_pow_add_eq_or_of_lt (Nat.mod_lt b.toNat (y := 2 ^ 7) (by norm_num)) v
    rw [Nat.shiftLeft_eq, Nat.or_comm, Nat.add_comm, Nat.mul_comm v]
    exact h
  rw [hb, hv, hs, BitVec.ofNat_or, BitVec.or_assoc, BitVec.shiftLeft_or_distrib]

/-! ## The loops -/

/-- a byte without the continuation bit is the last one -/
theorem unpackVarLoop_last {k i : ℕ} {out : U32} {c : Cursor} (hc : c.Wf) {b : U8} {x : List U8} (hr : c.rest = b :: x)
    (hb : b.toNat < 128) :
    unpackVarLoop (k + 1) i out c = .ok (out ||| BitVec.ofNat 32 b.toNat <<< (7 * i)) (c.skip 1) := by
  have he : isExtended b = false := by simpa [hb] using (isExtended_iff b).not
  have hg := group_or out b 0 i
  rw [BitVec.zero_shiftLeft, BitVec.or_zero, Nat.mul_zero, Nat.add_zero, Nat.mod_eq_of_lt hb] at hg
  rw [unpackVarLoop, bind_ok (cursorUnpackLeU8_cons hc hr)]
  simp only [he, Bool.false_eq_true, if_false]
  rw [pure_run, hg]

/-- a byte with the continuation bit is one group of 7 bits -/
theorem unpackVarLoop_more {k i : ℕ} {out : U32} {c : Cursor} (hc : c.Wf) {b : U8} {x : List U8} (hr : c.rest = b :: x)
    (hb : ¬b.toNat < 128) :
    unpackVarLoop (k + 1) i out c = unpackVarLoop k (i + 1) (out ||| (b &&& 127).setWidth 32 <<< (7 * i)) (c.skip 1) := by
  have he : isExtended b = true := (isExtended_iff b).2 hb
  rw [unpackVarLoop, bind_ok (cursorUnpackLeU8_cons hc hr)]
  simp only [he, if_true]

theorem unpackVarLoop_reads {k i : ℕ} {out : U32} {c : Cursor} (hc : c.Wf) :
    (∀ {v r}, Base128.decode k c.rest = some (v, r) →
      unpackVarLoop k i out c = .ok (out ||| BitVec.ofNat 32 v <<< (7 * i)) (c.skip (c.rest.length - r.length))) ∧
    (Base128.decode k c.rest = none →
      ∃ n, n ≤ c.rest.length ∧ unpackVarLoop k i out c = .error (.code .errBufExhausted) (c.skip n)) := by
  induction k generalizing i out c with
  | zero =>
    refine ⟨fun h => ?_, fun h => by simp [Base128.decode] at h⟩
    obtain ⟨rfl, rfl⟩ := Prod.mk.inj (Option.some.inj h)
    simp [unpackVarLoop]
  | succ k ih =>
    cases hr : c.rest with
    | nil =>
      refine ⟨fun h => by simp [Base128.decode] at h, fun _ => ⟨0, Nat.zero_le _, ?_⟩⟩
      rw [unpackVarLoop, bind_error (cursorUnpackLeU8_nil hc hr), Cursor.skip_zero]
    | cons b x =>
      rw [Base128.decode]
      by_cases hb : b.toNat < 128
      · rw [if_pos hb]
        refine ⟨fun h => ?_, fun h => by simp at h⟩
        obtain ⟨rfl, rfl⟩ := Prod.mk.inj (Option.some.inj h)
        rw [unpackVarLoop_last hc hr hb, List.length_cons, Nat.add_sub_cancel_left]
      · have hx : (c.skip 1).rest = x := by rw [Cursor.skip_rest, hr]; rfl
        have hc' : (c.skip 1).Wf := hc.skip (by simp [hr])
        obtain ⟨ih1, ih2⟩ := @ih (i + 1) (out ||| (b &&& 127).setWidth 32 <<< (7 * i)) _ hc'
        rw [hx] at ih1 ih2
        rw [if_neg hb, unpackVarLoop_more hc hr hb]
        refine ⟨fun h => ?_, fun h => ?_⟩
        · obtain ⟨⟨v, r'⟩, hd, he⟩ := Option.map_eq_some_iff.1 h
          obtain ⟨rfl, rfl⟩ := Prod.mk.inj he
          have hlen : r'.length ≤ x.length := by
            obtain ⟨c', hx', -⟩ := Base128.decode_some hd
            simp [hx']
          rw [ih1 hd, group_or, Cursor.skip_skip, List.length_cons, Nat.add_comm x.length, Nat.add_sub_assoc hlen]
        · obtain ⟨n, hn, hp⟩ := ih2 (Option.map_eq_none_iff.1 h)
          exact ⟨1 + n, by simp; omega, by rw [hp, Cursor.skip_skip]⟩

theorem cursorUnpackVarLeU32_reads : Reads cursorUnpackVarLeU32 .errBufExhausted varint where
  reads := by
    intro c a r hc h
    obtain ⟨⟨v, r'⟩, hd, he⟩ := Option.map_eq_some_iff.1 h
    obtain ⟨rfl, rfl⟩ := Prod.mk.inj he
    rw [cursorUnpackVarLeU32, (unpackVarLoop_reads hc).1 hd]
    simp
  fails := fun hc h => (unpackVarLoop_reads hc).2 (Option.map_eq_none_iff.1 h)

theorem cursorPackVarLeU32_writes (val : U32) :
    Writes (cursorPackVarLeU32 val) .errBufExhausted (varint.encode val) := by
  show Writes _ _ (Base128.encode val.toNat)
  induction hn : val.toNat using Nat.strong_induction_on generalizing val with
  | _ n ih =>
    subst hn
    have h7 : (val >>> 7).toNat = val.toNat / 128 := by
      rw [BitVec.toNat_ushiftRight, Nat.shiftRight_eq_div_pow]
    rw [cursorPackVarLeU32, Base128.encode]
    by_cases h : val.toNat < 128
    · rw [if_neg (by simp [BitVec.lt_def]; omega), if_pos h, lowByte_eq, Nat.mod_eq_of_lt h]
      exact cursorPackLeU8_writes _
    · rw [if_pos (by simp [BitVec.lt_def]; omega), if_neg h, contByte_eq]
      exact (cursorPackLeU8_writes _).bind (ih _ (by omega) (val >>> 7) h7)

@[simp] theorem varint_encode_length (val : U32) : (varint.encode val).length = Base128.groups val.toNat :=
  Base128.encode_length _

end LongFi
