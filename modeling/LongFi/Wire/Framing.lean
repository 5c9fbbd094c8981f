/-
Framing of variable-length integers: where one ends, and what it stands for.

- `varint_framing`: a value takes the least number of bytes, is written if they fit, and is read back from the front of
  any bytes, so values packed back to back are unpacked again.
- `unpack_exact_iff`: what is unpacked is the number that the consumed bytes spell, except when four continuation bytes
  are followed by a byte of 16 or more. The fifth byte always ends the loop, and its bits beyond bit 31 are lost.
-/
import LongFi.Wire.Varint
import Mathlib.Data.List.GetD

namespace LongFi

open LongFi.Core

/-! ## Values in a row -/

/-- pack values back to back -/
def packAll : List U32 → Call CursorRes Cursor Unit
  | [] => return
  | v :: vs => do
    cursorPackVarLeU32 v
    packAll vs

/-- unpack n values -/
def unpackAll : ℕ → Call CursorRes Cursor (List U32)
  | 0 => return []
  | n + 1 => do
    let v ← cursorUnpackVarLeU32
    let vs ← unpackAll n
    return v :: vs

theorem packAll_writes (vs : List U32) : Writes (packAll vs) .errBufExhausted (vs.flatMap varint.encode) := by
  induction vs with
  | nil => exact Writes.nil _
  | cons v vs ih => exact (cursorPackVarLeU32_writes v).bind ih

/-- a written value is read back, whatever follows it -/
theorem unpack_encoded (v : U32) {c : Cursor} (hc : c.Wf) {r : List U8} (h : c.rest = varint.encode v ++ r) :
    cursorUnpackVarLeU32 c = .ok v (c.skip (varint.encode v).length) := by
  have hd : varint.decode c.rest = some (v, r) := by rw [h, varint.decode_encode]
  rw [cursorUnpackVarLeU32_reads.reads hc hd, h, List.length_append, Nat.add_sub_cancel]

theorem unpackAll_encoded (vs : List U32) {c : Cursor} (hc : c.Wf) {r : List U8}
    (h : c.rest = vs.flatMap varint.encode ++ r) :
    unpackAll vs.length c = .ok vs (c.skip (vs.flatMap varint.encode).length) := by
  induction vs generalizing c with
  | nil => rfl
  | cons v vs ih =>
    rw [List.flatMap_cons, List.append_assoc] at h
    have hlen : (varint.encode v).length ≤ c.rest.length := by
      rw [h, List.length_append]
      exact Nat.le_add_right _ _
    have hrest : (c.skip (varint.encode v).length).rest = vs.flatMap varint.encode ++ r := by
      rw [Cursor.skip_rest, h, List.drop_left]
    rw [List.length_cons, unpackAll, bind_ok (unpack_encoded v hc h), bind_ok (ih (hc.skip hlen) hrest), pure_run,
      Cursor.skip_skip, List.flatMap_cons, List.length_append]

/-- bs is the form of v: as short as possible, written if it fits, and read back in front of any bytes -/
structure Form (v : U32) (bs : List U8) : Prop where
  least : IsLeast {l | 1 ≤ l ∧ v.toNat < 2 ^ (7 * l)} bs.length
  le_five : bs.length ≤ 5
  packs : ∀ c : Cursor, c.Wf → Needs (cursorPackVarLeU32 v) .errBufExhausted bs.length c ∧
    ∀ c', cursorPackVarLeU32 v c = .ok () c' → (c'.buf.drop c.pos).take bs.length = bs
  unpacks : ∀ (c : Cursor) (r : List U8), c.Wf → c.rest = bs ++ r → cursorUnpackVarLeU32 c = .ok v (c.skip bs.length)

theorem form_encode (v : U32) : Form v (varint.encode v) where
  least := by
    rw [varint_encode_length]
    exact Base128.groups_isLeast v.toNat
  le_five := by
    rw [varint_encode_length]
    exact Base128.groups_le (by norm_num) (v.isLt.trans (by norm_num))
  packs := by
    intro c hc
    have hw := cursorPackVarLeU32_writes v
    refine ⟨hw.needs hc, fun c' hok => ?_⟩
    obtain ⟨hbytes, hpos⟩ := hw.written hc hok
    rw [hpos, Nat.add_sub_cancel_left] at hbytes
    exact hbytes
  unpacks _ _ hc h := unpack_encoded v hc h

/-- **Framing.** Every value has a form, and values packed in a row are unpacked again, whatever follows them. -/
theorem varint_framing : (∀ v : U32, ∃ bs, Form v bs) ∧
    ∀ (vs : List U32) (c : Cursor), c.Wf →
      Needs (packAll vs) .errBufExhausted (vs.map fun v => Base128.groups v.toNat).sum c ∧
        ∀ (c' d : Cursor) (r : List U8), packAll vs c = .ok () c' → d.Wf →
          d.rest = (c'.buf.drop c.pos).take (c'.pos - c.pos) ++ r →
            unpackAll vs.length d = .ok vs (d.skip (c'.pos - c.pos)) := by
  refine ⟨fun v => ⟨_, form_encode v⟩, ?_⟩
  intro vs c hc
  have hw := packAll_writes vs
  have hlen : (vs.flatMap varint.encode).length = (vs.map fun v => Base128.groups v.toNat).sum := by
    simp only [List.length_flatMap, varint_encode_length]
  refine ⟨hlen ▸ hw.needs hc, ?_⟩
  intro c' d r hpack hd hrest
  obtain ⟨hbytes, hpos⟩ := hw.written hc hpack
  rw [hbytes] at hrest
  rw [hpos, Nat.add_sub_cancel_left]
  exact unpackAll_encoded vs hd hrest

/-! ## What is unpacked -/

/-- the n bytes consumed are one complete spelling of val: the continuation bit is clear in the last one only, and the
groups add up to val -/
structure Exact (c : Cursor) (n : ℕ) (val : U32) : Prop where
  nonempty : 0 < n
  last : isExtended (c.rest.getD (n - 1) 0) = false
  more : ∀ i, i + 1 < n → isExtended (c.rest.getD i 0) = true
  value : ∑ i ∈ Finset.range n, (c.rest.getD i 0).toNat % 128 * 2 ^ (7 * i) = val.toNat

/-- four continuation bytes, and a fifth with bits that do not fit -/
def Overlong (c : Cursor) : Prop :=
  (∀ i < 4, isExtended (c.rest.getD i 0) = true) ∧ 16 ≤ (c.rest.getD 4 0).toNat

section Consumed

variable {c : Cursor} {init r : List U8} {last : U8} (hx : c.rest = init ++ last :: r)
include hx

theorem consumed_init {i : ℕ} (hi : i < init.length) : c.rest.getD i 0 = init.getD i 0 := by
  rw [hx, List.getD_append _ _ _ _ hi]

theorem consumed_last : c.rest.getD init.length 0 = last := by
  rw [hx, List.getD_append_right _ _ _ _ le_rfl, Nat.sub_self, List.getD_cons_zero]

theorem consumed_value : ∑ i ∈ Finset.range (init.length + 1), (c.rest.getD i 0).toNat % 128 * 2 ^ (7 * i) =
    Base128.value (init ++ [last]) := by
  rw [Base128.value_eq_sum, List.length_append, List.length_singleton]
  refine Finset.sum_congr rfl fun i hi => ?_
  have hlt : i < (init ++ [last]).length := by
    rw [List.length_append, List.length_singleton]
    exact Finset.mem_range.1 hi
  rw [hx, ← List.singleton_append, ← List.append_assoc, List.getD_append _ _ _ _ hlt]

/-- the loop stops behind the last byte with the number, taken modulo 2^32 -/
theorem unpack_spelled (hc : c.Wf) (hinit : ∀ b ∈ init, 128 ≤ b.toNat)
    (hend : last.toNat < 128 ∧ init.length < 5 ∨ init.length + 1 = 5) :
    cursorUnpackVarLeU32 c =
      .ok (BitVec.ofNat 32 (Base128.value (init ++ [last]))) (c.skip (init.length + 1)) := by
  have hd : Base128.decode 5 c.rest = some (Base128.value (init ++ [last]), r) :=
    (Base128.decode_iff (by norm_num)).2 ⟨init, last, hx, hinit, hend, rfl⟩
  have hvar : varint.decode c.rest = some (BitVec.ofNat 32 (Base128.value (init ++ [last])), r) :=
    Option.map_eq_some_iff.2 ⟨_, hd, rfl⟩
  have hn : c.rest.length - r.length = init.length + 1 := by
    rw [hx, List.length_append, List.length_cons]
    omega
  rw [cursorUnpackVarLeU32_reads.reads hc hvar, hn]

/-- the consumed bytes are a complete spelling iff the last one ends it and the number fits -/
theorem exact_consumed_iff (hinit : ∀ b ∈ init, 128 ≤ b.toNat) :
    Exact c (init.length + 1) (BitVec.ofNat 32 (Base128.value (init ++ [last]))) ↔
      last.toNat < 128 ∧ Base128.value (init ++ [last]) < 2 ^ 32 := by
  have hlast : isExtended last = false ↔ last.toNat < 128 := by
    rw [← Bool.not_eq_true, isExtended_iff, not_not]
  constructor
  · intro h
    refine ⟨?_, ?_⟩
    · have hbit := h.last
      rwa [Nat.add_sub_cancel, consumed_last hx, hlast] at hbit
    · have hsum := h.value
      rw [consumed_value hx, BitVec.toNat_ofNat] at hsum
      exact hsum ▸ Nat.mod_lt _ (by norm_num)
  · intro ⟨hend, hfit⟩
    refine ⟨Nat.succ_pos _, ?_, ?_, ?_⟩
    · rwa [Nat.add_sub_cancel, consumed_last hx, hlast]
    · intro i hi
      have hi' : i < init.length := Nat.lt_of_succ_lt_succ hi
      rw [consumed_init hx hi', isExtended_iff, List.getD_eq_getElem _ _ hi']
      exact Nat.not_lt.2 (hinit _ (List.getElem_mem hi'))
    · rw [consumed_value hx, BitVec.toNat_ofNat, Nat.mod_eq_of_lt hfit]

/-- the fifth byte decides -/
theorem overlong_consumed_iff (hinit : ∀ b ∈ init, 128 ≤ b.toNat)
    (hend : last.toNat < 128 ∧ init.length < 5 ∨ init.length + 1 = 5) :
    Overlong c ↔ init.length = 4 ∧ 16 ≤ last.toNat := by
  constructor
  · intro ⟨hmore, hfifth⟩
    have hfour : init.length = 4 := by
      by_contra h4
      rcases hend with ⟨hlast, hlen⟩ | hlen
      · -- the spelling ends before the fifth byte, so one of the first four has its bit clear
        have hbit := hmore init.length (by omega)
        rw [consumed_last hx, isExtended_iff] at hbit
        exact hbit hlast
      · omega
    rw [← hfour, consumed_last hx] at hfifth
    exact ⟨hfour, hfifth⟩
  · intro ⟨hfour, hfifth⟩
    refine ⟨?_, ?_⟩
    · intro i hi
      rw [← hfour] at hi
      rw [consumed_init hx hi, isExtended_iff, List.getD_eq_getElem _ _ hi]
      exact Nat.not_lt.2 (hinit _ (List.getElem_mem hi))
    · rw [← hfour, consumed_last hx]
      exact hfifth

end Consumed

/-- the number of a spelling fits 32 bits unless its fifth byte is 16 or more -/
theorem complete_iff {init : List U8} {last : U8} (hend : last.toNat < 128 ∧ init.length < 5 ∨ init.length + 1 = 5) :
    last.toNat < 128 ∧ Base128.value (init ++ [last]) < 2 ^ 32 ↔ ¬(init.length = 4 ∧ 16 ≤ last.toNat) := by
  have hlt := Base128.value_lt init
  have hval : Base128.value (init ++ [last]) = Base128.value init + 128 ^ init.length * (last.toNat % 128) := by
    rw [Base128.value_append]
    simp [Base128.value]
  rcases hend with ⟨hlast, hlen⟩ | hlen
  · rw [hval, Nat.mod_eq_of_lt hlast]
    rcases Nat.lt_or_ge init.length 4 with h4 | h4
    · -- at most four groups
      have hpow : 128 ^ (init.length + 1) ≤ 2 ^ 28 := by
        calc 128 ^ (init.length + 1) ≤ 128 ^ 4 := Nat.pow_le_pow_right (by norm_num) h4
          _ = 2 ^ 28 := by norm_num
      have hmul : 128 ^ init.length * last.toNat ≤ 128 ^ init.length * 127 := Nat.mul_le_mul_left _ (by omega)
      rw [pow_succ] at hpow
      exact ⟨fun _ h => by omega, fun _ => ⟨hlast, by omega⟩⟩
    · have hfour : init.length = 4 := by omega
      rw [hfour] at hlt ⊢
      norm_num at hlt ⊢
      omega
  · have hfour : init.length = 4 := by omega
    rw [hval, hfour]
    rw [hfour] at hlt
    norm_num at hlt ⊢
    omega

/-- an overlong encoding fills five bytes -/
theorem Overlong.split {c : Cursor} (h : Overlong c) : ∃ init last r, c.rest = init ++ last :: r ∧ init.length = 4 ∧
    ∀ b ∈ init, 128 ≤ b.toNat := by
  obtain ⟨hmore, hfifth⟩ := h
  have h4 : 4 < c.rest.length := by
    by_contra hshort
    rw [List.getD_eq_default _ _ (Nat.not_lt.1 hshort)] at hfifth
    exact absurd hfifth (by decide)
  have hlen : (c.rest.take 4).length = 4 := List.length_take_of_le h4.le
  refine ⟨c.rest.take 4, c.rest[4], c.rest.drop 5, ?_, hlen, fun b hb => ?_⟩
  · rw [← List.drop_eq_getElem_cons h4, List.take_append_drop]
  · obtain ⟨i, hi, rfl⟩ := List.getElem_of_mem hb
    rw [List.getElem_take]
    have hbit := hmore i (hlen ▸ hi)
    rw [List.getD_eq_getElem _ _ (by omega), isExtended_iff] at hbit
    exact Nat.not_lt.1 hbit

/-- without a byte left, nothing is unpacked -/
theorem unpack_empty {c : Cursor} (h : c.len ≤ c.pos) :
    cursorUnpackVarLeU32 c = .error (.code .errBufExhausted) c := by
  have hbyte : cursorUnpackLeU8 c = .error (.code .errBufExhausted) c := by
    rw [cursorUnpackLeU8, cursorUnpackLe, bind_ok (get_run c), if_pos (by omega), fail_run]
  rw [cursorUnpackVarLeU32, unpackVarLoop, bind_error hbyte]

/-- an overlong encoding never runs out of bytes -/
theorem Overlong.decoded {c : Cursor} (h : Overlong c) : Base128.decode 5 c.rest ≠ none := by
  obtain ⟨init, last, r, hx, hfour, hinit⟩ := h.split
  rw [(Base128.decode_iff (by norm_num)).2 ⟨init, last, hx, hinit, Or.inr (by rw [hfour]), rfl⟩]
  exact Option.some_ne_none _

/-- **What is unpacked is exact** unless the encoding is overlong. -/
theorem unpack_exact_iff (c : Cursor) (hlen : c.len ≤ c.buf.length) :
    (∀ val c', cursorUnpackVarLeU32 c = .ok val c' → Exact c (c'.pos - c.pos) val) ↔ ¬Overlong c := by
  by_cases hpos : c.pos ≤ c.len
  · have hc : c.Wf := ⟨hpos, hlen⟩
    cases hd : Base128.decode 5 c.rest with
    | none =>
      obtain ⟨n, -, hrun⟩ := (@unpackVarLoop_reads 5 0 0 c hc).2 hd
      refine ⟨fun _ h => h.decoded hd, ?_⟩
      intro _ val c' hok
      rw [cursorUnpackVarLeU32, hrun] at hok
      cases hok
    | some p =>
      obtain ⟨v, r⟩ := p
      obtain ⟨init, last, hx, hinit, hend, -⟩ := (Base128.decode_iff (by norm_num)).1 hd
      have hrun := unpack_spelled hx hc hinit hend
      have hskip : (c.skip (init.length + 1)).pos - c.pos = init.length + 1 := Nat.add_sub_cancel_left _ _
      rw [overlong_consumed_iff hx hinit hend, ← complete_iff hend, ← exact_consumed_iff hx hinit]
      constructor
      · intro h
        have hexact := h _ _ hrun
        rwa [hskip] at hexact
      · intro h val c' hok
        rw [hrun] at hok
        obtain ⟨rfl, rfl⟩ := EStateM.Result.ok.inj hok
        rwa [hskip]
  · have hlt := Nat.not_le.1 hpos
    have hnil : c.rest = [] := List.drop_eq_nil_of_le ((List.length_take_le _ _).trans hlt.le)
    refine ⟨?_, ?_⟩
    · intro _ h
      obtain ⟨init, last, r, hx, -, -⟩ := h.split
      rw [hnil] at hx
      exact List.append_ne_nil_of_right_ne_nil init (List.cons_ne_nil last r) hx.symm
    · intro _ val c' hok
      rw [unpack_empty hlt.le] at hok
      cases hok

theorem unpack_exact_iff_sample :
    (∀ val c', cursorUnpackVarLeU32 (cursorNew [0xac, 0x02, 0x07] 3) = .ok val c' →
      Exact (cursorNew [0xac, 0x02, 0x07] 3) (c'.pos - (cursorNew [0xac, 0x02, 0x07] 3).pos) val) ↔
        ¬Overlong (cursorNew [0xac, 0x02, 0x07] 3) :=
  unpack_exact_iff (cursorNew [0xac, 0x02, 0x07] 3) (by decide)

/-- 2^32 is read as 0 -/
theorem overlong_truncated :
    (∃ c', cursorUnpackVarLeU32 (cursorNew [0x80, 0x80, 0x80, 0x80, 0x10] 5) = .ok 0 c' ∧ c'.pos = 5) ∧
      ¬∀ c val c', c.Wf → cursorUnpackVarLeU32 c = .ok val c' → Exact c (c'.pos - c.pos) val := by
  have hrun : cursorUnpackVarLeU32 (cursorNew [0x80, 0x80, 0x80, 0x80, 0x10] 5) =
      .ok 0 ((cursorNew [0x80, 0x80, 0x80, 0x80, 0x10] 5).skip 5) := rfl
  refine ⟨⟨_, hrun, rfl⟩, fun h => ?_⟩
  have hval := (h _ _ _ (cursorNew_wf (by decide)) hrun).value
  exact absurd hval (by decide)

end LongFi
