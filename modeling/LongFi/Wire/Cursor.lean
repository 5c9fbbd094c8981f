/-
The cursor library (`extra/cursor`): sequential reads and writes on a byte buffer with a length and a position.

Sizes (`size_t`) are natural numbers: a C object is far shorter than 2^63 bytes, so `pos + n` in the size checks does
not wrap for the size n of an object. Only `cursor_take` has n from its caller: `cursorTakeSizeT` is the function with any
`size_t`, `cursorTake` the same as long as the sum does not wrap (`cursorTakeSizeT_run`), as in all calls in this repository.
A read or write outside the buffer object is a fault (`load`, `store`), so "no fault" is memory safety.

Two readings of a cursor carry every later proof:
- `Reads p e C`: on a well-formed cursor, p reads exactly what the codec C decodes from the bytes that are left, and
  fails with code e, inside the buffer, when C does not decode them;
- `Writes p e bs`: p writes bs if it fits; otherwise it fails with code e after writing a prefix of bs that does fit.
-/
import LongFi.Core.Call
import LongFi.Core.Codec

namespace LongFi

open LongFi.Core

abbrev U8 := BitVec 8
abbrev U16 := BitVec 16
abbrev U32 := BitVec 32
abbrev U64 := BitVec 64

/-! ## cursor.c -/

/-- `enum cursor_res`; `cursor_res_ok` is the normal return of a call -/
inductive CursorRes where
  | errBufExhausted
deriving DecidableEq, Repr

structure Cursor where
  buf : List U8
  len : ℕ
  pos : ℕ
deriving DecidableEq, Repr

/-- `buf` is the object the caller points to, so `assert(buf)` holds -/
def cursorNew (buf : List U8) (buflen : ℕ) : Cursor := ⟨buf, buflen, 0⟩

def cursorRemaining (csr : Cursor) : ℕ := csr.len - csr.pos

/-- `cursor_take`; the sum wraps -/
def cursorTakeSizeT (n : U64) : Call CursorRes Cursor (List U8) := do
  let csr ← get
  if (csr.pos + n.toNat) % 2 ^ 64 > csr.len then
    fail .errBufExhausted
  else
    let dst ← lift (load csr.buf csr.pos n.toNat)
    set { csr with pos := (csr.pos + n.toNat) % 2 ^ 64 }
    return dst

/-- `cursor_take` of so few bytes that the sum does not wrap -/
def cursorTake (n : ℕ) : Call CursorRes Cursor (List U8) := do
  let csr ← get
  if csr.pos + n > csr.len then
    fail .errBufExhausted
  else
    let dst ← lift (load csr.buf csr.pos n)
    set { csr with pos := csr.pos + n }
    return dst

/-- returns the number of bytes and the bytes copied to `dst` -/
def cursorTakeRemaining {ε : Type} (B : Build) : Call ε Cursor (ℕ × List U8) := do
  let remaining := cursorRemaining (← get)
  let res ← attempt (cursorTake remaining)
  lift (check B (res.isOk = true))
  lift (check B (0 = cursorRemaining (← get)))
  return (remaining, res.toOption.getD [])

def cursorPut (src : List U8) (srcLen : ℕ) : Call CursorRes Cursor Unit := do
  let csr ← get
  if cursorRemaining csr < srcLen then
    fail .errBufExhausted
  else
    let bytes ← lift (load src 0 srcLen)
    let buf ← lift (store csr.buf csr.pos bytes)
    set { csr with buf := buf, pos := csr.pos + srcLen }

/-- the `cursor_unpack_le_*` family: `SIZE_CHECK`, `unpack_le_*`, `INC_POS` -/
def cursorUnpackLe {α : Type} (size : ℕ) (unpackLe : List U8 → α) : Call CursorRes Cursor α := do
  let csr ← get
  if csr.pos + size > csr.len then
    fail .errBufExhausted
  else
    let src ← lift (load csr.buf csr.pos size)
    set { csr with pos := csr.pos + size }
    return unpackLe src

/-- the `cursor_pack_le_*` family: `SIZE_CHECK`, `pack_le_*`, `INC_POS` -/
def cursorPackLe (packed : List U8) : Call CursorRes Cursor Unit := do
  let csr ← get
  if csr.pos + packed.length > csr.len then
    fail .errBufExhausted
  else
    let buf ← lift (store csr.buf csr.pos packed)
    set { csr with buf := buf, pos := csr.pos + packed.length }

def unpackLeU8 (src : List U8) : U8 := src.getD 0 0

def unpackLeU32 (src : List U8) : U32 :=
  (src.getD 3 0).setWidth 32 <<< 24 ||| (src.getD 2 0).setWidth 32 <<< 16 ||| (src.getD 1 0).setWidth 32 <<< 8 |||
    (src.getD 0 0).setWidth 32

def packLeU8 (val : U8) : List U8 := [val]

def packLeU32 (val : U32) : List U8 :=
  [(val &&& 0xff).setWidth 8, (val >>> 8 &&& 0xff).setWidth 8, (val >>> 16 &&& 0xff).setWidth 8,
    (val >>> 24 &&& 0xff).setWidth 8]

def cursorUnpackLeU8 : Call CursorRes Cursor U8 := cursorUnpackLe 1 unpackLeU8
def cursorUnpackLeU32 : Call CursorRes Cursor U32 := cursorUnpackLe 4 unpackLeU32
def cursorPackLeU8 (val : U8) : Call CursorRes Cursor Unit := cursorPackLe (packLeU8 val)
def cursorPackLeU32 (val : U32) : Call CursorRes Cursor Unit := cursorPackLe (packLeU32 val)

/-! ## Well-formed cursors -/

/-- the position is inside the length, the length inside the buffer object -/
structure Cursor.Wf (c : Cursor) : Prop where
  pos_le : c.pos ≤ c.len
  len_le : c.len ≤ c.buf.length

/-- the bytes not read yet -/
def Cursor.rest (c : Cursor) : List U8 := (c.buf.take c.len).drop c.pos

def Cursor.skip (c : Cursor) (n : ℕ) : Cursor := { c with pos := c.pos + n }

/-- the cursor after writing bs -/
def Cursor.write (c : Cursor) (bs : List U8) : Cursor :=
  { c with buf := splice c.buf c.pos bs, pos := c.pos + bs.length }

theorem cursorNew_wf {buf : List U8} {n : ℕ} (h : n ≤ buf.length) : (cursorNew buf n).Wf := ⟨Nat.zero_le _, h⟩

@[simp] theorem cursorNew_rest (buf : List U8) (n : ℕ) : (cursorNew buf n).rest = buf.take n := by
  simp [cursorNew, Cursor.rest]

@[simp] theorem cursorNew_remaining (buf : List U8) (n : ℕ) : cursorRemaining (cursorNew buf n) = n := rfl

theorem Cursor.Wf.rest_length {c : Cursor} (h : c.Wf) : c.rest.length = c.len - c.pos := by
  have := h.len_le
  simp only [Cursor.rest, List.length_drop, List.length_take]
  omega

@[simp] theorem Cursor.skip_zero (c : Cursor) : c.skip 0 = c := rfl

@[simp] theorem Cursor.skip_skip (c : Cursor) (m n : ℕ) : (c.skip m).skip n = c.skip (m + n) := by
  simp [Cursor.skip, Nat.add_assoc]

@[simp] theorem Cursor.skip_rest (c : Cursor) (n : ℕ) : (c.skip n).rest = c.rest.drop n := by
  simp [Cursor.skip, Cursor.rest, List.drop_drop]

theorem Cursor.Wf.skip {c : Cursor} (h : c.Wf) {n : ℕ} (hn : n ≤ c.rest.length) : (c.skip n).Wf := by
  have h1 := h.rest_length
  have h2 := h.pos_le
  exact ⟨by simp only [Cursor.skip]; omega, h.len_le⟩

@[simp] theorem Cursor.write_nil (c : Cursor) : c.write [] = c := by
  simp [Cursor.write, splice]

theorem Cursor.Wf.write_write {c : Cursor} (h : c.Wf) {as : List U8} (ha : as.length ≤ cursorRemaining c)
    (bs : List U8) : (c.write as).write bs = c.write (as ++ bs) := by
  have h1 := h.pos_le
  have h2 := h.len_le
  simp only [cursorRemaining] at ha
  simp only [Cursor.write, List.length_append, Nat.add_assoc]
  rw [splice_splice (by omega)]

theorem Cursor.Wf.write {c : Cursor} (h : c.Wf) {bs : List U8} (hb : bs.length ≤ cursorRemaining c) :
    (c.write bs).Wf := by
  have h1 := h.pos_le
  have h2 := h.len_le
  simp only [cursorRemaining] at hb
  refine ⟨by simp only [Cursor.write]; omega, ?_⟩
  simp only [Cursor.write]
  rw [splice_length (by omega)]
  exact h2

theorem Cursor.write_remaining (c : Cursor) (bs : List U8) :
    cursorRemaining (c.write bs) = cursorRemaining c - bs.length := by
  simp only [cursorRemaining, Cursor.write]
  omega

/-- what a fresh cursor has written is the front of its buffer -/
theorem cursorNew_written {buf bs : List U8} {n : ℕ} :
    ((cursorNew buf n).write bs).buf.take ((cursorNew buf n).write bs).pos = bs := by
  simp [cursorNew, Cursor.write, splice]

/-! ## Reading a field -/

variable {ε ε' α β : Type}

/-- p reads what C decodes from the bytes left, and fails with e when C does not decode them -/
structure Reads (p : Call ε Cursor α) (e : ε) (C : Codec U8 α) : Prop where
  reads : ∀ {c : Cursor} {a : α} {r : List U8}, c.Wf → C.decode c.rest = some (a, r) →
    p c = .ok a (c.skip (c.rest.length - r.length))
  fails : ∀ {c : Cursor}, c.Wf → C.decode c.rest = none →
    ∃ n, n ≤ c.rest.length ∧ p c = .error (.code e) (c.skip n)

/-- skipping what C consumed leaves what C left -/
theorem Cursor.skip_decoded (C : Codec U8 α) {c : Cursor} {a : α} {r : List U8} (h : C.decode c.rest = some (a, r)) :
    r.length ≤ c.rest.length ∧ (c.skip (c.rest.length - r.length)).rest = r := by
  obtain ⟨u, hu⟩ := C.decode_suffix h
  have hlen := congrArg List.length hu
  rw [List.length_append] at hlen
  refine ⟨hlen ▸ Nat.le_add_left _ _, ?_⟩
  rw [Cursor.skip_rest, ← hlen, Nat.add_sub_cancel, ← hu, List.drop_left]

theorem Cursor.rest_take {c : Cursor} {n : ℕ} (hn : n ≤ c.len - c.pos) : (c.buf.drop c.pos).take n = c.rest.take n := by
  rw [Cursor.rest, List.drop_take, List.take_take, Nat.min_eq_left hn]

theorem cursorTake_run {c : Cursor} (h : c.Wf) (n : ℕ) :
    cursorTake n c = if n ≤ c.rest.length then .ok (c.rest.take n) (c.skip n) else .error (.code .errBufExhausted) c := by
  have h1 := h.pos_le
  have h2 := h.len_le
  have h3 := h.rest_length
  unfold cursorTake
  rw [bind_ok (get_run c)]
  by_cases hn : n ≤ c.rest.length
  · rw [if_neg (by omega), if_pos hn, load_ok (by omega), bind_ok (lift_ok _ c), Cursor.rest_take (by omega)]
    rfl
  · rw [if_pos (by omega), if_neg hn]
    rfl

/-- if the sum wraps, the check is passed and the copy leaves the buffer -/
theorem cursorTakeSizeT_run {c : Cursor} (h : c.Wf) (hbuf : c.buf.length < 2 ^ 64) (n : U64) : cursorTakeSizeT n c =
    if c.pos + n.toNat < 2 ^ 64 then cursorTake n.toNat c else .error (.fault .outOfBounds) c := by
  have hpos := h.pos_le
  have hlen := h.len_le
  have hn : n.toNat < 2 ^ 64 := n.isLt
  unfold cursorTakeSizeT cursorTake
  rw [bind_ok (get_run c), bind_ok (get_run c)]
  by_cases hwrap : c.pos + n.toNat < 2 ^ 64
  · rw [if_pos hwrap, Nat.mod_eq_of_lt hwrap]
  · have hsmall : (c.pos + n.toNat) % 2 ^ 64 ≤ c.len := by omega
    have hload : load c.buf c.pos n.toNat = .error .outOfBounds := if_neg (by omega)
    rw [if_neg hwrap, if_neg (Nat.not_lt.2 hsmall), hload, bind_error (lift_error _ c)]

theorem cursorUnpackLe_eq (size : ℕ) (f : List U8 → α) : cursorUnpackLe size f = f <$> cursorTake size := by
  funext c
  simp only [cursorUnpackLe, cursorTake, Functor.map, EStateM.map, bind, EStateM.bind, get_run]
  split_ifs
  · rfl
  · cases load c.buf c.pos size <;> rfl

theorem cursorUnpackLe_run {c : Cursor} (h : c.Wf) (n : ℕ) (f : List U8 → α) :
    cursorUnpackLe n f c =
      if n ≤ c.rest.length then .ok (f (c.rest.take n)) (c.skip n) else .error (.code .errBufExhausted) c := by
  rw [cursorUnpackLe_eq]
  simp only [Functor.map, EStateM.map, cursorTake_run h]
  split_ifs <;> rfl

theorem cursorUnpackLeU8_nil {c : Cursor} (h : c.Wf) (hr : c.rest = []) :
    cursorUnpackLeU8 c = .error (.code .errBufExhausted) c := by
  rw [cursorUnpackLeU8, cursorUnpackLe_run h, hr, if_neg (by simp)]

theorem cursorUnpackLeU8_cons {c : Cursor} (h : c.Wf) {b : U8} {r : List U8} (hr : c.rest = b :: r) :
    cursorUnpackLeU8 c = .ok b (c.skip 1) := by
  rw [cursorUnpackLeU8, cursorUnpackLe_run h, hr, if_pos (by simp)]
  rfl

/-- taking the remaining bytes always succeeds and leaves the cursor at its end -/
theorem cursorTakeRemaining_run {c : Cursor} (h : c.Wf) (B : Build) :
    (cursorTakeRemaining B : Call ε Cursor _) c = .ok (c.rest.length, c.rest) (c.skip c.rest.length) := by
  have h1 := h.pos_le
  have hrem : cursorRemaining c = c.rest.length := h.rest_length.symm
  have hend : 0 = cursorRemaining (c.skip c.rest.length) := by
    simp only [cursorRemaining, Cursor.skip]
    have := h.rest_length
    omega
  have ht : cursorTake c.rest.length c = .ok c.rest (c.skip c.rest.length) := by
    rw [cursorTake_run h, if_pos le_rfl, List.take_length]
  have hok : check B ((Except.ok c.rest : Except CursorRes (List U8)).isOk = true) = .ok () := check_of_true B rfl
  unfold cursorTakeRemaining
  rw [bind_ok (get_run c), hrem, bind_ok (attempt_ok ht), hok, bind_ok (lift_ok _ _),
    bind_ok (get_run _), check_of_true B hend, bind_ok (lift_ok _ _)]
  rfl

/-! ## Writing a field -/

/-- p writes bs if it fits; otherwise it fails with e after writing a prefix of bs that fits -/
structure Writes (p : Call ε Cursor Unit) (e : ε) (bs : List U8) : Prop where
  fits : ∀ {c : Cursor}, c.Wf → bs.length ≤ cursorRemaining c → p c = .ok () (c.write bs)
  full : ∀ {c : Cursor}, c.Wf → cursorRemaining c < bs.length →
    ∃ k, k ≤ cursorRemaining c ∧ p c = .error (.code e) (c.write (bs.take k))

theorem Writes.recode {p : Call ε Cursor Unit} {e : ε} {bs : List U8} (h : Writes p e bs) (f : ε → ε') :
    Writes (recode f p) (f e) bs where
  fits hc hr := recode_ok (h.fits hc hr)
  full hc hr := by
    obtain ⟨k, hk, hp⟩ := h.full hc hr
    exact ⟨k, hk, recode_code hp⟩

theorem Writes.nil (e : ε) : Writes (pure ()) e [] where
  fits _ _ := by rw [pure_run, Cursor.write_nil]
  full _ hr := absurd hr (Nat.not_lt_zero _)

/-- one write after the other is one write of the concatenation -/
theorem Writes.bind {p q : Call ε Cursor Unit} {e : ε} {as bs : List U8} (hp : Writes p e as) (hq : Writes q e bs) :
    Writes (do p; q) e (as ++ bs) where
  fits := by
    intro c hc hr
    rw [List.length_append] at hr
    have ha : as.length ≤ cursorRemaining c := by omega
    rw [bind_ok (hp.fits hc ha), hq.fits (hc.write ha) (by rw [Cursor.write_remaining]; omega), hc.write_write ha]
  full := by
    intro c hc hr
    rw [List.length_append] at hr
    by_cases ha : as.length ≤ cursorRemaining c
    · -- the first write fits, so the second one runs out of room
      obtain ⟨k, hk, hq⟩ := hq.full (hc.write ha) (by rw [Cursor.write_remaining]; omega)
      rw [Cursor.write_remaining] at hk
      refine ⟨as.length + k, by omega, ?_⟩
      rw [bind_ok (hp.fits hc ha), hq, hc.write_write ha, List.take_length_add_append]
    · obtain ⟨k, hk, hp⟩ := hp.full hc (by omega)
      refine ⟨k, hk, ?_⟩
      rw [bind_error hp, List.take_append_of_le_length (by omega)]

theorem cursorPackLe_writes (bs : List U8) : Writes (cursorPackLe bs) .errBufExhausted bs where
  fits := by
    intro c hc hr
    have h1 := hc.pos_le
    have h2 := hc.len_le
    simp only [cursorRemaining] at hr
    unfold cursorPackLe
    rw [bind_ok (get_run c), if_neg (by omega), store_ok (by omega), bind_ok (lift_ok _ c)]
    rfl
  full := by
    intro c hc hr
    have h1 := hc.pos_le
    simp only [cursorRemaining] at hr
    refine ⟨0, Nat.zero_le _, ?_⟩
    unfold cursorPackLe
    rw [bind_ok (get_run c), if_pos (by omega)]
    simp

theorem cursorPut_writes {src : List U8} {n : ℕ} (hn : n ≤ src.length) :
    Writes (cursorPut src n) .errBufExhausted (src.take n) where
  fits := by
    intro c hc hr
    have h1 := hc.pos_le
    have h2 := hc.len_le
    have hl : (src.take n).length = n := by simp; omega
    rw [hl] at hr
    simp only [cursorRemaining] at hr
    unfold cursorPut
    rw [bind_ok (get_run c), if_neg (by simp only [cursorRemaining]; omega), load_ok (by omega), List.drop_zero,
      bind_ok (lift_ok _ c), store_ok (by omega), bind_ok (lift_ok _ c)]
    simp [Cursor.write, hl]
  full := by
    intro c hc hr
    have hl : (src.take n).length = n := by simp; omega
    rw [hl] at hr
    refine ⟨0, Nat.zero_le _, ?_⟩
    unfold cursorPut
    rw [bind_ok (get_run c), if_pos hr]
    simp

/-- p needs n bytes at c: it returns iff they fit, and then writes nothing else; otherwise it fails with e. Nothing before
the position or behind the length is ever written. -/
structure Needs (p : Call ε Cursor Unit) (e : ε) (n : ℕ) (c : Cursor) : Prop where
  ok_iff : (∃ c', p c = .ok () c') ↔ n ≤ c.len - c.pos
  ok : ∀ c', p c = .ok () c' → c'.pos = c.pos + n ∧ c'.len = c.len ∧ c'.pos ≤ c'.len ∧
    ∀ j, j < c.pos ∨ c.pos + n ≤ j → c'.buf[j]? = c.buf[j]?
  error : ∀ x c', p c = .error x c' → x = .code e ∧ c.pos ≤ c'.pos ∧ c'.len = c.len ∧ c'.pos ≤ c'.len ∧
    ∀ j, j < c.pos ∨ c.len ≤ j → c'.buf[j]? = c.buf[j]?

/-- the bytes outside the written range are unchanged -/
theorem Cursor.Wf.write_frame {c : Cursor} (h : c.Wf) {bs : List U8} (hb : bs.length ≤ cursorRemaining c) {j : ℕ}
    (hj : j < c.pos ∨ c.pos + bs.length ≤ j) : (c.write bs).buf[j]? = c.buf[j]? := by
  have h1 := h.pos_le
  have h2 := h.len_le
  simp only [cursorRemaining] at hb
  exact splice_frame (by omega) hj

theorem Writes.needs {p : Call ε Cursor Unit} {e : ε} {bs : List U8} (h : Writes p e bs) {c : Cursor} (hc : c.Wf) :
    Needs p e bs.length c := by
  have hpos := hc.pos_le
  rcases Nat.lt_or_ge (cursorRemaining c) bs.length with hr | hr
  · obtain ⟨k, hk, hp⟩ := h.full hc hr
    have hlen : (bs.take k).length = k := List.length_take_of_le (hk.trans hr.le)
    have hend : c.pos + k ≤ c.len := by
      simp only [cursorRemaining] at hk
      omega
    have hnot : ∀ c', p c ≠ .ok () c' := by
      intro c' hok
      rw [hp] at hok
      cases hok
    refine ⟨⟨?_, ?_⟩, ?_, ?_⟩
    · intro ⟨c', hok⟩
      exact absurd hok (hnot c')
    · intro hle
      exact absurd hle (Nat.not_le.2 hr)
    · intro c' hok
      exact absurd hok (hnot c')
    · intro x c' herr
      rw [hp] at herr
      obtain ⟨rfl, rfl⟩ := EStateM.Result.error.inj herr
      refine ⟨rfl, Nat.le_add_right _ _, rfl, ?_, ?_⟩
      · rw [Cursor.write, hlen]
        exact hend
      · intro j hj
        apply hc.write_frame (hlen.symm ▸ hk)
        rw [hlen]
        exact hj.imp_right hend.trans
  · have hp := h.fits hc hr
    refine ⟨⟨fun _ => hr, fun _ => ⟨_, hp⟩⟩, ?_, ?_⟩
    · intro c' hok
      rw [hp] at hok
      obtain ⟨-, rfl⟩ := EStateM.Result.ok.inj hok
      exact ⟨rfl, rfl, (hc.write hr).pos_le, fun j hj => hc.write_frame hr hj⟩
    · intro x c' herr
      rw [hp] at herr
      cases herr

/-- the bytes a successful write leaves behind the old position -/
theorem Writes.written {p : Call ε Cursor Unit} {e : ε} {bs : List U8} (h : Writes p e bs) {c c' : Cursor} (hc : c.Wf)
    (hok : p c = .ok () c') : (c'.buf.drop c.pos).take (c'.pos - c.pos) = bs ∧ c'.pos = c.pos + bs.length := by
  have hr := ((h.needs hc).ok_iff).1 ⟨c', hok⟩
  rw [h.fits hc hr] at hok
  obtain ⟨-, rfl⟩ := EStateM.Result.ok.inj hok
  have hpos : (c.write bs).pos - c.pos = bs.length := Nat.add_sub_cancel_left _ _
  rw [hpos]
  exact ⟨splice_read (hc.pos_le.trans hc.len_le), rfl⟩

/-! ## The fixed 32-bit field -/

/-- `(val >> k) & 0xff` is the byte of val at bit k -/
theorem byte_eq_extract (val : U32) (k : ℕ) : (val >>> k &&& 0xff).setWidth 8 = val.extractLsb' k 8 := by
  have h255 : ∀ i < 8, (0xff : U32).getLsbD i = true := by decide
  apply BitVec.eq_of_getLsbD_eq
  intro i hi
  simp only [BitVec.getLsbD_setWidth, BitVec.getLsbD_and, h255 i hi, BitVec.getLsbD_ushiftRight,
    BitVec.getLsbD_extractLsb', Bool.and_true]

theorem join_bytes (val : U32) : (val.extractLsb' 24 8).setWidth 32 <<< 24 ||| (val.extractLsb' 16 8).setWidth 32 <<< 16 |||
    (val.extractLsb' 8 8).setWidth 32 <<< 8 ||| (val.extractLsb' 0 8).setWidth 32 = val := by
  apply BitVec.eq_of_getLsbD_eq
  intro i hi
  simp only [BitVec.getLsbD_or, BitVec.getLsbD_shiftLeft, BitVec.getLsbD_setWidth, BitVec.getLsbD_extractLsb']
  grind

theorem unpackLeU32_packLeU32 (val : U32) : unpackLeU32 (packLeU32 val) = val := by
  have h0 := byte_eq_extract val 0
  rw [BitVec.ushiftRight_zero] at h0
  simp only [unpackLeU32, packLeU32, List.getD_cons_zero, List.getD_cons_succ, byte_eq_extract, h0]
  exact join_bytes val

theorem packLeU32_unpackLeU32 (a b c d : U8) : packLeU32 (unpackLeU32 [a, b, c, d]) = [a, b, c, d] := by
  have h0 := byte_eq_extract (unpackLeU32 [a, b, c, d]) 0
  rw [BitVec.ushiftRight_zero] at h0
  rw [packLeU32, h0, byte_eq_extract, byte_eq_extract, byte_eq_extract]
  simp only [unpackLeU32, List.getD_cons_zero, List.getD_cons_succ, List.cons.injEq, and_true]
  refine ⟨?_, ?_, ?_, ?_⟩ <;> apply BitVec.eq_of_getLsbD_eq <;> intro i hi <;>
    simp only [BitVec.getLsbD_extractLsb', BitVec.getLsbD_or, BitVec.getLsbD_shiftLeft, BitVec.getLsbD_setWidth] <;>
    grind

/-- four bytes are determined by the integer read from them -/
theorem unpackLeU32_inj {x y : List U8} (hx : x.length = 4) (hy : y.length = 4) (h : unpackLeU32 x = unpackLeU32 y) :
    x = y := by
  obtain ⟨a, b, c, d, rfl⟩ := List.length_eq_four.1 hx
  obtain ⟨a', b', c', d', rfl⟩ := List.length_eq_four.1 hy
  rw [← packLeU32_unpackLeU32 a b c d, h, packLeU32_unpackLeU32]

/-- the four-byte little-endian field -/
def le32 : Codec U8 U32 where
  encode := packLeU32
  decode x := if 4 ≤ x.length then some (unpackLeU32 (x.take 4), x.drop 4) else none
  decode_encode val r := by
    have ht : (packLeU32 val ++ r).take 4 = packLeU32 val := List.take_left' rfl
    have hd : (packLeU32 val ++ r).drop 4 = r := List.drop_left' rfl
    rw [if_pos (by simp [packLeU32]), ht, hd, unpackLeU32_packLeU32]
  decode_local := by
    intro x a r h
    split_ifs at h with hx
    obtain ⟨rfl, rfl⟩ := Prod.mk.inj (Option.some.inj h)
    have hl : (x.take 4).length = 4 := by simp; omega
    refine ⟨x.take 4, (List.take_append_drop 4 x).symm, fun r' => ?_⟩
    rw [if_pos (by rw [List.length_append]; omega), List.take_left' hl, List.drop_left' hl]
  encode_short := by
    intro x a r h
    split_ifs at h with hx
    obtain ⟨rfl, rfl⟩ := Prod.mk.inj (Option.some.inj h)
    simp only [packLeU32, List.length_cons, List.length_nil, List.length_drop]
    omega

theorem cursorUnpackLeU32_reads : Reads cursorUnpackLeU32 .errBufExhausted le32 where
  reads := by
    intro c a r hc h
    simp only [le32] at h
    split_ifs at h with hx
    obtain ⟨rfl, rfl⟩ := Prod.mk.inj (Option.some.inj h)
    rw [cursorUnpackLeU32, cursorUnpackLe_run hc, if_pos hx, List.length_drop, Nat.sub_sub_self hx]
  fails := by
    intro c hc h
    simp only [le32] at h
    split_ifs at h with hx
    refine ⟨0, Nat.zero_le _, ?_⟩
    rw [cursorUnpackLeU32, cursorUnpackLe_run hc, if_neg hx, Cursor.skip_zero]

theorem cursorPackLeU32_writes (val : U32) : Writes (cursorPackLeU32 val) .errBufExhausted (le32.encode val) :=
  cursorPackLe_writes _

theorem cursorPackLeU8_writes (val : U8) : Writes (cursorPackLeU8 val) .errBufExhausted [val] := cursorPackLe_writes _

end LongFi
