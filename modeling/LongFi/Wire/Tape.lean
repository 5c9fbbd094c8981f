/-
A cursor as a tape: the bytes it has passed, the bytes in front of it, and the rest of the buffer object, which it never
touches. Every well-formed cursor is such a tape (`exists_tape`), and moving and writing are local to it.
-/
import LongFi.Wire.Cursor

namespace LongFi

open LongFi.Core

structure Tape where
  front : List U8
  back : List U8
deriving DecidableEq, Repr

namespace Tape

/-- the cursor at the head of a tape, in a buffer that goes on with tail -/
def cursor (t : Tape) (tail : List U8) : Cursor :=
  ⟨t.front ++ t.back ++ tail, t.front.length + t.back.length, t.front.length⟩

/-- the head passes n bytes -/
def move (t : Tape) (n : ℕ) : Tape := ⟨t.front ++ t.back.take n, t.back.drop n⟩

/-- the head writes over the bytes in front of it -/
def put (t : Tape) (bs : List U8) : Tape := ⟨t.front ++ bs, t.back.drop bs.length⟩

variable (t : Tape) (tail : List U8)

theorem cursor_wf : (t.cursor tail).Wf where
  pos_le := Nat.le_add_right _ _
  len_le := by simp [cursor]

@[simp] theorem cursor_remaining : cursorRemaining (t.cursor tail) = t.back.length := Nat.add_sub_cancel_left _ _

@[simp] theorem cursor_rest : (t.cursor tail).rest = t.back := by
  rw [Cursor.rest, cursor, ← List.length_append, List.take_left' rfl, List.drop_left' rfl]

theorem cursor_skip {n : ℕ} (hn : n ≤ t.back.length) : (t.cursor tail).skip n = (t.move n).cursor tail := by
  have htake : (t.back.take n).length = n := List.length_take_of_le hn
  simp only [Cursor.skip, cursor, move, Cursor.mk.injEq, List.length_append, List.length_drop, htake]
  refine ⟨?_, by omega, trivial⟩
  rw [List.append_assoc _ (t.back.take n), List.take_append_drop]

theorem cursor_write {bs : List U8} (hb : bs.length ≤ t.back.length) :
    (t.cursor tail).write bs = (t.put bs).cursor tail := by
  simp only [Cursor.write, cursor, put, Cursor.mk.injEq, List.length_append, List.length_drop]
  refine ⟨?_, by omega, trivial⟩
  rw [splice, List.append_assoc t.front, List.take_left' rfl, List.drop_length_add_append,
    List.drop_append_of_le_length hb, ← List.append_assoc]

/-- back at the old position, the bytes written are in front of the head -/
theorem cursor_back {bs : List U8} (hb : bs.length ≤ t.back.length) :
    ({ (t.cursor tail).write bs with pos := (t.cursor tail).pos } : Cursor) =
      cursor ⟨t.front, bs ++ t.back.drop bs.length⟩ tail := by
  rw [cursor_write t tail hb]
  simp only [cursor, put, List.length_append, List.append_assoc, Nat.add_assoc]

end Tape

theorem Cursor.Wf.exists_tape {c : Cursor} (hc : c.Wf) : ∃ (t : Tape) (tail : List U8), c = t.cursor tail := by
  have hpos := hc.pos_le
  have hlen := hc.len_le
  have htake : (c.buf.take c.len).take c.pos = c.buf.take c.pos := by rw [List.take_take, Nat.min_eq_left hpos]
  have hfront : (c.buf.take c.pos).length = c.pos := List.length_take_of_le (hpos.trans hlen)
  refine ⟨⟨c.buf.take c.pos, c.rest⟩, c.buf.drop c.len, ?_⟩
  rw [Tape.cursor, hfront, hc.rest_length, Nat.add_sub_cancel' hpos, Cursor.rest, ← htake, List.take_append_drop,
    List.take_append_drop]

end LongFi
