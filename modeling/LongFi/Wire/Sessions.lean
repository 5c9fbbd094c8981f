/-
Sessions on a cursor: the functions of the cursor library called in any order.

On a tape every function is local: it reads or writes a block in front of the head and passes it, or finds too few bytes
there and does nothing. `sessions_refine` says that every session on a cursor is that session on its tape: no call leaves
the bounds of the buffer, no assertion fails, bytes that were passed stay as they are, and bytes behind the given length are
never touched. The one exception is a `cursor_take` of so many bytes that the sum in its check wraps (`Tape.Wraps`), which
passes the check and leaves the buffer.
-/
import LongFi.Wire.Packing

namespace LongFi

open LongFi.Core

/-! ## Sessions -/

/-- a call of the cursor library -/
inductive CursorCall where
  | pack (k : Field) (val : k.Val)
  | unpack (k : Field)
  | put (src : List U8)
  | take (n : U64)
  | takeRemaining
  | remaining

/-- what a call gives to its caller: a result code, and what it stored or returned -/
inductive Answer where
  | ok
  | errBufExhausted
  | value (k : Field) (val : k.Val)
  | bytes (dst : List U8)
  | rest (n : ℕ) (dst : List U8)
  | size (n : ℕ)

def answer {α : Type} (f : α → Answer) : Except CursorRes α → Answer
  | .ok a => f a
  | .error .errBufExhausted => .errBufExhausted

section

variable {ε : Type} (B : Build)

def perform : CursorCall → Call ε Cursor Answer
  | .pack k val => do
    let res ← attempt (cursorPack k val)
    return answer (fun _ => .ok) res
  | .unpack k => do
    let res ← attempt (cursorUnpack k)
    return answer (.value k) res
  | .put src => do
    let res ← attempt (cursorPut src src.length)
    return answer (fun _ => .ok) res
  | .take n => do
    let res ← attempt (cursorTakeSizeT n)
    return answer .bytes res
  | .takeRemaining => do
    let (n, dst) ← cursorTakeRemaining B
    return .rest n dst
  | .remaining => do
    return .size (cursorRemaining (← get))

def session : List CursorCall → Call ε Cursor (List Answer)
  | [] => pure []
  | call :: calls => do
    let a ← perform B call
    let as ← session calls
    return a :: as

end

/-! ## The same on a tape -/

/-- the value with these bytes in the order of the field -/
def Field.value (k : Field) (bs : List U8) : k.Val :=
  match k.order with
  | .le => ofBytes _ bs
  | .be => ofBytes _ bs.reverse

namespace Tape

variable (t : Tape)

def write (bs : List U8) : Answer × Tape :=
  if bs.length ≤ t.back.length then (.ok, t.put bs) else (.errBufExhausted, t)

def read (n : ℕ) (f : List U8 → Answer) : Answer × Tape :=
  if n ≤ t.back.length then (f (t.back.take n), t.move n) else (.errBufExhausted, t)

def step : CursorCall → Answer × Tape
  | .pack k val => t.write (k.bytes val)
  | .unpack k => t.read k.size fun bs => .value k (k.value bs)
  | .put src => t.write src
  | .take n => t.read n.toNat .bytes
  | .takeRemaining => (.rest t.back.length t.back, t.move t.back.length)
  | .remaining => (.size t.back.length, t)

/-- the answers of a session, and the tape after it -/
def run (t : Tape) : List CursorCall → List Answer × Tape
  | [] => ([], t)
  | call :: calls => ((t.step call).1 :: ((t.step call).2.run calls).1, ((t.step call).2.run calls).2)

/-- a take for which the position and the size add up to more than a `size_t` -/
def Wraps (t : Tape) : CursorCall → Prop
  | .take n => 2 ^ 64 ≤ t.front.length + n.toNat
  | _ => False

/-- no take of the session wraps -/
def Safe (t : Tape) : List CursorCall → Prop
  | [] => True
  | call :: calls => ¬t.Wraps call ∧ (t.step call).2.Safe calls

end Tape

/-! ## What a session leaves alone -/

namespace Tape

variable (t : Tape)

theorem write_keeps (bs : List U8) : t.front <+: (t.write bs).2.front ∧
    (t.write bs).2.front.length + (t.write bs).2.back.length = t.front.length + t.back.length := by
  unfold write
  split_ifs with hb
  · simp [put]
    omega
  · simp

theorem read_keeps (n : ℕ) (f : List U8 → Answer) : t.front <+: (t.read n f).2.front ∧
    (t.read n f).2.front.length + (t.read n f).2.back.length = t.front.length + t.back.length := by
  unfold read
  split_ifs with hn
  · simp [move]
    omega
  · simp

theorem step_keeps (call : CursorCall) : t.front <+: (t.step call).2.front ∧
    (t.step call).2.front.length + (t.step call).2.back.length = t.front.length + t.back.length := by
  cases call with
  | pack k val => exact t.write_keeps _
  | unpack k => exact t.read_keeps _ _
  | put src => exact t.write_keeps _
  | take n => exact t.read_keeps _ _
  | takeRemaining => simp [step, move]
  | remaining => simp [step]

theorem run_keeps (calls : List CursorCall) : t.front <+: (t.run calls).2.front ∧
    (t.run calls).2.front.length + (t.run calls).2.back.length = t.front.length + t.back.length := by
  induction calls generalizing t with
  | nil => simp [run]
  | cons call calls ih =>
    have hstep := t.step_keeps call
    have hrun := ih (t.step call).2
    exact ⟨hstep.1.trans hrun.1, hrun.2.trans hstep.2⟩

theorem run_append (calls calls' : List CursorCall) :
    (t.run (calls ++ calls')).2 = ((t.run calls).2.run calls').2 := by
  induction calls generalizing t with
  | nil => rfl
  | cons call calls ih => exact ih _

end Tape

/-! ## One call -/

theorem Field.value_eq (k : Field) {bs : List U8} (h : bs.length = k.size) : k.unpack bs = k.value bs := by
  obtain ⟨order, t⟩ := k
  cases order with
  | le => exact unpackLe_eq t h
  | be => exact (unpackBe_eq t h).trans (unpackLe_eq t (by rw [List.length_reverse]; exact h))

section

variable {ε : Type} {t : Tape} {tail : List U8}

theorem read_run {α : Type} {p : Call CursorRes Cursor α} {n : ℕ} {g : List U8 → α}
    (h : p (t.cursor tail) = if n ≤ t.back.length then .ok (g (t.back.take n)) ((t.cursor tail).skip n)
      else .error (.code .errBufExhausted) (t.cursor tail)) (f : α → Answer) :
    (do let res ← attempt p; return answer f res : Call ε Cursor Answer) (t.cursor tail) =
      .ok (t.read n fun bs => f (g bs)).1 ((t.read n fun bs => f (g bs)).2.cursor tail) := by
  by_cases hn : n ≤ t.back.length
  · rw [if_pos hn, Tape.cursor_skip t tail hn] at h
    rw [bind_ok (attempt_ok h), pure_run, Tape.read, if_pos hn]
    rfl
  · rw [if_neg hn] at h
    rw [bind_ok (attempt_code h), pure_run, Tape.read, if_neg hn]
    rfl

theorem read_congr {n : ℕ} {f g : List U8 → Answer} (h : ∀ bs, bs.length = n → f bs = g bs) : t.read n f = t.read n g := by
  by_cases hn : n ≤ t.back.length
  · rw [Tape.read, Tape.read, if_pos hn, if_pos hn, h _ (List.length_take_of_le hn)]
  · rw [Tape.read, Tape.read, if_neg hn, if_neg hn]

theorem write_run {p : Call CursorRes Cursor Unit} {bs : List U8}
    (h : p (t.cursor tail) = if bs.length ≤ t.back.length then .ok () ((t.cursor tail).write bs)
      else .error (.code .errBufExhausted) (t.cursor tail)) :
    (do let res ← attempt p; return answer (fun _ => .ok) res : Call ε Cursor Answer) (t.cursor tail) =
      .ok (t.write bs).1 ((t.write bs).2.cursor tail) := by
  by_cases hb : bs.length ≤ t.back.length
  · rw [if_pos hb, Tape.cursor_write t tail hb] at h
    rw [bind_ok (attempt_ok h), pure_run, Tape.write, if_pos hb]
    rfl
  · rw [if_neg hb] at h
    rw [bind_ok (attempt_code h), pure_run, Tape.write, if_neg hb]
    rfl

theorem cursorPut_run (src : List U8) {c : Cursor} (hc : c.Wf) : cursorPut src src.length c =
    if src.length ≤ cursorRemaining c then .ok () (c.write src) else .error (.code .errBufExhausted) c := by
  by_cases hroom : src.length ≤ cursorRemaining c
  · have hput := cursorPut_writes (le_refl src.length)
    rw [List.take_length] at hput
    rw [if_pos hroom, hput.fits hc hroom]
  · rw [if_neg hroom, cursorPut, bind_ok (get_run c), if_pos (Nat.lt_of_not_le hroom)]
    rfl

variable (hbuf : (t.cursor tail).buf.length < 2 ^ 63)
include hbuf

/-- a call on a cursor is the call on its tape, unless it wraps -/
theorem perform_run (B : Build) {call : CursorCall} (hcall : ¬t.Wraps call) :
    (perform B call : Call ε Cursor Answer) (t.cursor tail) = .ok (t.step call).1 ((t.step call).2.cursor tail) := by
  have hwf := t.cursor_wf tail
  cases call with
  | pack k val =>
    have hpack := cursorPack_run k val hwf
    rw [Tape.cursor_remaining, ← k.bytes_length val] at hpack
    exact write_run hpack
  | unpack k =>
    have hunpack := cursorUnpack_run k hwf
    rw [Tape.cursor_rest] at hunpack
    have hvalue : t.read k.size (fun bs => .value k (k.unpack bs)) = t.step (.unpack k) :=
      read_congr fun bs hbs => congrArg (Answer.value k) (k.value_eq hbs)
    rw [← hvalue]
    exact read_run hunpack (.value k)
  | put src =>
    have hput := cursorPut_run src hwf
    rw [Tape.cursor_remaining] at hput
    exact write_run hput
  | take n =>
    have htake := cursorTakeSizeT_run hwf (hbuf.trans (by norm_num)) n
    have hsum : (t.cursor tail).pos + n.toNat < 2 ^ 64 := Nat.lt_of_not_le hcall
    rw [if_pos hsum, cursorTake_run hwf, Tape.cursor_rest] at htake
    exact read_run (g := id) htake .bytes
  | takeRemaining =>
    have hrest : (cursorTakeRemaining B : Call ε Cursor _) (t.cursor tail) = _ := cursorTakeRemaining_run hwf B
    rw [Tape.cursor_rest, Tape.cursor_skip t tail le_rfl] at hrest
    rw [perform, bind_ok hrest]
    rfl
  | remaining =>
    rw [perform, bind_ok (get_run _), Tape.cursor_remaining]
    rfl

/-- a take that wraps leaves the buffer -/
theorem perform_wraps (B : Build) {call : CursorCall} (hcall : t.Wraps call) :
    (perform B call : Call ε Cursor Answer) (t.cursor tail) = .error (.fault .outOfBounds) (t.cursor tail) := by
  cases call with
  | take n =>
    have htake := cursorTakeSizeT_run (t.cursor_wf tail) (hbuf.trans (by norm_num)) n
    have hsum : ¬(t.cursor tail).pos + n.toNat < 2 ^ 64 := Nat.not_lt.2 hcall
    rw [if_neg hsum] at htake
    rw [perform, bind_error (attempt_fault htake)]
  | _ => exact hcall.elim

end

section

variable {ε : Type} {tail : List U8} (B : Build)

/-- no call changes the size of the buffer -/
theorem step_size {t : Tape} (call : CursorCall) (hbuf : (t.cursor tail).buf.length < 2 ^ 63) :
    ((t.step call).2.cursor tail).buf.length < 2 ^ 63 := by
  have hkeeps := (t.step_keeps call).2
  simp only [Tape.cursor, List.length_append] at hbuf ⊢
  omega

/-- a session on a cursor is the session on its tape, as long as no take wraps -/
theorem session_run {t : Tape} (hbuf : (t.cursor tail).buf.length < 2 ^ 63) {calls : List CursorCall} (hsafe : t.Safe calls) :
    (session B calls : Call ε Cursor (List Answer)) (t.cursor tail) =
      .ok (t.run calls).1 ((t.run calls).2.cursor tail) := by
  induction calls generalizing t with
  | nil => rfl
  | cons call calls ih =>
    rw [session, bind_ok (perform_run hbuf B hsafe.1), bind_ok (ih (step_size call hbuf) hsafe.2)]
    rfl

/-- the first take that wraps ends it -/
theorem session_wraps {t : Tape} (hbuf : (t.cursor tail).buf.length < 2 ^ 63) {calls : List CursorCall} (hsafe : ¬t.Safe calls) :
    ∃ c, (session B calls : Call ε Cursor (List Answer)) (t.cursor tail) = .error (.fault .outOfBounds) c := by
  induction calls generalizing t with
  | nil => exact absurd trivial hsafe
  | cons call calls ih =>
    by_cases hcall : t.Wraps call
    · exact ⟨_, by rw [session, bind_error (perform_wraps hbuf B hcall)]⟩
    · obtain ⟨c, hrest⟩ := ih (step_size call hbuf) fun hrest => hsafe ⟨hcall, hrest⟩
      exact ⟨c, by rw [session, bind_ok (perform_run hbuf B hcall), bind_error hrest]⟩

end

/-! ## Every session -/

/-- takes that ask for less than 2^64 bytes minus the size of the buffer never wrap -/
theorem Tape.safe_of_takes {t : Tape} {calls : List CursorCall}
    (h : ∀ n, .take n ∈ calls → t.front.length + t.back.length + n.toNat < 2 ^ 64) : t.Safe calls := by
  induction calls generalizing t with
  | nil => exact trivial
  | cons call calls ih =>
    refine ⟨?_, ih fun n hn => ?_⟩
    · cases call with
      | take n =>
        have hn := h n List.mem_cons_self
        simp only [Wraps, not_le]
        omega
      | _ => exact id
    · rw [(t.step_keeps call).2]
      exact h n (List.mem_cons_of_mem call hn)

/-- **Sessions on a cursor.** In either build and from any buffer and length within it: a session returns exactly if no
take wraps, and otherwise leaves the buffer there. Its answers and the bytes in the buffer are those of the session on the
tape. What has been passed stays as it is in any continuation, and the bytes behind the length are never touched. -/
theorem sessions_refine {ε : Type} (B : Build) (calls : List CursorCall) {buf : List U8} {n : ℕ} (hn : n ≤ buf.length)
    (hbuf : buf.length < 2 ^ 63) :
    (Tape.Safe ⟨[], buf.take n⟩ calls → (session B calls : Call ε Cursor (List Answer)) (cursorNew buf n) =
        .ok (Tape.run ⟨[], buf.take n⟩ calls).1 ((Tape.run ⟨[], buf.take n⟩ calls).2.cursor (buf.drop n))) ∧
      (¬Tape.Safe ⟨[], buf.take n⟩ calls → ∃ c, (session B calls : Call ε Cursor (List Answer)) (cursorNew buf n) =
        .error (.fault .outOfBounds) c) ∧
      (Tape.run ⟨[], buf.take n⟩ calls).2.front.length + (Tape.run ⟨[], buf.take n⟩ calls).2.back.length = n ∧
      ∀ calls', (Tape.run ⟨[], buf.take n⟩ calls).2.front <+: (Tape.run ⟨[], buf.take n⟩ (calls ++ calls')).2.front := by
  have hstart : cursorNew buf n = Tape.cursor ⟨[], buf.take n⟩ (buf.drop n) := by
    simp [cursorNew, Tape.cursor, hn]
  have hsize : (Tape.cursor ⟨[], buf.take n⟩ (buf.drop n)).buf.length < 2 ^ 63 := by
    rw [← hstart]
    exact hbuf
  rw [hstart]
  refine ⟨session_run B hsize, session_wraps B hsize, ?_, fun calls' => ?_⟩
  · rw [(Tape.run_keeps _ calls).2]
    simp [hn]
  · rw [Tape.run_append]
    exact (Tape.run_keeps _ calls').1

/-- a session of five calls; and a take that wraps behind a read -/
theorem sessions_refine_sample :
    (session .debug [.pack ⟨.be, .u16⟩ (0x0102 : U16), .unpack ⟨.le, .i16⟩, .take 3, .put [7], .takeRemaining] :
        Call Empty Cursor (List Answer)) (cursorNew [0, 0, 3, 4, 5, 9] 5) =
      .ok [.ok, .value ⟨.le, .i16⟩ (0x0403 : U16), .errBufExhausted, .ok, .rest 0 []]
        (⟨[1, 2, 3, 4, 7, 9], 5, 5⟩ : Cursor) ∧
    ∃ c, (session .release [.take 1, .take 0xffffffffffffffff] : Call Empty Cursor (List Answer))
      (cursorNew [0, 0, 3, 4, 5, 9] 5) = .error (.fault .outOfBounds) c := by
  have hbuf : ([0, 0, 3, 4, 5, 9] : List U8).length < 2 ^ 63 := by norm_num
  have hsafe : Tape.Safe ⟨[], [0, 0, 3, 4, 5]⟩
      [.pack ⟨.be, .u16⟩ (0x0102 : U16), .unpack ⟨.le, .i16⟩, .take 3, .put [7], .takeRemaining] := by
    apply Tape.safe_of_takes
    intro n hn
    simp only [List.mem_cons, reduceCtorEq, CursorCall.take.injEq, List.not_mem_nil, or_false, false_or] at hn
    subst hn
    decide
  have hunsafe : ¬Tape.Safe ⟨[], [0, 0, 3, 4, 5]⟩ [.take 1, .take 0xffffffffffffffff] := by
    rintro ⟨-, hlast, -⟩
    exact hlast (show 2 ^ 64 ≤ 1 + (0xffffffffffffffff : U64).toNat by decide)
  exact ⟨(sessions_refine .debug _ (by decide) hbuf).1 hsafe, (sessions_refine .release _ (by decide) hbuf).2.1 hunsafe⟩

end LongFi
