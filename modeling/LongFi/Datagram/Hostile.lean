/-
The parser on hostile input.

`Safe cur p codes`: from a well-formed cursor, p returns (no assertion fails, no access leaves an object), a failure has
one of the codes, and the cursor only moves forward, inside its length. The rule for sequences (`Safe.bind`) makes every
intermediate cursor of the parser well-formed.

- `parser_safe`: every part of the parser is safe; what it accepts is consumed to the end by the sub-parser of its type.
- `truncation_detected`: a serialized datagram that lost its end is rejected up to the payload, and accepted with a
  shorter payload behind it.
-/
import LongFi.Datagram.Received

namespace LongFi

open LongFi.Core

/-! ## Staying inside the input -/

/-- c' is c after reading some of the bytes left -/
def Moves (c c' : Cursor) : Prop := ∃ n, n ≤ c.rest.length ∧ c' = c.skip n

theorem Moves.refl (c : Cursor) : Moves c c := ⟨0, Nat.zero_le _, rfl⟩

theorem Moves.trans {c c' c'' : Cursor} (h : Moves c c') (h' : Moves c' c'') : Moves c c'' := by
  obtain ⟨n, hn, rfl⟩ := h
  obtain ⟨m, hm, rfl⟩ := h'
  rw [Cursor.skip_rest, List.length_drop] at hm
  exact ⟨n + m, by omega, Cursor.skip_skip c n m⟩

theorem Moves.wf {c c' : Cursor} (h : Moves c c') (hc : c.Wf) : c'.Wf := by
  obtain ⟨n, hn, rfl⟩ := h
  exact hc.skip hn

section Safe

variable {ε σ D α β : Type}

/-- from a well-formed cursor p returns, fails only with the given codes, and moves the cursor forward inside its length -/
def Safe (cur : σ → Cursor) (p : Call ε σ α) (codes : List ε) : Prop :=
  ∀ s, (cur s).Wf → (∃ a t, p s = .ok a t ∧ Moves (cur s) (cur t)) ∨
    ∃ e ∈ codes, ∃ t, p s = .error (.code e) t ∧ Moves (cur s) (cur t)

theorem Safe.mono {cur : σ → Cursor} {p : Call ε σ α} {codes codes' : List ε} (h : Safe cur p codes)
    (hsub : codes ⊆ codes') : Safe cur p codes' := fun s hs =>
  (h s hs).imp_right fun ⟨e, he, hrun⟩ => ⟨e, hsub he, hrun⟩

/-- between two safe calls the cursor is well-formed -/
theorem Safe.bind {cur : σ → Cursor} {p : Call ε σ α} {k : α → Call ε σ β} {codes : List ε} (hp : Safe cur p codes)
    (hk : ∀ a, Safe cur (k a) codes) : Safe cur (p >>= k) codes := by
  intro s hs
  rcases hp s hs with ⟨a, t, hrun, hst⟩ | ⟨e, he, t, hrun, hst⟩
  · rw [bind_ok hrun]
    rcases hk a t (hst.wf hs) with ⟨b, u, hrun', htu⟩ | ⟨e, he, u, hrun', htu⟩
    · exact Or.inl ⟨b, u, hrun', hst.trans htu⟩
    · exact Or.inr ⟨e, he, u, hrun', hst.trans htu⟩
  · exact Or.inr ⟨e, he, t, bind_error hrun, hst⟩

theorem Reads.safe {p : Call ε Cursor α} {e : ε} {C : Codec U8 α} (h : Reads p e C) : Safe (fun c => c) p [e] := by
  intro c hc
  cases hd : C.decode c.rest with
  | some ar => exact Or.inl ⟨_, _, h.reads hc hd, _, Nat.sub_le _ _, rfl⟩
  | none =>
    obtain ⟨n, hn, hrun⟩ := h.fails hc hd
    exact Or.inr ⟨e, List.mem_singleton_self e, _, hrun, n, hn, rfl⟩

theorem cursorTakeRemaining_safe (B : Build) (codes : List ε) :
    Safe (fun c => c) (cursorTakeRemaining B : Call ε Cursor _) codes :=
  fun _ hc => Or.inl ⟨_, _, cursorTakeRemaining_run hc B, _, le_rfl, rfl⟩

theorem csrRes_safe {p : Call CursorRes Cursor α} {codes : List CursorRes} (h : Safe (fun c => c) p codes) :
    Safe (fun c => c) (csrRes p) [.errNomem] := by
  intro c hc
  rcases h c hc with ⟨a, t, hrun, hct⟩ | ⟨e, -, t, hrun, hct⟩
  · exact Or.inl ⟨a, t, recode_ok hrun, hct⟩
  · exact Or.inr ⟨.errNomem, List.mem_singleton_self _, t, recode_code hrun, hct⟩

theorem onCursor_safe {p : Call LfcRes Cursor α} {codes : List LfcRes} (h : Safe (fun c => c) p codes) :
    Safe (Prod.fst : Cursor × D → Cursor) (onCursor p) codes := by
  rintro ⟨c, d⟩ hc
  rcases h c hc with ⟨a, t, hrun, hct⟩ | ⟨e, he, t, hrun, hct⟩
  · exact Or.inl ⟨a, (t, d), onCursor_ok hrun, hct⟩
  · exact Or.inr ⟨e, he, (t, d), onCursor_error hrun, hct⟩

theorem modify_safe (f : D → D) (codes : List LfcRes) :
    Safe (Prod.fst : Cursor × D → Cursor) (modify fun s => (s.1, f s.2)) codes :=
  fun s _ => Or.inl ⟨_, _, modify_run _ s, Moves.refl _⟩

theorem field_safe {p : Call LfcRes Cursor α} {codes : List LfcRes} (h : Safe (fun c => c) p codes) (store : α → D → D) :
    Safe Prod.fst (field p store) codes :=
  (onCursor_safe h).bind fun v => modify_safe (store v) codes

theorem fieldNums_safe (stores : List (U32 → D → D)) : Safe Prod.fst (fieldNums stores) [.errNomem] := by
  induction stores with
  | nil => exact fun s _ => Or.inl ⟨_, _, pure_run _ s, Moves.refl _⟩
  | cons store stores ih => exact (field_safe (csrRes_safe cursorUnpackVarLeU32_reads.safe) store).bind fun _ => ih

/-- a sub-parser, called for its own type -/
theorem dgDes_safe (B : Build) (out : Stores D) (hdr : LfcDgHdr) :
    Safe Prod.fst (dgDes B hdr.type out hdr) [.errNomem] := by
  have hvar := csrRes_safe cursorUnpackVarLeU32_reads.safe
  have hfp := csrRes_safe cursorUnpackLeU32_reads.safe
  have hcheck : Safe (Prod.fst : Cursor × D → Cursor) (lift (check B (hdr.type = hdr.type))) [LfcRes.errNomem] := by
    intro s _
    rw [check_of_true B rfl]
    exact Or.inl ⟨_, _, lift_ok _ s, Moves.refl _⟩
  exact hcheck.bind fun _ => (modify_safe (out.flags hdr.flagBits) _).bind fun _ =>
    (field_safe hvar out.oui).bind fun _ => (field_safe hvar out.did).bind fun _ =>
      (field_safe hfp out.fp).bind fun _ => (fieldNums_safe out.nums).bind fun _ =>
        field_safe (cursorTakeRemaining_safe B _) fun v => out.pay v.1 v.2

theorem unionMember_safe {get : LfcDgDes → D} {put : D → LfcDgDes → LfcDgDes} {p : Call LfcRes (Cursor × D) Unit}
    {codes : List LfcRes} (h : Safe Prod.fst p codes) : Safe Prod.fst (unionMember get put p) codes := by
  rintro ⟨c, out⟩ hc
  rcases h (c, get out) hc with ⟨a, ⟨c', d⟩, hrun, hct⟩ | ⟨e, he, ⟨c', d⟩, hrun, hct⟩
  · exact Or.inl ⟨a, (c', put d out), unionMember_ok hrun, hct⟩
  · exact Or.inr ⟨e, he, (c', put d out), unionMember_error hrun, hct⟩

end Safe

/-- the `switch` calls each sub-parser for its own type, so no type check fails -/
theorem lfcDgDesSwitch_safe (B : Build) (hdr : LfcDgHdr) : Safe Prod.fst (lfcDgDesSwitch B hdr) [.errNomem] := by
  obtain ⟨errs, flagBits, t⟩ := hdr
  cases t with
  | monolithic =>
    simp only [lfcDgDesSwitch, lfcDgMonolithicDes]
    exact unionMember_safe (dgDes_safe B monolithicStores ⟨errs, flagBits, .monolithic⟩)
  | frameStart =>
    simp only [lfcDgDesSwitch, lfcDgFrameStartDes]
    exact unionMember_safe (dgDes_safe B frameStartStores ⟨errs, flagBits, .frameStart⟩)
  | frameData =>
    simp only [lfcDgDesSwitch, lfcDgFrameDataDes]
    exact unionMember_safe (dgDes_safe B frameDataStores ⟨errs, flagBits, .frameData⟩)
  | ack =>
    simp only [lfcDgDesSwitch, lfcDgAckDes]
    exact unionMember_safe (dgDes_safe B ackStores ⟨errs, flagBits, .ack⟩)

/-- the codes of the parser -/
def lfcDgDesCodes : List LfcRes := [.errNomem, .invalidType, .errException]

/-- the header parser, whatever the decoder leaves in `dec_hdr_bits` -/
theorem lfcDgHdrDes_safe (B : Build) (junk : U16) : Safe (fun c => c) (lfcDgHdrDes B junk) lfcDgDesCodes := by
  intro c hc
  by_cases hlen : 3 ≤ c.rest.length
  · obtain ⟨v, hv⟩ := exists_header junk hlen
    obtain ⟨errs, hdec⟩ := hv.decode B
    have hrun := lfcDgHdrDes_run B junk hc hlen hdec
    have hmove : Moves c (c.skip 3) := ⟨3, hlen, rfl⟩
    by_cases hext : hdrExtended v = true
    · rw [if_pos hext] at hrun
      exact Or.inr ⟨_, by decide, _, hrun, hmove⟩
    · rw [if_neg hext] at hrun
      cases ht : hdrType v with
      | none =>
        simp only [ht] at hrun
        exact Or.inr ⟨_, by decide, _, hrun, hmove⟩
      | some t =>
        simp only [ht] at hrun
        exact Or.inl ⟨_, _, hrun, hmove⟩
  · exact Or.inr ⟨_, by decide, c, lfcDgHdrDes_short B junk hc (Nat.not_le.1 hlen), Moves.refl c⟩

theorem lfcDgDes_safe (B : Build) (junk : U16) : Safe Prod.fst (lfcDgDes B junk) lfcDgDesCodes :=
  (onCursor_safe (lfcDgHdrDes_safe B junk)).bind fun hdr =>
    ((lfcDgDesSwitch_safe B hdr).mono (by decide)).bind fun _ =>
      modify_safe (fun out : LfcDgDes => { out with type := hdr.type }) lfcDgDesCodes

/-! ## The last assertion -/

/-- `lfc_dg__des` with its last assertion -/
def lfcDgDesAsserted (B : Build) (decHdrBits : U16) : Call LfcRes (Cursor × LfcDgDes) Unit := do
  let hdr ← onCursor (lfcDgHdrDes B decHdrBits)
  let res ← attempt (lfcDgDesSwitch B hdr)
  orFail res
  modify fun s => (s.1, { s.2 with type := hdr.type })
  lift (check B (res.isOk = true))

/-- where the assertion stands, every failure has returned -/
theorem lfcDgDesAsserted_eq (B : Build) (decHdrBits : U16) : lfcDgDesAsserted B decHdrBits = lfcDgDes B decHdrBits := by
  unfold lfcDgDesAsserted lfcDgDes
  congr 1
  funext hdr s
  cases hrun : lfcDgDesSwitch B hdr s with
  | ok a t =>
    have hcheck : check B ((Except.ok a : Except LfcRes Unit).isOk = true) = .ok () := check_of_true B rfl
    rw [bind_ok (attempt_ok hrun), bind_ok (orFail_ok a t), bind_ok hrun, bind_ok (modify_run _ t), hcheck]
    rfl
  | error x t =>
    rw [bind_error hrun]
    cases x with
    | code e => rw [bind_ok (attempt_code hrun), bind_error (orFail_error e t)]
    | fault f => rw [bind_error (attempt_fault hrun)]

/-! ## What is accepted -/

/-- the sub-parser of the datagram's type filled its member -/
def Ran (B : Build) (hdr : LfcDgHdr) (c c' : Cursor) (out out' : LfcDgDes) : Prop :=
  match out'.type with
  | .monolithic => lfcDgMonolithicDes B hdr (c, out.monolithic) = .ok () (c', out'.monolithic)
  | .frameStart => lfcDgFrameStartDes B hdr (c, out.frameStart) = .ok () (c', out'.frameStart)
  | .frameData => lfcDgFrameDataDes B hdr (c, out.frameData) = .ok () (c', out'.frameData)
  | .ack => lfcDgAckDes B hdr (c, out.ack) = .ok () (c', out'.ack)

theorem of_unionMember_ok {D : Type} {get : LfcDgDes → D} {put : D → LfcDgDes → LfcDgDes}
    {p : Call LfcRes (Cursor × D) Unit} {c c' : Cursor} {out out' : LfcDgDes}
    (h : unionMember get put p (c, out) = .ok () (c', out')) :
    ∃ d, p (c, get out) = .ok () (c', d) ∧ out' = put d out := by
  cases hp : p (c, get out) with
  | ok a t =>
    obtain ⟨c₁, d⟩ := t
    rw [unionMember_ok hp] at h
    obtain ⟨rfl, rfl⟩ := Prod.mk.inj (EStateM.Result.ok.inj h).2
    exact ⟨d, rfl, rfl⟩
  | error x t =>
    obtain ⟨c₁, d⟩ := t
    rw [unionMember_error hp] at h
    cases h

theorem ran_of_switch {B : Build} {hdr : LfcDgHdr} {c c' : Cursor} {out out' : LfcDgDes}
    (h : lfcDgDesSwitch B hdr (c, out) = .ok () (c', out')) : Ran B hdr c c' out { out' with type := hdr.type } := by
  obtain ⟨errs, flagBits, t⟩ := hdr
  cases t with
  | monolithic =>
    simp only [lfcDgDesSwitch] at h
    obtain ⟨d, hrun, rfl⟩ := of_unionMember_ok h
    exact hrun
  | frameStart =>
    simp only [lfcDgDesSwitch] at h
    obtain ⟨d, hrun, rfl⟩ := of_unionMember_ok h
    exact hrun
  | frameData =>
    simp only [lfcDgDesSwitch] at h
    obtain ⟨d, hrun, rfl⟩ := of_unionMember_ok h
    exact hrun
  | ack =>
    simp only [lfcDgDesSwitch] at h
    obtain ⟨d, hrun, rfl⟩ := of_unionMember_ok h
    exact hrun

/-- an accepted input went through the header parser and the sub-parser of its type, and is consumed to its end -/
theorem lfcDgDes_ran {B : Build} {junk : U16} {x : List U8} {out out' : LfcDgDes} {c' : Cursor}
    (h : lfcDgDes B junk (cursorNew x x.length, out) = .ok () (c', out')) :
    c'.pos = x.length ∧ ∃ hdr c, lfcDgHdrDes B junk (cursorNew x x.length) = .ok hdr c ∧ out'.type = hdr.type ∧
      Ran B hdr c c' out out' := by
  constructor
  · obtain ⟨v, m, hv, hm, rfl⟩ := lfcDgDes_stored h
    rw [lfcDgDes_accepts B hv out hm] at h
    rw [← (Prod.mk.inj (EStateM.Result.ok.inj h).2).1]
    exact Nat.zero_add _
  · obtain ⟨hdr, ⟨c, out₁⟩, hhdr, hrest⟩ := of_bind_ok h
    obtain ⟨_, ⟨c₂, out₂⟩, hswitch, hmodify⟩ := of_bind_ok hrest
    obtain ⟨rfl, rfl⟩ := Prod.mk.inj (EStateM.Result.ok.inj hmodify).2
    cases hrun : lfcDgHdrDes B junk (cursorNew x x.length) with
    | ok hdr' c' =>
      rw [onCursor_ok hrun] at hhdr
      obtain ⟨rfl, hst⟩ := EStateM.Result.ok.inj hhdr
      obtain ⟨rfl, rfl⟩ := Prod.mk.inj hst
      exact ⟨hdr', c', rfl, rfl, ran_of_switch hswitch⟩
    | error y c' =>
      rw [onCursor_error hrun] at hhdr
      cases hhdr

/-- every step of the parser is safe -/
structure StepsSafe (B : Build) (junk : U16) : Prop where
  header : Safe (fun c => c) (lfcDgHdrDes B junk) lfcDgDesCodes
  varint : ∀ {D : Type} (store : U32 → D → D), Safe Prod.fst (field (csrRes cursorUnpackVarLeU32) store) [.errNomem]
  fp : ∀ {D : Type} (store : U32 → D → D), Safe Prod.fst (field (csrRes cursorUnpackLeU32) store) [.errNomem]
  payload : ∀ {D : Type} (store : ℕ × List U8 → D → D), Safe Prod.fst (field (cursorTakeRemaining B) store) []
  subParser : ∀ {D : Type} (out : Stores D) (hdr : LfcDgHdr), Safe Prod.fst (dgDes B hdr.type out hdr) [.errNomem]
  switch : ∀ hdr, Safe Prod.fst (lfcDgDesSwitch B hdr) [.errNomem]
  parser : Safe Prod.fst (lfcDgDesAsserted B junk) lfcDgDesCodes

theorem stepsSafe (B : Build) (junk : U16) : StepsSafe B junk where
  header := lfcDgHdrDes_safe B junk
  varint store := field_safe (csrRes_safe cursorUnpackVarLeU32_reads.safe) store
  fp store := field_safe (csrRes_safe cursorUnpackLeU32_reads.safe) store
  payload store := field_safe (cursorTakeRemaining_safe B []) store
  subParser out hdr := dgDes_safe B out hdr
  switch hdr := lfcDgDesSwitch_safe B hdr
  parser := by
    rw [lfcDgDesAsserted_eq]
    exact lfcDgDes_safe B junk

/-- **Hostile input.** From every well-formed cursor and with every old content of `dec_hdr_bits` the steps of the parser
are safe. On a byte string it returns one of four results with the position inside the input, and what it accepts is
consumed by the sub-parser that the stored type names. -/
theorem parser_safe (B : Build) (junk : U16) : StepsSafe B junk ∧
    ∀ x out, (∃ c' out', lfcDgDesAsserted B junk (cursorNew x x.length, out) = .ok () (c', out') ∧ c'.pos = x.length ∧
        ∃ hdr c, lfcDgHdrDes B junk (cursorNew x x.length) = .ok hdr c ∧ out'.type = hdr.type ∧
          Ran B hdr c c' out out') ∨
      ∃ e ∈ [LfcRes.errNomem, .invalidType, .errException], ∃ c' out',
        lfcDgDesAsserted B junk (cursorNew x x.length, out) = .error (.code e) (c', out') ∧ c'.pos ≤ x.length := by
  refine ⟨stepsSafe B junk, ?_⟩
  intro x out
  rw [lfcDgDesAsserted_eq]
  rcases lfcDgDes_safe B junk (cursorNew x x.length, out) (cursorNew_wf le_rfl) with
    ⟨_, ⟨c', out'⟩, hrun, -⟩ | ⟨e, he, ⟨c', out'⟩, hrun, n, hn, rfl⟩
  · exact Or.inl ⟨c', out', hrun, lfcDgDes_ran hrun⟩
  · rw [cursorNew_rest_all] at hn
    exact Or.inr ⟨e, he, _, out', hrun, (Nat.zero_add n).trans_le hn⟩

/-! ## Truncated datagrams -/

/-- the wire form up to the payload -/
def Msg.front (m : Msg) : List U8 := hdrBytes (codeword m.hdr) ++ (LongFi.fields m.type.arity).encode m.fields

theorem Msg.wire_eq_front (m : Msg) : m.wire = m.front ++ m.pay := (List.append_assoc _ _ _).symm

/-- a datagram with a shorter payload -/
def Dg.cut (n : ℕ) : Dg → Dg
  | monolithic d => monolithic { d with payLen := n }
  | frameStart d => frameStart { d with payLen := n }
  | frameData d => frameData { d with payLen := n }
  | ack d => ack { d with payLen := n }

@[simp] theorem Dg.cut_type (d : Dg) (n : ℕ) : (d.cut n).type = d.type := by cases d <;> rfl

@[simp] theorem Dg.cut_payLen (d : Dg) (n : ℕ) : (d.cut n).payLen = n := by cases d <;> rfl

@[simp] theorem Dg.cut_pay (d : Dg) (n : ℕ) : (d.cut n).pay = d.pay := by cases d <;> rfl

theorem Dg.cut_front (d : Dg) (n : ℕ) : (d.cut n).msg.front = d.msg.front := by cases d <;> rfl

/-- the wire form without the end of the payload is the wire form of the datagram with the shorter payload -/
theorem Dg.cut_wire (d : Dg) {n : ℕ} (hn : n ≤ d.payLen) :
    d.msg.wire.take (d.msg.front.length + n) = (d.cut n).msg.wire := by
  rw [Msg.wire_eq_front, List.take_length_add_append, Msg.wire_eq_front, Dg.cut_front, Dg.msg_pay, Dg.msg_pay,
    Dg.cut_pay, Dg.cut_payLen, List.take_take, Nat.min_eq_left hn]

/-- a message that lost some of its header or its fields is too short -/
theorem truncated_rejected (B : Build) (junk : U16) (m : Msg) {k : ℕ} (hk : k < m.front.length) (out : LfcDgDes) :
    ∃ s, lfcDgDes B junk (cursorNew (m.wire.take k) (m.wire.take k).length, out) = .error (.code .errNomem) s := by
  have hhdr : (hdrBytes (codeword m.hdr)).length = 3 := rfl
  by_cases h3 : k < 3
  · have hshort : (m.wire.take k).length < 3 := (List.length_take_le _ _).trans_lt h3
    exact ⟨_, lfcDgDes_too_short B junk hshort out⟩
  · obtain ⟨j, rfl⟩ := Nat.exists_eq_add_of_le (Nat.not_lt.1 h3)
    rw [Msg.front, List.length_append, hhdr] at hk
    have hj : j < ((LongFi.fields m.type.arity).encode m.fields).length := Nat.lt_of_add_lt_add_left hk
    have hwire : m.wire.take (3 + j) =
        hdrBytes (codeword m.hdr) ++ ((LongFi.fields m.type.arity).encode m.fields).take j := by
      rw [Msg.wire, Msg.body, ← hhdr, List.take_length_add_append, List.take_append_of_le_length hj.le]
    -- what is left of the fields is a proper prefix of their written form
    have hnone : (LongFi.fields m.type.arity).decode (((LongFi.fields m.type.arity).encode m.fields).take j) = none := by
      refine Codec.decode_truncated _ (List.take_append_drop j _).symm ?_
      rw [ne_eq, List.drop_eq_nil_iff]
      exact Nat.not_le.2 hj
    obtain ⟨hext, htype, -⟩ := hdr_read m.type m.flags_known
    have hparse := parse_error_iff.2 (Or.inr (Or.inr ⟨hext, m.type, htype, hnone, rfl⟩))
    have hheader : Header junk (m.wire.take (3 + j)) m.hdr := Or.inl (hwire ▸ near_hdrBytes m.hdr_lt _)
    have hdrop : (m.wire.take (3 + j)).drop 3 = ((LongFi.fields m.type.arity).encode m.fields).take j := by
      rw [hwire, List.drop_left' hhdr]
    obtain ⟨n, out', -, -, hrun⟩ := lfcDgDes_rejects B hheader out (hdrop ▸ hparse)
    exact ⟨_, hrun⟩

/-- the parser on the first k bytes of b, the serialization of d: too short up to the payload, and d with the payload
bytes that are left behind it -/
structure DetectsTruncation (B : Build) (junk : U16) (d : Dg) (b : List U8) (k : ℕ) (out : LfcDgDes) : Prop where
  early : k < b.length - d.payLen →
    ∃ s, lfcDgDes B junk (cursorNew (b.take k) (b.take k).length, out) = .error (.code .errNomem) s
  late : b.length - d.payLen ≤ k → ∃ c out',
    lfcDgDes B junk (cursorNew (b.take k) (b.take k).length, out) = .ok () (c, out') ∧ out'.type = d.type ∧
      out'.dg.payLen = k - (b.length - d.payLen) ∧
      out'.dg.pay.mem.take out'.dg.payLen = d.pay.mem.take (k - (b.length - d.payLen)) ∧
      (d.cut (k - (b.length - d.payLen))).eq out'.dg = true

/-- **Truncation** is detected up to the payload, and shortens the payload behind it. -/
theorem truncation_detected (B : Build) (d : Dg) (hpay : d.payLen ≤ lfcDgConstantsMaxPayLen) (buf : List U8) (len : ℕ)
    (hlen : len ≤ buf.length) (c : Cursor) (hser : d.ser B (cursorNew buf len) = .ok () c) (k : ℕ)
    (hk : k < (c.buf.take c.pos).length) (junk : U16) (out : LfcDgDes) :
    DetectsTruncation B junk d (c.buf.take c.pos) k out := by
  rw [Dg.ser_written hpay hlen hser] at hk ⊢
  have hwire : d.msg.wire.length = d.msg.front.length + d.payLen := by
    rw [Msg.wire_eq_front, List.length_append, Dg.msg_pay_length hpay]
  have hf : d.msg.wire.length - d.payLen = d.msg.front.length := by rw [hwire, Nat.add_sub_cancel]
  constructor
  · rw [hf]
    exact fun hearly => truncated_rejected B junk d.msg hearly out
  · rw [hf]
    intro hlate
    obtain ⟨n, rfl⟩ := Nat.exists_eq_add_of_le hlate
    have hn : n ≤ d.payLen := by omega
    have hcut : (d.cut n).payLen ≤ lfcDgConstantsMaxPayLen := by rw [Dg.cut_payLen]; exact hn.trans hpay
    have hheader : Header junk (d.cut n).msg.wire (d.cut n).msg.hdr := Or.inl (d.cut n).msg.wire_near
    have hrun := lfcDgDes_accepts B hheader out (parse_body (d.cut n).msg)
    have hlen' : (out.store (d.cut n).msg).dg.payLen = n := by
      rw [LfcDgDes.store_payLen, Dg.msg_pay_length hcut, Dg.cut_payLen]
    rw [Dg.cut_wire d hn, Nat.add_sub_cancel_left]
    refine ⟨_, _, hrun, ?_, hlen', ?_, ?_⟩
    · rw [LfcDgDes.store_type, Dg.msg_type, Dg.cut_type]
    · rw [LfcDgDes.store_pay, Dg.msg_pay, Dg.cut_pay, Dg.cut_payLen]
    · rw [Dg.eq_iff hcut (by rw [hlen']; exact hn.trans hpay), LfcDgDes.store_msg]

/-- the sample datagram, cut in its fingerprint -/
theorem truncation_detected_sample : ∃ c, sampleDg.ser .debug (cursorNew (List.replicate 64 0) 64) = .ok () c ∧
    sampleDg.payLen ≤ lfcDgConstantsMaxPayLen ∧ 9 < (c.buf.take c.pos).length ∧
      DetectsTruncation .debug 0 sampleDg (c.buf.take c.pos) 9 .zero := by
  have hpay : sampleDg.payLen ≤ lfcDgConstantsMaxPayLen := by decide
  have hlen : 64 ≤ (List.replicate 64 (0 : U8)).length := by decide
  have hsize : sampleDg.msg.wire.length = 17 := by
    rw [Msg.wire_length]
    decide +kernel
  have hser := (Dg.ser_writes .debug hpay).fits (cursorNew_wf hlen) (by rw [cursorNew_remaining, hsize]; decide)
  have hk : 9 < (((cursorNew (List.replicate 64 0) 64).write sampleDg.msg.wire).buf.take
      ((cursorNew (List.replicate 64 0) 64).write sampleDg.msg.wire).pos).length := by
    rw [cursorNew_written, hsize]
    decide
  exact ⟨_, hser, hpay, hk, truncation_detected .debug sampleDg hpay _ 64 hlen _ hser 9 hk 0 .zero⟩

end LongFi
