/-
The written form as normal form.

A datagram has one written form, a message many accepted ones: overlong integers, damaged headers, unknown flag bits.

- `reencode_normalizes`: writing what was parsed gives a form that is no longer than the input, parses to an equal
  datagram, and is written as itself.
- `same_wire_iff`: two datagrams are written the same iff they have the same type and the comparator of the type says
  that they are equal; the comparators are equivalence relations.
-/
import LongFi.Datagram.Received

namespace LongFi

open LongFi.Core

/-! ## Re-encoding -/

/-- no accepted body is shorter than the written one -/
theorem wire_length_le {v : U16} {body : List U8} {m : Msg} (h : parse v body = .ok m) :
    m.wire.length ≤ 3 + body.length := by
  obtain ⟨-, t, f, pay, -, hd, rfl⟩ := parse_ok_iff.1 h
  have hshort := (fields t.arity).encode_short hd
  have hbody : (Msg.ofFields t (hdrFlags v) f pay).body = (fields t.arity).encode f ++ pay := rfl
  have hhdr : (hdrBytes (codeword (Msg.ofFields t (hdrFlags v) f pay).hdr)).length = 3 := rfl
  rw [Msg.wire, List.length_append, hhdr, hbody, List.length_append]
  exact Nat.add_le_add_left hshort 3

/-- a stored message is written as its wire form -/
theorem store_ser (B : Build) (out : LfcDgDes) {m : Msg} (hpay : m.pay.length ≤ lfcDgConstantsMaxPayLen) {buf : List U8}
    {n : ℕ} (hn : n ≤ buf.length) (hroom : m.wire.length ≤ n) :
    ∃ c, (out.store m).dg.ser B (cursorNew buf n) = .ok () c ∧ c.buf.take c.pos = m.wire := by
  have hlen : (out.store m).dg.payLen ≤ lfcDgConstantsMaxPayLen := by rwa [LfcDgDes.store_payLen]
  have hw := Dg.ser_writes B hlen
  rw [LfcDgDes.store_msg] at hw
  exact ⟨_, hw.fits (cursorNew_wf hn) hroom, cursorNew_written⟩

/-- y is the normal form of x, which was parsed to out' -/
structure NormalForm (B : Build) (x y : List U8) (out' : LfcDgDes) : Prop where
  written : ∀ buf : List U8, buf.length = x.length →
    ∃ c, out'.dg.ser B (cursorNew buf x.length) = .ok () c ∧ c.buf.take c.pos = y
  shorter : y.length ≤ x.length
  equal : ∀ junk out₁, ∃ out₂, ParsesTo B junk y out₁ out₂ ∧ out₂.type = out'.type ∧ out'.dg.eq out₂.dg = true ∧
    ∀ (buf : List U8) (n : ℕ), n ≤ buf.length → y.length ≤ n →
      ∃ c, out₂.dg.ser B (cursorNew buf n) = .ok () c ∧ c.buf.take c.pos = y

/-- **Re-encoding normalizes** whatever the parser accepts, without growing it. -/
theorem reencode_normalizes (B : Build) (junk : U16) (x : List U8) (out out' : LfcDgDes)
    (h : ParsesTo B junk x out out') (hpay : out'.dg.payLen ≤ lfcDgConstantsMaxPayLen) :
    ∃ y, NormalForm B x y out' := by
  obtain ⟨c, hrun⟩ := h
  obtain ⟨v, m, hv, hm, rfl⟩ := lfcDgDes_stored hrun
  rw [LfcDgDes.store_payLen] at hpay
  have hle : m.wire.length ≤ x.length := by
    have hlen := wire_length_le hm
    rw [List.length_drop, Nat.add_sub_cancel' hv.long] at hlen
    exact hlen
  have hstore : ∀ s : LfcDgDes, (s.store m).dg.payLen ≤ lfcDgConstantsMaxPayLen := by
    intro s
    rwa [LfcDgDes.store_payLen]
  refine ⟨m.wire, ?_, hle, ?_⟩
  · intro buf hbuf
    exact store_ser B out hpay hbuf.ge hle
  · intro junk out₁
    have hwire : Header junk m.wire m.hdr := Or.inl m.wire_near
    refine ⟨out₁.store m, (parsesTo_iff B hwire out₁ _).2 ⟨m, parse_body m, rfl⟩, ?_, ?_, ?_⟩
    · rw [LfcDgDes.store_type, LfcDgDes.store_type]
    · rw [Dg.eq_iff (hstore out) (hstore out₁), LfcDgDes.store_msg, LfcDgDes.store_msg]
    · intro buf n hn hroom
      exact store_ser B out₁ hpay hn hroom

/-- an empty monolithic datagram with the did 0 in two bytes -/
theorem reencode_normalizes_sample :
    ∃ out', ParsesTo .debug 0 [0x40, 0x30, 0xda, 0, 0x80, 0, 0, 0, 0, 0, 0] .zero out' ∧
      out'.dg.payLen ≤ lfcDgConstantsMaxPayLen ∧
      ∃ y, NormalForm .debug [0x40, 0x30, 0xda, 0, 0x80, 0, 0, 0, 0, 0, 0] y out' := by
  have hbytes : hdrBytes (codeword 0x040) = [0x40, 0x30, 0xda] := by decide +kernel
  have hnear := near_hdrBytes (m := 0x040) (by decide) [0, 0x80, 0, 0, 0, 0, 0, 0]
  rw [hbytes] at hnear
  have hparse : parse 0x040 [0, 0x80, 0, 0, 0, 0, 0, 0] = .ok (zeroMsg 0) := rfl
  have hout : ParsesTo .debug 0 [0x40, 0x30, 0xda, 0, 0x80, 0, 0, 0, 0, 0, 0] .zero (LfcDgDes.zero.store (zeroMsg 0)) :=
    (parsesTo_iff .debug (Or.inl hnear) .zero _).2 ⟨_, hparse, rfl⟩
  have hpay : (LfcDgDes.zero.store (zeroMsg 0)).dg.payLen ≤ lfcDgConstantsMaxPayLen := Nat.zero_le _
  exact ⟨_, hout, hpay, reencode_normalizes .debug 0 _ .zero _ hout hpay⟩

/-! ## Equality -/

/-- the wire form determines the message -/
theorem wire_inj {a b : Msg} (h : a.wire = b.wire) : a = b := by
  have hhdr : a.hdr = b.hdr := (h ▸ a.wire_near).unique b.wire_near
  have hbody : a.body = b.body := congrArg (List.drop 3) h
  have ha := parse_body a
  rw [hhdr, hbody, parse_body b] at ha
  exact (Except.ok.inj ha).symm

/-- a comparator that compares what f extracts is an equivalence relation -/
theorem equivalence_of_iff {α β : Type} {eq : α → α → Bool} (f : α → β) (h : ∀ l r, eq l r = true ↔ f l = f r) :
    Equivalence fun l r => eq l r = true where
  refl l := (h l l).2 rfl
  symm hlr := (h _ _).2 ((h _ _).1 hlr).symm
  trans hlr hrs := (h _ _).2 (((h _ _).1 hlr).trans ((h _ _).1 hrs))

/-- the datagrams with a payload inside its array -/
abbrev Within {D : Type} (payLen : D → ℕ) := {d : D // payLen d ≤ lfcDgConstantsMaxPayLen}

/-- the comparators are equivalence relations -/
structure EqEquivalence : Prop where
  monolithic : Equivalence fun l r : Within LfcDgMonolithic.payLen => lfcDgMonolithicEq l.1 r.1 = true
  frameStart : Equivalence fun l r : Within LfcDgFrameStart.payLen => lfcDgFrameStartEq l.1 r.1 = true
  frameData : Equivalence fun l r : Within LfcDgFrameData.payLen => lfcDgFrameDataEq l.1 r.1 = true
  ack : Equivalence fun l r : Within LfcDgAck.payLen => lfcDgAckEq l.1 r.1 = true

theorem eqEquivalence : EqEquivalence where
  monolithic := equivalence_of_iff (fun l => (Dg.monolithic l.1).msg) fun l r =>
    Dg.eq_iff (a := .monolithic l.1) (b := .monolithic r.1) l.2 r.2
  frameStart := equivalence_of_iff (fun l => (Dg.frameStart l.1).msg) fun l r =>
    Dg.eq_iff (a := .frameStart l.1) (b := .frameStart r.1) l.2 r.2
  frameData := equivalence_of_iff (fun l => (Dg.frameData l.1).msg) fun l r =>
    Dg.eq_iff (a := .frameData l.1) (b := .frameData r.1) l.2 r.2
  ack := equivalence_of_iff (fun l => (Dg.ack l.1).msg) fun l r =>
    Dg.eq_iff (a := .ack l.1) (b := .ack r.1) l.2 r.2

/-- **Equality is equality on the wire**, and the comparators are equivalence relations. -/
theorem same_wire_iff (B : Build) : EqEquivalence ∧
    ∀ a b : Dg, a.payLen ≤ lfcDgConstantsMaxPayLen → b.payLen ≤ lfcDgConstantsMaxPayLen →
      ∀ (buf buf' : List U8) (n n' : ℕ), n ≤ buf.length → n' ≤ buf'.length → a.msg.size ≤ n → b.msg.size ≤ n' →
        ∃ c c', a.ser B (cursorNew buf n) = .ok () c ∧ b.ser B (cursorNew buf' n') = .ok () c' ∧
          (c.buf.take c.pos = c'.buf.take c'.pos ↔ a.type = b.type ∧ a.eq b = true) := by
  refine ⟨eqEquivalence, ?_⟩
  intro a b ha hb buf buf' n n' hn hn' hroom hroom'
  rw [← Msg.wire_length] at hroom hroom'
  refine ⟨_, _, (Dg.ser_writes B ha).fits (cursorNew_wf hn) hroom, (Dg.ser_writes B hb).fits (cursorNew_wf hn') hroom',
    ?_⟩
  rw [cursorNew_written, cursorNew_written, Dg.eq_iff ha hb]
  constructor
  · intro h
    have hmsg := wire_inj h
    exact ⟨by rw [← Dg.msg_type, hmsg, Dg.msg_type], hmsg⟩
  · intro ⟨_, hmsg⟩
    rw [hmsg]

end LongFi
