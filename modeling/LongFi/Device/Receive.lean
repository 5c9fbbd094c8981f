/-
What the receiver accepts, and what it delivers.

`lfcReceive_outcome` says once what `lfc_receive` can do without assertions: reject the input with nothing delivered, or
deliver the payload and then accept or reject it. The fingerprint is always computed over the header `fpHdr` of a
datagram without flags.

- `receive_accepts`: what is accepted, and that flags make no difference to it.
- `flags_not_authenticated`: a datagram fingerprinted over its flags is rejected, one with changed flags is accepted.
- `deliversNothing_iff`: a rejected input delivers nothing unless it was rejected after the payload was copied.
-/
import LongFi.Device.Lfc

namespace LongFi

open LongFi.Core

/-! ## What a call can do -/

/-- x parses to the monolithic datagram dg -/
def Parsed (B : Build) (u : Locals) (x : List U8) (dg : LfcDgMonolithic) : Prop :=
  ∃ c out, lfcDgDes B u.decHdrBits (cursorNew x x.length, u.dg) = .ok () (c, out) ∧ out.type = .monolithic ∧
    out.monolithic = dg

/-- dg is addressed to this device, and its fingerprint is the one computed over header hdr -/
structure Authentic (H : Blake2s) (lfc : Lfc) (hdr : U16) (dg : LfcDgMonolithic) : Prop where
  oui : dg.oui = lfc.cfg.oui
  did : dg.did = lfc.cfg.did
  fp : ∀ s, lfcFingerprintMonolithic H .release lfc.cfg.key hdr dg.oui dg.did dg.seq dg.payload s = .ok () dg.fp

theorem Parsed.unique {B : Build} {u : Locals} {x : List U8} {dg dg' : LfcDgMonolithic} (h : Parsed B u x dg)
    (h' : Parsed B u x dg') : dg = dg' := by
  obtain ⟨c, out, hrun, -, rfl⟩ := h
  obtain ⟨c', out', hrun', -, rfl⟩ := h'
  rw [hrun] at hrun'
  rw [(Prod.mk.inj (EStateM.Result.ok.inj hrun').2).2]

theorem Parsed.payload_length {B : Build} {u : Locals} {x : List U8} {dg : LfcDgMonolithic} (h : Parsed B u x dg) :
    dg.payload.length = dg.payLen := by
  obtain ⟨c, out, hrun, ht, rfl⟩ := h
  exact LfcDgMonolithic.payload_length (parsed_payLen_le hrun ht)

theorem parsed_of_parse (B : Build) {u : Locals} {x : List U8} {v : U16} {m : Msg} (hv : Header u.decHdrBits x v)
    (hm : parse v (x.drop 3) = .ok m) (ht : m.type = .monolithic) : Parsed B u x (u.dg.store m).monolithic :=
  ⟨_, _, lfcDgDes_accepts B hv u.dg hm, (LfcDgDes.store_type _ _).trans ht, rfl⟩

/-- a message on the wire parses to the datagram that is stored for it -/
theorem parsed_wire (B : Build) (u : Locals) {m : Msg} (ht : m.type = .monolithic) :
    Parsed B u m.wire (u.dg.store m).monolithic :=
  parsed_of_parse B (Or.inl m.wire_near) (parse_body m) ht

/-- so it does after up to three bit errors in its header -/
theorem parsed_damaged (B : Build) (u : Locals) {m : Msg} (ht : m.type = .monolithic) {e : BitVec 24}
    (he : weight e ≤ 3) : Parsed B u (damage e m.wire) (u.dg.store m).monolithic :=
  parsed_of_parse B (Or.inl (damage_near he m.hdr_lt m.body).1) (parse_body m) ht

/-- with a key that BLAKE2s takes, the fingerprint computed over hdr is a function of the hash -/
theorem fp_computed_iff (H : Blake2s) {key : Key} (hk : key.Fits) (hdr : U16) (oui did seq : U32) (pay : List U8)
    (fp : U32) : (∀ s, lfcFingerprintMonolithic H .release key hdr oui did seq pay s = .ok () fp) ↔
      fingerprint H key hdr oui did seq pay = fp := by
  constructor
  · intro h
    have h0 := h 0
    rw [lfcFingerprintMonolithic_release H hdr oui did seq pay 0 hk] at h0
    exact (EStateM.Result.ok.inj h0).2
  · rintro rfl s
    exact lfcFingerprintMonolithic_release H hdr oui did seq pay s hk

theorem authentic_iff (H : Blake2s) {lfc : Lfc} (hk : lfc.cfg.key.Fits) (hdr : U16) (dg : LfcDgMonolithic) :
    Authentic H lfc hdr dg ↔ dg.oui = lfc.cfg.oui ∧ dg.did = lfc.cfg.did ∧
      fingerprint H lfc.cfg.key hdr dg.oui dg.did dg.seq dg.payload = dg.fp := by
  constructor
  · intro h
    exact ⟨h.oui, h.did, (fp_computed_iff H hk hdr _ _ _ _ _).1 h.fp⟩
  · rintro ⟨houi, hdid, hfp⟩
    exact ⟨houi, hdid, (fp_computed_iff H hk hdr _ _ _ _ _).2 hfp⟩

/-- without a key that BLAKE2s takes nothing is authentic -/
theorem not_authentic (H : Blake2s) {lfc : Lfc} (hk : ¬lfc.cfg.key.Fits) (hdr : U16) (dg : LfcDgMonolithic) :
    ¬Authentic H lfc hdr dg := by
  intro h
  have h0 := h.fp 0
  rw [lfcFingerprintMonolithic_bad_key H .release hdr _ _ _ _ 0 hk] at h0
  cases h0

section Outcome

variable (H : Blake2s) (u : Locals) (lfc : Lfc) (x : List U8) (o : OutBuf)

/-- a parsed datagram that fits the buffer is delivered, and accepted if it is authentic -/
theorem lfcReceive_parsed {dg : LfcDgMonolithic} (h : Parsed .release u x dg) (hcap : dg.payLen ≤ o.outLen)
    (ho : o.Fits) :
    Authentic H lfc fpHdr dg ∧ lfcReceive H .release u lfc x o = .ok () (o.fill dg.payload) ∨
      ¬Authentic H lfc fpHdr dg ∧
        ∃ e, lfcReceive H .release u lfc x o = .error (.code e) (o.fill dg.payload) := by
  obtain ⟨c, out, hrun, ht, rfl⟩ := h
  by_cases hk : lfc.cfg.key.Fits
  · have hverdict := lfcReceive_verdict H lfc o hrun ht hcap ho hk (by simp)
    rw [authentic_iff H hk]
    by_cases haddr : out.monolithic.oui ≠ lfc.cfg.oui ∨ out.monolithic.did ≠ lfc.cfg.did
    · rw [if_pos haddr] at hverdict
      refine Or.inr ⟨fun h => ?_, _, hverdict⟩
      exact haddr.elim (fun hne => hne h.1) fun hne => hne h.2.1
    · rw [if_neg haddr] at hverdict
      obtain ⟨houi, hdid⟩ := not_or.1 haddr
      by_cases hfp : rxFp H lfc out.monolithic ≠ out.monolithic.fp
      · rw [if_pos hfp] at hverdict
        exact Or.inr ⟨fun h => hfp h.2.2, _, hverdict⟩
      · rw [if_neg hfp] at hverdict
        exact Or.inl ⟨⟨not_ne_iff.1 houi, not_ne_iff.1 hdid, not_ne_iff.1 hfp⟩, hverdict⟩
  · exact Or.inr ⟨not_authentic H hk fpHdr _, _, lfcReceive_bad_key H lfc o hrun ht hcap ho hk⟩

/-- everything else is rejected with nothing delivered -/
theorem lfcReceive_unfit (h : ∀ dg, Parsed .release u x dg → o.outLen < dg.payLen) :
    ∃ e, lfcReceive H .release u lfc x o = .error (.code e) { o with outLen := 0 } := by
  rcases lfcDgDes_returns .release u.decHdrBits x u.dg with ⟨c, out, hrun⟩ | ⟨e, c, out, -, hrun⟩
  · by_cases ht : out.type = .monolithic
    · exact ⟨_, lfcReceive_no_room H lfc o hrun ht (h _ ⟨c, out, hrun, ht, rfl⟩)⟩
    · exact ⟨_, lfcReceive_wrong_type H lfc o hrun ht⟩
  · exact ⟨e, lfcReceive_unparsed H lfc o hrun⟩

/-- the outcome of a call -/
theorem lfcReceive_outcome (ho : o.Fits) :
    (∀ dg, Parsed .release u x dg → o.outLen < dg.payLen) ∧
        (∃ e, lfcReceive H .release u lfc x o = .error (.code e) { o with outLen := 0 }) ∨
      ∃ dg, Parsed .release u x dg ∧ dg.payLen ≤ o.outLen ∧
        (Authentic H lfc fpHdr dg ∧ lfcReceive H .release u lfc x o = .ok () (o.fill dg.payload) ∨
          ¬Authentic H lfc fpHdr dg ∧
            ∃ e, lfcReceive H .release u lfc x o = .error (.code e) (o.fill dg.payload)) := by
  by_cases h : ∃ dg, Parsed .release u x dg ∧ dg.payLen ≤ o.outLen
  · obtain ⟨dg, hp, hcap⟩ := h
    exact Or.inr ⟨dg, hp, hcap, lfcReceive_parsed H u lfc x o hp hcap ho⟩
  · have hno : ∀ dg, Parsed .release u x dg → o.outLen < dg.payLen := fun dg hp =>
      Nat.lt_of_not_le fun hcap => h ⟨dg, hp, hcap⟩
    exact Or.inl ⟨hno, lfcReceive_unfit H u lfc x o hno⟩

/-! ## What is accepted -/

/-- the input is accepted -/
def Accepts : Prop := ∃ o', lfcReceive H .release u lfc x o = .ok () o'

/-- accepted is exactly what parses to a datagram that fits the buffer and is authentic, its fingerprint taken over the
header `hdrOf` -/
def AcceptsExactly (hdrOf : LfcDgMonolithic → U16) : Prop :=
  Accepts H u lfc x o ↔ ∃ dg, Parsed .release u x dg ∧ dg.payLen ≤ o.outLen ∧ Authentic H lfc (hdrOf dg) dg

/-- the same fields, except for the flags -/
structure SameButFlags (a b : LfcDgMonolithic) : Prop where
  oui : a.oui = b.oui
  did : a.did = b.did
  fp : a.fp = b.fp
  seq : a.seq = b.seq
  payLen : a.payLen = b.payLen
  payload : a.payload = b.payload

/-- the header of a datagram, with its flags -/
def sentHdr (dg : LfcDgMonolithic) : U16 := hdrValue .monolithic (lfcDgMonolithicFlagsSer dg.flags)

theorem accepts_iff (ho : o.Fits) : AcceptsExactly H u lfc x o fun _ => fpHdr := by
  constructor
  · rintro ⟨o', hrun⟩
    rcases lfcReceive_outcome H u lfc x o ho with ⟨-, e, he⟩ | ⟨dg, hp, hcap, ⟨ha, -⟩ | ⟨-, e, he⟩⟩
    · rw [hrun] at he
      cases he
    · exact ⟨dg, hp, hcap, ha⟩
    · rw [hrun] at he
      cases he
  · rintro ⟨dg, hp, hcap, ha⟩
    rcases lfcReceive_parsed H u lfc x o hp hcap ho with ⟨-, hok⟩ | ⟨hna, -⟩
    · exact ⟨_, hok⟩
    · exact absurd ha hna

end Outcome

theorem SameButFlags.symm {a b : LfcDgMonolithic} (h : SameButFlags a b) : SameButFlags b a :=
  ⟨h.oui.symm, h.did.symm, h.fp.symm, h.seq.symm, h.payLen.symm, h.payload.symm⟩

theorem Authentic.of_same {H : Blake2s} {lfc : Lfc} {hdr : U16} {a b : LfcDgMonolithic} (ha : Authentic H lfc hdr a)
    (h : SameButFlags a b) : Authentic H lfc hdr b where
  oui := h.oui ▸ ha.oui
  did := h.did ▸ ha.did
  fp := by
    rw [← h.oui, ← h.did, ← h.seq, ← h.payload, ← h.fp]
    exact ha.fp

theorem Accepts.of_same {H : Blake2s} {u : Locals} {lfc : Lfc} {x y : List U8} {o : OutBuf} (ho : o.Fits)
    {a b : LfcDgMonolithic} (ha : Parsed .release u x a) (hb : Parsed .release u y b) (h : SameButFlags a b)
    (hx : Accepts H u lfc x o) : Accepts H u lfc y o := by
  obtain ⟨dg, hdg, hcap, hauth⟩ := (accepts_iff H u lfc x o ho).1 hx
  obtain rfl := hdg.unique ha
  exact (accepts_iff H u lfc y o ho).2 ⟨b, hb, h.payLen ▸ hcap, hauth.of_same h⟩

/-- **What is accepted**: the fingerprint is taken over the header of a monolithic datagram without flags, so the flags
of a datagram make no difference. -/
theorem receive_accepts (H : Blake2s) (u : Locals) (lfc : Lfc) (x : List U8) (o : OutBuf) (ho : o.Fits) :
    AcceptsExactly H u lfc x o (fun _ => 0x040) ∧
      ∀ y a b, Parsed .release u x a → Parsed .release u y b → SameButFlags a b →
        (Accepts H u lfc x o ↔ Accepts H u lfc y o) :=
  ⟨accepts_iff H u lfc x o ho, fun _ _ _ ha hb h => ⟨.of_same ho ha hb h, .of_same ho hb ha h.symm⟩⟩

/-! ## Samples -/

def Lfc.zero : Lfc := lfcInit ⟨0, 0, .none⟩

def Locals.zero : Locals := ⟨0, .zero, 0⟩

/-- n zero bytes -/
def OutBuf.zero (n : ℕ) : OutBuf := ⟨List.replicate n 0, n⟩

theorem OutBuf.zero_fits (n : ℕ) : (OutBuf.zero n).Fits := by simp [OutBuf.Fits, OutBuf.zero]

theorem receive_accepts_sample :
    AcceptsExactly .echo .zero .zero (zeroMsg 2).wire (.zero 8) (fun _ => 0x040) ∧
      ∀ y a b, Parsed .release .zero (zeroMsg 2).wire a → Parsed .release .zero y b → SameButFlags a b →
        (Accepts .echo .zero .zero (zeroMsg 2).wire (.zero 8) ↔ Accepts .echo .zero .zero y (.zero 8)) :=
  receive_accepts .echo .zero .zero (zeroMsg 2).wire (.zero 8) (OutBuf.zero_fits 8)


/-- an empty datagram with flag `downlink` and a given fingerprint -/
def flaggedMsg (fp : U32) : Msg :=
  { zeroMsg 0 with flags := 1, fp := fp, flags_known := by decide }

/-- with the fingerprint over its flags a datagram is rejected, with the one over no flags it is accepted -/
theorem flags_not_authenticated :
    (¬Accepts .echo .zero .zero (flaggedMsg 0x41).wire (.zero 8) ∧
        ¬AcceptsExactly .echo .zero .zero (flaggedMsg 0x41).wire (.zero 8) sentHdr) ∧
      Accepts .echo .zero .zero (flaggedMsg 0x40).wire (.zero 8) ∧
        ¬AcceptsExactly .echo .zero .zero (flaggedMsg 0x40).wire (.zero 8) sentHdr := by
  have hiff := fun fp => accepts_iff .echo .zero .zero (flaggedMsg fp).wire (.zero 8) (OutBuf.zero_fits 8)
  have hparsed := fun fp => parsed_wire .release .zero (m := flaggedMsg fp) rfl
  have hk : Lfc.zero.cfg.key.Fits := Or.inl rfl
  have hauth := authentic_iff .echo hk
  have hrej : ¬Accepts .echo .zero .zero (flaggedMsg 0x41).wire (.zero 8) := by
    intro h
    obtain ⟨dg, hdg, -, ha⟩ := (hiff 0x41).1 h
    obtain rfl := hdg.unique (hparsed 0x41)
    exact absurd ((hauth _ _).1 ha) (by decide +kernel)
  have hacc : Accepts .echo .zero .zero (flaggedMsg 0x40).wire (.zero 8) :=
    (hiff 0x40).2 ⟨_, hparsed 0x40, by decide +kernel, (hauth _ _).2 (by decide +kernel)⟩
  refine ⟨⟨hrej, fun h => hrej (h.2 ?_)⟩, hacc, fun h => ?_⟩
  · exact ⟨_, hparsed 0x41, by decide +kernel, (hauth _ _).2 (by decide +kernel)⟩
  · obtain ⟨dg, hdg, -, ha⟩ := h.1 hacc
    obtain rfl := hdg.unique (hparsed 0x40)
    exact absurd ((hauth _ _).1 ha) (by decide +kernel)

/-! ## What is delivered -/

/-- if the input is rejected, the length is 0 and the buffer as before -/
def DeliversNothing (H : Blake2s) (u : Locals) (lfc : Lfc) (x : List U8) (o : OutBuf) : Prop :=
  ∀ e o', lfcReceive H .release u lfc x o = .error (.code e) o' → o'.outLen = 0 ∧ o'.out = o.out

/-- **A rejected input delivers nothing** exactly if its payload did not fit, was empty, or was accepted: the payload is
copied before it is verified. -/
theorem deliversNothing_iff (H : Blake2s) (u : Locals) (lfc : Lfc) (x : List U8) (o : OutBuf) (ho : o.Fits) :
    DeliversNothing H u lfc x o ↔
      ∀ dg, Parsed .release u x dg → dg.payLen ≤ o.outLen → dg.payLen = 0 ∨ Authentic H lfc 0x040 dg := by
  constructor
  · intro h dg hp hcap
    rcases lfcReceive_parsed H u lfc x o hp hcap ho with ⟨ha, -⟩ | ⟨-, e, he⟩
    · exact Or.inr ha
    · have hlen := (h e _ he).1
      exact Or.inl (hp.payload_length.symm.trans hlen)
  · intro h e o' he
    rcases lfcReceive_outcome H u lfc x o ho with ⟨-, e', he'⟩ | ⟨dg, hp, hcap, ⟨-, hok⟩ | ⟨hna, e', he'⟩⟩
    · rw [he] at he'
      rw [(EStateM.Result.error.inj he').2]
      exact ⟨rfl, rfl⟩
    · rw [he] at hok
      cases hok
    · have hempty : dg.payload = [] :=
        List.length_eq_zero_iff.1 (hp.payload_length.trans ((h dg hp hcap).resolve_right hna))
      rw [he, hempty, OutBuf.fill_nil] at he'
      rw [(EStateM.Result.error.inj he').2]
      exact ⟨rfl, rfl⟩

theorem deliversNothing_iff_sample : DeliversNothing .echo .zero .zero (zeroMsg 2).wire (.zero 8) ↔
    ∀ dg, Parsed .release .zero (zeroMsg 2).wire dg → dg.payLen ≤ (OutBuf.zero 8).outLen →
      dg.payLen = 0 ∨ Authentic .echo .zero 0x040 dg :=
  deliversNothing_iff .echo .zero .zero (zeroMsg 2).wire (.zero 8) (OutBuf.zero_fits 8)

/-- two payload bytes with fingerprint 0 are in the buffer of the caller although the call failed -/
theorem forged_payload_delivered :
    (zeroMsg 2).wire = [0x40, 0x30, 0xda, 0, 0, 0, 0, 0, 0, 0, 0, 0] ∧
      lfcReceive .echo .release .zero .zero (zeroMsg 2).wire ⟨[7, 7, 7], 3⟩ =
        .error (.code .errFingerprint) ⟨[0, 0, 7], 2⟩ ∧
      ¬DeliversNothing .echo .zero .zero (zeroMsg 2).wire ⟨[7, 7, 7], 3⟩ := by
  obtain ⟨c, out, hrun, ht, hdg⟩ := parsed_wire .release .zero (m := zeroMsg 2) rfl
  have hverdict := lfcReceive_verdict .echo .zero ⟨[7, 7, 7], 3⟩ hrun ht (by rw [hdg]; decide +kernel)
    (le_refl 3) (by decide) (by simp)
  rw [hdg] at hverdict
  have herr : lfcReceive .echo .release .zero .zero (zeroMsg 2).wire ⟨[7, 7, 7], 3⟩ =
      .error (.code .errFingerprint) ⟨[0, 0, 7], 2⟩ := by
    rw [hverdict, if_neg (by decide +kernel), if_pos (by decide +kernel)]
    congr 1
  refine ⟨by decide +kernel, herr, fun h => ?_⟩
  exact absurd (h _ _ herr).1 (by decide)

end LongFi
