/-
How many byte strings bring a receiver the same payload.

A fingerprint is computed over the fields of a datagram, not over the bytes that came, and over no flags. So every form of
the fields, every word for a monolithic header and all flags are as good as those that were sent.

- `verdict_ok_iff`: the checks of the receiver, in terms of the message.
- `accepted_count`: how many byte strings are accepted with a given sequence number and payload.
-/
import LongFi.Datagram.Malleability
import LongFi.Device.Verdict

namespace LongFi

open LongFi.Core Finset

/-! ## Headers -/

/-- read as the header of a monolithic datagram, with any flags -/
def MonolithicHdr (v : U16) : Prop := hdrExtended v = false ∧ hdrType v = some .monolithic

instance : DecidablePred MonolithicHdr := fun _ => inferInstanceAs (Decidable (_ ∧ _))

theorem card_monolithicHdr : (hdrValues MonolithicHdr).card = 128 := by
  have hcard := card_hdrValues .monolithic fun _ => True
  rw [filter_true, card_range] at hcard
  refine Eq.trans (congrArg card (filter_congr fun v _ => ?_)) hcard
  simp only [MonolithicHdr, and_true]

/-! ## Accepted bytes -/

section Accepted

variable (H : Blake2s) (u : Locals) (lfc : Lfc) (o : OutBuf)

theorem verdict_ok_iff (fp : U32) (m : Msg) : (∃ o', verdict H .release lfc o fp (.ok m) = .ok () o') ↔
    m.type = .monolithic ∧ m.pay.length ≤ o.outLen ∧ lfc.cfg.key.Fits ∧ m.oui = lfc.cfg.oui ∧ m.did = lfc.cfg.did ∧
      fingerprint H lfc.cfg.key fpHdr m.oui m.did (m.nums.getD 0 0) m.pay = m.fp := by
  rw [verdict]
  constructor
  · rintro ⟨o', h⟩
    rw [if_neg (c := Build.release = .debug ∧ _) (by simp)] at h
    split_ifs at h with ht hroom hk haddr hfp
    obtain ⟨houi, hdid⟩ := not_or.1 haddr
    exact ⟨not_not.1 ht, Nat.not_lt.1 hroom, hk, not_not.1 houi, not_not.1 hdid, not_not.1 hfp⟩
  · rintro ⟨ht, hroom, hk, houi, hdid, hfp⟩
    rw [if_neg (not_not_intro ht), if_neg (Nat.not_lt.2 hroom), if_neg (not_not_intro hk), if_neg (by simp),
      if_neg (not_or.2 ⟨not_not_intro houi, not_not_intro hdid⟩), if_neg (not_not_intro hfp)]
    exact ⟨_, rfl⟩

/-- x is accepted, with this sequence number and this payload, and no payload array is overrun -/
def Brings (x : List U8) (seq : U32) (pay : List U8) : Prop :=
  Accepts H u lfc x o ∧ ∃ m, ParsesAs .release u.decHdrBits x u.dg m ∧ m.nums = [seq] ∧ m.pay = pay

/-- the fields of the datagram that is sent -/
def authenticFields (seq : U32) (pay : List U8) : Fields 1 :=
  ⟨lfc.cfg.oui, lfc.cfg.did, fingerprint H lfc.cfg.key fpHdr lfc.cfg.oui lfc.cfg.did seq pay, ⟨[seq], rfl⟩⟩

variable {u o} (hu : u.dg.InBounds) (ho : o.Fits) {seq : U32} {pay : List U8}
  (hpay : pay.length ≤ lfcDgConstantsMaxPayLen)
include hu ho hpay

/-- the receiver's checks on the message that was read -/
theorem brings_msg {x : List U8} : Brings H u lfc o x seq pay ↔
    ∃ v m, Header u.decHdrBits x v ∧ parse v (x.drop 3) = .ok m ∧ m.nums = [seq] ∧ m.pay = pay ∧
      ∃ o', verdict H .release lfc o u.fp (.ok m) = .ok () o' := by
  constructor
  · rintro ⟨⟨o', hrun⟩, m, hm, hnums, rfl⟩
    obtain ⟨v, hv, hparse⟩ := (parsesAs_iff .release hu hpay).1 hm
    rw [receive_header H .release u lfc o hv ho, hparse] at hrun
    exact ⟨v, m, hv, hparse, hnums, rfl, o', hrun⟩
  · rintro ⟨v, m, hv, hparse, hnums, rfl, hverdict⟩
    refine ⟨?_, m, (parsesAs_iff .release hu hpay).2 ⟨v, hv, hparse⟩, hnums, rfl⟩
    rw [Accepts, receive_header H .release u lfc o hv ho, hparse]
    exact hverdict

theorem brings_fits {x : List U8} (h : Brings H u lfc o x seq pay) : lfc.cfg.key.Fits ∧ pay.length ≤ o.outLen := by
  obtain ⟨v, m, -, -, -, rfl, hverdict⟩ := (brings_msg H lfc hu ho hpay).1 h
  obtain ⟨-, hroom, hk, -⟩ := (verdict_ok_iff H lfc o u.fp m).1 hverdict
  exact ⟨hk, hroom⟩

/-- all that is free is the header word, and the form of the fields -/
theorem brings_iff (hk : lfc.cfg.key.Fits) (hroom : pay.length ≤ o.outLen) (x : List U8) : Brings H u lfc o x seq pay ↔
    x ∈ framed u.decHdrBits MonolithicHdr (bodies (authenticFields H lfc seq pay) pay) := by
  rw [brings_msg H lfc hu ho hpay]
  constructor
  · rintro ⟨v, m, hv, hparse, hnums, hmpay, hverdict⟩
    obtain ⟨ht, -, -, houi, hdid, hfp⟩ := (verdict_ok_iff H lfc o u.fp m).1 hverdict
    obtain ⟨⟨hext, htype, -⟩, hbody⟩ := parse_iff.1 hparse
    obtain ⟨t, f, oui, did, fp, nums, mpay, hf, hn⟩ := m
    dsimp only at ht hnums hmpay houi hdid hfp htype
    subst ht hnums hmpay houi hdid hfp
    exact ⟨v, hv, ⟨hext, htype⟩, hbody⟩
  · rintro ⟨v, hv, ⟨hext, htype⟩, hbody⟩
    have hparse : parse v (x.drop 3) =
        .ok (Msg.ofFields .monolithic (hdrFlags v) (authenticFields H lfc seq pay) pay) :=
      parse_ok_iff.2 ⟨hext, .monolithic, _, pay, htype, mem_bodies.1 hbody, rfl⟩
    refine ⟨v, _, hv, hparse, rfl, rfl, ?_⟩
    rw [verdict_ok_iff]
    exact ⟨rfl, hroom, hk, rfl, rfl, rfl⟩

/-- **How many byte strings bring one payload**: 2325 words for each of 128 header values, every word that is far from all
codewords too if `dec_hdr_bits` happened to hold such a value, and 21 - g forms for every integer of g bytes. None do
without a key that BLAKE2s takes, or without room. -/
theorem accepted_count : {x | Brings H u lfc o x seq pay}.encard =
    (if lfc.cfg.key.Fits ∧ pay.length ≤ o.outLen then
      (297600 + if MonolithicHdr u.decHdrBits then 7254016 else 0) * formCount lfc.cfg.oui lfc.cfg.did [seq]
    else 0 : ℕ) := by
  by_cases hfits : lfc.cfg.key.Fits ∧ pay.length ≤ o.outLen
  · have hset : {x | Brings H u lfc o x seq pay} =
        framed u.decHdrBits MonolithicHdr (bodies (authenticFields H lfc seq pay) pay) := by
      ext x
      exact brings_iff H lfc hu ho hpay hfits.1 hfits.2 x
    rw [if_pos hfits, hset, card_framed, card_headed, card_monolithicHdr, card_bodies, Nat.cast_mul]
    rfl
  · have hempty : {x | Brings H u lfc o x seq pay} = ∅ := by
      ext x
      exact ⟨fun h => hfits (brings_fits H lfc hu ho hpay h), fun h => h.elim⟩
    rw [if_neg hfits, hempty, Set.encard_empty, Nat.cast_zero]

end Accepted

/-- a device with empty fields, and a payload of two bytes -/
theorem accepted_count_sample : {x | Brings .echo .zero .zero (.zero 8) x 0 [0, 0]}.encard = (2380800000 : ℕ) := by
  have hcount : (if Lfc.zero.cfg.key.Fits ∧ ([0, 0] : List U8).length ≤ (OutBuf.zero 8).outLen then
      (297600 + if MonolithicHdr Locals.zero.decHdrBits then 7254016 else 0) *
        formCount Lfc.zero.cfg.oui Lfc.zero.cfg.did [0]
    else 0) = 2380800000 := by decide +kernel
  have hpay : ([0, 0] : List U8).length ≤ lfcDgConstantsMaxPayLen := by decide
  rw [accepted_count .echo .zero LfcDgDes.zero_inBounds (OutBuf.zero_fits 8) hpay, hcount]

end LongFi
