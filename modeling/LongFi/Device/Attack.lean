/-
A network under attack.

- `accepted_genuine`: what a node accepts was sent before with its key and address and the same sequence number, or two
  payloads collide, or its fingerprint is right although no datagram in the air was made from the same input with this key.
- `accepted_genuine_ref`: over the hash of the code, payloads that collide give a collision of `blake2s_compress`.
- `accepted_again`: what was sent or accepted once is accepted after any run, so nothing protects against replays.
- `sends_are_own`: what a node sends depends on its own transmits only, not on what it receives or on other nodes.

A fingerprint that is guessed counts as forged, even if a node hashed the input before: to reject a wrong guess, or for a
transmit that failed for lack of space.
-/
import LongFi.Device.Hashed
import LongFi.Device.Network
import LongFi.Hash.Collisions

namespace LongFi.Network

open LongFi.Core

variable {ι : Type}

/-! ## Genuine or forged -/

/-- t was sent with this key, and with the address and the sequence number of dg -/
structure SameFields (key : Key) (dg : LfcDgMonolithic) (t : Sent ι) : Prop where
  key : t.lfc.cfg.key.used = key.used
  oui : t.lfc.cfg.oui = dg.oui
  did : t.lfc.cfg.did = dg.did
  seq : t.lfc.seq = dg.seq

/-- dg was sent -/
def Genuine (key : Key) (dg : LfcDgMonolithic) (ts : List (Sent ι)) : Prop :=
  ∃ t ∈ ts, SameFields key dg t ∧ t.pay = dg.payload

/-- dg was sent with another payload that has the same hash -/
def Collides (H : Blake2s) (key : Key) (dg : LfcDgMonolithic) (ts : List (Sent ι)) : Prop :=
  ∃ t ∈ ts, SameFields key dg t ∧ t.pay ≠ dg.payload ∧ H.digest 32 none t.pay = H.digest 32 none dg.payload

/-- the message that was hashed for the fingerprint of t -/
def Sent.input (H : Blake2s) (t : Sent ι) : List U8 :=
  fpInput fpHdr t.lfc.cfg.oui t.lfc.cfg.did t.lfc.seq (H.digest 32 none t.pay)

/-- the message that is hashed to check the fingerprint of dg -/
def checkedInput (H : Blake2s) (dg : LfcDgMonolithic) : List U8 :=
  fpInput fpHdr dg.oui dg.did dg.seq (H.digest 32 none dg.payload)

/-- dg has the right fingerprint, and none of the datagrams was made from the same input with this key -/
structure Forged (H : Blake2s) (key : Key) (dg : LfcDgMonolithic) (ts : List (Sent ι)) : Prop where
  fp : unpackLeU32 (H.digest 4 key.used (checkedInput H dg)) = dg.fp
  fresh : ∀ t ∈ ts, t.lfc.cfg.key.used = key.used → t.input H ≠ checkedInput H dg

/-- a valid fingerprint is genuine, up to a collision or a forgery -/
theorem genuine_or_forged (H : Blake2s) {lfc : Lfc} {dg : LfcDgMonolithic} (ha : Authentic H lfc fpHdr dg)
    (ts : List (Sent ι)) :
    Genuine lfc.cfg.key dg ts ∨ Collides H lfc.cfg.key dg ts ∨ Forged H lfc.cfg.key dg ts := by
  have hk : lfc.cfg.key.Fits := by
    by_contra hk
    exact not_authentic H hk fpHdr dg ha
  obtain ⟨-, -, hfp⟩ := (authentic_iff H hk fpHdr dg).1 ha
  by_cases hfresh : ∀ t ∈ ts, t.lfc.cfg.key.used = lfc.cfg.key.used → t.input H ≠ checkedInput H dg
  · exact Or.inr (Or.inr ⟨hfp, hfresh⟩)
  · simp only [not_forall, not_not] at hfresh
    obtain ⟨t, ht, hkey, hinput⟩ := hfresh
    obtain ⟨-, houi, hdid, hseq, hhash⟩ := fpInput_inj hinput
    have hsame : SameFields lfc.cfg.key dg t := ⟨hkey, houi, hdid, hseq⟩
    by_cases hpay : t.pay = dg.payload
    · exact Or.inl ⟨t, ht, hsame, hpay⟩
    · exact Or.inr (Or.inl ⟨t, ht, hsame, hpay, hhash⟩)

/-- payloads that collide in the hash of the code have blocks that collide in its compression function -/
theorem collides_ref {key : Key} {dg : LfcDgMonolithic} {ts : List (Sent ι)} (h : Collides Blake2sRef.ref key dg ts)
    (hts : ∀ t ∈ ts, t.pay.length < 2 ^ 63) (hdg : dg.payload.length < 2 ^ 63) :
    ∃ t ∈ ts, SameFields key dg t ∧ Blake2sRef.CollidingCalls 32 [] t.pay [] dg.payload := by
  obtain ⟨t, ht, hsame, hne, hhash⟩ := h
  have hdigest (msg : List U8) : Blake2sRef.ref.digest 32 none msg = Blake2sRef.keyedHash 32 [] msg := by
    have h32 : 32 ≤ blake2sOutbytes := le_rfl
    rw [Blake2sRef.ref_digest h32]
    exact List.take_of_length_le (Blake2sRef.hashOf_length _ _ _).le
  rw [hdigest, hdigest] at hhash
  rcases Blake2sRef.keyedHash_eq (Nat.zero_le _) (Nat.zero_le _) (hts t ht) hdg hhash with ⟨-, heq⟩ | hcalls
  · exact absurd heq hne
  · exact ⟨t, ht, hsame, hcalls⟩

/-! ## Receiving again -/

/-- an authentic datagram is accepted whenever there is room for its payload -/
theorem receive_authentic {H : Blake2s} {cfg : ι → LfcUserCfg} {net : Net ι} (h : Inv H cfg net) {i : ι} {x : List U8}
    {u : Locals} {dg : LfcDgMonolithic} (hp : Parsed .release u x dg) (ha : Authentic H (lfcInit (cfg i)) fpHdr dg)
    {o : OutBuf} (ho : o.Fits) (hroom : dg.payload.length ≤ o.outLen) :
    receive H net i x o u = { net with accepted := net.accepted ++ [⟨i, x, u, dg.payload, net.air.length⟩] } := by
  have hauth : Authentic H (net.node i) fpHdr dg := ha.of_cfg (h.cfg_eq i).symm
  rcases lfcReceive_parsed H u (net.node i) x o hp (hp.payload_length ▸ hroom) ho with ⟨-, hok⟩ | ⟨hna, -⟩
  · simp only [receive, hok, OutBuf.fill_bytes]
  · exact absurd hauth hna

/-- what was sent is authentic for a node with the same key and address -/
theorem sent_authentic {H : Blake2s} {cfg : ι → LfcUserCfg} {net : Net ι} (h : Inv H cfg net) {t : Sent ι} (ht : t ∈ net.air)
    {i : ι} (hcfg : cfg i = cfg t.node) (hk : (cfg i).key.Fits) (out : LfcDgDes) :
    Authentic H (lfcInit (cfg i)) fpHdr (out.store (txMsg H t.lfc t.pay)).monolithic := by
  obtain ⟨houi, hdid, -, -, -, -⟩ := store_monolithic out (m := txMsg H t.lfc t.pay) rfl
  have hsnd : t.lfc.cfg = cfg i := (h.sent t ht).1.trans hcfg.symm
  rw [authentic_iff H hk, houi, hdid]
  refine ⟨congrArg LfcUserCfg.oui hsnd, congrArg LfcUserCfg.did hsnd, ?_⟩
  have hkey : t.lfc.cfg.key = (lfcInit (cfg i)).cfg.key := congrArg LfcUserCfg.key hsnd
  have hfp := rxFp_sent H hkey (hsnd ▸ hk) t.pay out
  rw [rxFp, houi, hdid] at hfp
  exact hfp

/-! ## Sending alone -/

/-- the transmits of node i -/
def Event.own [DecidableEq ι] (i : ι) : Event ι → Option Op
  | .transmit j pay o hpay ho => if j = i then some (.transmit pay o hpay ho) else none
  | _ => none

/-- what node i sent -/
def Net.sentBy [DecidableEq ι] (net : Net ι) (i : ι) : List (List U8) := (net.air.filter fun t => t.node = i).map Sent.bytes

/-- the device is in the state of node i, and has emitted the same -/
structure Alone [DecidableEq ι] (i : ι) (net : Net ι) (t : Device) : Prop where
  lfc : t.lfc = net.node i
  emitted : t.emitted.map Prod.snd = net.sentBy i

theorem receive_keeps (H : Blake2s) (net : Net ι) (i : ι) (x : List U8) (o : OutBuf) (u : Locals) :
    (receive H net i x o u).node = net.node ∧ (receive H net i x o u).air = net.air := by
  unfold receive
  cases lfcReceive H .release u (net.node i) x o with
  | ok a o' => exact ⟨rfl, rfl⟩
  | error e o' => exact ⟨rfl, rfl⟩

theorem step_deliver_keeps [DecidableEq ι] (H : Blake2s) (net : Net ι) (i : ι) (k : ℕ) {e : BitVec 24} (he : weight e ≤ 3)
    {o : OutBuf} (u : Locals) (ho : o.Fits) :
    (step H net (.deliver i k e he o u ho)).node = net.node ∧ (step H net (.deliver i k e he o u ho)).air = net.air := by
  rcases step_deliver H net i k he u ho with ⟨t, -, hstep⟩ | hstep
  · rw [hstep]
    exact receive_keeps H net i _ o u
  · rw [hstep]
    exact ⟨rfl, rfl⟩

theorem Alone.of_keeps [DecidableEq ι] {i : ι} {net net' : Net ι} {t : Device} (h : Alone i net t)
    (hkeeps : net'.node = net.node ∧ net'.air = net.air) : Alone i net' t := by
  refine ⟨?_, ?_⟩
  · rw [hkeeps.1]
    exact h.lfc
  · rw [Net.sentBy, hkeeps.2]
    exact h.emitted

theorem Alone.transmit [DecidableEq ι] {H : Blake2s} {i : ι} {net : Net ι} {t : Device} (h : Alone i net t)
    {pay : List U8} {o : OutBuf} (hpay : pay.length ≤ lfcDgConstantsMaxPayLen) (ho : o.Fits) :
    Alone i (step H net (.transmit i pay o hpay ho)) (LongFi.step H t (.transmit pay o hpay ho)) := by
  have hdev := LongFi.step_transmit H t hpay ho
  have hnet := step_transmit H net i hpay ho
  rw [h.lfc] at hdev
  rcases hdev with ⟨hroom, hdev⟩ | ⟨hfull, hdev⟩
  · rcases hnet with ⟨-, hnet⟩ | ⟨hfull, -⟩
    · rw [hdev, hnet]
      refine ⟨by dsimp only; rw [Function.update_self], ?_⟩
      rw [List.map_append, h.emitted, Net.sentBy, Net.sentBy, List.filter_append, List.map_append]
      simp
    · exact absurd hroom (Nat.not_le.2 hfull)
  · rcases hnet with ⟨hroom, -⟩ | ⟨-, hnet⟩
    · exact absurd hroom (Nat.not_le.2 hfull)
    · rw [hdev, hnet]
      exact ⟨by dsimp only; rw [Function.update_self], h.emitted⟩

/-- what other nodes send does not matter -/
theorem Alone.other [DecidableEq ι] {H : Blake2s} {i j : ι} (hij : j ≠ i) {net : Net ι} {t : Device} (h : Alone i net t)
    {pay : List U8} {o : OutBuf} (hpay : pay.length ≤ lfcDgConstantsMaxPayLen) (ho : o.Fits) :
    Alone i (step H net (.transmit j pay o hpay ho)) t := by
  rcases step_transmit H net j hpay ho with ⟨-, hnet⟩ | ⟨-, hnet⟩
  · rw [hnet]
    refine ⟨h.lfc.trans (Function.update_of_ne hij.symm _ _).symm, ?_⟩
    rw [h.emitted, Net.sentBy, Net.sentBy, List.filter_append, List.map_append]
    simp [hij]
  · rw [hnet]
    exact ⟨h.lfc.trans (Function.update_of_ne hij.symm _ _).symm, h.emitted⟩

theorem run_alone [DecidableEq ι] {H : Blake2s} (i : ι) {net : Net ι} {t : Device} (h : Alone i net t)
    (es : List (Event ι)) : Alone i (run H net es) (LongFi.run H t (es.filterMap (Event.own i))) := by
  induction es generalizing net t with
  | nil => exact h
  | cons ev es ih =>
    cases ev with
    | transmit j pay o hpay ho =>
      by_cases hj : j = i
      · subst hj
        have hown : Event.own j (.transmit j pay o hpay ho) = some (.transmit pay o hpay ho) := if_pos rfl
        rw [List.filterMap_cons_some hown]
        exact ih (h.transmit hpay ho)
      · have hown : Event.own i (.transmit j pay o hpay ho) = none := if_neg hj
        rw [List.filterMap_cons_none hown]
        exact ih (h.other hj hpay ho)
    | deliver j k e he o u ho => exact ih (h.of_keeps (step_deliver_keeps H net j k he u ho))
    | inject j x o u ho hx => exact ih (h.of_keeps (receive_keeps H net j x o u))

/-! ## Every run -/

section Run

variable [DecidableEq ι] (H : Blake2s) (cfg : ι → LfcUserCfg) (es : List (Event ι))

/-- **Accepted under attack.** Whatever an attacker injects and the air does, every accepted input parses to a datagram
with the address of the node and the accepted payload. It was sent before by a node with the same key, or was sent before
with another payload that has the same hash, or it is forged: no datagram in the air was made from the input that its
fingerprint is right for, with this key. -/
theorem accepted_genuine :
    ∀ a ∈ (run H (init cfg) es).accepted, ∃ dg, Parsed .release a.locals a.input dg ∧ dg.payload = a.payload ∧
      dg.oui = (cfg a.node).oui ∧ dg.did = (cfg a.node).did ∧
        (Genuine (cfg a.node).key dg ((run H (init cfg) es).heard a) ∨
          Collides H (cfg a.node).key dg ((run H (init cfg) es).heard a) ∨
            Forged H (cfg a.node).key dg ((run H (init cfg) es).heard a)) := by
  intro a ha
  obtain ⟨dg, hp, hauth, hpay⟩ := (run_inv (inv_init H cfg) es).authentic a ha
  exact ⟨dg, hp, hpay, hauth.oui, hauth.did, genuine_or_forged H hauth _⟩

end Run

theorem accepted_genuine_sample : ∃ a ∈ (run .echo (init sampleCfg) sampleEvents).accepted, a.payload = [5, 6] ∧
    ∃ dg, Parsed .release a.locals a.input dg ∧ dg.payload = a.payload ∧
      dg.oui = (sampleCfg a.node).oui ∧ dg.did = (sampleCfg a.node).did ∧
        (Genuine (sampleCfg a.node).key dg ((run .echo (init sampleCfg) sampleEvents).heard a) ∨
          Collides .echo (sampleCfg a.node).key dg ((run .echo (init sampleCfg) sampleEvents).heard a) ∨
            Forged .echo (sampleCfg a.node).key dg ((run .echo (init sampleCfg) sampleEvents).heard a)) := by
  have hmem : [5, 6] ∈ (run .echo (init sampleCfg) sampleEvents).accepted.map Accepted.payload := by decide +kernel
  obtain ⟨a, ha, hpay⟩ := List.mem_map.1 hmem
  exact ⟨a, ha, hpay, accepted_genuine .echo sampleCfg sampleEvents a ha⟩

/-- **Accepted under attack, over the hash of the code.** Every accepted payload was sent before with the same key, address
and sequence number, or two calls of `blake2s_compress` that hash it and a payload sent that way collide, or it is forged:
no datagram in the air was made from the input that its fingerprint is right for, with this key. -/
theorem accepted_genuine_ref [DecidableEq ι] (cfg : ι → LfcUserCfg) (es : List (Event ι)) :
    ∀ a ∈ (run Blake2sRef.ref (init cfg) es).accepted, a.payload.length < 2 ^ 63 →
      ∃ dg, Parsed .release a.locals a.input dg ∧ dg.payload = a.payload ∧
        dg.oui = (cfg a.node).oui ∧ dg.did = (cfg a.node).did ∧
          (Genuine (cfg a.node).key dg ((run Blake2sRef.ref (init cfg) es).heard a) ∨
            (∃ t ∈ (run Blake2sRef.ref (init cfg) es).heard a, SameFields (cfg a.node).key dg t ∧
              Blake2sRef.CollidingCalls 32 [] t.pay [] a.payload) ∨
            Forged Blake2sRef.ref (cfg a.node).key dg ((run Blake2sRef.ref (init cfg) es).heard a)) := by
  intro a ha hlen
  have hinv := run_inv (inv_init Blake2sRef.ref cfg) es
  obtain ⟨dg, hp, hauth, hpay⟩ := hinv.authentic a ha
  have hheard : ∀ t ∈ (run Blake2sRef.ref (init cfg) es).heard a, t.pay.length < 2 ^ 63 := by
    intro t ht
    exact lt_of_le_of_lt (hinv.pay_le t (List.mem_of_mem_take ht)) (by decide)
  refine ⟨dg, hp, hpay, hauth.oui, hauth.did, ?_⟩
  rcases genuine_or_forged Blake2sRef.ref hauth _ with hgenuine | hcollides | hforged
  · exact Or.inl hgenuine
  · refine Or.inr (Or.inl ?_)
    rw [← hpay]
    exact collides_ref hcollides hheard (hpay ▸ hlen)
  · exact Or.inr (Or.inr hforged)

theorem accepted_genuine_ref_sample : ∃ a ∈ (run Blake2sRef.ref (init sampleCfg) sampleEvents).accepted,
    a.payload = [5, 6] ∧ ∃ dg, Parsed .release a.locals a.input dg ∧ dg.payload = a.payload ∧
      dg.oui = (sampleCfg a.node).oui ∧ dg.did = (sampleCfg a.node).did ∧
        (Genuine (sampleCfg a.node).key dg ((run Blake2sRef.ref (init sampleCfg) sampleEvents).heard a) ∨
          (∃ t ∈ (run Blake2sRef.ref (init sampleCfg) sampleEvents).heard a, SameFields (sampleCfg a.node).key dg t ∧
            Blake2sRef.CollidingCalls 32 [] t.pay [] a.payload) ∨
          Forged Blake2sRef.ref (sampleCfg a.node).key dg
            ((run Blake2sRef.ref (init sampleCfg) sampleEvents).heard a)) := by
  have hmem : [5, 6] ∈ (run Blake2sRef.ref (init sampleCfg) sampleEvents).accepted.map Accepted.payload := by
    decide +kernel
  obtain ⟨a, ha, hpay⟩ := List.mem_map.1 hmem
  exact ⟨a, ha, hpay, accepted_genuine_ref sampleCfg sampleEvents a ha (by rw [hpay]; decide)⟩

section Run

variable [DecidableEq ι] (H : Blake2s) (cfg : ι → LfcUserCfg) (es : List (Event ι))

/-- **Nothing protects against replays.** After any run, whatever an attacker does: what is in the air is accepted by
every node with the configuration of its sender, and what was accepted before is accepted again, where there is room. An
uncorrectable header must be read with the same content of `dec_hdr_bits` again, the other local variables do not matter. -/
theorem accepted_again (es' : List (Event ι)) :
    (∀ t ∈ (run H (init cfg) es).air, ∀ i (e : BitVec 24) (o : OutBuf) (u : Locals), cfg i = cfg t.node →
        (cfg i).key.Fits → weight e ≤ 3 → o.Fits → t.pay.length ≤ o.outLen →
          FitsPayload u.decHdrBits (damage e t.bytes) ∧
            (receive H (run H (init cfg) (es ++ es')) i (damage e t.bytes) o u).accepted =
              (run H (init cfg) (es ++ es')).accepted ++
                [⟨i, damage e t.bytes, u, t.pay, (run H (init cfg) (es ++ es')).air.length⟩]) ∧
      ∀ a ∈ (run H (init cfg) es).accepted, ∀ (o : OutBuf) (u : Locals), o.Fits → a.payload.length ≤ o.outLen →
        SameHeader a.input a.locals.decHdrBits u.decHdrBits →
          FitsPayload u.decHdrBits a.input ∧ (receive H (run H (init cfg) (es ++ es')) a.node a.input o u).accepted =
            (run H (init cfg) (es ++ es')).accepted ++
              [⟨a.node, a.input, u, a.payload, (run H (init cfg) (es ++ es')).air.length⟩] := by
  have hinv := run_inv (inv_init H cfg) es
  have hlater := run_inv (inv_init H cfg) (es ++ es')
  constructor
  · intro t ht i e o u hcfg hk he ho hroom
    obtain ⟨-, -, -, -, -, hpay⟩ := store_monolithic u.dg (m := txMsg H t.lfc t.pay) rfl
    have hpayload : (u.dg.store (txMsg H t.lfc t.pay)).monolithic.payload = t.pay := hpay
    have hp := parsed_heard hinv ht he u
    refine ⟨heard_fits hinv ht he u.decHdrBits, ?_⟩
    rw [receive_authentic hlater hp (sent_authentic hinv ht hcfg hk u.dg) ho (by rw [hpayload]; exact hroom), hpayload]
  · intro a ha o u ho hroom hsame
    obtain ⟨dg, hp, hauth, hpay⟩ := hinv.authentic a ha
    obtain ⟨dg', hp', hfields⟩ := hsame.parsed hp
    have hpay' : dg'.payload = a.payload := hfields.payload.symm.trans hpay
    refine ⟨hsame.fits (hinv.fits_pay a ha), ?_⟩
    rw [receive_authentic hlater hp' (hauth.of_same hfields) ho (by rw [hpay']; exact hroom), hpay']

/-- in a second round of `sampleEvents` the other node has accepted the first datagram again, and it does so once more -/
theorem accepted_again_sample :
    (∃ t ∈ (run .echo (init sampleCfg) sampleEvents).air, t.pay = [5, 6] ∧
      (receive .echo (run .echo (init sampleCfg) (sampleEvents ++ sampleEvents)) true (damage 4 t.bytes) (.zero 2)
        .zero).accepted.map Accepted.payload = [[5, 6], [5, 6], [5, 6]]) ∧
      ∃ a ∈ (run .echo (init sampleCfg) sampleEvents).accepted, a.payload = [5, 6] ∧
        (receive .echo (run .echo (init sampleCfg) (sampleEvents ++ sampleEvents)) a.node a.input (.zero 2)
          a.locals).accepted.map Accepted.payload = [[5, 6], [5, 6], [5, 6]] := by
  have hair : [5, 6] ∈ (run .echo (init sampleCfg) sampleEvents).air.map Sent.pay := by decide +kernel
  have hmem : [5, 6] ∈ (run .echo (init sampleCfg) sampleEvents).accepted.map Accepted.payload := by decide +kernel
  have htwice : (run .echo (init sampleCfg) (sampleEvents ++ sampleEvents)).accepted.map Accepted.payload =
      [[5, 6], [5, 6]] := by decide +kernel
  obtain ⟨t, ht, hsent⟩ := List.mem_map.1 hair
  obtain ⟨a, ha, hpay⟩ := List.mem_map.1 hmem
  obtain ⟨hdamaged, hagain⟩ := accepted_again .echo sampleCfg sampleEvents sampleEvents
  refine ⟨⟨t, ht, hsent, ?_⟩, a, ha, hpay, ?_⟩
  · obtain ⟨-, hrun⟩ := hdamaged t ht true 4 (.zero 2) .zero rfl (Or.inl rfl) (by decide +kernel) (OutBuf.zero_fits 2)
      (by rw [hsent]; decide)
    rw [hrun, List.map_append, htwice, List.map_singleton, hsent]
    rfl
  · obtain ⟨-, hrun⟩ := hagain a ha (.zero 2) a.locals (OutBuf.zero_fits 2) (by rw [hpay]; decide) fun _ => rfl
    rw [hrun, List.map_append, htwice, List.map_singleton, hpay]
    rfl

/-- **What a node sends is its own.** In any interleaving, under attack or not, a node sends what a device alone sends
that makes the same transmits and receives nothing. -/
theorem sends_are_own (i : ι) : (run H (init cfg) es).sentBy i =
    (LongFi.run H (LongFi.init (cfg i)) (es.filterMap (Event.own i))).emitted.map Prod.snd :=
  (run_alone i ⟨rfl, rfl⟩ es).emitted.symm

end Run

end LongFi.Network
