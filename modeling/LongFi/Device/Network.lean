/-
A network of devices, under noise and under attack.

Any number of nodes, each with a context of its own, transmit and receive in any order. What a node sends stays in the air:
it can reach any node, any number of times, late, out of order, or never, with up to three bits of its header flipped
(`deliver`). An attacker can make any node receive any bytes whose payload fits its array (`inject`); C does not define
what a node does after a longer one. Each accepted input is recorded with the number of datagrams that were in the air
before. Assertions are compiled out.

- `noise_forges_nothing`: without an attacker, every accepted payload was sent before by a node with the same address.
- `run_inv`: what is in the air is what its sender made of its context and payload, and what is accepted is authentic.
-/
import LongFi.Device.Run

namespace LongFi.Network

open LongFi.Core

variable {ι : Type}

/-! ## Nodes and the air -/

/-- a datagram in the air, with the context and the payload it was made from -/
structure Sent (ι : Type) where
  node : ι
  lfc : Lfc
  pay : List U8
  bytes : List U8

structure Accepted (ι : Type) where
  node : ι
  input : List U8
  locals : Locals
  payload : List U8
  /-- how many datagrams were in the air -/
  before : ℕ

structure Net (ι : Type) where
  node : ι → Lfc
  air : List (Sent ι)
  accepted : List (Accepted ι)

inductive Event (ι : Type) where
  | transmit (i : ι) (pay : List U8) (o : OutBuf) (pay_le : pay.length ≤ lfcDgConstantsMaxPayLen) (fits : o.Fits)
  | deliver (i : ι) (k : ℕ) (e : BitVec 24) (few : weight e ≤ 3) (o : OutBuf) (u : Locals) (fits : o.Fits)
  | inject (i : ι) (x : List U8) (o : OutBuf) (u : Locals) (fits : o.Fits) (fits_pay : FitsPayload u.decHdrBits x)

def init (cfg : ι → LfcUserCfg) : Net ι := ⟨fun i => lfcInit (cfg i), [], []⟩

/-- node i receives x -/
def receive (H : Blake2s) (net : Net ι) (i : ι) (x : List U8) (o : OutBuf) (u : Locals) : Net ι :=
  match lfcReceive H .release u (net.node i) x o with
  | .ok _ o' => { net with accepted := net.accepted ++ [⟨i, x, u, o'.bytes, net.air.length⟩] }
  | .error _ _ => net

/-- a receive accepts an authentic datagram, or changes nothing -/
theorem receive_cases (H : Blake2s) (net : Net ι) (i : ι) (x : List U8) {o : OutBuf} (u : Locals) (ho : o.Fits) :
    (∃ dg, Parsed .release u x dg ∧ Authentic H (net.node i) fpHdr dg ∧ receive H net i x o u =
        { net with accepted := net.accepted ++ [⟨i, x, u, dg.payload, net.air.length⟩] }) ∨
      receive H net i x o u = net := by
  rcases lfcReceive_outcome H u (net.node i) x o ho with ⟨-, e, he⟩ | ⟨dg, hp, -, ⟨ha, hok⟩ | ⟨-, e, he⟩⟩
  · exact Or.inr (by simp only [receive, he])
  · exact Or.inl ⟨dg, hp, ha, by simp only [receive, hok, OutBuf.fill_bytes]⟩
  · exact Or.inr (by simp only [receive, he])

/-! ## What holds in every network -/

/-- the datagrams that were in the air when a was accepted -/
def Net.heard (net : Net ι) (a : Accepted ι) : List (Sent ι) := net.air.take a.before

structure Inv (H : Blake2s) (cfg : ι → LfcUserCfg) (net : Net ι) : Prop where
  cfg_eq : ∀ i, (net.node i).cfg = cfg i
  sent : ∀ t ∈ net.air, t.lfc.cfg = cfg t.node ∧ t.bytes = (txMsg H t.lfc t.pay).wire
  pay_le : ∀ t ∈ net.air, t.pay.length ≤ lfcDgConstantsMaxPayLen
  before : ∀ a ∈ net.accepted, a.before ≤ net.air.length
  fits_pay : ∀ a ∈ net.accepted, FitsPayload a.locals.decHdrBits a.input
  authentic : ∀ a ∈ net.accepted, ∃ dg, Parsed .release a.locals a.input dg ∧
    Authentic H (lfcInit (cfg a.node)) fpHdr dg ∧ dg.payload = a.payload

theorem inv_init (H : Blake2s) (cfg : ι → LfcUserCfg) : Inv H cfg (init cfg) := by
  refine ⟨fun i => rfl, ?_, ?_, ?_, ?_, ?_⟩ <;> intro a ha <;> cases ha

theorem receive_inv {H : Blake2s} {cfg : ι → LfcUserCfg} {net : Net ι} (h : Inv H cfg net) (i : ι) {x : List U8}
    {o : OutBuf} {u : Locals} (ho : o.Fits) (hx : FitsPayload u.decHdrBits x) : Inv H cfg (receive H net i x o u) := by
  rcases receive_cases H net i x u ho with ⟨dg, hp, ha, hrun⟩ | hrun
  · rw [hrun]
    refine { h with before := fun a ha' => ?_, fits_pay := fun a ha' => ?_, authentic := fun a ha' => ?_ }
    · rcases List.mem_append.1 ha' with hmem | hmem
      · exact h.before a hmem
      · obtain rfl := List.mem_singleton.1 hmem
        exact le_rfl
    · rcases List.mem_append.1 ha' with hmem | hmem
      · exact h.fits_pay a hmem
      · obtain rfl := List.mem_singleton.1 hmem
        exact hx
    · rcases List.mem_append.1 ha' with hmem | hmem
      · exact h.authentic a hmem
      · obtain rfl := List.mem_singleton.1 hmem
        exact ⟨dg, hp, ha.of_cfg (h.cfg_eq i), rfl⟩
  · rw [hrun]
    exact h

/-- anything but an attack -/
def Event.Noise : Event ι → Prop
  | .transmit .. => True
  | .deliver .. => True
  | .inject .. => False

/-- every accepted input is a damaged copy of a datagram that was in the air -/
def Heard (net : Net ι) : Prop :=
  ∀ a ∈ net.accepted, ∃ t ∈ net.heard a, ∃ e : BitVec 24, weight e ≤ 3 ∧ a.input = damage e t.bytes

theorem receive_heard {H : Blake2s} {net : Net ι} (h : Heard net) (i : ι) {t : Sent ι} (ht : t ∈ net.air)
    {e : BitVec 24} (he : weight e ≤ 3) {o : OutBuf} (u : Locals) (ho : o.Fits) :
    Heard (receive H net i (damage e t.bytes) o u) := by
  rcases receive_cases H net i (damage e t.bytes) u ho with ⟨dg, -, -, hrun⟩ | hrun
  · rw [hrun]
    intro a ha
    rcases List.mem_append.1 ha with hmem | hmem
    · exact h a hmem
    · obtain rfl := List.mem_singleton.1 hmem
      refine ⟨t, ?_, e, he, rfl⟩
      show t ∈ net.air.take net.air.length
      rw [List.take_length]
      exact ht
  · rw [hrun]
    exact h

/-- a damaged copy of something sent still parses to it -/
theorem parsed_heard {H : Blake2s} {cfg : ι → LfcUserCfg} {net : Net ι} (h : Inv H cfg net) {t : Sent ι} (ht : t ∈ net.air)
    {e : BitVec 24} (he : weight e ≤ 3) (u : Locals) :
    Parsed .release u (damage e t.bytes) (u.dg.store (txMsg H t.lfc t.pay)).monolithic := by
  rw [(h.sent t ht).2]
  exact parsed_damaged .release u rfl he

/-- and its payload fits -/
theorem heard_fits {H : Blake2s} {cfg : ι → LfcUserCfg} {net : Net ι} (h : Inv H cfg net) {t : Sent ι} (ht : t ∈ net.air)
    {e : BitVec 24} (he : weight e ≤ 3) (junk : U16) : FitsPayload junk (damage e t.bytes) := by
  rw [(h.sent t ht).2]
  exact (Msg.damaged_remainder junk (txMsg H t.lfc t.pay) he).fits (h.pay_le t ht)

/-! ## Runs -/

variable [DecidableEq ι]

def step (H : Blake2s) (net : Net ι) : Event ι → Net ι
  | .transmit i pay o _ _ =>
    match lfcTransmit H .release pay (net.node i, o) with
    | .ok _ (lfc, o') =>
      { net with node := Function.update net.node i lfc, air := net.air ++ [⟨i, net.node i, pay, o'.bytes⟩] }
    | .error _ (lfc, _) => { net with node := Function.update net.node i lfc }
  | .deliver i k e _ o u _ =>
    match net.air[k]? with
    | some t => receive H net i (damage e t.bytes) o u
    | none => net
  | .inject i x o u _ _ => receive H net i x o u

def run (H : Blake2s) (net : Net ι) (es : List (Event ι)) : Net ι := es.foldl (step H) net

/-- a transmit puts the message in the air, or only takes a sequence number -/
theorem step_transmit (H : Blake2s) (net : Net ι) (i : ι) {pay : List U8} {o : OutBuf}
    (hpay : pay.length ≤ lfcDgConstantsMaxPayLen) (ho : o.Fits) :
    (txSize (net.node i) pay ≤ o.outLen ∧ step H net (.transmit i pay o hpay ho) =
        { net with node := Function.update net.node i (net.node i).next
                   air := net.air ++ [⟨i, net.node i, pay, (txMsg H (net.node i) pay).wire⟩] }) ∨
      (o.outLen < txSize (net.node i) pay ∧ step H net (.transmit i pay o hpay ho) =
        { net with node := Function.update net.node i (net.node i).next }) := by
  rcases lfcTransmit_outcome H (net.node i) hpay ho with ⟨hroom, hok⟩ | ⟨hroom, out, herr⟩
  · exact Or.inl ⟨hroom, by simp only [step, hok, OutBuf.fill_bytes]⟩
  · exact Or.inr ⟨hroom, by simp only [step, herr]⟩

/-- a deliver is a receive of a damaged copy of something in the air -/
theorem step_deliver (H : Blake2s) (net : Net ι) (i : ι) (k : ℕ) {e : BitVec 24} (he : weight e ≤ 3) {o : OutBuf}
    (u : Locals) (ho : o.Fits) :
    (∃ t ∈ net.air, step H net (.deliver i k e he o u ho) = receive H net i (damage e t.bytes) o u) ∨
      step H net (.deliver i k e he o u ho) = net := by
  cases h : net.air[k]? with
  | none => exact Or.inr (by simp only [step, h])
  | some t => exact Or.inl ⟨t, List.mem_of_getElem? h, by simp only [step, h]⟩

/-- the configuration of a node does not change -/
theorem update_cfg {cfg : ι → LfcUserCfg} {node : ι → Lfc} (h : ∀ i, (node i).cfg = cfg i) (i j : ι) :
    (Function.update node i (node i).next j).cfg = cfg j := by
  by_cases hj : j = i
  · subst hj
    rw [Function.update_self]
    exact h j
  · rw [Function.update_of_ne hj]
    exact h j

theorem step_inv {H : Blake2s} {cfg : ι → LfcUserCfg} {net : Net ι} (h : Inv H cfg net) (ev : Event ι) :
    Inv H cfg (step H net ev) := by
  cases ev with
  | transmit i pay o hpay ho =>
    rcases step_transmit H net i hpay ho with ⟨-, hstep⟩ | ⟨-, hstep⟩
    · rw [hstep]
      refine { h with cfg_eq := update_cfg h.cfg_eq i, sent := fun t ht => ?_, pay_le := fun t ht => ?_
                      before := fun a ha => ?_ }
      · rcases List.mem_append.1 ht with hmem | hmem
        · exact h.sent t hmem
        · obtain rfl := List.mem_singleton.1 hmem
          exact ⟨h.cfg_eq i, rfl⟩
      · rcases List.mem_append.1 ht with hmem | hmem
        · exact h.pay_le t hmem
        · obtain rfl := List.mem_singleton.1 hmem
          exact hpay
      · rw [List.length_append]
        exact (h.before a ha).trans (Nat.le_add_right _ _)
    · rw [hstep]
      exact { h with cfg_eq := update_cfg h.cfg_eq i }
  | deliver i k e he o u ho =>
    rcases step_deliver H net i k he u ho with ⟨t, ht, hstep⟩ | hstep
    · rw [hstep]
      exact receive_inv h i ho (heard_fits h ht he u.decHdrBits)
    · rw [hstep]
      exact h
  | inject i x o u ho hx => exact receive_inv h i ho hx

theorem run_inv {H : Blake2s} {cfg : ι → LfcUserCfg} {net : Net ι} (h : Inv H cfg net) (es : List (Event ι)) :
    Inv H cfg (run H net es) := by
  induction es generalizing net with
  | nil => exact h
  | cons ev es ih => exact ih (step_inv h ev)

/-! ## Noise -/

theorem step_heard {H : Blake2s} {cfg : ι → LfcUserCfg} {net : Net ι} (hinv : Inv H cfg net) (h : Heard net)
    {ev : Event ι} (hev : ev.Noise) : Heard (step H net ev) := by
  cases ev with
  | transmit i pay o hpay ho =>
    rcases step_transmit H net i hpay ho with ⟨-, hstep⟩ | ⟨-, hstep⟩
    · rw [hstep]
      intro a ha
      obtain ⟨t, ht, e, he, hinput⟩ := h a ha
      refine ⟨t, ?_, e, he, hinput⟩
      rw [Net.heard, List.take_append_of_le_length (hinv.before a ha)]
      exact ht
    · rw [hstep]
      exact h
  | deliver i k e he o u ho =>
    rcases step_deliver H net i k he u ho with ⟨t, ht, hstep⟩ | hstep
    · rw [hstep]
      exact receive_heard h i ht he u ho
    · rw [hstep]
      exact h
  | inject i x o u ho hx => exact hev.elim

theorem run_heard {H : Blake2s} {cfg : ι → LfcUserCfg} {net : Net ι} (hinv : Inv H cfg net) (h : Heard net)
    {es : List (Event ι)} (hes : ∀ ev ∈ es, ev.Noise) : Heard (run H net es) := by
  induction es generalizing net with
  | nil => exact h
  | cons ev es ih =>
    have hev : ev.Noise := hes ev List.mem_cons_self
    exact ih (step_inv hinv ev) (step_heard hinv h hev) fun ev' hev' => hes ev' (List.mem_cons_of_mem ev hev')

/-- **Noise forges nothing.** Without an attacker, whatever is lost, duplicated, reordered and damaged: every accepted
payload was sent before, by a node with the address of the one that accepted it. -/
theorem noise_forges_nothing (H : Blake2s) (cfg : ι → LfcUserCfg) (es : List (Event ι)) (hes : ∀ ev ∈ es, ev.Noise) :
    ∀ a ∈ (run H (init cfg) es).accepted, ∃ t ∈ (run H (init cfg) es).heard a, t.pay = a.payload ∧
      (cfg t.node).oui = (cfg a.node).oui ∧ (cfg t.node).did = (cfg a.node).did := by
  intro a ha
  have hinv := run_inv (inv_init H cfg) es
  have hheard := run_heard (inv_init H cfg) (fun a ha => by cases ha) hes
  obtain ⟨t, ht, e, he, hinput⟩ := hheard a ha
  obtain ⟨dg, hp, hauth, hpay⟩ := hinv.authentic a ha
  have hmem : t ∈ (run H (init cfg) es).air := List.mem_of_mem_take ht
  obtain ⟨houi, hdid, -, -, -, hpayload⟩ := store_monolithic a.locals.dg (m := txMsg H t.lfc t.pay) rfl
  have hdg := (hinput ▸ hp).unique (parsed_heard hinv hmem he a.locals)
  have hcfg := (hinv.sent t hmem).1
  refine ⟨t, ht, ?_, ?_, ?_⟩
  · rw [← hpay, hdg, hpayload]
    rfl
  · rw [← hcfg, ← show dg.oui = (cfg a.node).oui from hauth.oui, hdg, houi]
    rfl
  · rw [← hcfg, ← show dg.did = (cfg a.node).did from hauth.did, hdg, hdid]
    rfl

def sampleCfg (_ : Bool) : LfcUserCfg := ⟨1, 2, .none⟩

/-- a payload arrives at the other node with two header bits flipped -/
def sampleEvents : List (Event Bool) :=
  [.transmit false [5, 6] (.zero 16) (by decide) (OutBuf.zero_fits 16),
    .deliver true 0 0x801 (by decide +kernel) (.zero 2) .zero (OutBuf.zero_fits 2)]

theorem noise_forges_nothing_sample :
    (run .echo (init sampleCfg) sampleEvents).accepted.map Accepted.payload = [[5, 6]] ∧
      ∀ a ∈ (run .echo (init sampleCfg) sampleEvents).accepted,
        ∃ t ∈ (run .echo (init sampleCfg) sampleEvents).heard a, t.pay = a.payload ∧
          (sampleCfg t.node).oui = (sampleCfg a.node).oui ∧ (sampleCfg t.node).did = (sampleCfg a.node).did := by
  refine ⟨by decide +kernel, noise_forges_nothing .echo sampleCfg sampleEvents fun ev hev => ?_⟩
  rcases List.mem_pair.1 hev with rfl | rfl
  · exact trivial
  · exact trivial

end LongFi.Network
