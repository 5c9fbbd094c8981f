/-
A network of debug and release builds.

Every node is built with or without assertions. A call that stops at an assertion takes its node out of the network: it
makes no call any more, and what it sent before stays in the air.

- `mixed_refines`: the rest of the network does not notice. Every run is a run without assertions on some of the events, in
  which each node makes its own calls in their order, and all of them if it did not stop; and a node stops exactly at a
  call whose fingerprint is what its variable holds. So what holds of all runs without assertions holds here.
- `replay_stops`: what a node in a debug build accepted stops it when it comes again while the unset variable of the call
  holds the fingerprint computed for it, and is accepted again over any other content.
-/
import LongFi.Core.Crashes
import LongFi.Device.Attack
import LongFi.Device.Builds

namespace LongFi.Network

open LongFi.Core

variable {ι : Type}

/-! ## Calls with assertions -/

/-- the node that makes the call -/
def Event.caller : Event ι → ι
  | .transmit i _ _ _ _ => i
  | .deliver i _ _ _ _ _ _ => i
  | .inject i _ _ _ _ _ => i

/-- node i receives x with build B; `none` if it stops -/
def receiveIn (H : Blake2s) (B : Build) (net : Net ι) (i : ι) (x : List U8) (o : OutBuf) (u : Locals) : Option (Net ι) :=
  match lfcReceive H B u (net.node i) x o with
  | .ok _ o' => some { net with accepted := net.accepted ++ [⟨i, x, u, o'.bytes, net.air.length⟩] }
  | .error (.code _) _ => some net
  | .error (.fault _) _ => none

/-- one event with the build of its node; `none` if the node stops -/
def stepIn [DecidableEq ι] (H : Blake2s) (build : ι → Build) (net : Net ι) : Event ι → Option (Net ι)
  | .transmit i pay o _ _ =>
    match lfcTransmit H (build i) pay (net.node i, o) with
    | .ok _ (lfc, o') =>
      some { net with
        node := Function.update net.node i lfc
        air := net.air ++ [⟨i, net.node i, pay, o'.bytes⟩] }
    | .error (.code _) (lfc, _) => some { net with node := Function.update net.node i lfc }
    | .error (.fault _) _ => none
  | .deliver i k e _ o u _ =>
    match net.air[k]? with
    | some t => receiveIn H (build i) net i (damage e t.bytes) o u
    | none => some net
  | .inject i x o u _ _ => receiveIn H (build i) net i x o u

/-- the fingerprint of the call is what its variable holds -/
def Hits (H : Blake2s) (net : Net ι) : Event ι → Prop
  | .transmit i pay _ _ _ => TxHits H (net.node i) pay
  | .deliver i k e _ o u _ => ∃ t, net.air[k]? = some t ∧ RxHits H (net.node i) u (damage e t.bytes) o
  | .inject i x o u _ _ => RxHits H (net.node i) u x o

theorem receiveIn_cases (H : Blake2s) (B : Build) (net : Net ι) (i : ι) (x : List U8) {o : OutBuf} (u : Locals)
    (ho : o.Fits) :
    (receiveIn H B net i x o u = some (receive H net i x o u) ∧ ¬(B = .debug ∧ RxHits H (net.node i) u x o)) ∨
      receiveIn H B net i x o u = none ∧ B = .debug ∧ RxHits H (net.node i) u x o := by
  rcases LongFi.receive_cases B H (net.node i) u x ho with ⟨heq, hhit⟩ | ⟨⟨t, hstop⟩, hhit⟩
  · refine Or.inl ⟨?_, hhit⟩
    rcases lfcReceive_outcome H u (net.node i) x o ho with ⟨-, e, he⟩ | ⟨dg, -, -, ⟨-, hok⟩ | ⟨-, e, he⟩⟩
    · simp only [receiveIn, receive, heq, he]
    · simp only [receiveIn, receive, heq, hok]
    · simp only [receiveIn, receive, heq, he]
  · exact Or.inr ⟨by simp only [receiveIn, hstop], hhit⟩

variable [DecidableEq ι]

section

variable (H : Blake2s) (build : ι → Build)

/-- a call is the call without assertions, unless it hits in a debug build, and then it stops -/
theorem stepIn_cases (net : Net ι) (ev : Event ι) :
    (stepIn H build net ev = some (step H net ev) ∧ ¬(build ev.caller = .debug ∧ Hits H net ev)) ∨
      stepIn H build net ev = none ∧ build ev.caller = .debug ∧ Hits H net ev := by
  cases ev with
  | transmit i pay o hpay ho =>
    rcases transmit_cases (build i) H (net.node i) hpay ho with ⟨heq, hhit⟩ | ⟨⟨t, hstop⟩, hhit⟩
    · refine Or.inl ⟨?_, hhit⟩
      rcases lfcTransmit_outcome H (net.node i) hpay ho with ⟨-, hok⟩ | ⟨-, out, herr⟩
      · simp only [stepIn, step, heq, hok]
      · simp only [stepIn, step, heq, herr]
    · exact Or.inr ⟨by simp only [stepIn, hstop], hhit⟩
  | deliver i k e he o u ho =>
    cases hk : net.air[k]? with
    | none =>
      refine Or.inl ⟨by simp only [stepIn, step, hk], ?_⟩
      rintro ⟨-, t, ht, -⟩
      rw [hk] at ht
      cases ht
    | some t =>
      have hhits : Hits H net (.deliver i k e he o u ho) ↔ RxHits H (net.node i) u (damage e t.bytes) o := by
        simp only [Hits, hk, Option.some.injEq, exists_eq_left']
      simp only [stepIn, step, hk, hhits]
      exact receiveIn_cases H (build i) net i _ u ho
  | inject i x o u ho hx => exact receiveIn_cases H (build i) net i x u ho

theorem stepIn_some {net net' : Net ι} {ev : Event ι} (h : stepIn H build net ev = some net') : net' = step H net ev := by
  rcases stepIn_cases H build net ev with ⟨hsome, -⟩ | ⟨hnone, -⟩
  · rw [hsome] at h
    exact (Option.some.inj h).symm
  · rw [hnone] at h
    cases h

theorem stepIn_none_iff (net : Net ι) (ev : Event ι) :
    stepIn H build net ev = none ↔ build ev.caller = .debug ∧ Hits H net ev := by
  rcases stepIn_cases H build net ev with ⟨hsome, hno⟩ | ⟨hnone, hhit⟩
  · rw [hsome]
    exact ⟨fun h => (by cases h), fun h => absurd h hno⟩
  · exact ⟨fun _ => hhit, fun _ => hnone⟩

/-! ## Every run -/

/-- the network, and which nodes have stopped -/
def mixed (cfg : ι → LfcUserCfg) (es : List (Event ι)) : Crashable (Net ι) ι :=
  Crashable.run Event.caller (stepIn H build) (.start (init cfg)) es

theorem mixed_state (cfg : ι → LfcUserCfg) (es : List (Event ι)) :
    ∃ done, Crashable.Made Event.caller (mixed H build cfg es).crashed es done ∧
      (mixed H build cfg es).state = run H (init cfg) done :=
  Crashable.run_state (fun _ _ _ h => stepIn_some H build h) (init cfg) es

/-- what is in the air and what is accepted is as without assertions -/
theorem mixed_inv (cfg : ι → LfcUserCfg) (es : List (Event ι)) : Inv H cfg (mixed H build cfg es).state := by
  obtain ⟨done, -, hstate⟩ := mixed_state H build cfg es
  rw [hstate]
  exact run_inv (inv_init H cfg) done

/-- **Debug builds only stop.** Whatever an attacker injects and the air does: the network is what it is without assertions
after some of the events, of which every node made its own in their order, up to where it stopped. A node stops exactly
at a call in a debug build whose fingerprint is what its variable holds before. -/
theorem mixed_refines (cfg : ι → LfcUserCfg) (es : List (Event ι)) :
    (∃ done, Crashable.Made Event.caller (mixed H build cfg es).crashed es done ∧
        (mixed H build cfg es).state = run H (init cfg) done) ∧
      ∀ i, (mixed H build cfg es).crashed i = true ↔ build i = .debug ∧
        ∃ before ev, before ++ [ev] <+: es ∧ ev.caller = i ∧ Hits H (mixed H build cfg before).state ev := by
  refine ⟨mixed_state H build cfg es, fun i => ?_⟩
  rw [mixed, Crashable.crashed_iff]
  constructor
  · rintro ⟨before, ev, hpre, rfl, hnone⟩
    obtain ⟨hbuild, hhit⟩ := (stepIn_none_iff H build _ ev).1 hnone
    exact ⟨hbuild, before, ev, hpre, rfl, hhit⟩
  · rintro ⟨hbuild, before, ev, hpre, rfl, hhit⟩
    exact ⟨before, ev, hpre, rfl, (stepIn_none_iff H build _ ev).2 ⟨hbuild, hhit⟩⟩

/-- the input of a comes again -/
def replay (a : Accepted ι) (o : OutBuf) (u : Locals) (ho : o.Fits) (hx : FitsPayload u.decHdrBits a.input) : Event ι :=
  .inject a.node a.input o u ho hx

omit [DecidableEq ι] in
/-- what was accepted hits exactly over its own fingerprint -/
theorem replay_hits {cfg : ι → LfcUserCfg} {net : Net ι} (h : Inv H cfg net) {a : Accepted ι} {u : Locals}
    {dg : LfcDgMonolithic} (hp : Parsed .release u a.input dg) (ha : Authentic H (lfcInit (cfg a.node)) fpHdr dg)
    {o : OutBuf} (ho : o.Fits) (hx : FitsPayload u.decHdrBits a.input) (hroom : dg.payload.length ≤ o.outLen) :
    Hits H net (replay a o u ho hx) ↔ u.fp = dg.fp := by
  have hauth : Authentic H (net.node a.node) fpHdr dg := ha.of_cfg (h.cfg_eq a.node).symm
  have hk : (net.node a.node).cfg.key.Fits := by
    by_contra hk
    exact not_authentic H hk fpHdr dg hauth
  obtain ⟨-, -, hfp⟩ := (authentic_iff H hk fpHdr dg).1 hauth
  constructor
  · rintro ⟨-, dg', hp', -, hhit⟩
    obtain rfl := hp.unique hp'
    exact hhit.symm.trans hfp
  · intro hu
    exact ⟨hk, dg, hp, hp.payload_length ▸ hroom, hfp.trans hu.symm⟩

/-- **A replay stops a debug build.** After any run, when an accepted input comes again to a node that has not stopped, is
read with the same header and finds room: of the 2^32 values that the unset variable of `lfc_receive` can hold, its
fingerprint, which the first call computed into that variable, stops the node; with any other it is accepted again. -/
theorem replay_stops (cfg : ι → LfcUserCfg) (es : List (Event ι)) {a : Accepted ι}
    (ha : a ∈ (mixed H build cfg es).state.accepted) (hbuild : build a.node = .debug)
    (hlive : (mixed H build cfg es).crashed a.node = false) :
    ∃ dg, Parsed .release a.locals a.input dg ∧ ∀ (o : OutBuf) (u : Locals) (ho : o.Fits), a.payload.length ≤ o.outLen →
      SameHeader a.input a.locals.decHdrBits u.decHdrBits → ∃ hx : FitsPayload u.decHdrBits a.input,
        (u.fp = dg.fp → (mixed H build cfg (es ++ [replay a o u ho hx])).crashed a.node = true) ∧
          (u.fp ≠ dg.fp → (mixed H build cfg (es ++ [replay a o u ho hx])).crashed a.node = false ∧
            (mixed H build cfg (es ++ [replay a o u ho hx])).state.accepted = (mixed H build cfg es).state.accepted ++
              [⟨a.node, a.input, u, a.payload, (mixed H build cfg es).state.air.length⟩]) := by
  have hinv := mixed_inv H build cfg es
  obtain ⟨dg, hp, hauth, hpay⟩ := hinv.authentic a ha
  refine ⟨dg, hp, fun o u ho hroom hsame => ?_⟩
  obtain ⟨dg', hp', hfields⟩ := hsame.parsed hp
  have hx : FitsPayload u.decHdrBits a.input := hsame.fits (hinv.fits_pay a ha)
  have hpay' : dg'.payload = a.payload := hfields.payload.symm.trans hpay
  have hroom' : dg'.payload.length ≤ o.outLen := hpay' ▸ hroom
  have hauth' : Authentic H (lfcInit (cfg a.node)) fpHdr dg' := hauth.of_same hfields
  have hnone := stepIn_none_iff H build (mixed H build cfg es).state (replay a o u ho hx)
  rw [replay_hits H hinv hp' hauth' ho hx hroom', ← hfields.fp] at hnone
  have hrun : mixed H build cfg (es ++ [replay a o u ho hx]) =
      (mixed H build cfg es).step Event.caller (stepIn H build) (replay a o u ho hx) :=
    Crashable.run_concat Event.caller (stepIn H build) (.start (init cfg)) es (replay a o u ho hx)
  have hcaller : (mixed H build cfg es).crashed (replay a o u ho hx).caller = false := hlive
  refine ⟨hx, fun hu => ?_, fun hu => ?_⟩
  · rw [hrun, Crashable.step_none hcaller (hnone.2 ⟨hbuild, hu⟩)]
    exact Function.update_self _ _ _
  · rcases stepIn_cases H build (mixed H build cfg es).state (replay a o u ho hx) with ⟨hsome, -⟩ | ⟨hstop, -⟩
    · rw [hrun, Crashable.step_some hcaller hsome]
      refine ⟨hlive, ?_⟩
      have hagain := receive_authentic hinv (i := a.node) hp' hauth' ho hroom'
      rw [hpay'] at hagain
      exact congrArg Net.accepted hagain
    · exact absurd (hnone.1 hstop).2 hu

end

/-- the datagram of `sampleEvents` comes again, with the header that it had -/
theorem replay_stops_sample :
    ∃ a ∈ (mixed .echo (fun _ => .debug) sampleCfg sampleEvents).state.accepted, a.payload = [5, 6] ∧
      ∃ dg, Parsed .release a.locals a.input dg ∧ ∃ hx : FitsPayload a.locals.decHdrBits a.input,
        (mixed .echo (fun _ => .debug) sampleCfg (sampleEvents ++
          [replay a (.zero 8) ⟨a.locals.decHdrBits, .zero, dg.fp⟩ (OutBuf.zero_fits 8) hx])).crashed a.node = true := by
  have hmem : [5, 6] ∈
      (mixed .echo (fun _ => .debug) sampleCfg sampleEvents).state.accepted.map Accepted.payload := by decide +kernel
  have hlive : ∀ i, (mixed .echo (fun _ => .debug) sampleCfg sampleEvents).crashed i = false := by decide +kernel
  obtain ⟨a, ha, hpay⟩ := List.mem_map.1 hmem
  obtain ⟨dg, hp, hagain⟩ := replay_stops .echo (fun _ => .debug) sampleCfg sampleEvents ha rfl (hlive a.node)
  have hroom : a.payload.length ≤ (OutBuf.zero 8).outLen := by
    rw [hpay]
    decide
  obtain ⟨hx, hstop, -⟩ := hagain (.zero 8) ⟨a.locals.decHdrBits, .zero, dg.fp⟩ (OutBuf.zero_fits 8) hroom fun _ => rfl
  exact ⟨a, ha, hpay, dg, hp, hx, hstop rfl⟩

end LongFi.Network
