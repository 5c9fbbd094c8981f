/-
A device over any run of API calls.

An application starts with `lfc_init` and interleaves transmits (any payload, any buffer) and receives (any bytes) as it
likes. A `Device` is the context together with what the application has seen: for every successful transmit the datagram
and the number of transmits before it, and the payload of every accepted datagram. Assertions are compiled out.

A receive whose payload is longer than the array `pay` writes over memory behind it. C does not define what follows, so a
run (`Runs`) goes on from any context then; as long as all payloads fit, it is `run`.

- `run_inv`: the sequence counter is the number of transmits modulo 2^32, and every datagram carries the value it had.
- `seq_not_reused`: while all received payloads fit, two datagrams fewer than 2^32 transmits apart have different sequence
  numbers.
- `received_authentic`: then every payload accepted in a run came with a fingerprint under the key of the device, too.
-/
import LongFi.Device.Delivery

namespace LongFi

open LongFi.Core

/-! ## A counter modulo 2^w -/

section Counter

variable (w : ℕ) {m n : ℕ}

theorem ofNat_ne (hlt : m < n) (hnear : n < m + 2 ^ w) : BitVec.ofNat w m ≠ BitVec.ofNat w n := by
  intro h
  have hmod : m ≡ n [MOD 2 ^ w] := by
    rw [Nat.ModEq, ← BitVec.toNat_ofNat, h, BitVec.toNat_ofNat]
  have hdvd : 2 ^ w ∣ n - m := (Nat.modEq_iff_dvd' hlt.le).1 hmod
  have hle : 2 ^ w ≤ n - m := Nat.le_of_dvd (Nat.sub_pos_of_lt hlt) hdvd
  omega

/-- the counter has not wrapped between m and n -/
theorem ofNat_lt (hlt : m < n) (hwrap : m / 2 ^ w = n / 2 ^ w) : BitVec.ofNat w m < BitVec.ofNat w n := by
  have hm := Nat.div_add_mod m (2 ^ w)
  have hn := Nat.div_add_mod n (2 ^ w)
  rw [hwrap] at hm
  rw [BitVec.lt_def, BitVec.toNat_ofNat, BitVec.toNat_ofNat]
  omega

end Counter

/-! ## Runs -/

/-- a call of the application, which passes payloads of at most 128 bytes and buffers as long as it says -/
inductive Op where
  | transmit (pay : List U8) (o : OutBuf) (pay_le : pay.length ≤ lfcDgConstantsMaxPayLen) (fits : o.Fits)
  | receive (x : List U8) (o : OutBuf) (u : Locals) (fits : o.Fits)

structure Device where
  lfc : Lfc
  /-- transmits so far, successful or not -/
  calls : ℕ
  /-- (transmits before it, datagram) -/
  emitted : List (ℕ × List U8)
  /-- accepted payloads -/
  received : List (List U8)

def init (cfg : LfcUserCfg) : Device := ⟨lfcInit cfg, 0, [], []⟩

def step (H : Blake2s) (t : Device) : Op → Device
  | .transmit pay o _ _ =>
    match lfcTransmit H .release pay (t.lfc, o) with
    | .ok _ (lfc, o') => { t with lfc := lfc, calls := t.calls + 1, emitted := t.emitted ++ [(t.calls, o'.bytes)] }
    | .error _ (lfc, _) => { t with lfc := lfc, calls := t.calls + 1 }
  | .receive x o u _ =>
    match lfcReceive H .release u t.lfc x o with
    | .ok _ o' => { t with received := t.received ++ [o'.bytes] }
    | .error _ _ => t

def run (H : Blake2s) (t : Device) (ops : List Op) : Device := ops.foldl (step H) t

/-- C defines what the call does: a payload that it receives fits its array -/
def Op.Defined : Op → Prop
  | .transmit .. => True
  | .receive x _ u _ => FitsPayload u.decHdrBits x

/-- what a call can do. The array that a receive overruns is on the stack, and the context in memory of the caller, so
afterwards the context, and what is reported as received, can be anything. -/
inductive Step (H : Blake2s) (t : Device) (op : Op) : Device → Prop
  | defined (h : op.Defined) : Step H t op (step H t op)
  | undefined (h : ¬op.Defined) (lfc : Lfc) (received : List (List U8)) :
    Step H t op { t with lfc := lfc, received := received }

/-- what a sequence of calls can do -/
inductive Runs (H : Blake2s) : Device → List Op → Device → Prop
  | nil (t : Device) : Runs H t [] t
  | cons {t t' t'' : Device} {op : Op} {ops : List Op} (h : Step H t op t') (hs : Runs H t' ops t'') :
    Runs H t (op :: ops) t''

/-- a run in which everything is defined has one outcome -/
theorem Runs.eq_run {H : Blake2s} {t t' : Device} {ops : List Op} (h : Runs H t ops t') (hops : ∀ op ∈ ops, op.Defined) :
    t' = run H t ops := by
  induction h with
  | nil t => rfl
  | cons hstep hs ih =>
    cases hstep with
    | defined hop => exact ih fun op hmem => hops op (List.mem_cons_of_mem _ hmem)
    | undefined hop lfc received => exact absurd (hops _ List.mem_cons_self) hop

theorem runs_run (H : Blake2s) (t : Device) {ops : List Op} (hops : ∀ op ∈ ops, op.Defined) : Runs H t ops (run H t ops) := by
  induction ops generalizing t with
  | nil => exact .nil t
  | cons op ops ih =>
    have hop : op.Defined := hops op List.mem_cons_self
    exact .cons (.defined hop) (ih (step H t op) fun op' hmem => hops op' (List.mem_cons_of_mem op hmem))

/-- x parses to a datagram with the addresses of the device and sequence number seq -/
def Carries (cfg : LfcUserCfg) (x : List U8) (seq : U32) : Prop :=
  ∀ u, ∃ dg, Parsed .release u x dg ∧ dg.oui = cfg.oui ∧ dg.did = cfg.did ∧ dg.seq = seq

/-- some input parsed to an authentic datagram with this payload -/
def Came (H : Blake2s) (lfc : Lfc) (pay : List U8) : Prop :=
  ∃ u x dg, Parsed .release u x dg ∧ Authentic H lfc fpHdr dg ∧ dg.payload = pay

structure Inv (H : Blake2s) (cfg : LfcUserCfg) (t : Device) : Prop where
  cfg_eq : t.lfc.cfg = cfg
  seq_eq : t.lfc.seq = BitVec.ofNat 32 t.calls
  sent : ∀ p ∈ t.emitted, p.1 < t.calls ∧ Carries cfg p.2 (BitVec.ofNat 32 p.1)
  ordered : t.emitted.Pairwise fun p q => p.1 < q.1
  came : ∀ pay ∈ t.received, Came H (lfcInit cfg) pay

theorem inv_init (H : Blake2s) (cfg : LfcUserCfg) : Inv H cfg (init cfg) := by
  constructor <;> simp [init, lfcInit]

/-- only the configuration matters to the checks of the receiver -/
theorem Authentic.of_cfg {H : Blake2s} {lfc lfc' : Lfc} {hdr : U16} {dg : LfcDgMonolithic} (h : Authentic H lfc hdr dg)
    (hcfg : lfc.cfg = lfc'.cfg) : Authentic H lfc' hdr dg where
  oui := hcfg ▸ h.oui
  did := hcfg ▸ h.did
  fp := hcfg ▸ h.fp

theorem txMsg_carries (H : Blake2s) (lfc : Lfc) (pay : List U8) : Carries lfc.cfg (txMsg H lfc pay).wire lfc.seq := by
  intro u
  obtain ⟨houi, hdid, -, hseq, -, -⟩ := store_monolithic u.dg (m := txMsg H lfc pay) rfl
  exact ⟨_, parsed_wire .release u rfl, houi, hdid, hseq⟩

/-- a transmit moves the counter, and emits the message or nothing -/
theorem step_transmit (H : Blake2s) (t : Device) {pay : List U8} {o : OutBuf}
    (hpay : pay.length ≤ lfcDgConstantsMaxPayLen) (ho : o.Fits) :
    (txSize t.lfc pay ≤ o.outLen ∧ step H t (.transmit pay o hpay ho) =
        { t with lfc := t.lfc.next, calls := t.calls + 1
                 emitted := t.emitted ++ [(t.calls, (txMsg H t.lfc pay).wire)] }) ∨
      (o.outLen < txSize t.lfc pay ∧ step H t (.transmit pay o hpay ho) =
        { t with lfc := t.lfc.next, calls := t.calls + 1 }) := by
  rcases lfcTransmit_outcome H t.lfc hpay ho with ⟨hroom, hok⟩ | ⟨hroom, out, herr⟩
  · exact Or.inl ⟨hroom, by simp only [step, hok, OutBuf.fill_bytes]⟩
  · exact Or.inr ⟨hroom, by simp only [step, herr]⟩

/-- a receive leaves the counter alone, and accepts an authentic payload or nothing -/
theorem step_receive (H : Blake2s) (t : Device) (x : List U8) (o : OutBuf) (u : Locals) (ho : o.Fits) :
    (∃ pay, Came H t.lfc pay ∧ step H t (.receive x o u ho) = { t with received := t.received ++ [pay] }) ∨
      step H t (.receive x o u ho) = t := by
  rcases lfcReceive_outcome H u t.lfc x o ho with ⟨-, e, he⟩ | ⟨dg, hp, -, ⟨ha, hok⟩ | ⟨-, e, he⟩⟩
  · exact Or.inr (by simp only [step, he])
  · exact Or.inl ⟨_, ⟨u, x, dg, hp, ha, rfl⟩, by simp only [step, hok, OutBuf.fill_bytes]⟩
  · exact Or.inr (by simp only [step, he])

theorem next_seq {lfc : Lfc} {n : ℕ} (h : lfc.seq = BitVec.ofNat 32 n) : lfc.next.seq = BitVec.ofNat 32 (n + 1) := by
  rw [Lfc.next, h, BitVec.ofNat_add]
  rfl

theorem step_inv (H : Blake2s) {cfg : LfcUserCfg} {t : Device} (op : Op) (h : Inv H cfg t) : Inv H cfg (step H t op) := by
  cases op with
  | transmit pay o hpay ho =>
    rcases step_transmit H t hpay ho with ⟨-, hstep⟩ | ⟨-, hstep⟩
    · have hx := txMsg_carries H t.lfc pay
      rw [h.cfg_eq, h.seq_eq] at hx
      rw [hstep]
      refine { h with cfg_eq := h.cfg_eq, seq_eq := next_seq h.seq_eq, sent := ?_, ordered := ?_ }
      · intro p hp
        rcases List.mem_append.1 hp with hp | hp
        · exact ⟨Nat.lt_succ_of_lt (h.sent p hp).1, (h.sent p hp).2⟩
        · obtain rfl := List.mem_singleton.1 hp
          exact ⟨Nat.lt_succ_self _, hx⟩
      · refine List.pairwise_append.2 ⟨h.ordered, List.pairwise_singleton _ _, fun p hp q hq => ?_⟩
        obtain rfl := List.mem_singleton.1 hq
        exact (h.sent p hp).1
    · rw [hstep]
      exact { h with
        cfg_eq := h.cfg_eq
        seq_eq := next_seq h.seq_eq
        sent := fun p hp => ⟨Nat.lt_succ_of_lt (h.sent p hp).1, (h.sent p hp).2⟩ }
  | receive x o u ho =>
    rcases step_receive H t x o u ho with ⟨pay, ⟨u', y, dg, hp, ha, hpay⟩, hstep⟩ | hstep
    · rw [hstep]
      refine { h with came := fun p hp' => ?_ }
      rcases List.mem_append.1 hp' with hp' | hp'
      · exact h.came p hp'
      · obtain rfl := List.mem_singleton.1 hp'
        exact ⟨u', y, dg, hp, ha.of_cfg h.cfg_eq, hpay⟩
    · rw [hstep]
      exact h

theorem run_inv (H : Blake2s) {cfg : LfcUserCfg} {t : Device} (ops : List Op) (h : Inv H cfg t) :
    Inv H cfg (run H t ops) := by
  induction ops generalizing t with
  | nil => exact h
  | cons op ops ih => exact ih (step_inv H op h)

/-! ## What holds of every run -/

theorem Carries.seq_eq {cfg : LfcUserCfg} {x : List U8} {seq : U32} (h : Carries cfg x seq) {u : Locals}
    {dg : LfcDgMonolithic} (hp : Parsed .release u x dg) : dg.seq = seq := by
  obtain ⟨dg', hp', -, -, hseq⟩ := h u
  rw [hp.unique hp', hseq]

/-- every emitted datagram parses to the configured addresses; two of them fewer than 2^32 transmits apart have different
sequence numbers, ascending until the counter wraps -/
structure SeqNotReused (cfg : LfcUserCfg) (t : Device) : Prop where
  carries : ∀ p ∈ t.emitted, ∃ seq, Carries cfg p.2 seq
  fresh : t.emitted.Pairwise fun p q => p.1 < q.1 ∧
    ∀ u u' a b, Parsed .release u p.2 a → Parsed .release u' q.2 b →
      (q.1 < p.1 + 2 ^ 32 → a.seq ≠ b.seq) ∧ (p.1 / 2 ^ 32 = q.1 / 2 ^ 32 → a.seq < b.seq)

/-- **Sequence numbers are not reused** in any run whose received payloads fit their array. -/
theorem seq_not_reused (H : Blake2s) (cfg : LfcUserCfg) (ops : List Op) (hops : ∀ op ∈ ops, op.Defined) {t : Device}
    (hrun : Runs H (init cfg) ops t) : SeqNotReused cfg t := by
  have h : Inv H cfg t := by
    rw [hrun.eq_run hops]
    exact run_inv H ops (inv_init H cfg)
  refine ⟨fun p hp => ⟨_, (h.sent p hp).2⟩, h.ordered.imp_of_mem fun {p q} hp hq hlt => ⟨hlt, ?_⟩⟩
  intro u u' a b ha hb
  rw [(h.sent p hp).2.seq_eq ha, (h.sent q hq).2.seq_eq hb]
  exact ⟨ofNat_ne 32 hlt, ofNat_lt 32 hlt⟩

def sampleOps : List Op :=
  [.transmit [5] (.zero 12) (by decide) (OutBuf.zero_fits 12),
    .receive (txMsg .echo .zero [1, 2]).wire (.zero 8) .zero (OutBuf.zero_fits 8),
    .transmit [6] (.zero 12) (by decide) (OutBuf.zero_fits 12)]

/-- a datagram is received and accepted between two transmits -/
theorem seq_not_reused_sample :
    ((run .echo (init Lfc.zero.cfg) sampleOps).emitted.map Prod.fst, (run .echo (init Lfc.zero.cfg) sampleOps).received) =
        ([0, 1], [[1, 2]]) ∧
      SeqNotReused Lfc.zero.cfg (run .echo (init Lfc.zero.cfg) sampleOps) := by
  have hops : ∀ op ∈ sampleOps, op.Defined := by
    intro op hop
    simp only [sampleOps, List.mem_cons, List.not_mem_nil, or_false] at hop
    rcases hop with rfl | rfl | rfl
    · exact trivial
    · exact (Msg.wire_remainder _ (txMsg .echo .zero [1, 2])).fits (by decide)
    · exact trivial
  exact ⟨by decide +kernel, seq_not_reused .echo Lfc.zero.cfg sampleOps hops (runs_run .echo _ hops)⟩

/-- a datagram with 256 payload bytes is received between two transmits -/
def overrunOps : List Op :=
  [.transmit [] (.zero 12) (by decide) (OutBuf.zero_fits 12),
    .receive (zeroMsg 256).wire (.zero 8) .zero (OutBuf.zero_fits 8),
    .transmit [] (.zero 12) (by decide) (OutBuf.zero_fits 12)]

/-- what the overrun can leave: the counter is back at 0 -/
def overrunDevice : Device := { step .echo (init Lfc.zero.cfg) (.transmit [] (.zero 12) (by decide) (OutBuf.zero_fits 12)) with
  lfc := .zero, received := [] }

/-- an overrun can make both transmits emit sequence number 0 -/
theorem seq_reused : (zeroMsg 256).wire = [0x40, 0x30, 0xda] ++ List.replicate 263 0 ∧
    ∃ t, Runs .echo (init Lfc.zero.cfg) overrunOps t ∧ ¬SeqNotReused Lfc.zero.cfg t := by
  refine ⟨by decide +kernel, step .echo overrunDevice (.transmit [] (.zero 12) (by decide) (OutBuf.zero_fits 12)), ?_, ?_⟩
  · have hover : ¬Op.Defined (.receive (zeroMsg 256).wire (.zero 8) .zero (OutBuf.zero_fits 8)) := by
      intro h
      have hlen : (zeroMsg 256).pay.length = 256 := List.length_replicate
      have hle : (zeroMsg 256).pay.length ≤ 128 := h _ (Msg.wire_remainder _ (zeroMsg 256))
      omega
    exact .cons (.defined trivial) (.cons (.undefined hover .zero []) (.cons (.defined trivial) (.nil _)))
  · intro h
    have hemitted : (step .echo overrunDevice (.transmit [] (.zero 12) (by decide) (OutBuf.zero_fits 12))).emitted =
        [(0, (txMsg .echo .zero []).wire), (1, (txMsg .echo .zero []).wire)] := by decide +kernel
    obtain ⟨dg, hp, -⟩ := txMsg_carries .echo .zero [] .zero
    have hfresh := h.fresh
    rw [hemitted, List.pairwise_pair] at hfresh
    exact (hfresh.2 .zero .zero dg dg hp hp).1 (by decide) rfl

/-- every accepted payload came with a fingerprint under the key of the device -/
theorem received_authentic (H : Blake2s) (cfg : LfcUserCfg) (ops : List Op) (hops : ∀ op ∈ ops, op.Defined) {t : Device}
    (hrun : Runs H (init cfg) ops t) {pay : List U8} (h : pay ∈ t.received) : Came H (lfcInit cfg) pay := by
  rw [hrun.eq_run hops] at h
  exact (run_inv H ops (inv_init H cfg)).came pay h

end LongFi
