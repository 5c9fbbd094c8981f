/-
BLAKE2s over any sequence of calls.

A `Live` state has absorbed a message and not been finalized. `session` is what a caller of the streaming interface does
with a state: updates and finals in any order, each with its own result.

- `session_results`: whatever the calls and wherever the message is cut, the first final that asks for enough bytes
  returns the digest of all bytes updated so far, and every later one fails.
- `blake2s_results`: the simple interface checks its arguments, writes nothing when it refuses them, and otherwise writes
  the bytes that every streaming session over the same message returns.
-/
import LongFi.Hash.Digest

namespace LongFi.Blake2sRef

open LongFi.Core LongFi.Core.BlockHash

/-! ## Live states -/

/-- S started with chaining value h0, has absorbed msg, and was not finalized -/
structure Live (S : State) (h0 : Vector U32 8) (outlen : ℕ) (lastNode : U8) (msg : List U8) : Prop where
  represents : Represents S ((hasher 0 0 lastNode).push (start h0) msg)
  f0 : S.f0 = 0
  f1 : S.f1 = 0
  outlen_eq : S.outlen = outlen
  lastNode_eq : S.lastNode = lastNode

/-- S was finalized -/
structure Sealed (S : State) (outlen : ℕ) : Prop where
  represents : ∃ s, Represents S s
  f0 : S.f0 ≠ 0
  outlen_eq : S.outlen = outlen

section Live

variable {S : State} {h0 : Vector U32 8} {outlen : ℕ} {lastNode : U8} {msg : List U8}

theorem Live.hasher_eq (h : Live S h0 outlen lastNode msg) : S.hasher = hasher 0 0 lastNode := by
  rw [State.hasher, h.f0, h.f1, h.lastNode_eq]

theorem Live.update (h : Live S h0 outlen lastNode msg) {pin : List U8} {inlen : ℕ} (hin : inlen ≤ pin.length) :
    ∃ S', blake2sUpdate pin inlen S = .ok () S' ∧ Live S' h0 outlen lastNode (msg ++ pin.take inlen) := by
  obtain ⟨S', hrun, htail, hrep⟩ := blake2sUpdate_run h.represents hin
  rw [h.hasher_eq, push_push] at hrep
  exact ⟨S', hrun, hrep, htail.f0.trans h.f0, htail.f1.trans h.f1, htail.outlen.trans h.outlen_eq,
    htail.lastNode.trans h.lastNode_eq⟩

theorem Live.final (h : Live S h0 outlen lastNode msg) {n : ℕ} (hn : outlen ≤ n) (hle : n ≤ blake2sOutbytes) :
    ∃ S', blake2sFinal n S = .ok ((hashOf h0 lastNode msg).take n) S' ∧ Sealed S' outlen := by
  obtain ⟨-, hf0, hout, hrep⟩ := sealed_spec h.represents
  have hrun := blake2sFinal_run h.represents (show S.outlen ≤ n by rw [h.outlen_eq]; exact hn) h.f0
  rw [if_pos hle, h.hasher_eq, finish_push] at hrun
  exact ⟨_, hrun, hrep, by rw [hf0]; decide, hout.trans h.outlen_eq⟩

theorem Sealed.update (h : Sealed S outlen) {pin : List U8} {inlen : ℕ} (hin : inlen ≤ pin.length) :
    ∃ S', blake2sUpdate pin inlen S = .ok () S' ∧ Sealed S' outlen := by
  obtain ⟨s, hs⟩ := h.represents
  obtain ⟨S', hrun, htail, hrep⟩ := blake2sUpdate_run hs hin
  exact ⟨S', hrun, ⟨_, hrep⟩, by rw [htail.f0]; exact h.f0, htail.outlen.trans h.outlen_eq⟩

end Live

/-! ## A session -/

/-- `blake2s_init`, or `blake2s_init_key` when there is a key -/
def initHash (outlen : ℕ) (key : List U8) : Call Failed State Unit :=
  if key = [] then blake2sInit outlen else blake2sInitKey outlen (some key) key.length

/-- a call on an initialized state; the caller owns `inlen` bytes at `pin`, and asks for at most 32 -/
inductive HashCall where
  | update (pin : List U8) (inlen : ℕ) (inlen_le : inlen ≤ pin.length)
  | final (outlen : ℕ) (outlen_le : outlen ≤ blake2sOutbytes)

/-- the bytes written to `out` -/
def HashCall.run : HashCall → Call Failed State (List U8)
  | .update pin inlen _ => do
    blake2sUpdate pin inlen
    return []
  | .final outlen _ => blake2sFinal outlen

/-- the calls one after the other, with the result of each -/
def session : List HashCall → Call Failed State (List (Except Failed (List U8)))
  | [] => return []
  | c :: cs => do
    let r ← attempt c.run
    let rs ← session cs
    return r :: rs

/-- the results a session should have, `hash` being the hash of a message: one final succeeds -/
def results (outlen : ℕ) (hash : List U8 → List U8) (msg : List U8) (done : Bool) :
    List HashCall → List (Except Failed (List U8))
  | [] => []
  | .update pin inlen _ :: cs => .ok [] :: results outlen hash (msg ++ pin.take inlen) done cs
  | .final n _ :: cs =>
    if n < outlen ∨ done = true then .error .failed :: results outlen hash msg done cs
    else .ok ((hash msg).take n) :: results outlen hash msg true cs

theorem initHash_live {outlen : ℕ} (h0 : outlen ≠ 0) (hle : outlen ≤ blake2sOutbytes) {key : List U8}
    (hk : key.length ≤ blake2sKeybytes) (S : State) :
    ∃ S', initHash outlen key S = .ok () S' ∧ Live S' (sequentialStart outlen key.length) outlen 0 (keyed key []) := by
  have hout : outlen < 2 ^ 8 := lt_of_le_of_lt hle (by decide)
  have houtlen : (BitVec.ofNat 8 outlen).toNat = outlen := Nat.mod_eq_of_lt hout
  unfold initHash keyed
  by_cases hnil : key = []
  · have hrep := initParam_represents (sequentialParam outlen 0)
    rw [if_pos hnil, if_pos hnil, hnil, blake2sInit_run h0 hle]
    refine ⟨_, rfl, ?_, rfl, rfl, houtlen, rfl⟩
    rw [push_nil _ (Nat.zero_le _)]
    exact hrep
  · obtain ⟨S', hrun, htail, hrep⟩ := blake2sInitKey_run h0 hle hnil hk S
    rw [if_neg hnil, if_neg hnil, List.append_nil]
    exact ⟨S', hrun, hrep, htail.f0, htail.f1, htail.outlen.trans houtlen, htail.lastNode⟩

theorem attempt_bind {α β : Type} {p : Call Failed State α} {k : Except Failed α → Call Failed State β} {S S' : State}
    {r : Except Failed α}
    (h : p S = match r with
      | .ok a => .ok a S'
      | .error e => .error (.code e) S') : (attempt p >>= k) S = k r S' := by
  cases r with
  | ok a => exact bind_ok (attempt_ok h)
  | error e => exact bind_ok (attempt_code h)

/-- after the hash was taken, no final succeeds -/
theorem session_sealed {S : State} {outlen : ℕ} (h : Sealed S outlen) (hash : List U8 → List U8) (msg : List U8)
    (cs : List HashCall) : ∃ S', session cs S = .ok (results outlen hash msg true cs) S' := by
  induction cs generalizing S msg with
  | nil => exact ⟨S, rfl⟩
  | cons c cs ih =>
    cases c with
    | update pin inlen hin =>
      obtain ⟨S₁, hrun, hs⟩ := h.update hin
      obtain ⟨S', hrest⟩ := ih hs (msg ++ pin.take inlen)
      refine ⟨S', ?_⟩
      have hcall : HashCall.run (.update pin inlen hin) S = .ok [] S₁ := by rw [HashCall.run, bind_ok hrun, pure_run]
      rw [session, attempt_bind (r := .ok []) hcall, bind_ok hrest, pure_run, results]
    | final n hn =>
      obtain ⟨S', hrest⟩ := ih h msg
      refine ⟨S', ?_⟩
      have hcall : HashCall.run (.final n hn) S = .error (.code .failed) S := blake2sFinal_fails (Or.inr h.f0)
      rw [session, attempt_bind (r := .error .failed) hcall, bind_ok hrest, pure_run, results, if_pos (Or.inr rfl)]

theorem session_live {S : State} {h0 : Vector U32 8} {outlen : ℕ} {lastNode : U8} {msg : List U8}
    (h : Live S h0 outlen lastNode msg) (cs : List HashCall) :
    ∃ S', session cs S = .ok (results outlen (hashOf h0 lastNode) msg false cs) S' := by
  induction cs generalizing S msg with
  | nil => exact ⟨S, rfl⟩
  | cons c cs ih =>
    cases c with
    | update pin inlen hin =>
      obtain ⟨S₁, hrun, hs⟩ := h.update hin
      obtain ⟨S', hrest⟩ := ih hs
      have hcall : HashCall.run (.update pin inlen hin) S = .ok [] S₁ := by rw [HashCall.run, bind_ok hrun, pure_run]
      refine ⟨S', ?_⟩
      rw [session, attempt_bind (r := .ok []) hcall, bind_ok hrest, pure_run, results]
    | final n hn =>
      by_cases hshort : n < outlen
      · obtain ⟨S', hrest⟩ := ih h
        have hcall : HashCall.run (.final n hn) S = .error (.code .failed) S :=
          blake2sFinal_fails (Or.inl (h.outlen_eq ▸ hshort))
        refine ⟨S', ?_⟩
        rw [session, attempt_bind (r := .error .failed) hcall, bind_ok hrest, pure_run, results, if_pos (Or.inl hshort)]
      · obtain ⟨S₁, hrun, hs⟩ := h.final (Nat.not_lt.1 hshort) hn
        obtain ⟨S', hrest⟩ := session_sealed hs (hashOf h0 lastNode) msg cs
        refine ⟨S', ?_⟩
        have hcall : HashCall.run (.final n hn) S = .ok ((hashOf h0 lastNode msg).take n) S₁ := hrun
        have hopen : ¬(n < outlen ∨ false = true) := by simp [hshort]
        rw [session, attempt_bind (r := .ok _) hcall, bind_ok hrest, pure_run, results, if_neg hopen]

theorem keyed_append (key x y : List U8) : keyed key x ++ y = keyed key (x ++ y) := by
  unfold keyed
  by_cases h : key = []
  · rw [if_pos h, if_pos h]
  · rw [if_neg h, if_neg h, List.append_assoc]

/-- the block of the key is part of the hash, not of the message -/
theorem results_keyed (outlen : ℕ) (hash : List U8 → List U8) (key msg : List U8) (done : Bool) (cs : List HashCall) :
    results outlen hash (keyed key msg) done cs = results outlen (fun m => hash (keyed key m)) msg done cs := by
  induction cs generalizing msg done with
  | nil => rfl
  | cons c cs ih =>
    cases c with
    | update pin inlen hin => rw [results, results, keyed_append, ih]
    | final n hn => rw [results, results, ih, ih]

/-- **A session.** Whatever the calls, in whatever order, wherever the message is cut, and whatever the state held before:
no call leaves the bounds of its objects, updates succeed, the first final that asks for enough bytes returns the front of
the hash of all bytes updated before it, and all others fail. -/
theorem session_results (outlen : ℕ) (h0 : outlen ≠ 0) (hle : outlen ≤ blake2sOutbytes) (key : List U8)
    (hk : key.length ≤ blake2sKeybytes) (cs : List HashCall) (S : State) :
    ∃ S', (do initHash outlen key; session cs) S = .ok (results outlen (keyedHash outlen key) [] false cs) S' := by
  obtain ⟨S₁, hinit, hlive⟩ := initHash_live h0 hle hk S
  obtain ⟨S', hrun⟩ := session_live hlive cs
  exact ⟨S', by rw [bind_ok hinit, hrun, results_keyed]; rfl⟩

theorem session_results_sample : ∃ S',
    (do initHash 4 [1, 2]; session [.update [7, 8, 9] 2 (by decide), .final 4 (by decide), .final 4 (by decide)])
        (blake2sInit0) =
      .ok (results 4 (keyedHash 4 [1, 2]) [] false
        [.update [7, 8, 9] 2 (by decide), .final 4 (by decide), .final 4 (by decide)]) S' :=
  session_results 4 (by decide) (by decide) [1, 2] (by decide) _ blake2sInit0

/-! ## The simple interface -/

/-- the arguments that `blake2s` takes -/
structure ValidArgs (outlen : ℕ) (inp : Option (List U8)) (inlen : ℕ) (key : Option (List U8)) (keylen : ℕ) : Prop where
  inp : inp = none → inlen = 0
  key : key = none → keylen = 0
  outlen : outlen ≠ 0 ∧ outlen ≤ blake2sOutbytes
  keylen : keylen ≤ blake2sKeybytes

section Simple

variable {outlen inlen keylen : ℕ} {inp key : Option (List U8)} (S : State)

theorem blake2s_refuses (h : ¬ValidArgs outlen inp inlen key keylen) (out : List U8) :
    blake2s outlen inp inlen key keylen S out = .error (.code .failed) out := by
  unfold blake2s
  by_cases h1 : inp = none ∧ inlen > 0
  · rw [if_pos h1, fail_run]
  · by_cases h2 : key = none ∧ keylen > 0
    · rw [if_neg h1, if_pos h2, fail_run]
    · by_cases h3 : outlen = 0 ∨ outlen > blake2sOutbytes
      · rw [if_neg h1, if_neg h2, if_pos h3, fail_run]
      · by_cases h4 : keylen > blake2sKeybytes
        · rw [if_neg h1, if_neg h2, if_neg h3, if_pos h4, fail_run]
        · refine absurd ⟨fun hi => ?_, fun hk => ?_, ?_, Nat.not_lt.1 h4⟩ h
          · exact Nat.eq_zero_of_not_pos fun hpos => h1 ⟨hi, hpos⟩
          · exact Nat.eq_zero_of_not_pos fun hpos => h2 ⟨hk, hpos⟩
          · exact ⟨fun h0 => h3 (Or.inl h0), Nat.not_lt.1 fun hgt => h3 (Or.inr hgt)⟩

theorem blake2s_passes (h : ValidArgs outlen inp inlen key keylen) :
    blake2s outlen inp inlen key keylen S = blake2sHash outlen (inp.getD []) inlen key keylen S := by
  have h1 : ¬(inp = none ∧ inlen > 0) := fun hc => Nat.ne_of_gt hc.2 (h.inp hc.1)
  have h2 : ¬(key = none ∧ keylen > 0) := fun hc => Nat.ne_of_gt hc.2 (h.key hc.1)
  have h3 : ¬(outlen = 0 ∨ outlen > blake2sOutbytes) := not_or.2 ⟨h.outlen.1, Nat.not_lt.2 h.outlen.2⟩
  rw [blake2s, if_neg h1, if_neg h2, if_neg h3, if_neg (Nat.not_lt.2 h.keylen)]

/-- the bytes of a key: `keylen` at the pointer, which may be null if there are none -/
structure KeyAt (key : Option (List U8)) (keylen : ℕ) (bytes : List U8) : Prop where
  length : bytes.length = keylen
  bytes : keylen ≠ 0 → key = some bytes

theorem init_choice {bytes : List U8} (hk : KeyAt key keylen bytes) :
    (if keylen > 0 then blake2sInitKey outlen key keylen else blake2sInit outlen) = initHash outlen bytes := by
  unfold initHash
  by_cases h0 : keylen > 0
  · have hne : bytes ≠ [] := fun h => by
      have hlen := hk.length
      rw [h] at hlen
      exact Nat.ne_of_gt h0 hlen.symm
    rw [if_pos h0, if_neg hne, hk.bytes (Nat.ne_of_gt h0), hk.length]
  · have hnil : bytes = [] := List.length_eq_zero_iff.1 (hk.length.trans (Nat.eq_zero_of_not_pos h0))
    rw [if_neg h0, if_pos hnil]

theorem blake2sHash_run {inp bytes out : List U8} (h0 : outlen ≠ 0) (hle : outlen ≤ blake2sOutbytes)
    (hk : KeyAt key keylen bytes) (hkl : keylen ≤ blake2sKeybytes) (hin : inlen ≤ inp.length)
    (hout : outlen ≤ out.length) :
    blake2sHash outlen inp inlen key keylen S out =
      .ok () (splice out 0 ((keyedHash outlen bytes (inp.take inlen)).take outlen)) := by
  obtain ⟨S₁, hinit, hlive⟩ := initHash_live h0 hle (hk.length.trans_le hkl) S
  obtain ⟨S₂, hupdate, hlive⟩ := hlive.update hin
  obtain ⟨S₃, hfinal, -⟩ := hlive.final le_rfl hle
  rw [keyed_append, List.nil_append] at hfinal
  have hdigest : blake2sFinal outlen S₂ = .ok ((keyedHash outlen bytes (inp.take inlen)).take outlen) S₃ := hfinal
  have hlen : ((keyedHash outlen bytes (inp.take inlen)).take outlen).length = outlen :=
    List.length_take_of_le (by rw [keyedHash, hashOf_length]; exact hle)
  have hstore : store out 0 ((keyedHash outlen bytes (inp.take inlen)).take outlen) =
      .ok (splice out 0 ((keyedHash outlen bytes (inp.take inlen)).take outlen)) :=
    store_ok (by rw [hlen, Nat.zero_add]; exact hout)
  rw [blake2sHash, init_choice hk, bind_ok (onLocals_ok hinit _)]
  dsimp only
  rw [bind_ok (onLocals_ok (attempt_ok hupdate) _)]
  dsimp only
  rw [bind_ok (onLocals_ok (attempt_ok hdigest) _)]
  dsimp only
  rw [bind_ok (get_run _), hstore, bind_ok (lift_ok _ _), set_run]

end Simple

/-- what a streaming session over the pieces xs ends with, if it ends with d -/
def Streams (outlen : ℕ) (key : List U8) (xs : List (List U8)) (d : List U8) : Prop :=
  ∀ S, ∃ S', (do initHash outlen key; xs.forM fun x => blake2sUpdate x x.length; blake2sFinal outlen :
    Call Failed State (List U8)) S = .ok d S'

theorem forM_live {S : State} {h0 : Vector U32 8} {outlen : ℕ} {lastNode : U8} {msg : List U8}
    (h : Live S h0 outlen lastNode msg) (xs : List (List U8)) :
    ∃ S', (xs.forM fun x => blake2sUpdate x x.length : Call Failed State PUnit) S = .ok ⟨⟩ S' ∧
      Live S' h0 outlen lastNode (msg ++ xs.flatten) := by
  induction xs generalizing S msg with
  | nil => exact ⟨S, rfl, by rw [List.flatten_nil, List.append_nil]; exact h⟩
  | cons x xs ih =>
    obtain ⟨S₁, hrun, hlive⟩ := h.update (show x.length ≤ x.length from le_rfl)
    rw [List.take_length] at hlive
    obtain ⟨S', hrest, hlive⟩ := ih hlive
    rw [List.append_assoc, ← List.flatten_cons] at hlive
    exact ⟨S', (bind_ok hrun).trans hrest, hlive⟩

theorem streams_hash {outlen : ℕ} (h0 : outlen ≠ 0) (hle : outlen ≤ blake2sOutbytes) {key : List U8}
    (hk : key.length ≤ blake2sKeybytes) (xs : List (List U8)) :
    Streams outlen key xs ((keyedHash outlen key xs.flatten).take outlen) := by
  intro S
  obtain ⟨S₁, hinit, hlive⟩ := initHash_live h0 hle hk S
  obtain ⟨S₂, hforM, hlive⟩ := forM_live hlive xs
  obtain ⟨S₃, hfinal, -⟩ := hlive.final le_rfl hle
  rw [keyed_append, List.nil_append] at hfinal
  exact ⟨S₃, by rw [bind_ok hinit, bind_ok hforM, hfinal]; rfl⟩

/-- **The simple interface.** Arguments that it does not take leave `out` alone; for all others `out` starts with what
every streaming session over the same message ends with. -/
theorem blake2s_results (outlen inlen keylen : ℕ) (inp key : Option (List U8)) (S : State) (out : List U8) :
    (¬ValidArgs outlen inp inlen key keylen → blake2s outlen inp inlen key keylen S out = .error (.code .failed) out) ∧
      (ValidArgs outlen inp inlen key keylen → ∀ bytes, KeyAt key keylen bytes → inlen ≤ (inp.getD []).length →
        outlen ≤ out.length → ∃ d : List U8, d.length = outlen ∧
          blake2s outlen inp inlen key keylen S out = .ok () (splice out 0 d) ∧
            ∀ xs : List (List U8), xs.flatten = (inp.getD []).take inlen → Streams outlen bytes xs d) := by
  refine ⟨fun h => blake2s_refuses S h out, fun h bytes hk hin hout => ?_⟩
  have hkl : bytes.length ≤ blake2sKeybytes := hk.length.trans_le h.keylen
  refine ⟨(keyedHash outlen bytes ((inp.getD []).take inlen)).take outlen, ?_, ?_, ?_⟩
  · exact List.length_take_of_le (by rw [keyedHash, hashOf_length]; exact h.outlen.2)
  · rw [blake2s_passes S h, blake2sHash_run S h.outlen.1 h.outlen.2 hk h.keylen hin hout]
  · rintro xs hxs
    rw [← hxs]
    exact streams_hash h.outlen.1 h.outlen.2 hkl xs

/-- the digest of "abc" -/
example : (keyedHash 32 [] [0x61, 0x62, 0x63]).take 8 = [0x50, 0x8c, 0x5e, 0x8c, 0x32, 0x7c, 0x14, 0xe2] := by
  decide +kernel

end LongFi.Blake2sRef
