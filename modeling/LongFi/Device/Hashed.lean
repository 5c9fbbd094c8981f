/-
Fingerprints over the BLAKE2s code itself.

`Fingerprint.lean` takes the hash as a parameter. Here the same functions of `src/lfc_fingerprint.c` call the model of
`blake2s-ref.c`: they stream into a local state that holds anything at first, and write into the caller's array. `ref` is
the hash that the code computes.

- `fingerprint_refines`: every call gives what it gives over the hash `ref`, with the same failures and assertions, and
  leaves the bounds of no object.
-/
import LongFi.Device.Fingerprint
import LongFi.Hash.Session

namespace LongFi.Blake2sRef

open LongFi.Core

/-! ## The functions -/

/-- the macro `B2_RES` -/
def b2Res {σ α : Type} (p : Call Failed σ α) : Call LfcRes σ α := recode (fun _ => .errException) p

/-- what the local variables hold before they are written -/
structure FpLocals where
  b2s : State
  payHash : List U8
  payHash_length : payHash.length = blake2sOutbytes
  /-- the local state of `blake2s` -/
  simple : State
  /-- the local state of the verification inside the assertion -/
  verify : State

/-- the state is the array at `out` -/
def lfcPayloadHash (pay : Option (List U8)) (payLen outLen : ℕ) (S : State) : Call LfcRes (List U8) Unit :=
  b2Res (blake2s outLen pay payLen none 0 S)

/-- the state is the local `b2s` -/
def fpInit (key : Key) : Call LfcRes State Unit :=
  if key.key ≠ none ∧ key.keyLen ≠ 0 then b2Res (blake2sInitKey 4 key.key key.keyLen) else b2Res (blake2sInit 4)

/-- the updates with `hdr`, `oui`, `did` and `seq` -/
def updateFields (hdr : U16) (oui did seq : U32) : Call LfcRes State Unit := do
  b2Res (blake2sUpdate (packLeU16 hdr) 2)
  b2Res (blake2sUpdate (packLeU32 oui) 4)
  b2Res (blake2sUpdate (packLeU32 did) 4)
  b2Res (blake2sUpdate (packLeU32 seq) 4)

/-- the state is the local `b2s` -/
def lfcFingerprintMonolithicVerify (fpDecl : U32) (key : Key) (payHash : List U8) (payHashLen : ℕ) (hdr : U16)
    (oui did seq : U32) : Call LfcRes State Unit := do
  fpInit key
  updateFields hdr oui did seq
  b2Res (blake2sUpdate payHash payHashLen)
  let fpLocal ← b2Res (blake2sFinal 4)
  if unpackLeU32 fpLocal = fpDecl then return else fail .errFingerprint

/-- the state is `*out` -/
def lfcFingerprintMonolithic (B : Build) (key : Key) (hdr : U16) (oui did seq : U32) (pay : Option (List U8))
    (payLen : ℕ) (u : FpLocals) : Call LfcRes U32 Unit := do
  let outEnter ← get
  let (_, b2s) ← onLocals u.b2s (fpInit key)
  let (_, b2s) ← onLocals b2s (updateFields hdr oui did seq)
  let (_, payHash) ← onLocals u.payHash (lfcPayloadHash pay payLen blake2sOutbytes u.simple)
  let (_, b2s) ← onLocals b2s (b2Res (blake2sUpdate payHash blake2sOutbytes))
  let (digest, _) ← onLocals b2s (b2Res (blake2sFinal 4))
  let out := unpackLeU32 digest
  set out
  lift (check B (outEnter ≠ out))
  -- the argument of an assertion that is compiled out is not evaluated
  if B = .debug then
    let (res, _) ← onLocals u.verify
      (attempt (lfcFingerprintMonolithicVerify out key payHash blake2sOutbytes hdr oui did seq) :
        Call LfcRes State (Except LfcRes Unit))
    lift (check B (res.isOk = true))

/-! ## The hash of the code -/

/-- the digests of the code, which are no longer than 32 bytes; a null key is an empty one -/
def ref : Blake2s where
  digest outlen key msg := (keyedHash outlen (key.getD []) msg ++ List.replicate outlen 0).take outlen
  digest_length outlen key msg := by simp

theorem ref_digest {outlen : ℕ} (h : outlen ≤ blake2sOutbytes) (key : Option (List U8)) (msg : List U8) :
    ref.digest outlen key msg = (keyedHash outlen (key.getD []) msg).take outlen :=
  List.take_append_of_le_length (by rw [keyedHash, hashOf_length]; exact h)

/-! ## Payload hashes -/

theorem lfcPayloadHash_refines {pay : Option (List U8)} {payLen outLen : ℕ} (hpay : payLen ≤ (pay.getD []).length)
    {out : List U8} (hout : outLen ≤ out.length) (S : State) :
    lfcPayloadHash pay payLen outLen S out =
      match LongFi.lfcPayloadHash ref ((pay.getD []).take payLen) outLen with
      | .ok digest => .ok () (splice out 0 digest)
      | .error e => .error (.code e) out := by
  have hnull : pay = none → payLen = 0 := by
    rintro rfl
    exact Nat.le_zero.1 hpay
  by_cases h : outLen = 0 ∨ outLen > blake2sOutbytes
  · have hbad : ¬ValidArgs outLen pay payLen none 0 := fun hv => h.elim hv.outlen.1 (Nat.not_lt.2 hv.outlen.2)
    have habs : LongFi.lfcPayloadHash ref ((pay.getD []).take payLen) outLen = .error .errException := by
      simp [LongFi.lfcPayloadHash, LongFi.blake2s, h, LongFi.b2Res, failure]
    rw [habs]
    exact recode_code (blake2s_refuses S hbad out)
  · obtain ⟨h0, hle⟩ := not_or.1 h
    have hle' : outLen ≤ blake2sOutbytes := Nat.not_lt.1 hle
    have hvalid : ValidArgs outLen pay payLen none 0 := ⟨hnull, fun _ => rfl, ⟨h0, hle'⟩, Nat.zero_le _⟩
    have habs : LongFi.lfcPayloadHash ref ((pay.getD []).take payLen) outLen =
        .ok (ref.digest outLen none ((pay.getD []).take payLen)) := by
      simp [LongFi.lfcPayloadHash, LongFi.blake2s, LongFi.blake2sInit, LongFi.blake2sUpdate, LongFi.blake2sFinal, h,
        LongFi.b2Res]
    rw [habs]
    have hnone : KeyAt none 0 [] := ⟨rfl, fun hne => absurd rfl hne⟩
    have hrun := blake2sHash_run S h0 hle' hnone (Nat.zero_le _) hpay hout
    rw [ref_digest hle']
    exact recode_ok ((congrFun (blake2s_passes S hvalid) out).trans hrun)

/-! ## The local state -/

/-- the bytes of the key in use -/
def usedKey (key : Key) : List U8 := key.used.getD []

theorem fpInit_eq (key : Key) (h : key.Fits) :
    fpInit key = b2Res (initHash 4 (usedKey key)) ∧ (usedKey key).length ≤ blake2sKeybytes := by
  unfold fpInit initHash usedKey Key.used
  by_cases hl : key.keyLen = 0
  · simp [hl]
  · cases hk : key.key with
    | none => simp [hl]
    | some k =>
      have hlen : k.length = key.keyLen := key.key_length k hk
      have hne : k ≠ [] := fun hnil => hl (by rw [← hlen, hnil]; rfl)
      have hle : key.keyLen ≤ blake2sKeybytes := h.resolve_left (by rw [hk]; exact Option.some_ne_none k)
      simp [hl, hne, hlen, hle]

theorem fpInit_live {key : Key} (h : key.Fits) (S : State) :
    ∃ S', fpInit key S = .ok () S' ∧ Live S' (sequentialStart 4 (usedKey key).length) 4 0 (keyed (usedKey key) []) := by
  obtain ⟨heq, hle⟩ := fpInit_eq key h
  obtain ⟨S', hrun, hlive⟩ := initHash_live (show 4 ≠ 0 by decide) (show 4 ≤ blake2sOutbytes by decide) hle S
  exact ⟨S', by rw [heq]; exact recode_ok hrun, hlive⟩

theorem fpInit_fails {key : Key} (h : ¬key.Fits) (S : State) : fpInit key S = .error (.code .errException) S := by
  obtain ⟨hk, hl⟩ := not_or.1 h
  have hgt : key.keyLen > blake2sKeybytes := Nat.lt_of_not_le hl
  have h0 : key.keyLen ≠ 0 := Nat.ne_of_gt (Nat.zero_lt_of_lt hgt)
  obtain ⟨k, hsome⟩ := Option.ne_none_iff_exists'.1 hk
  have hfail : blake2sInitKey 4 key.key key.keyLen S = .error (.code .failed) S := by
    unfold blake2sInitKey
    rw [if_neg (by decide), hsome]
    dsimp only
    rw [if_pos (Or.inr hgt), fail_run]
  rw [fpInit, if_pos ⟨hk, h0⟩]
  exact recode_code hfail

section Live

variable {S : State} {h0 : Vector U32 8} {outlen : ℕ} {lastNode : U8} {msg : List U8}

theorem b2Res_update (h : Live S h0 outlen lastNode msg) {pin : List U8} {inlen : ℕ} (hin : inlen ≤ pin.length) :
    ∃ S', b2Res (blake2sUpdate pin inlen) S = .ok () S' ∧ Live S' h0 outlen lastNode (msg ++ pin.take inlen) := by
  obtain ⟨S', hrun, hlive⟩ := h.update hin
  exact ⟨S', recode_ok hrun, hlive⟩

theorem updateFields_live (h : Live S h0 outlen lastNode msg) (hdr : U16) (oui did seq : U32) :
    ∃ S', updateFields hdr oui did seq S = .ok () S' ∧ Live S' h0 outlen lastNode
      (msg ++ (packLeU16 hdr ++ packLeU32 oui ++ packLeU32 did ++ packLeU32 seq)) := by
  obtain ⟨S₁, h₁, hlive⟩ := b2Res_update h (show 2 ≤ (packLeU16 hdr).length from le_rfl)
  obtain ⟨S₂, h₂, hlive⟩ := b2Res_update hlive (show 4 ≤ (packLeU32 oui).length from le_rfl)
  obtain ⟨S₃, h₃, hlive⟩ := b2Res_update hlive (show 4 ≤ (packLeU32 did).length from le_rfl)
  obtain ⟨S₄, h₄, hlive⟩ := b2Res_update hlive (show 4 ≤ (packLeU32 seq).length from le_rfl)
  refine ⟨S₄, by rw [updateFields, bind_ok h₁, bind_ok h₂, bind_ok h₃, h₄], ?_⟩
  simp only [List.append_assoc] at hlive ⊢
  exact hlive

end Live

/-- the hashed message of a fingerprint, ended by the payload hash -/
theorem final_fingerprint {S : State} {key : Key} {hdr : U16} {oui did seq : U32} {payHash : List U8}
    (h : Live S (sequentialStart 4 (usedKey key).length) 4 0
      (keyed (usedKey key) [] ++ (packLeU16 hdr ++ packLeU32 oui ++ packLeU32 did ++ packLeU32 seq) ++ payHash)) :
    ∃ S', b2Res (blake2sFinal 4) S = .ok (ref.digest 4 key.used (fpInput hdr oui did seq payHash)) S' := by
  obtain ⟨S', hrun, -⟩ := h.final le_rfl (by decide)
  refine ⟨S', ?_⟩
  rw [List.append_assoc, keyed_append, List.nil_append] at hrun
  rw [ref_digest (by decide)]
  exact recode_ok hrun

/-! ## Verification -/

theorem verify_refines (fpDecl : U32) (key : Key) {payHash : List U8} {payHashLen : ℕ}
    (hlen : payHashLen ≤ payHash.length) (hdr : U16) (oui did seq : U32) (S : State) :
    ∃ S', lfcFingerprintMonolithicVerify fpDecl key payHash payHashLen hdr oui did seq S =
      (orFail (LongFi.lfcFingerprintMonolithicVerify ref fpDecl key (payHash.take payHashLen) hdr oui did seq) :
        Call LfcRes State Unit) S' := by
  by_cases hk : key.Fits
  · obtain ⟨S₁, hinit, hlive⟩ := fpInit_live hk S
    obtain ⟨S₂, hfields, hlive⟩ := updateFields_live hlive hdr oui did seq
    obtain ⟨S₃, hupdate, hlive⟩ := b2Res_update hlive hlen
    obtain ⟨S₄, hfinal⟩ := final_fingerprint hlive
    refine ⟨S₄, ?_⟩
    rw [lfcFingerprintMonolithicVerify, bind_ok hinit, bind_ok hfields, bind_ok hupdate, bind_ok hfinal,
      verify_run ref fpDecl hk]
    split_ifs with heq
    · rw [orFail_ok, pure_run]
    · rw [orFail_error, fail_run]
  · refine ⟨S, ?_⟩
    rw [lfcFingerprintMonolithicVerify, bind_error (fpInit_fails hk S)]
    unfold LongFi.lfcFingerprintMonolithicVerify
    rw [fpInit_bad_key hk]
    rfl

/-! ## Fingerprints -/

section Monolithic

variable (B : Build) (key : Key) (hdr : U16) (oui did seq : U32) (u : FpLocals)

/-- the second assertion, which calls the verification on a state of its own -/
theorem assert_refines (out : U32) {payHash : List U8} (hlen : payHash.length = blake2sOutbytes) :
    (do if B = .debug then
          let (res, _) ← onLocals u.verify
            (attempt (lfcFingerprintMonolithicVerify out key payHash blake2sOutbytes hdr oui did seq) :
              Call LfcRes State (Except LfcRes Unit))
          lift (check B (res.isOk = true)) : Call LfcRes U32 Unit) =
      lift (check B ((LongFi.lfcFingerprintMonolithicVerify ref out key payHash hdr oui did seq).isOk = true)) := by
  obtain ⟨S', hverify⟩ := verify_refines out key hlen.ge hdr oui did seq u.verify
  rw [List.take_of_length_le hlen.le] at hverify
  cases B with
  | release => simp only [reduceCtorEq, if_false, check_release]; rfl
  | debug =>
    funext s
    rw [if_pos rfl]
    cases hres : LongFi.lfcFingerprintMonolithicVerify ref out key payHash hdr oui did seq with
    | ok a =>
      rw [hres, orFail_ok] at hverify
      rw [bind_ok (onLocals_ok (attempt_ok hverify) s)]
    | error e =>
      rw [hres, orFail_error] at hverify
      rw [bind_ok (onLocals_ok (attempt_code hverify) s)]

/-- the payload hash of the bytes at `pay` -/
def hashed (pay : Option (List U8)) (payLen : ℕ) : List U8 := ref.digest 32 none ((pay.getD []).take payLen)

theorem hashed_length (pay : Option (List U8)) (payLen : ℕ) : (hashed pay payLen).length = blake2sOutbytes :=
  ref.digest_length 32 _ _

/-- the local array is overwritten by the payload hash -/
theorem payHash_run {pay : Option (List U8)} {payLen : ℕ} (hpay : payLen ≤ (pay.getD []).length) :
    lfcPayloadHash pay payLen blake2sOutbytes u.simple u.payHash = .ok () (hashed pay payLen) := by
  have hrun := lfcPayloadHash_refines hpay u.payHash_length.ge u.simple
  have habs : LongFi.lfcPayloadHash ref ((pay.getD []).take payLen) blake2sOutbytes = .ok (hashed pay payLen) :=
    LongFi.lfcPayloadHash_run ref _
  have hall : splice u.payHash 0 (hashed pay payLen) = hashed pay payLen := by
    rw [splice, List.take_zero, List.nil_append, Nat.zero_add, hashed_length, ← u.payHash_length, List.drop_length,
      List.append_nil]
  rw [hrun, habs]
  dsimp only
  rw [hall]

variable {key}

theorem monolithic_refines {pay : Option (List U8)} {payLen : ℕ} (hpay : payLen ≤ (pay.getD []).length) (s : U32) :
    lfcFingerprintMonolithic B key hdr oui did seq pay payLen u s =
      LongFi.lfcFingerprintMonolithic ref B key hdr oui did seq ((pay.getD []).take payLen) s := by
  by_cases hk : key.Fits
  · obtain ⟨S₁, hinit, hlive⟩ := fpInit_live hk u.b2s
    obtain ⟨S₂, hfields, hlive⟩ := updateFields_live hlive hdr oui did seq
    obtain ⟨S₃, hupdate, hlive⟩ := b2Res_update hlive (hashed_length pay payLen).ge
    rw [List.take_of_length_le (hashed_length pay payLen).le] at hlive
    obtain ⟨S₄, hfinal⟩ := final_fingerprint hlive
    unfold lfcFingerprintMonolithic LongFi.lfcFingerprintMonolithic
    rw [bind_ok (get_run s), bind_ok (get_run s), bind_ok (onLocals_ok hinit s)]
    dsimp only
    rw [bind_ok (onLocals_ok hfields s)]
    dsimp only
    rw [bind_ok (onLocals_ok (payHash_run u hpay) s)]
    dsimp only
    rw [bind_ok (onLocals_ok hupdate s)]
    dsimp only
    rw [bind_ok (onLocals_ok hfinal s)]
    dsimp only
    rw [fpInit_fits hk, LongFi.lfcPayloadHash_run]
    rw [assert_refines B key hdr oui did seq u _ (hashed_length pay payLen)]
    rfl
  · unfold lfcFingerprintMonolithic LongFi.lfcFingerprintMonolithic
    rw [bind_ok (get_run s), bind_ok (get_run s), bind_error (onLocals_error (fpInit_fails hk _) s), fpInit_bad_key hk]
    rfl

/-- **The fingerprints of the code are those of its hash.** Whatever the key, the fields, the payload and its length, the
local variables and the build: the three functions return, write and assert what they do over the hash `ref`. -/
theorem fingerprint_refines (key : Key) (pay : Option (List U8)) (payLen : ℕ) (hpay : payLen ≤ (pay.getD []).length)
    (s : U32) :
    lfcFingerprintMonolithic B key hdr oui did seq pay payLen u s =
        LongFi.lfcFingerprintMonolithic ref B key hdr oui did seq ((pay.getD []).take payLen) s ∧
      (∀ (outLen : ℕ) (out : List U8) (S : State), outLen ≤ out.length → lfcPayloadHash pay payLen outLen S out =
        match LongFi.lfcPayloadHash ref ((pay.getD []).take payLen) outLen with
        | .ok digest => .ok () (splice out 0 digest)
        | .error e => .error (.code e) out) ∧
      ∀ (fpDecl : U32) (payHash : List U8) (payHashLen : ℕ) (S : State), payHashLen ≤ payHash.length →
        ∃ S', lfcFingerprintMonolithicVerify fpDecl key payHash payHashLen hdr oui did seq S =
          (orFail (LongFi.lfcFingerprintMonolithicVerify ref fpDecl key (payHash.take payHashLen) hdr oui did seq) :
            Call LfcRes State Unit) S' :=
  ⟨monolithic_refines B hdr oui did seq u hpay s, fun _ _ S hout => lfcPayloadHash_refines hpay hout S,
    fun fpDecl _ _ S hlen => verify_refines fpDecl key hlen hdr oui did seq S⟩

end Monolithic

/-- local variables that hold zeros -/
def FpLocals.zero : FpLocals := ⟨blake2sInit0, List.replicate 32 0, by decide, blake2sInit0, blake2sInit0⟩

theorem fingerprint_refines_sample :
    lfcFingerprintMonolithic .debug .none 0x040 1 2 3 (some [7, 8]) 2 .zero 0 =
      LongFi.lfcFingerprintMonolithic ref .debug .none 0x040 1 2 3 [7, 8] 0 :=
  (fingerprint_refines .debug 0x040 1 2 3 .zero .none (some [7, 8]) 2 (by decide) 0).1

end LongFi.Blake2sRef
