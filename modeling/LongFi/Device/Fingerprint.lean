/-
Fingerprints (`src/lfc_fingerprint.c`) over an arbitrary hash.

`Blake2s` is what the code relies on in keyed BLAKE2s: a digest of the requested length, as a function of key and message.
The streaming interface absorbs the message piece by piece and fails where `extra/blake2/src/blake2s-ref.c` fails.
The CPU is little endian, as the source assumes: integers are hashed and read back lowest byte first.

- `lfcFingerprintMonolithic_run`, `lfcFingerprintMonolithic_bad_key`: the fingerprint is the digest of the packed fields
  and the payload hash, and is computed exactly when the key fits BLAKE2s.
- `verify_iff_or_collision`: verification accepts what was fingerprinted, and anything else only by a collision.
-/
import LongFi.Datagram.Ser
import LongFi.Hash.Blake2s

namespace LongFi

open LongFi.Core

/-! ## blake2s-ref.c -/

structure Blake2s where
  digest : (outlen : ℕ) → (key : Option (List U8)) → (msg : List U8) → List U8
  digest_length : ∀ outlen key msg, (digest outlen key msg).length = outlen

structure Blake2sState where
  outlen : ℕ
  key : Option (List U8)
  input : List U8

/-- `none` is the result -1 -/
def blake2sInit (outlen : ℕ) : Option Blake2sState :=
  if outlen = 0 ∨ outlen > blake2sOutbytes then none else some ⟨outlen, none, []⟩

def blake2sInitKey (outlen : ℕ) (key : Option (List U8)) (keylen : ℕ) : Option Blake2sState :=
  if outlen = 0 ∨ outlen > blake2sOutbytes then none
  else if key = none ∨ keylen = 0 ∨ keylen > blake2sKeybytes then none
  else some ⟨outlen, key, []⟩

def blake2sUpdate (S : Blake2sState) (inp : List U8) : Option Blake2sState :=
  some { S with input := S.input ++ inp }

/-- the callers ask for the length they initialized with -/
def blake2sFinal (H : Blake2s) (S : Blake2sState) (outlen : ℕ) : Option (List U8) :=
  if outlen < S.outlen then none else some (H.digest S.outlen S.key S.input)

def blake2s (H : Blake2s) (outlen : ℕ) (inp : List U8) (key : Option (List U8)) (keylen : ℕ) : Option (List U8) := do
  if key = none ∧ keylen > 0 then failure
  if outlen = 0 ∨ outlen > blake2sOutbytes then failure
  if keylen > blake2sKeybytes then failure
  let S ← if keylen > 0 then blake2sInitKey outlen key keylen else blake2sInit outlen
  let S ← blake2sUpdate S inp
  blake2sFinal H S outlen

/-! ## lfc_fingerprint.c -/

/-- the arguments `key` and `key_len`: the bytes at the key pointer, if it is not null -/
structure Key where
  key : Option (List U8)
  keyLen : ℕ
  key_length : ∀ k ∈ key, k.length = keyLen
deriving DecidableEq

/-- the macro `B2_RES` -/
def b2Res {α : Type} : Option α → Except LfcRes α
  | some a => .ok a
  | none => .error .errException

def packLeU16 (val : U16) : List U8 := [(val &&& 0xff).setWidth 8, (val >>> 8 &&& 0xff).setWidth 8]

def lfcPayloadHash (H : Blake2s) (pay : List U8) (outLen : ℕ) : Except LfcRes (List U8) :=
  b2Res (blake2s H outLen pay none 0)

/-- `if (key && key_len) blake2s_init_key else blake2s_init` for a fingerprint -/
def fpInit (key : Key) : Option Blake2sState :=
  if key.key ≠ none ∧ key.keyLen ≠ 0 then blake2sInitKey 4 key.key key.keyLen else blake2sInit 4

def lfcFingerprintMonolithicVerify (H : Blake2s) (fpDecl : U32) (key : Key) (payHash : List U8) (hdr : U16)
    (oui did seq : U32) : Except LfcRes Unit := do
  let b2s ← b2Res (fpInit key)
  let b2s ← b2Res (blake2sUpdate b2s (packLeU16 hdr))
  let b2s ← b2Res (blake2sUpdate b2s (packLeU32 oui))
  let b2s ← b2Res (blake2sUpdate b2s (packLeU32 did))
  let b2s ← b2Res (blake2sUpdate b2s (packLeU32 seq))
  let b2s ← b2Res (blake2sUpdate b2s payHash)
  let fpLocal ← b2Res (blake2sFinal H b2s 4)
  if unpackLeU32 fpLocal = fpDecl then return else throw .errFingerprint

/-- the state is `*out` -/
def lfcFingerprintMonolithic (H : Blake2s) (B : Build) (key : Key) (hdr : U16) (oui did seq : U32) (pay : List U8) :
    Call LfcRes U32 Unit := do
  let outEnter ← get
  let b2s ← orFail (b2Res (fpInit key))
  let b2s ← orFail (b2Res (blake2sUpdate b2s (packLeU16 hdr)))
  let b2s ← orFail (b2Res (blake2sUpdate b2s (packLeU32 oui)))
  let b2s ← orFail (b2Res (blake2sUpdate b2s (packLeU32 did)))
  let b2s ← orFail (b2Res (blake2sUpdate b2s (packLeU32 seq)))
  let payHash ← orFail (lfcPayloadHash H pay blake2sOutbytes)
  let b2s ← orFail (b2Res (blake2sUpdate b2s payHash))
  let digest ← orFail (b2Res (blake2sFinal H b2s 4))
  let out := unpackLeU32 digest
  set out
  lift (check B (outEnter ≠ out))
  lift (check B ((lfcFingerprintMonolithicVerify H out key payHash hdr oui did seq).isOk = true))

/-! ## What is hashed -/

/-- the key takes part in the hash when there is one and it has a length -/
def Key.used (key : Key) : Option (List U8) := if key.keyLen = 0 then none else key.key

/-- BLAKE2s takes the key -/
def Key.Fits (key : Key) : Prop := key.key = none ∨ key.keyLen ≤ blake2sKeybytes

instance (key : Key) : Decidable key.Fits := inferInstanceAs (Decidable (_ ∨ _))

/-- the fields, packed, and the payload hash -/
def fpInput (hdr : U16) (oui did seq : U32) (payHash : List U8) : List U8 :=
  packLeU16 hdr ++ packLeU32 oui ++ packLeU32 did ++ packLeU32 seq ++ payHash

/-- the fingerprint as a function of the hash -/
def fingerprint (H : Blake2s) (key : Key) (hdr : U16) (oui did seq : U32) (pay : List U8) : U32 :=
  unpackLeU32 (H.digest 4 key.used (fpInput hdr oui did seq (H.digest 32 none pay)))

theorem fpInit_fits {key : Key} (h : key.Fits) : fpInit key = some ⟨4, key.used, []⟩ := by
  have h4 : 4 ≤ blake2sOutbytes := by decide
  unfold fpInit Key.used
  by_cases hk : key.key = none
  · simp [hk, blake2sInit, h4]
  · by_cases hl : key.keyLen = 0
    · simp [hl, blake2sInit, h4]
    · have hle : ¬key.keyLen > blake2sKeybytes := Nat.not_lt.2 (h.resolve_left hk)
      simp [hk, hl, blake2sInitKey, h4, hle]

theorem fpInit_bad_key {key : Key} (h : ¬key.Fits) : fpInit key = none := by
  obtain ⟨hk, hl⟩ := not_or.1 h
  have hl' : key.keyLen > blake2sKeybytes := Nat.lt_of_not_le hl
  have h0 : key.keyLen ≠ 0 := fun h0 => by rw [h0] at hl'; exact absurd hl' (by decide)
  simp [fpInit, blake2sInitKey, hk, h0, hl']

theorem lfcPayloadHash_run (H : Blake2s) (pay : List U8) :
    lfcPayloadHash H pay blake2sOutbytes = .ok (H.digest 32 none pay) := by
  simp [lfcPayloadHash, blake2s, blake2sInit, blake2sUpdate, blake2sFinal, b2Res, blake2sOutbytes]

theorem verify_run (H : Blake2s) (fpDecl : U32) {key : Key} (hk : key.Fits) (payHash : List U8) (hdr : U16)
    (oui did seq : U32) : lfcFingerprintMonolithicVerify H fpDecl key payHash hdr oui did seq =
      if unpackLeU32 (H.digest 4 key.used (fpInput hdr oui did seq payHash)) = fpDecl then .ok ()
      else .error .errFingerprint := by
  simp [lfcFingerprintMonolithicVerify, fpInit_fits hk, b2Res, blake2sUpdate, blake2sFinal, fpInput, bind, Except.bind,
    pure, Except.pure, throw, throwThe, MonadExceptOf.throw]

theorem verify_ok_iff (H : Blake2s) (fpDecl : U32) {key : Key} (hk : key.Fits) (payHash : List U8) (hdr : U16)
    (oui did seq : U32) : lfcFingerprintMonolithicVerify H fpDecl key payHash hdr oui did seq = .ok () ↔
      unpackLeU32 (H.digest 4 key.used (fpInput hdr oui did seq payHash)) = fpDecl := by
  rw [verify_run H fpDecl hk]
  split_ifs with h
  · exact ⟨fun _ => h, fun _ => rfl⟩
  · exact ⟨fun he => (by cases he), fun he => absurd he h⟩

section Run

variable (H : Blake2s) (B : Build) {key : Key} (hdr : U16) (oui did seq : U32) (pay : List U8) (s : U32)

theorem verify_fingerprint (hk : key.Fits) : lfcFingerprintMonolithicVerify H (fingerprint H key hdr oui did seq pay) key
    (H.digest 32 none pay) hdr oui did seq = .ok () :=
  (verify_ok_iff H _ hk _ hdr oui did seq).2 rfl

/-- with a key that BLAKE2s takes, only the assertion on the old content of `*out` can go wrong -/
theorem lfcFingerprintMonolithic_run (hk : key.Fits) : lfcFingerprintMonolithic H B key hdr oui did seq pay s =
    if B = .debug ∧ s = fingerprint H key hdr oui did seq pay
    then .error (.fault .assertion) (fingerprint H key hdr oui did seq pay)
    else .ok () (fingerprint H key hdr oui did seq pay) := by
  have hverify : check B ((lfcFingerprintMonolithicVerify H (fingerprint H key hdr oui did seq pay) key
      (H.digest 32 none pay) hdr oui did seq).isOk = true) = .ok () :=
    check_of_true B (by rw [verify_fingerprint H hdr oui did seq pay hk]; rfl)
  have hrun : lfcFingerprintMonolithic H B key hdr oui did seq pay s =
      (do lift (check B (s ≠ fingerprint H key hdr oui did seq pay))
          lift (check B ((lfcFingerprintMonolithicVerify H (fingerprint H key hdr oui did seq pay) key
            (H.digest 32 none pay) hdr oui did seq).isOk = true)) : Call LfcRes U32 Unit)
        (fingerprint H key hdr oui did seq pay) := by
    unfold lfcFingerprintMonolithic
    rw [bind_ok (get_run s), fpInit_fits hk, lfcPayloadHash_run]
    rfl
  rw [hrun, hverify]
  by_cases h : B = .debug ∧ s = fingerprint H key hdr oui did seq pay
  · have hc : check B (s ≠ fingerprint H key hdr oui did seq pay) = .error .assertion := by simp [check, h.1, h.2]
    rw [if_pos h, hc, bind_error (lift_error _ _)]
  · have hc : check B (s ≠ fingerprint H key hdr oui did seq pay) = .ok () := by
      simp only [check, not_not, if_neg h]
    rw [if_neg h, hc, bind_ok (lift_ok _ _), lift_ok]

/-- with a key that BLAKE2s does not take, the call fails before it writes `*out` -/
theorem lfcFingerprintMonolithic_bad_key (hk : ¬key.Fits) :
    lfcFingerprintMonolithic H B key hdr oui did seq pay s = .error (.code .errException) s := by
  unfold lfcFingerprintMonolithic
  rw [bind_ok (get_run s), fpInit_bad_key hk]
  rfl

theorem lfcFingerprintMonolithic_release (hk : key.Fits) : lfcFingerprintMonolithic H .release key hdr oui did seq pay s =
    .ok () (fingerprint H key hdr oui did seq pay) := by
  rw [lfcFingerprintMonolithic_run H .release hdr oui did seq pay s hk, if_neg (by simp)]

end Run

/-! ## Verification -/

theorem packLeU16_join (a : U16) :
    ((a >>> 8 &&& 0xff).setWidth 8).setWidth 16 <<< 8 ||| ((a &&& 0xff).setWidth 8).setWidth 16 = a := by
  have h255 : ∀ i < 16, (0xff : U16).getLsbD i = decide (i < 8) := by decide
  apply BitVec.eq_of_getLsbD_eq
  intro i hi
  simp only [BitVec.getLsbD_or, BitVec.getLsbD_shiftLeft, BitVec.getLsbD_setWidth, BitVec.getLsbD_and, h255 i hi,
    h255 (i - 8) (lt_of_le_of_lt (Nat.sub_le i 8) hi), BitVec.getLsbD_ushiftRight]
  grind

theorem packLeU16_inj {a b : U16} (h : packLeU16 a = packLeU16 b) : a = b := by
  simp only [packLeU16, List.cons.injEq, and_true] at h
  rw [← packLeU16_join a, h.1, h.2, packLeU16_join]

theorem packLeU32_inj {a b : U32} (h : packLeU32 a = packLeU32 b) : a = b := by
  rw [← unpackLeU32_packLeU32 a, h, unpackLeU32_packLeU32]

/-- the fields have fixed widths, so the packed message is unambiguous -/
theorem fpInput_inj {hdr hdr' : U16} {oui did seq oui' did' seq' : U32} {ph ph' : List U8}
    (h : fpInput hdr oui did seq ph = fpInput hdr' oui' did' seq' ph') :
    hdr = hdr' ∧ oui = oui' ∧ did = did' ∧ seq = seq' ∧ ph = ph' := by
  unfold fpInput at h
  obtain ⟨h, hph⟩ := List.append_inj h rfl
  obtain ⟨h, hseq⟩ := List.append_inj h rfl
  obtain ⟨h, hdid⟩ := List.append_inj h rfl
  obtain ⟨hhdr, houi⟩ := List.append_inj h rfl
  exact ⟨packLeU16_inj hhdr, packLeU32_inj houi, packLeU32_inj hdid, packLeU32_inj hseq, hph⟩

/-- what a fingerprint is computed from -/
structure FpParams where
  key : Key
  hdr : U16
  oui : U32
  did : U32
  seq : U32
  pay : List U8

namespace FpParams

/-- the same key in use, and all other fields the same -/
def Agree (a b : FpParams) : Prop :=
  a.key.used = b.key.used ∧ a.hdr = b.hdr ∧ a.oui = b.oui ∧ a.did = b.did ∧ a.seq = b.seq ∧ a.pay = b.pay

/-- the message that is hashed for the fingerprint -/
def input (H : Blake2s) (a : FpParams) : List U8 := fpInput a.hdr a.oui a.did a.seq (H.digest 32 none a.pay)

/-- the fingerprint computed for a passes verification for b, given b's payload hash; s is the old content of `*out` -/
def Accepted (H : Blake2s) (a b : FpParams) (s : U32) : Prop :=
  ∃ fp payHash, lfcFingerprintMonolithic H .release a.key a.hdr a.oui a.did a.seq a.pay s = .ok () fp ∧
    lfcPayloadHash H b.pay blake2sOutbytes = .ok payHash ∧
    lfcFingerprintMonolithicVerify H fp b.key payHash b.hdr b.oui b.did b.seq = .ok ()

/-- two distinct inputs of the 4-byte digest, or two distinct payloads, with the same hash -/
def Collision (H : Blake2s) (a b : FpParams) : Prop :=
  (a.key.used, a.input H) ≠ (b.key.used, b.input H) ∧
      H.digest 4 a.key.used (a.input H) = H.digest 4 b.key.used (b.input H) ∨
    a.pay ≠ b.pay ∧ H.digest 32 none a.pay = H.digest 32 none b.pay

theorem accepted_iff (H : Blake2s) {a b : FpParams} (ha : a.key.Fits) (hb : b.key.Fits) (s : U32) :
    Accepted H a b s ↔ H.digest 4 a.key.used (a.input H) = H.digest 4 b.key.used (b.input H) := by
  have hrun := lfcFingerprintMonolithic_release H a.hdr a.oui a.did a.seq a.pay s ha
  have hver := verify_ok_iff H (fingerprint H a.key a.hdr a.oui a.did a.seq a.pay) hb (H.digest 32 none b.pay) b.hdr
    b.oui b.did b.seq
  constructor
  · rintro ⟨fp, payHash, hfp, hph, hv⟩
    rw [hrun] at hfp
    obtain rfl := (EStateM.Result.ok.inj hfp).2
    rw [lfcPayloadHash_run] at hph
    obtain rfl := Except.ok.inj hph
    exact (unpackLeU32_inj (H.digest_length 4 _ _) (H.digest_length 4 _ _) (hver.1 hv)).symm
  · intro heq
    exact ⟨_, _, hrun, lfcPayloadHash_run H b.pay, hver.2 (congrArg unpackLeU32 heq.symm)⟩

/-- the packed message determines all fields, up to a collision of payload hashes -/
theorem agree_of_input {H : Blake2s} {a b : FpParams} (hkey : a.key.used = b.key.used) (h : a.input H = b.input H)
    (hpay : H.digest 32 none a.pay = H.digest 32 none b.pay → a.pay = b.pay) : Agree a b := by
  obtain ⟨hhdr, houi, hdid, hseq, hph⟩ := fpInput_inj h
  exact ⟨hkey, hhdr, houi, hdid, hseq, hpay hph⟩

/-- **Verification accepts exactly what was fingerprinted**, up to a collision between the two inputs at hand. -/
theorem verify_iff_or_collision (H : Blake2s) (a b : FpParams) (s : U32) (ha : a.key.keyLen ≤ blake2sKeybytes)
    (hb : b.key.keyLen ≤ blake2sKeybytes) :
    (Agree a b → Accepted H a b s) ∧ (Accepted H a b s → ¬Agree a b → Collision H a b) := by
  rw [accepted_iff H (Or.inr ha) (Or.inr hb)]
  constructor
  · rintro ⟨hkey, hhdr, houi, hdid, hseq, hpay⟩
    rw [input, input, hkey, hhdr, houi, hdid, hseq, hpay]
  · intro hdigest hne
    by_cases hin : (a.key.used, a.input H) = (b.key.used, b.input H)
    · obtain ⟨hkey, hinput⟩ := Prod.mk.inj hin
      obtain ⟨-, -, -, -, hph⟩ := fpInput_inj hinput
      exact Or.inr ⟨fun hpay => hne (agree_of_input hkey hinput fun _ => hpay), hph⟩
    · exact Or.inl ⟨hin, hdigest⟩

end FpParams

/-! ## A sample hash -/

/-- the message, cut or padded to the digest length; it ignores the key -/
def Blake2s.echo : Blake2s where
  digest outlen _ msg := (msg ++ List.replicate outlen 0).take outlen
  digest_length outlen _ msg := by simp

def Key.none : Key := ⟨Option.none, 0, by simp⟩

/-- parameters with the header of an unflagged monolithic datagram -/
def FpParams.sample (oui : U32) : FpParams :=
  { key := .none, hdr := 0x040, oui := oui, did := 2, seq := 3, pay := [1, 2, 3] }

/-- parameters that agree are accepted; four bytes of `echo` end within the oui, so others are accepted too, by a collision -/
theorem FpParams.verify_iff_or_collision_sample : Accepted .echo (.sample 1) (.sample 1) 0 ∧
    Accepted .echo (.sample 1) (.sample 0x10001) 0 ∧ Collision .echo (.sample 1) (.sample 0x10001) := by
  have hagree : Agree (.sample 1) (.sample 1) := ⟨rfl, rfl, rfl, rfl, rfl, rfl⟩
  have hdiffer : ¬Agree (.sample 1) (.sample 0x10001) := fun h => absurd h.2.2.1 (by decide)
  have haccepted : Accepted .echo (.sample 1) (.sample 0x10001) 0 :=
    (accepted_iff .echo (Or.inl rfl) (Or.inl rfl) 0).2 (by decide +kernel)
  exact ⟨(verify_iff_or_collision .echo (.sample 1) (.sample 1) 0 (by decide) (by decide)).1 hagree, haccepted,
    (verify_iff_or_collision .echo (.sample 1) (.sample 0x10001) 0 (by decide) (by decide)).2 haccepted hdiffer⟩

end LongFi
