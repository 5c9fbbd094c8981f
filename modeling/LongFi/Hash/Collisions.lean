/-
Collisions of BLAKE2s are collisions of its compression function.

`compressions` lists what the calls of `blake2s_compress` read while a message is hashed under a key: chaining value,
counter, flags and block. The number of bytes is in the counter of the last block and the length of the key is in the
parameter block, so nothing of key and message is lost before the compression function.

- `blake2s_collision`: if `blake2s` writes the same 32 bytes for two keys and messages, these are the same, or two of the
  calls of `blake2s_compress` read different inputs and give the same chaining value.
-/
import LongFi.Core.Bytes
import LongFi.Hash.Session

namespace LongFi.Blake2sRef

open LongFi.Core LongFi.Core.BlockHash

/-! ## Calls of the compression function -/

/-- what a call of `blake2s_compress` reads -/
structure Compression where
  h : Vector U32 8
  t0 : U32
  t1 : U32
  f0 : U32
  f1 : U32
  block : List U8
deriving DecidableEq

/-- the chaining value it gives -/
def Compression.out (x : Compression) : Vector U32 8 :=
  (blake2sCompress ⟨x.h, x.t0, x.t1, x.f0, x.f1, [], 0, 0, 0⟩ x.block).h

def Compression.of (a : Input U8 (Vector U32 8)) : Compression :=
  ⟨a.chain, BitVec.ofNat 32 a.count, BitVec.ofNat 32 (a.count / 2 ^ 32), if a.last then -1 else 0, 0, pad a.block⟩

/-- the calls of `blake2s_compress` in which msg is hashed under key -/
def compressions (outlen : ℕ) (key msg : List U8) : List Compression :=
  ((hasher 0 0 0).inputs (sequentialStart outlen key.length) 0 (keyed key msg)).map .of

theorem pad_full {block : List U8} (h : block.length = blake2sBlockbytes) : pad block = block := by
  rw [pad, h, Nat.sub_self, List.replicate_zero, List.append_nil]

theorem Compression.of_step {a : Input U8 (Vector U32 8)} (ha : a.last = false) (hlen : a.block.length = blake2sBlockbytes) :
    (Compression.of a).out = (hasher 0 0 0).step a.chain a.count a.block := by
  rw [Compression.of, ha, pad_full hlen]
  rfl

theorem Compression.of_last {a : Input U8 (Vector U32 8)} (ha : a.last = true) :
    (Compression.of a).out = (hasher 0 0 0).last a.chain a.count a.block := by
  rw [Compression.of, ha]
  rfl

theorem pad_injective {x y : List U8} (hlen : x.length = y.length) (h : pad x = pad y) : x = y :=
  (List.append_inj h hlen).1

/-- the counter does not wrap for the bytes of any object -/
theorem counter_injective {m n : ℕ} (hm : m < 2 ^ 64) (hn : n < 2 ^ 64) (h0 : BitVec.ofNat 32 m = BitVec.ofNat 32 n)
    (h1 : BitVec.ofNat 32 (m / 2 ^ 32) = BitVec.ofNat 32 (n / 2 ^ 32)) : m = n := by
  have hlow := congrArg BitVec.toNat h0
  have hhigh := congrArg BitVec.toNat h1
  simp only [BitVec.toNat_ofNat] at hlow hhigh
  omega

/-- inputs that collide in the iterated hash are calls that collide -/
theorem collide_calls {a b : Input U8 (Vector U32 8)} (h : (hasher 0 0 0).Collide a b) (ha : a.count < 2 ^ 64)
    (hb : b.count < 2 ^ 64) (hafull : a.last = false → a.block.length = blake2sBlockbytes)
    (hbfull : b.last = false → b.block.length = blake2sBlockbytes) :
    Compression.of a ≠ Compression.of b ∧ (Compression.of a).out = (Compression.of b).out := by
  constructor
  · intro heq
    obtain ⟨hchain, h0, h1, -, -, hpad⟩ := Compression.mk.inj heq
    have hcount := counter_injective ha hb h0 h1
    exact h.ne (Input.ext hchain hcount (pad_injective (h.length_eq hcount) hpad) h.last_eq)
  · cases hlast : a.last with
    | false =>
      have hlast' : b.last = false := h.last_eq ▸ hlast
      rw [Compression.of_step hlast (hafull hlast), Compression.of_step hlast' (hbfull hlast'), h.step hlast]
    | true =>
      have hlast' : b.last = true := h.last_eq ▸ hlast
      rw [Compression.of_last hlast, Compression.of_last hlast', h.last hlast]

/-! ## Digests and keys -/

theorem store32_injective : Function.Injective store32 := by
  have hbytes (w : U32) : store32 w = toBytes 4 w := by
    simp only [store32, toBytes, BitVec.ushiftRight_zero, ← BitVec.shiftRight_add]
  intro w w' h
  rw [hbytes, hbytes] at h
  rw [← ofBytes_toBytes (n := 4) w.isLt, h, ofBytes_toBytes w'.isLt]

theorem hashBytes_injective : Function.Injective hashBytes := by
  intro h h' heq
  apply Vector.toList_inj.1
  have h4 (w : U32) : (store32 w).length = 4 := rfl
  exact flatMap_inj h4 store32_injective (by rw [Vector.length_toList, Vector.length_toList]) heq

/-- the second byte of a word in memory -/
theorem load32_byte (a b c d : U8) (x : List U8) : (load32 (a :: b :: c :: d :: x) >>> 8).setWidth 8 = b := by
  apply BitVec.eq_of_getLsbD_eq
  intro i hi
  have h32 : 8 + i < 32 := by omega
  have h16 : 8 + i < 16 := by omega
  have h24 : 8 + i < 24 := by omega
  simp [load32, hi, h32, h16, h24]

/-- the length of the key is in the parameter block -/
theorem sequentialStart_injective {outlen m n : ℕ} (hm : m < 2 ^ 8) (hn : n < 2 ^ 8)
    (h : sequentialStart outlen m = sequentialStart outlen n) : m = n := by
  have hword (k : ℕ) : (sequentialStart outlen k)[0] = blake2sIV[0] ^^^ load32 (sequentialParam outlen k).bytes := by
    simp [sequentialStart, blake2sInitParam, blake2sInit0]
  have hload : load32 (sequentialParam outlen m).bytes = load32 (sequentialParam outlen n).bytes := by
    apply (BitVec.xor_right_inj blake2sIV[0]).1
    rw [← hword, ← hword, h]
  have hbyte : BitVec.ofNat 8 m = BitVec.ofNat 8 n := by
    have h8 := congrArg (fun w : U32 => (w >>> 8).setWidth 8) hload
    exact (load32_byte _ _ _ _ _).symm.trans (h8.trans (load32_byte _ _ _ _ _))
  have hnat := congrArg BitVec.toNat hbyte
  simp only [BitVec.toNat_ofNat] at hnat
  omega

theorem pad_length {key : List U8} (h : key.length ≤ blake2sBlockbytes) : (pad key).length = blake2sBlockbytes := by
  rw [pad, List.length_append, List.length_replicate]
  omega

theorem keyed_injective {key key' msg msg' : List U8} (hlen : key.length = key'.length)
    (hkey : key.length ≤ blake2sBlockbytes) (h : keyed key msg = keyed key' msg') : key = key' ∧ msg = msg' := by
  unfold keyed at h
  by_cases hnil : key = []
  · have hnil' : key' = [] := List.length_eq_zero_iff.1 (by rw [← hlen, hnil]; rfl)
    rw [if_pos hnil, if_pos hnil'] at h
    exact ⟨hnil.trans hnil'.symm, h⟩
  · have hnil' : key' ≠ [] := by
      rintro rfl
      exact hnil (List.length_eq_zero_iff.1 hlen)
    rw [if_neg hnil, if_neg hnil'] at h
    obtain ⟨hpad, hmsg⟩ := List.append_inj h ((pad_length hkey).trans (pad_length (hlen ▸ hkey)).symm)
    exact ⟨pad_injective hlen hpad, hmsg⟩

theorem keyed_length {key : List U8} (hkey : key.length ≤ blake2sBlockbytes) (msg : List U8) :
    (keyed key msg).length ≤ blake2sBlockbytes + msg.length := by
  unfold keyed
  split_ifs with h
  · exact Nat.le_add_left _ _
  · rw [List.length_append, pad_length hkey]

/-! ## Equal hashes -/

/-- the counter and the blocks of an input, for a key that fits and a message that an object can hold -/
theorem input_bounds {key msg : List U8} (hkey : key.length ≤ blake2sKeybytes) (hmsg : msg.length < 2 ^ 63) {outlen : ℕ}
    {a : Input U8 (Vector U32 8)} (ha : a ∈ (hasher 0 0 0).inputs (sequentialStart outlen key.length) 0 (keyed key msg)) :
    a.count < 2 ^ 64 ∧ (a.last = false → a.block.length = blake2sBlockbytes) := by
  obtain ⟨-, hfull, hcount⟩ := (hasher 0 0 0).mem_inputs ha
  have hlen := keyed_length (hkey.trans (by decide)) msg
  have h64 : blake2sBlockbytes = 64 := rfl
  exact ⟨by omega, hfull⟩

/-- two of the calls of `blake2s_compress` collide -/
def CollidingCalls (outlen : ℕ) (key msg key' msg' : List U8) : Prop :=
  ∃ x ∈ compressions outlen key msg, ∃ y ∈ compressions outlen key' msg', x ≠ y ∧ x.out = y.out

theorem keyedHash_eq {outlen : ℕ} {key key' msg msg' : List U8} (hkey : key.length ≤ blake2sKeybytes)
    (hkey' : key'.length ≤ blake2sKeybytes) (hmsg : msg.length < 2 ^ 63) (hmsg' : msg'.length < 2 ^ 63)
    (h : keyedHash outlen key msg = keyedHash outlen key' msg') :
    (key = key' ∧ msg = msg') ∨ CollidingCalls outlen key msg key' msg' := by
  rcases (hasher 0 0 0).eq_or_collide (hashBytes_injective h) with ⟨hstart, hkeyed⟩ | ⟨a, ha, b, hb, hab⟩
  · have hlen := sequentialStart_injective (lt_of_le_of_lt hkey (by decide)) (lt_of_le_of_lt hkey' (by decide)) hstart
    exact Or.inl (keyed_injective hlen (hkey.trans (by decide)) hkeyed)
  · obtain ⟨hcount, hfull⟩ := input_bounds hkey hmsg ha
    obtain ⟨hcount', hfull'⟩ := input_bounds hkey' hmsg' hb
    obtain ⟨hne, hout⟩ := collide_calls hab hcount hcount' hfull hfull'
    exact Or.inr ⟨_, List.mem_map_of_mem ha, _, List.mem_map_of_mem hb, hne, hout⟩

theorem blake2s_run {key msg out : List U8} (hkey : key.length ≤ blake2sKeybytes) (hout : out.length = blake2sOutbytes)
    (S : State) : blake2s blake2sOutbytes (some msg) msg.length (some key) key.length S out =
      .ok () (keyedHash blake2sOutbytes key msg) := by
  have hvalid : ValidArgs blake2sOutbytes (some msg) msg.length (some key) key.length :=
    ⟨nofun, nofun, ⟨by decide, le_rfl⟩, hkey⟩
  have hlen : (keyedHash blake2sOutbytes key msg).length = blake2sOutbytes := hashOf_length _ _ _
  have hrun : blake2sHash blake2sOutbytes msg msg.length (some key) key.length S out = _ :=
    blake2sHash_run S (by decide) le_rfl ⟨rfl, fun _ => rfl⟩ hkey le_rfl hout.ge
  have hall : splice out 0 (keyedHash blake2sOutbytes key msg) = keyedHash blake2sOutbytes key msg := by
    rw [splice, hlen, Nat.zero_add, ← hout, List.drop_length, List.take_zero, List.nil_append, List.append_nil]
  rw [List.take_length, List.take_of_length_le hlen.le, hall] at hrun
  exact (congrFun (blake2s_passes S hvalid) out).trans hrun

/-- **Collisions of BLAKE2s.** If two calls of `blake2s` write the same 32 bytes, they were given the same key and the same
message, or two of their calls of `blake2s_compress` read different inputs and give the same chaining value. -/
theorem blake2s_collision {key key' msg msg' out out' digest : List U8} (hkey : key.length ≤ blake2sKeybytes)
    (hkey' : key'.length ≤ blake2sKeybytes) (hmsg : msg.length < 2 ^ 63) (hmsg' : msg'.length < 2 ^ 63)
    (hout : out.length = blake2sOutbytes) (hout' : out'.length = blake2sOutbytes) (S S' : State)
    (h : blake2s blake2sOutbytes (some msg) msg.length (some key) key.length S out = .ok () digest)
    (h' : blake2s blake2sOutbytes (some msg') msg'.length (some key') key'.length S' out' = .ok () digest) :
    (key = key' ∧ msg = msg') ∨ CollidingCalls blake2sOutbytes key msg key' msg' := by
  rw [blake2s_run hkey hout] at h
  rw [blake2s_run hkey' hout'] at h'
  have hdigest := (EStateM.Result.ok.inj h).2
  have hdigest' := (EStateM.Result.ok.inj h').2
  exact keyedHash_eq hkey hkey' hmsg hmsg' (hdigest.trans hdigest'.symm)

theorem blake2s_collision_sample : ∃ digest : List U8,
    blake2s 32 (some [1, 2]) 2 (some [3]) 1 blake2sInit0 (List.replicate 32 0) = .ok () digest ∧
      (([3] : List U8) = [3] ∧ ([1, 2] : List U8) = [1, 2] ∨ CollidingCalls 32 [3] [1, 2] [3] [1, 2]) := by
  have hrun : blake2s 32 (some [1, 2]) 2 (some [3]) 1 blake2sInit0 (List.replicate 32 0) =
      .ok () (keyedHash 32 [3] [1, 2]) := blake2s_run (by decide) (by decide) _
  exact ⟨_, hrun, blake2s_collision (by decide) (by decide) (by decide) (by decide) (by decide) (by decide) _ _ hrun hrun⟩

end LongFi.Blake2sRef
