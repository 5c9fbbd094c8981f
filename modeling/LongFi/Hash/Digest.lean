/-
What BLAKE2s computes, and that the streaming interface computes it.

`hasher` is the iterated hash of BLAKE2s over blocks of 64 bytes, in the sense of the block hash library: a chaining value
of eight words, a byte counter of two words, and a flag in the last block. A state of the code `Represents` a stream of
it: the words of the chaining value and of the counter, and the bytes held back in the front of the buffer.

- `blake2sUpdate_run`: an update pushes its bytes, stays inside the buffer, and always returns.
- `blake2sFinal_run`, `blake2sFinal_fails`: a final ends the stream once; it fails afterwards, or for a short output.
- `blake2sInit_run`, `blake2sInitKey_run`: a fresh state represents an empty stream, or one that starts with the key.
-/
import LongFi.Core.Blocks
import LongFi.Hash.Blake2s

namespace LongFi.Blake2sRef

open LongFi.Core LongFi.Core.BlockHash

/-! ## The iterated hash -/

/-- the chaining value after one block: `count` bytes hashed with it, finalization flags f0 and f1 -/
def compression (h : Vector U32 8) (count : ℕ) (f0 f1 : U32) (block : List U8) : Vector U32 8 :=
  (blake2sCompress ⟨h, BitVec.ofNat 32 count, BitVec.ofNat 32 (count / 2 ^ 32), f0, f1, [], 0, 0, 0⟩ block).h

/-- a short block padded with zeros -/
def pad (block : List U8) : List U8 := block ++ List.replicate (blake2sBlockbytes - block.length) 0

/-- f0 and f1 are the flags of the blocks before the last one: 0, unless the hash was finalized before -/
def hasher (f0 f1 : U32) (lastNode : U8) : BlockHash U8 (Vector U32 8) (Vector U32 8) where
  size := blake2sBlockbytes
  size_pos := by decide
  step h count block := compression h count f0 f1 block
  last h count block := compression h count (-1) (if lastNode ≠ 0 then -1 else f1) (pad block)

/-- the words of a chaining value in memory -/
def hashBytes (h : Vector U32 8) : List U8 := h.toList.flatMap store32

theorem hashBytes_length (h : Vector U32 8) : (hashBytes h).length = blake2sOutbytes := by
  have h4 : ∀ w ∈ h.toList, (store32 w).length = 4 := fun _ _ => rfl
  rw [hashBytes, List.length_flatMap, List.map_congr_left h4, List.map_const', List.sum_replicate, Vector.length_toList]
  rfl

/-- the parameter block of sequential hashing -/
def sequentialParam (outlen keylen : ℕ) : Param :=
  { digestLength := BitVec.ofNat 8 outlen, keyLength := BitVec.ofNat 8 keylen, fanout := 1, depth := 1, leafLength := 0,
    nodeOffset := 0, xofLength := 0, nodeDepth := 0, innerLength := 0, salt := .replicate 8 0, personal := .replicate 8 0 }

/-- the chaining value that sequential hashing starts with -/
def sequentialStart (outlen keylen : ℕ) : Vector U32 8 := (blake2sInitParam (sequentialParam outlen keylen)).h

/-- the message that is hashed: a key takes a block of its own before it -/
def keyed (key msg : List U8) : List U8 := if key = [] then msg else pad key ++ msg

/-- the 32 bytes of the hash of msg from chaining value h0 on -/
def hashOf (h0 : Vector U32 8) (lastNode : U8) (msg : List U8) : List U8 :=
  hashBytes ((hasher 0 0 lastNode).hashFrom h0 0 msg)

/-- the hash for digests of `outlen` bytes, which are its front -/
def keyedHash (outlen : ℕ) (key msg : List U8) : List U8 := hashOf (sequentialStart outlen key.length) 0 (keyed key msg)

theorem hashOf_length (h0 : Vector U32 8) (lastNode : U8) (msg : List U8) :
    (hashOf h0 lastNode msg).length = blake2sOutbytes := hashBytes_length _

/-! ## States -/

/-- S counts n bytes in its two words -/
structure Counts (S : State) (n : ℕ) : Prop where
  t0 : S.t0 = BitVec.ofNat 32 n
  t1 : S.t1 = BitVec.ofNat 32 (n / 2 ^ 32)

/-- the hash that a state goes on with -/
def State.hasher (S : State) : BlockHash U8 (Vector U32 8) (Vector U32 8) := Blake2sRef.hasher S.f0 S.f1 S.lastNode

structure Represents (S : State) (s : Pending U8 (Vector U32 8)) : Prop where
  chain : S.h = s.chain
  counts : Counts S s.count
  buf_length : S.buf.length = blake2sBlockbytes
  buflen : S.buflen = s.held.length
  held : S.buf.take S.buflen = s.held
  held_le : s.held.length ≤ blake2sBlockbytes

/-- the fields that updates leave alone -/
structure SameTail (S S' : State) : Prop where
  f0 : S'.f0 = S.f0
  f1 : S'.f1 = S.f1
  outlen : S'.outlen = S.outlen
  lastNode : S'.lastNode = S.lastNode

theorem SameTail.refl (S : State) : SameTail S S := ⟨rfl, rfl, rfl, rfl⟩

/-! ## The counter -/

/-- the carry out of the low word is seen by comparing the sum with the increment -/
theorem counter_carry (n : ℕ) {k : ℕ} (hk : k < 2 ^ 32) :
    BitVec.ofNat 32 n + BitVec.ofNat 32 k = BitVec.ofNat 32 (n + k) ∧
      (BitVec.ofNat 32 (n / 2 ^ 32) + if BitVec.ofNat 32 n + BitVec.ofNat 32 k < BitVec.ofNat 32 k then 1 else 0) =
        BitVec.ofNat 32 ((n + k) / 2 ^ 32) := by
  have hsum : BitVec.ofNat 32 n + BitVec.ofNat 32 k = BitVec.ofNat 32 (n + k) := (BitVec.ofNat_add n k).symm
  have hlt : BitVec.ofNat 32 (n + k) < BitVec.ofNat 32 k ↔ 2 ^ 32 ≤ n % 2 ^ 32 + k := by
    rw [BitVec.lt_def, BitVec.toNat_ofNat, BitVec.toNat_ofNat]
    omega
  refine ⟨hsum, ?_⟩
  rw [hsum]
  by_cases h : 2 ^ 32 ≤ n % 2 ^ 32 + k
  · rw [if_pos (hlt.2 h), show (n + k) / 2 ^ 32 = n / 2 ^ 32 + 1 by omega, BitVec.ofNat_add]
    rfl
  · rw [if_neg (mt hlt.1 h), show (0 : U32) = 0#32 from rfl, BitVec.add_zero, show (n + k) / 2 ^ 32 = n / 2 ^ 32 by omega]

theorem Counts.increment {S : State} {n k : ℕ} (h : Counts S n) (hk : k < 2 ^ 32) :
    Counts (blake2sIncrementCounter S (BitVec.ofNat 32 k)) (n + k) := by
  obtain ⟨hsum, hcarry⟩ := counter_carry n hk
  refine ⟨?_, ?_⟩
  · rw [blake2sIncrementCounter, h.t0, hsum]
  · rw [blake2sIncrementCounter, h.t0, h.t1, hcarry]

/-- compressing depends on the chaining value, the counter and the flags only -/
theorem compress_h {S : State} {n : ℕ} (h : Counts S n) (block : List U8) :
    (blake2sCompress S block).h = compression S.h n S.f0 S.f1 block := by
  rw [compression, ← h.t0, ← h.t1]
  rfl

/-! ## Update -/

/-- counter and chaining value after a whole block -/
theorem block_run {S : State} {n : ℕ} (h : Counts S n) (block : List U8) :
    Counts (blake2sCompress (blake2sIncrementCounter S (BitVec.ofNat 32 blake2sBlockbytes)) block) (n + blake2sBlockbytes) ∧
      (blake2sCompress (blake2sIncrementCounter S (BitVec.ofNat 32 blake2sBlockbytes)) block).h =
        S.hasher.step S.h (n + blake2sBlockbytes) block := by
  have hc := h.increment (k := blake2sBlockbytes) (by decide)
  exact ⟨⟨hc.t0, hc.t1⟩, compress_h hc block⟩

theorem drain_block (S : State) {n : ℕ} {held : List U8} (h : blake2sBlockbytes < held.length) :
    S.hasher.drain ⟨S.h, n, held⟩ = S.hasher.drain ⟨S.hasher.step S.h (n + blake2sBlockbytes) (held.take blake2sBlockbytes),
      n + blake2sBlockbytes, held.drop blake2sBlockbytes⟩ :=
  S.hasher.drain_of_lt h

/-- the loop hashes the blocks of the input that are not the last one -/
theorem updateLoop_run {pin : List U8} {S : State} {n pos inlen : ℕ} (h : Counts S n) (hin : pos + inlen ≤ pin.length) :
    ∃ S' pos' inlen', blake2sUpdateLoop pin pos inlen S = .ok (pos', inlen') S' ∧
      pos' + inlen' = pos + inlen ∧ inlen' ≤ blake2sBlockbytes ∧ SameTail S S' ∧ S'.buf = S.buf ∧ S'.buflen = S.buflen ∧
        ∃ n', Counts S' n' ∧
          S.hasher.drain ⟨S.h, n, (pin.drop pos).take inlen⟩ = ⟨S'.h, n', (pin.drop pos').take inlen'⟩ := by
  induction inlen using Nat.strong_induction_on generalizing pos S n with
  | _ inlen ih =>
  have hlen : ((pin.drop pos).take inlen).length = inlen := by
    rw [List.length_take, List.length_drop]
    omega
  rw [blake2sUpdateLoop]
  by_cases hgt : inlen > blake2sBlockbytes
  · have hblock : load pin pos blake2sBlockbytes = .ok ((pin.drop pos).take blake2sBlockbytes) := load_ok (by omega)
    have hpos : 0 < blake2sBlockbytes := by decide
    obtain ⟨hcounts, hh⟩ := block_run h ((pin.drop pos).take blake2sBlockbytes)
    obtain ⟨S', pos', inlen', hrun, hsum, hle, htail, hbuf, hbuflen, n', hn', hdrain⟩ :=
      ih (inlen - blake2sBlockbytes) (by omega) hcounts (show pos + blake2sBlockbytes + _ ≤ _ by omega)
    refine ⟨S', pos', inlen', ?_, by omega, hle, ⟨htail.f0, htail.f1, htail.outlen, htail.lastNode⟩, hbuf, hbuflen, n', hn',
      ?_⟩
    · rw [if_pos hgt, bind_ok (modify_run _ S), hblock, bind_ok (lift_ok _ _), bind_ok (modify_run _ _), hrun]
    · rw [drain_block S (by rw [hlen]; exact hgt), ← hdrain, hh, List.take_take, Nat.min_eq_left hgt.le, List.drop_take,
        List.drop_drop]
      rfl
  · have hle : inlen ≤ blake2sBlockbytes := Nat.not_lt.1 hgt
    rw [if_neg hgt]
    exact ⟨S, pos, inlen, rfl, rfl, hle, .refl S, rfl, rfl, n, h, S.hasher.drain_of_le (by rw [hlen]; exact hle)⟩

/-- the bytes held back, followed by new ones that fill the buffer -/
theorem Represents.filled {S : State} {s : Pending U8 (Vector U32 8)} (h : Represents S s) {bytes : List U8}
    (hlen : S.buflen + bytes.length = blake2sBlockbytes) :
    store S.buf S.buflen bytes = .ok (s.held ++ bytes) ∧ (s.held ++ bytes).length = blake2sBlockbytes := by
  refine ⟨?_, by rw [List.length_append, ← h.buflen, hlen]⟩
  rw [store_ok (by rw [hlen, h.buf_length]), splice, h.held, hlen, ← h.buf_length, List.drop_length, List.append_nil]

/-- the state after the buffer was filled up to `block` and hashed -/
def State.flush (S : State) (block : List U8) : State :=
  blake2sCompress (blake2sIncrementCounter { S with buflen := 0, buf := block } (BitVec.ofNat 32 blake2sBlockbytes)) block

theorem flush_counts {S : State} {n : ℕ} (h : Counts S n) (block : List U8) :
    Counts (S.flush block) (n + blake2sBlockbytes) ∧
      (S.flush block).h = S.hasher.step S.h (n + blake2sBlockbytes) block :=
  block_run (S := { S with buflen := 0, buf := block }) ⟨h.t0, h.t1⟩ block

/-- input that does not fit into the buffer fills it, and the loop takes the rest -/
theorem fillBuffer_flush {pin : List U8} {S : State} {s : Pending U8 (Vector U32 8)} {inlen : ℕ} (h : Represents S s)
    (hin : inlen ≤ pin.length) (hgt : inlen > blake2sBlockbytes - S.buflen) :
    blake2sFillBuffer pin inlen S = blake2sUpdateLoop pin (blake2sBlockbytes - S.buflen)
      (inlen - (blake2sBlockbytes - S.buflen)) (S.flush (s.held ++ pin.take (blake2sBlockbytes - S.buflen))) := by
  have hle := h.held_le
  have hbuflen := h.buflen
  have hfill := load_front (m := pin) (n := blake2sBlockbytes - S.buflen) (by omega)
  have hsum : S.buflen + (pin.take (blake2sBlockbytes - S.buflen)).length = blake2sBlockbytes := by
    rw [List.length_take_of_le (by omega)]
    omega
  obtain ⟨hstore, hlen⟩ := h.filled hsum
  rw [blake2sFillBuffer, bind_ok (get_run S), if_pos hgt, bind_ok (modify_run _ S), hfill, bind_ok (lift_ok _ _),
    bind_ok (get_run _), hstore, bind_ok (lift_ok _ _), bind_ok (modify_run _ _), bind_ok (modify_run _ _), load_all hlen,
    bind_ok (lift_ok _ _), bind_ok (modify_run _ _)]
  rfl

/-- pushing input that does not fit into the buffer hashes the buffer filled up with it -/
theorem push_flush {pin : List U8} {S : State} {s : Pending U8 (Vector U32 8)} {inlen : ℕ} (h : Represents S s)
    (hin : inlen ≤ pin.length) (hgt : inlen > blake2sBlockbytes - S.buflen) :
    S.hasher.push s (pin.take inlen) =
      S.hasher.drain ⟨(S.flush (s.held ++ pin.take (blake2sBlockbytes - S.buflen))).h, s.count + blake2sBlockbytes,
        (pin.drop (blake2sBlockbytes - S.buflen)).take (inlen - (blake2sBlockbytes - S.buflen))⟩ := by
  have hle := h.held_le
  have hbuflen := h.buflen
  have hheld : blake2sBlockbytes < (s.held ++ pin.take inlen).length := by
    rw [List.length_append, List.length_take_of_le hin]
    omega
  have htake : (s.held ++ pin.take inlen).take blake2sBlockbytes =
      s.held ++ pin.take (blake2sBlockbytes - S.buflen) := by
    rw [List.take_append, List.take_of_length_le hle, List.take_take, hbuflen, Nat.min_eq_left (by omega)]
  have hdrop : (s.held ++ pin.take inlen).drop blake2sBlockbytes =
      (pin.drop (blake2sBlockbytes - S.buflen)).take (inlen - (blake2sBlockbytes - S.buflen)) := by
    rw [List.drop_append, List.drop_eq_nil_of_le hle, List.nil_append, List.drop_take, hbuflen]
  rw [push, Pending.append, ← h.chain, drain_block S hheld, htake, hdrop, (flush_counts h.counts _).2]

/-- after filling and emptying the buffer as often as the input allows, the rest of the input fits into it -/
theorem fillBuffer_run {pin : List U8} {S : State} {s : Pending U8 (Vector U32 8)} {inlen : ℕ} (h : Represents S s)
    (hin : inlen ≤ pin.length) :
    ∃ S' pos inlen', blake2sFillBuffer pin inlen S = .ok (pos, inlen') S' ∧ pos + inlen' = inlen ∧ SameTail S S' ∧
      S'.buf.length = blake2sBlockbytes ∧ S'.buflen + inlen' ≤ blake2sBlockbytes ∧ ∃ n', Counts S' n' ∧
        S.hasher.push s (pin.take inlen) = ⟨S'.h, n', S'.buf.take S'.buflen ++ (pin.drop pos).take inlen'⟩ := by
  have hle := h.held_le
  have hbuflen := h.buflen
  by_cases hgt : inlen > blake2sBlockbytes - S.buflen
  · obtain ⟨hcounts, -⟩ := flush_counts h.counts (s.held ++ pin.take (blake2sBlockbytes - S.buflen))
    obtain ⟨S', pos, inlen', hrun, hsum, hle', htail, hbuf, hbuflen', n', hn', hdrain⟩ :=
      updateLoop_run hcounts
        (show blake2sBlockbytes - S.buflen + (inlen - (blake2sBlockbytes - S.buflen)) ≤ pin.length by omega)
    have hempty : S'.buflen = 0 := hbuflen'
    refine ⟨S', pos, inlen', (fillBuffer_flush h hin hgt).trans hrun, by omega,
      ⟨htail.f0, htail.f1, htail.outlen, htail.lastNode⟩, ?_, by omega, n', hn', ?_⟩
    · rw [hbuf]
      show (s.held ++ pin.take (blake2sBlockbytes - S.buflen)).length = blake2sBlockbytes
      rw [List.length_append, List.length_take_of_le (by omega)]
      omega
    · rw [push_flush h hin hgt, hempty, List.take_zero, List.nil_append, ← hdrain]
      rfl
  · have hfit : (s.append (pin.take inlen)).held.length ≤ blake2sBlockbytes := by
      rw [Pending.append, List.length_append, List.length_take_of_le hin]
      omega
    refine ⟨S, 0, inlen, ?_, Nat.zero_add _, .refl S, h.buf_length, by omega, s.count, h.counts, ?_⟩
    · rw [blake2sFillBuffer, bind_ok (get_run S), if_neg hgt]
      rfl
    · rw [push, S.hasher.drain_of_le hfit, Pending.append, h.held, h.chain]
      rfl

/-- **Update.** The bytes are pushed; nothing outside the buffer or the input is touched. -/
theorem blake2sUpdate_run {pin : List U8} {S : State} {s : Pending U8 (Vector U32 8)} {inlen : ℕ} (h : Represents S s)
    (hin : inlen ≤ pin.length) :
    ∃ S', blake2sUpdate pin inlen S = .ok () S' ∧ SameTail S S' ∧ Represents S' (S.hasher.push s (pin.take inlen)) := by
  rw [blake2sUpdate]
  by_cases h0 : inlen > 0
  · obtain ⟨S', pos, n, hrun, hsum, htail, hbuf, hroom, n', hn', hpush⟩ := fillBuffer_run h hin
    have hload : load pin pos n = .ok ((pin.drop pos).take n) := load_ok (by omega)
    have hlen : ((pin.drop pos).take n).length = n := by
      rw [List.length_take, List.length_drop]
      omega
    have hstore : store S'.buf S'.buflen ((pin.drop pos).take n) =
        .ok (splice S'.buf S'.buflen ((pin.drop pos).take n)) := store_ok (by rw [hlen, hbuf]; exact hroom)
    refine ⟨{ S' with buf := splice S'.buf S'.buflen ((pin.drop pos).take n), buflen := S'.buflen + n }, ?_, ?_, ?_⟩
    · rw [if_pos h0, bind_ok hrun]
      dsimp only
      rw [hload, bind_ok (lift_ok _ _), bind_ok (get_run _), hstore, bind_ok (lift_ok _ _), set_run]
    · exact ⟨htail.f0, htail.f1, htail.outlen, htail.lastNode⟩
    · have hfront : (S'.buf.take S'.buflen).length = S'.buflen := List.length_take_of_le (by omega)
      rw [hpush]
      refine ⟨rfl, ⟨hn'.t0, hn'.t1⟩, ?_, ?_, ?_, ?_⟩
      · exact (splice_length (by rw [hlen, hbuf]; exact hroom)).trans hbuf
      · rw [List.length_append, hfront, hlen]
      · have hend : (S'.buf.take S'.buflen ++ (pin.drop pos).take n).length = S'.buflen + n := by
          rw [List.length_append, hfront, hlen]
        rw [splice, List.take_left' hend]
      · rw [List.length_append, hfront, hlen]
        exact hroom
  · obtain rfl := Nat.eq_zero_of_not_pos h0
    rw [if_neg h0, List.take_zero, S.hasher.push_nil h.held_le]
    exact ⟨S, rfl, .refl S, h⟩

/-! ## Final -/

/-- the state after the padded block was hashed as the last one -/
def State.sealed (S : State) (block : List U8) : State :=
  blake2sCompress
    { blake2sSetLastblock (blake2sIncrementCounter S (BitVec.ofNat 32 S.buflen)) with buf := block } block

theorem setLastblock_eq (S : State) :
    blake2sSetLastblock S = { S with f0 := -1, f1 := if S.lastNode ≠ 0 then -1 else S.f1 } := by
  unfold blake2sSetLastblock blake2sSetLastnode
  by_cases h : S.lastNode ≠ 0
  · rw [if_pos h, if_pos h]
  · rw [if_neg h, if_neg h]

theorem Represents.padded {S : State} {s : Pending U8 (Vector U32 8)} (h : Represents S s) :
    store S.buf S.buflen (List.replicate (blake2sBlockbytes - S.buflen) 0) = .ok (pad s.held) ∧
      (pad s.held).length = blake2sBlockbytes := by
  have hle := h.held_le
  have hbuflen := h.buflen
  rw [pad, ← hbuflen]
  exact h.filled (by rw [List.length_replicate]; omega)

/-- the last block: the counter and the block are complete, and the flags are set -/
theorem sealed_spec {S : State} {s : Pending U8 (Vector U32 8)} (h : Represents S s) :
    (S.sealed (pad s.held)).h = S.hasher.finish s ∧ (S.sealed (pad s.held)).f0 = -1 ∧
      (S.sealed (pad s.held)).outlen = S.outlen ∧ ∃ s', Represents (S.sealed (pad s.held)) s' := by
  have hle := h.held_le
  have hcounts := h.counts.increment (k := S.buflen) (by rw [h.buflen]; exact lt_of_le_of_lt hle (by decide))
  have hc : Counts { blake2sSetLastblock (blake2sIncrementCounter S (BitVec.ofNat 32 S.buflen)) with buf := pad s.held }
      (s.count + S.buflen) := by
    rw [setLastblock_eq]
    exact ⟨hcounts.t0, hcounts.t1⟩
  have hh := compress_h hc (pad s.held)
  rw [setLastblock_eq] at hh hc
  rw [State.sealed, setLastblock_eq]
  refine ⟨?_, rfl, rfl, ⟨_, s.count + S.buflen, s.held⟩, rfl, ⟨hc.t0, hc.t1⟩, h.padded.2, h.buflen, ?_, hle⟩
  · rw [hh, finish, h.buflen, ← h.chain]
    rfl
  · show (pad s.held).take S.buflen = s.held
    rw [pad, h.buflen, List.take_left' rfl]

/-- **Final.** The stream ends with its hash, of which `outlen` bytes are copied: more than 32 are read past the end of
the local buffer. -/
theorem blake2sFinal_run {S : State} {s : Pending U8 (Vector U32 8)} (h : Represents S s) {outlen : ℕ}
    (hlen : S.outlen ≤ outlen) (h0 : S.f0 = 0) :
    blake2sFinal outlen S = if outlen ≤ blake2sOutbytes
      then .ok ((hashBytes (S.hasher.finish s)).take outlen) (S.sealed (pad s.held))
      else .error (.fault .outOfBounds) (S.sealed (pad s.held)) := by
  obtain ⟨hstore, hpad⟩ := h.padded
  have hlast : ¬blake2sIsLastblock S := not_not_intro h0
  have hrun : blake2sFinal outlen S =
      (lift (load (hashBytes (S.sealed (pad s.held)).h) 0 outlen) : Call Failed State (List U8)) (S.sealed (pad s.held)) := by
    rw [blake2sFinal, bind_ok (get_run S), if_neg (Nat.not_lt.2 hlen), if_neg hlast, bind_ok (modify_run _ S),
      bind_ok (modify_run _ _), hstore, bind_ok (lift_ok _ _), bind_ok (modify_run _ _), load_all hpad,
      bind_ok (lift_ok _ _), bind_ok (modify_run _ _), bind_ok (get_run _)]
    rfl
  rw [hrun, (sealed_spec h).1]
  by_cases hout : outlen ≤ blake2sOutbytes
  · rw [if_pos hout, load_front (by rw [hashBytes_length]; exact hout), lift_ok]
  · have hload : load (hashBytes (S.hasher.finish s)) 0 outlen = .error .outOfBounds := by
      rw [load, Nat.zero_add, hashBytes_length, if_neg hout]
    rw [if_neg hout, hload, lift_error]

/-- a final for too short an output, or after another final, changes nothing -/
theorem blake2sFinal_fails {S : State} {outlen : ℕ} (h : outlen < S.outlen ∨ S.f0 ≠ 0) :
    blake2sFinal outlen S = .error (.code .failed) S := by
  rw [blake2sFinal, bind_ok (get_run S)]
  by_cases hlen : outlen < S.outlen
  · rw [if_pos hlen, fail_run]
  · have hlast : blake2sIsLastblock S := h.resolve_left hlen
    rw [if_neg hlen, if_pos hlast, fail_run]

/-! ## Initialization -/

theorem initParam_represents (P : Param) : Represents (blake2sInitParam P) (start (blake2sInitParam P).h) := by
  have ht1 : (0 : U32) = BitVec.ofNat 32 (0 / 2 ^ 32) := by decide
  exact ⟨rfl, ⟨rfl, ht1⟩, rfl, rfl, rfl, Nat.zero_le _⟩

theorem blake2sInit_run {outlen : ℕ} (h0 : outlen ≠ 0) (hle : outlen ≤ blake2sOutbytes) (S : State) :
    blake2sInit outlen S = .ok () (blake2sInitParam (sequentialParam outlen 0)) := by
  rw [blake2sInit, if_neg (by omega), set_run]
  rfl

theorem keyBlock_ok {key : List U8} (h : key.length ≤ blake2sKeybytes) :
    keyBlock key key.length = .ok (pad key) ∧ (pad key).length = blake2sBlockbytes := by
  have h64 : key.length ≤ blake2sBlockbytes := h.trans (by decide)
  constructor
  · rw [keyBlock, load_all rfl]
    show store (List.replicate blake2sBlockbytes 0) 0 key = _
    rw [store_ok (by rw [List.length_replicate]; omega), splice, List.take_zero, List.nil_append, Nat.zero_add,
      List.drop_replicate, pad]
  · rw [pad, List.length_append, List.length_replicate]
    omega

/-- a keyed state starts with the block of the key -/
theorem blake2sInitKey_run {outlen : ℕ} (h0 : outlen ≠ 0) (hle : outlen ≤ blake2sOutbytes) {key : List U8}
    (hk0 : key ≠ []) (hk : key.length ≤ blake2sKeybytes) (S : State) :
    ∃ S', blake2sInitKey outlen (some key) key.length S = .ok () S' ∧
      SameTail (blake2sInitParam (sequentialParam outlen key.length)) S' ∧
        Represents S' ((hasher 0 0 0).push (start (sequentialStart outlen key.length)) (pad key)) := by
  obtain ⟨hblock, hlen⟩ := keyBlock_ok hk
  have hkl : key.length ≠ 0 := fun h => hk0 (List.length_eq_zero_iff.1 h)
  obtain ⟨S', hrun, htail, hrep⟩ :=
    blake2sUpdate_run (initParam_represents (sequentialParam outlen key.length)) (hlen.ge)
  rw [List.take_of_length_le hlen.le] at hrep
  refine ⟨S', ?_, htail, hrep⟩
  rw [blake2sInitKey, if_neg (by omega), if_neg (by omega), bind_ok (set_run _ _), hblock, bind_ok (lift_ok _ _)]
  exact hrun

end LongFi.Blake2sRef
