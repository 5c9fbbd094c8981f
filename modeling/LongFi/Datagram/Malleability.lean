/-
How many byte strings stand for one datagram.

A header value is read from every word near its codeword, and from the words near none when `dec_hdr_bits` happens to hold
it. The parser ignores a header bit, and the flag bits that the type does not know. An integer has longer forms than the
written one. All of these are free choices, so their numbers multiply.

- `card_headed`: how many header words are read as one of given values.
- `parsed_count`: how many byte strings the parser accepts as a given message.
-/
import LongFi.Core.Spellings
import LongFi.Datagram.Headers
import LongFi.Golay.Coverage

namespace LongFi

open LongFi.Core Finset

/-! ## Fields -/

/-- one form of each length up to 4, and 16 of length 5 -/
theorem card_varint (v : U32) : (varint.spellings v).encard = (21 - Base128.groups v.toNat : ℕ) := by
  have hgroups : Base128.groups v.toNat ≤ 5 := Base128.groups_le (by norm_num) (v.isLt.trans (by norm_num))
  have hcard := Base128.card_word (k := 4) (j := 4) (by norm_num) (by norm_num) (by norm_num) v
  refine hcard.trans ?_
  norm_cast
  omega

/-- the fingerprint has one form -/
theorem card_le32 (v : U32) : (le32.spellings v).encard = 1 := by
  refine Codec.card_of_unique fun c hc => ?_
  have hd : le32.decode c = some (v, []) := hc
  simp only [le32] at hd
  split_ifs at hd with hlen
  obtain ⟨hv, hnil⟩ := Prod.mk.inj (Option.some.inj hd)
  have h4 : c.length = 4 := le_antisymm (List.drop_eq_nil_iff.1 hnil) hlen
  rw [List.take_of_length_le h4.le] at hv
  exact unpackLeU32_inj h4 rfl (hv.trans (unpackLeU32_packLeU32 v).symm)

/-- the forms of the fields with these numbers -/
def formCount (oui did : U32) (nums : List U32) : ℕ :=
  (21 - Base128.groups oui.toNat) * ((21 - Base128.groups did.toNat) * (nums.map fun n => 21 - Base128.groups n.toNat).prod)

theorem card_fields {n : ℕ} (f : Fields n) : ((fields n).spellings f).encard = formCount f.oui f.did f.nums.1 := by
  have hnums : (f.nums.1.map fun v => (varint.spellings v).encard).prod =
      ((f.nums.1.map fun v => 21 - Base128.groups v.toNat).prod : ℕ) := by
    simp only [card_varint]
    rw [Nat.cast_list_prod, List.map_map]
    rfl
  rw [fields, Codec.spellings_iso, Codec.card_seq, Codec.card_seq, Codec.card_seq, Codec.card_rep, card_le32, one_mul]
  show (varint.spellings f.oui).encard * ((varint.spellings f.did).encard *
    (f.nums.1.map fun v => (varint.spellings v).encard).prod) = _
  rw [hnums, card_varint, card_varint, formCount, Nat.cast_mul, Nat.cast_mul]

/-! ## Header words -/

theorem hdrBytes_golayInput {h : List U8} (hlen : h.length = 3) : hdrBytes (golayInput h) = h := by
  obtain ⟨a, b, c, rfl⟩ := List.length_eq_three.1 hlen
  have hbits := fun j (hj : j < 32) => golayInput_getLsbD a b c hj
  simp only [hdrBytes, List.cons.injEq, and_true]
  refine ⟨?_, ?_, ?_⟩ <;> apply BitVec.eq_of_getLsbD_eq <;> intro j hj <;> rw [BitVec.getLsbD_extractLsb'] <;>
    simp only [hj, decide_true, Bool.true_and] <;> rw [hbits _ (by omega)]
  · rw [if_pos (by omega), Nat.zero_add]
  · rw [if_neg (by omega), if_pos (by omega), Nat.add_sub_cancel_left]
  · rw [if_neg (by omega), if_neg (by omega), Nat.add_sub_cancel_left]

/-- three bytes are a word of 24 bits -/
theorem card_bytes (P : U32 → Prop) [DecidablePred P] :
    {h : List U8 | h.length = 3 ∧ P (golayInput h)}.encard = (univ.filter fun w : BitVec 24 => P (w.setWidth 32)).card := by
  have himage : {h : List U8 | h.length = 3 ∧ P (golayInput h)} =
      (fun w : BitVec 24 => hdrBytes (w.setWidth 32)) '' (univ.filter fun w : BitVec 24 => P (w.setWidth 32) : Finset _) := by
    ext h
    constructor
    · rintro ⟨hlen, hP⟩
      have hw : ((golayInput h).setWidth 24).setWidth 32 = golayInput h := by
        apply BitVec.eq_of_toNat_eq
        rw [BitVec.toNat_setWidth, BitVec.toNat_setWidth, Nat.mod_eq_of_lt (golayInput_lt h),
          Nat.mod_eq_of_lt (golayInput h).isLt]
      refine ⟨(golayInput h).setWidth 24, ?_, ?_⟩
      · rw [mem_coe, mem_filter, hw]
        exact ⟨mem_univ _, hP⟩
      · dsimp only
        rw [hw, hdrBytes_golayInput hlen]
    · rintro ⟨w, hw, rfl⟩
      refine ⟨rfl, ?_⟩
      dsimp only
      rw [golayInput_hdrBytes (setWidth_lt w)]
      exact (mem_filter.1 (mem_coe.1 hw)).2
  have hinj : Function.Injective fun w : BitVec 24 => hdrBytes (w.setWidth 32) := by
    intro w v h
    have hinput := congrArg golayInput h
    dsimp only at hinput
    rw [golayInput_hdrBytes (setWidth_lt w), golayInput_hdrBytes (setWidth_lt v)] at hinput
    exact word_inj hinput
  rw [himage, hinj.injOn.encard_image, Set.encard_coe_eq_coe_finsetCard]

/-- three bytes that are read as a header value with P -/
def headed (junk : U16) (P : U16 → Prop) : Set (List U8) := {h | h.length = 3 ∧ ∃ v, Header junk h v ∧ P v}

/-- the header values with P -/
def hdrValues (P : U16 → Prop) [DecidablePred P] : Finset U16 := univ.filter fun v => v.toNat < 2 ^ 12 ∧ P v

section

variable (P : U16 → Prop) [DecidablePred P]

/-- the words near the codeword of a value with P -/
theorem card_near_values : (univ.filter fun w : BitVec 24 => ∃ v ∈ hdrValues P, weight (w.setWidth 32 ^^^ codeword v) ≤ 3).card =
    2325 * (hdrValues P).card := by
  have hunion : (univ.filter fun w : BitVec 24 => ∃ v ∈ hdrValues P, weight (w.setWidth 32 ^^^ codeword v) ≤ 3) =
      (hdrValues P).biUnion fun v => univ.filter fun w : BitVec 24 => weight (w.setWidth 32 ^^^ codeword v) ≤ 3 := by
    ext w
    simp only [mem_filter, mem_univ, true_and, mem_biUnion]
  have hdisj : ∀ v ∈ hdrValues P, ∀ v' ∈ hdrValues P, v ≠ v' →
      Disjoint (univ.filter fun w : BitVec 24 => weight (w.setWidth 32 ^^^ codeword v) ≤ 3)
        (univ.filter fun w : BitVec 24 => weight (w.setWidth 32 ^^^ codeword v') ≤ 3) := by
    intro v hv v' hv' hne
    rw [disjoint_left]
    intro w hw hw'
    have hnear {m : U16} (hm : m ∈ hdrValues P) (hclose : weight (w.setWidth 32 ^^^ codeword m) ≤ 3) :
        Near (hdrBytes (w.setWidth 32)) m :=
      ⟨le_rfl, (mem_filter.1 hm).2.1, by rw [golayInput_hdrBytes (setWidth_lt w)]; exact hclose⟩
    exact hne ((hnear hv (mem_filter.1 hw).2).unique (hnear hv' (mem_filter.1 hw').2))
  rw [hunion, card_biUnion hdisj, sum_congr rfl fun v _ => card_near_words v, sum_const, smul_eq_mul, Nat.mul_comm]

theorem near_words : {h : List U8 | h.length = 3 ∧ ∃ v, Near h v ∧ P v} =
    {h : List U8 | h.length = 3 ∧ ∃ v ∈ hdrValues P, weight (golayInput h ^^^ codeword v) ≤ 3} := by
  ext h
  constructor
  · rintro ⟨hlen, v, hv, hP⟩
    exact ⟨hlen, v, mem_filter.2 ⟨mem_univ _, hv.value, hP⟩, hv.close⟩
  · rintro ⟨hlen, v, hv, hclose⟩
    obtain ⟨-, hlt, hP⟩ := mem_filter.1 hv
    exact ⟨hlen, v, ⟨hlen.ge, hlt, hclose⟩, hP⟩

/-- the words far from every codeword -/
theorem card_far : {h : List U8 | h.length = 3 ∧ Uncorrectable h}.encard = (7254016 : ℕ) := by
  have hset : {h : List U8 | h.length = 3 ∧ Uncorrectable h} =
      {h : List U8 | h.length = 3 ∧ ∀ v : U16, v.toNat < 2 ^ 12 → 4 ≤ weight (golayInput h ^^^ codeword v)} := by
    ext h
    exact ⟨fun hh => ⟨hh.1, hh.2.far⟩, fun hh => ⟨hh.1, hh.1.ge, hh.2⟩⟩
  rw [hset, card_bytes fun r => ∀ v : U16, v.toNat < 2 ^ 12 → 4 ≤ weight (r ^^^ codeword v),
    filter_congr fun w _ => far_iff w, card_deep_words]

/-- **Header words.** Each value is had by 2325 words near its codeword, and the old content of `dec_hdr_bits` by the
7254016 others too. -/
theorem card_headed (junk : U16) :
    (headed junk P).encard = (2325 * (hdrValues P).card + if P junk then 7254016 else 0 : ℕ) := by
  have hnear : {h : List U8 | h.length = 3 ∧ ∃ v, Near h v ∧ P v}.encard = (2325 * (hdrValues P).card : ℕ) := by
    rw [near_words, card_bytes fun r => ∃ v ∈ hdrValues P, weight (r ^^^ codeword v) ≤ 3, card_near_values]
  by_cases hjunk : P junk
  · have hsplit : headed junk P = {h | h.length = 3 ∧ ∃ v, Near h v ∧ P v} ∪ {h | h.length = 3 ∧ Uncorrectable h} := by
      ext h
      constructor
      · rintro ⟨hlen, v, hv | ⟨hu, -⟩, hP⟩
        · exact Or.inl ⟨hlen, v, hv, hP⟩
        · exact Or.inr ⟨hlen, hu⟩
      · rintro (⟨hlen, v, hv, hP⟩ | ⟨hlen, hu⟩)
        · exact ⟨hlen, v, Or.inl hv, hP⟩
        · exact ⟨hlen, junk, Or.inr ⟨hu, rfl⟩, hjunk⟩
    have hdisj : Disjoint {h : List U8 | h.length = 3 ∧ ∃ v, Near h v ∧ P v} {h | h.length = 3 ∧ Uncorrectable h} := by
      rw [Set.disjoint_left]
      rintro h ⟨-, v, hv, -⟩ ⟨-, hu⟩
      have hfar := hu.far v hv.value
      have hclose := hv.close
      omega
    rw [hsplit, Set.encard_union_eq hdisj, hnear, card_far, if_pos hjunk, Nat.cast_add]
  · have hsame : headed junk P = {h | h.length = 3 ∧ ∃ v, Near h v ∧ P v} := by
      ext h
      constructor
      · rintro ⟨hlen, v, hv | ⟨-, rfl⟩, hP⟩
        · exact ⟨hlen, v, hv, hP⟩
        · exact absurd hP hjunk
      · rintro ⟨hlen, v, hv, hP⟩
        exact ⟨hlen, v, Or.inl hv, hP⟩
    rw [hsame, hnear, if_neg hjunk, Nat.add_zero]

end

/-! ## Header values -/

theorem hdrFlags_eq (v : U16) : hdrFlags v = BitVec.ofNat 8 (v.toNat % 64) := by
  have h63 : (0x3F : U16).toNat = 2 ^ 6 - 1 := rfl
  rw [hdrFlags]
  apply BitVec.eq_of_toNat_eq
  rw [BitVec.toNat_setWidth, BitVec.toNat_and, h63, Nat.and_two_pow_sub_one_eq_mod, BitVec.toNat_ofNat]

/-- the type is read from five bits -/
theorem hdrType_iff (v : U16) (t : LfcDgType) : hdrType v = some t ↔ v.toNat / 64 % 32 = t.val.toNat := by
  have hall : ∀ n < 32, ∀ t ∈ [LfcDgType.monolithic, .frameStart, .frameData, .ack],
      typeOf (BitVec.ofNat 8 n) = some t ↔ n = t.val.toNat := by decide +kernel
  have h31 : (0x1F : U16).toNat = 2 ^ 5 - 1 := rfl
  have hbits : (v >>> 6 &&& 0x1F).setWidth 8 = BitVec.ofNat 8 (v.toNat / 64 % 32) := by
    apply BitVec.eq_of_toNat_eq
    rw [BitVec.toNat_setWidth, BitVec.toNat_and, BitVec.toNat_ushiftRight, Nat.shiftRight_eq_div_pow, h31,
      Nat.and_two_pow_sub_one_eq_mod, BitVec.toNat_ofNat]
  rw [hdrType, hbits]
  exact hall _ (Nat.mod_lt _ (by norm_num)) t (by cases t <;> decide)

theorem type_val_lt (t : LfcDgType) : t.val.toNat < 32 := by cases t <;> decide

/-- a header value is a bit that is not read, the type, and the flag bits -/
theorem card_hdrValues (t : LfcDgType) (Q : U8 → Prop) [DecidablePred Q] :
    (hdrValues fun v => hdrExtended v = false ∧ hdrType v = some t ∧ Q (hdrFlags v)).card =
      2 * ((range 64).filter fun g => Q (BitVec.ofNat 8 g)).card := by
  have ht := type_val_lt t
  rw [← card_range 2, ← card_product]
  refine card_nbij' (fun v => (v.toNat / 2048, v.toNat % 64))
    (fun p => BitVec.ofNat 16 (2048 * p.1 + (64 * t.val.toNat + p.2))) ?_ ?_ ?_ ?_
  · intro v hv
    obtain ⟨-, hlt, -, -, hQ⟩ := mem_filter.1 hv
    rw [hdrFlags_eq] at hQ
    refine mem_product.2 ⟨mem_range.2 ?_, mem_filter.2 ⟨mem_range.2 (Nat.mod_lt _ (by norm_num)), hQ⟩⟩
    exact Nat.div_lt_of_lt_mul hlt
  · rintro ⟨b, g⟩ hp
    obtain ⟨hb, hg⟩ := mem_product.1 hp
    obtain ⟨hg, hQ⟩ := mem_filter.1 hg
    have hb := mem_range.1 hb
    have hg := mem_range.1 hg
    dsimp only at hb hg hQ
    have hnat : (BitVec.ofNat 16 (2048 * b + (64 * t.val.toNat + g))).toNat = 2048 * b + (64 * t.val.toNat + g) := by
      rw [BitVec.toNat_ofNat]
      omega
    have hlt : (BitVec.ofNat 16 (2048 * b + (64 * t.val.toNat + g))).toNat < 2 ^ 12 := by omega
    refine mem_filter.2 ⟨mem_univ _, hlt, hdrExtended_of_lt hlt, (hdrType_iff _ t).2 ?_, ?_⟩
    · dsimp only
      omega
    · rw [hdrFlags_eq, hnat, show (2048 * b + (64 * t.val.toNat + g)) % 64 = g by omega]
      exact hQ
  · intro v hv
    obtain ⟨-, hlt, -, htype, -⟩ := mem_filter.1 hv
    have htype := (hdrType_iff v t).1 htype
    apply BitVec.eq_of_toNat_eq
    rw [BitVec.toNat_ofNat]
    dsimp only
    omega
  · rintro ⟨b, g⟩ hp
    obtain ⟨hb, hg⟩ := mem_product.1 hp
    have hb := mem_range.1 hb
    have hg := mem_range.1 (mem_filter.1 hg).1
    dsimp only at hb hg ⊢
    rw [BitVec.toNat_ofNat]
    refine Prod.ext ?_ ?_ <;> dsimp only <;> omega

theorem card_flags (t : LfcDgType) {f : U8} (hf : f &&& t.mask = f) :
    ((range 64).filter fun g => BitVec.ofNat 8 g &&& t.mask = f).card = if t = .frameData then 32 else 2 := by
  have hall : ∀ t ∈ [LfcDgType.monolithic, .frameStart, .frameData, .ack], ∀ f : U8, f &&& t.mask = f →
      ((range 64).filter fun g => BitVec.ofNat 8 g &&& t.mask = f).card = if t = .frameData then 32 else 2 := by
    decide +kernel
  exact hall t (by cases t <;> decide) f hf

/-! ## Framing -/

/-- a header word that is read as a value with P, and a body in S -/
def framed (junk : U16) (P : U16 → Prop) (S : Set (List U8)) : Set (List U8) :=
  {x | ∃ v, Header junk x v ∧ P v ∧ x.drop 3 ∈ S}

/-- only the first three bytes matter to the header -/
theorem Header.append {junk v : U16} {h : List U8} (hlen : h.length = 3) (b : List U8) :
    Header junk (h ++ b) v ↔ Header junk h v := by
  have hinput : golayInput (h ++ b) = golayInput h := by
    rw [← golayInput_take (h ++ b), List.take_left' hlen]
  have hlong : 3 ≤ (h ++ b).length := by
    rw [List.length_append]
    omega
  constructor
  · rintro (hn | ⟨hu, hv⟩)
    · exact Or.inl ⟨hlen.ge, hn.value, hinput ▸ hn.close⟩
    · exact Or.inr ⟨⟨hlen.ge, fun m hm => hinput ▸ hu.far m hm⟩, hv⟩
  · rintro (hn | ⟨hu, hv⟩)
    · exact Or.inl ⟨hlong, hn.value, hinput.symm ▸ hn.close⟩
    · exact Or.inr ⟨⟨hlong, fun m hm => hinput.symm ▸ hu.far m hm⟩, hv⟩

theorem framed_eq (junk : U16) (P : U16 → Prop) (S : Set (List U8)) :
    framed junk P S = (fun q : List U8 × List U8 => q.1 ++ q.2) '' (headed junk P ×ˢ S) := by
  ext x
  constructor
  · rintro ⟨v, hv, hP, hS⟩
    have hlen : (x.take 3).length = 3 := List.length_take_of_le hv.long
    have hx : x.take 3 ++ x.drop 3 = x := List.take_append_drop 3 x
    have hhdr : Header junk (x.take 3) v := (Header.append hlen (x.drop 3)).1 (hx.symm ▸ hv)
    exact ⟨(x.take 3, x.drop 3), ⟨⟨hlen, v, hhdr, hP⟩, hS⟩, hx⟩
  · rintro ⟨⟨h, b⟩, ⟨⟨hlen, v, hv, hP⟩, hS⟩, rfl⟩
    refine ⟨v, (Header.append hlen b).2 hv, hP, ?_⟩
    rw [List.drop_left' hlen]
    exact hS

theorem card_framed (junk : U16) (P : U16 → Prop) (S : Set (List U8)) :
    (framed junk P S).encard = (headed junk P).encard * S.encard := by
  have hinj : Set.InjOn (fun q : List U8 × List U8 => q.1 ++ q.2) (headed junk P ×ˢ S) := by
    rintro ⟨h, b⟩ ⟨hh, -⟩ ⟨h', b'⟩ ⟨hh', -⟩ heq
    obtain ⟨rfl, rfl⟩ := List.append_inj heq (hh.1.trans hh'.1.symm)
    rfl
  rw [framed_eq, hinj.encard_image, Set.encard_prod]

/-! ## Messages -/

/-- the bodies with these fields and this payload -/
def bodies {n : ℕ} (f : Fields n) (pay : List U8) : Set (List U8) := (· ++ pay) '' (fields n).spellings f

theorem mem_bodies {n : ℕ} {f : Fields n} {pay b : List U8} : b ∈ bodies f pay ↔ (fields n).decode b = some (f, pay) := by
  rw [Codec.decode_iff]
  constructor
  · rintro ⟨c, hc, rfl⟩
    exact ⟨c, hc, rfl⟩
  · rintro ⟨c, hc, rfl⟩
    exact ⟨c, hc, rfl⟩

theorem card_bodies {n : ℕ} (f : Fields n) (pay : List U8) : (bodies f pay).encard = formCount f.oui f.did f.nums.1 := by
  rw [bodies, (List.append_left_injective pay).injOn.encard_image, card_fields]

/-- the header value is read as the type and the flags of m -/
def Msg.ReadFrom (m : Msg) (v : U16) : Prop :=
  hdrExtended v = false ∧ hdrType v = some m.type ∧ hdrFlags v &&& m.type.mask = m.flags

instance (m : Msg) : DecidablePred m.ReadFrom := fun _ => inferInstanceAs (Decidable (_ ∧ _ ∧ _))

theorem parse_iff {v : U16} {body : List U8} {m : Msg} :
    parse v body = .ok m ↔ m.ReadFrom v ∧ body ∈ bodies m.fields m.pay := by
  rw [parse_ok_iff, mem_bodies]
  constructor
  · rintro ⟨hext, t, f, pay, ht, hd, rfl⟩
    exact ⟨⟨hext, ht, rfl⟩, hd⟩
  · rintro ⟨⟨hext, ht, hflags⟩, hd⟩
    refine ⟨hext, m.type, m.fields, m.pay, ht, hd, ?_⟩
    have hmask : (Msg.ofFields m.type (hdrFlags v) m.fields m.pay) = Msg.ofFields m.type m.flags m.fields m.pay := by
      simp only [Msg.ofFields, hflags, m.flags_known]
    rw [hmask, m.ofFields_fields]

/-- the parser accepts x as m, and no payload array is overrun -/
def ParsesAs (B : Build) (junk : U16) (x : List U8) (out : LfcDgDes) (m : Msg) : Prop :=
  ∃ out', ParsesTo B junk x out out' ∧ out'.InBounds ∧ out'.dg.msg = m

theorem parsesAs_iff (B : Build) {junk : U16} {x : List U8} {out : LfcDgDes} (hout : out.InBounds) {m : Msg}
    (hpay : m.pay.length ≤ lfcDgConstantsMaxPayLen) :
    ParsesAs B junk x out m ↔ ∃ v, Header junk x v ∧ parse v (x.drop 3) = .ok m := by
  constructor
  · rintro ⟨out', ⟨c, hrun⟩, -, rfl⟩
    obtain ⟨v, m, hv, hm, rfl⟩ := lfcDgDes_stored hrun
    exact ⟨v, hv, by rw [hm, LfcDgDes.store_msg]⟩
  · rintro ⟨v, hv, hm⟩
    exact ⟨out.store m, ⟨_, lfcDgDes_accepts B hv out hm⟩, store_inBounds hout hpay, LfcDgDes.store_msg out m⟩

/-- the header values that are read as the type and the flags of a message -/
theorem Msg.card_readFrom (m : Msg) : (hdrValues m.ReadFrom).card = if m.type = .frameData then 64 else 4 := by
  have hcard := card_hdrValues m.type fun f => f &&& m.type.mask = m.flags
  rw [card_flags m.type m.flags_known] at hcard
  refine Eq.trans ?_ (hcard.trans ?_)
  · rfl
  · split_ifs <;> rfl

/-- **How many byte strings are parsed as m**: its header has 4 values, or 64 for the type that knows one flag, each had
by 2325 words; the words that are far from every codeword are read as m if `dec_hdr_bits` happened to hold one of its
values; and every integer of g bytes has 21 - g forms. -/
theorem parsed_count (B : Build) (junk : U16) {out : LfcDgDes} (hout : out.InBounds) {m : Msg}
    (hpay : m.pay.length ≤ lfcDgConstantsMaxPayLen) : {x | ParsesAs B junk x out m}.encard =
      ((2325 * (if m.type = .frameData then 64 else 4) + if m.ReadFrom junk then 7254016 else 0) *
        formCount m.oui m.did m.nums : ℕ) := by
  have hset : {x | ParsesAs B junk x out m} = framed junk m.ReadFrom (bodies m.fields m.pay) := by
    ext x
    refine (parsesAs_iff B hout hpay).trans ?_
    simp only [parse_iff]
    rfl
  have hbodies : (bodies m.fields m.pay).encard = formCount m.oui m.did m.nums := card_bodies m.fields m.pay
  rw [hset, card_framed, card_headed, m.card_readFrom, hbodies, Nat.cast_mul]

/-- an empty flag byte, no numbers above 127, and two payload bytes -/
theorem parsed_count_sample : {x | ParsesAs .debug 0 x .zero (zeroMsg 2)}.encard = (74400000 : ℕ) := by
  have hcount : (2325 * (if (zeroMsg 2).type = .frameData then 64 else 4) +
      if (zeroMsg 2).ReadFrom 0 then 7254016 else 0) *
        formCount (zeroMsg 2).oui (zeroMsg 2).did (zeroMsg 2).nums = 74400000 := by decide +kernel
  have hpay : (zeroMsg 2).pay.length ≤ lfcDgConstantsMaxPayLen := by decide
  rw [parsed_count .debug 0 LfcDgDes.zero_inBounds hpay, hcount]

end LongFi
