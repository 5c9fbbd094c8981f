/-
Parsing (`src/lfc_dg_des.c`).

A sub-parser works on the cursor and on the struct it fills; `Stores` lists its assignments. `lfcDgHdrDes` returns the
header it parsed: after a failure no caller reads it. Its variable `dec_hdr_bits` is not set before `golay_decode12`, which
leaves it alone when it fails, so its old content is an argument.

`Parses π p C put` says what p does to cursor and struct: where C decodes the bytes left it consumes them and applies
`put`, where it does not it fails with `lfc_res_err_nomem`; either way the part π of the struct stays as it was.
-/
import LongFi.Datagram.Message

namespace LongFi

open LongFi.Core

/-! ## lfc_dg_des.c -/

/-- the assignments of a sub-parser to `out` -/
structure Stores (D : Type) where
  flags : U8 → D → D
  oui : U32 → D → D
  did : U32 → D → D
  fp : U32 → D → D
  nums : List (U32 → D → D)
  pay : ℕ → List U8 → D → D

/-- p on the cursor, next to a struct -/
def onCursor {D α : Type} (p : Call LfcRes Cursor α) : Call LfcRes (Cursor × D) α := zoom Prod.fst (fun c s => (c, s.2)) p

/-- read a field with p and store it -/
def field {D α : Type} (p : Call LfcRes Cursor α) (store : α → D → D) : Call LfcRes (Cursor × D) Unit := do
  let v ← onCursor p
  modify fun s => (s.1, store v s.2)

/-- the variable-length fields -/
def fieldNums {D : Type} : List (U32 → D → D) → Call LfcRes (Cursor × D) Unit
  | [] => return
  | store :: stores => do
    field (csrRes cursorUnpackVarLeU32) store
    fieldNums stores

/-- the four `lfc_dg_*__des`, which differ in the struct and in the variable-length fields after `fp` -/
def dgDes {D : Type} (B : Build) (type : LfcDgType) (out : Stores D) (hdr : LfcDgHdr) :
    Call LfcRes (Cursor × D) Unit := do
  lift (check B (hdr.type = type))
  modify fun s => (s.1, out.flags hdr.flagBits s.2)
  field (csrRes cursorUnpackVarLeU32) out.oui
  field (csrRes cursorUnpackVarLeU32) out.did
  field (csrRes cursorUnpackLeU32) out.fp
  fieldNums out.nums
  field (cursorTakeRemaining B) fun v => out.pay v.1 v.2

def monolithicStores : Stores LfcDgMonolithic where
  flags v out := { out with flags := lfcDgMonolithicFlagsDes v }
  oui v out := { out with oui := v }
  did v out := { out with did := v }
  fp v out := { out with fp := v }
  nums := [fun v out => { out with seq := v }]
  pay n bytes out := { out with payLen := n, pay := out.pay.write bytes }

def lfcDgMonolithicDes (B : Build) : LfcDgHdr → Call LfcRes (Cursor × LfcDgMonolithic) Unit :=
  dgDes B .monolithic monolithicStores

def ackStores : Stores LfcDgAck where
  flags v out := { out with flags := lfcDgAckFlagsDes v }
  oui v out := { out with oui := v }
  did v out := { out with did := v }
  fp v out := { out with fp := v }
  nums := [fun v out => { out with seq := v }]
  pay n bytes out := { out with payLen := n, pay := out.pay.write bytes }

def lfcDgAckDes (B : Build) : LfcDgHdr → Call LfcRes (Cursor × LfcDgAck) Unit :=
  dgDes B .ack ackStores

def frameStartStores : Stores LfcDgFrameStart where
  flags v out := { out with flags := lfcDgFrameStartFlagsDes v }
  oui v out := { out with oui := v }
  did v out := { out with did := v }
  fp v out := { out with fp := v }
  nums := [fun v out => { out with seq := v }, fun v out => { out with fragments := v }]
  pay n bytes out := { out with payLen := n, pay := out.pay.write bytes }

def lfcDgFrameStartDes (B : Build) : LfcDgHdr → Call LfcRes (Cursor × LfcDgFrameStart) Unit :=
  dgDes B .frameStart frameStartStores

def frameDataStores : Stores LfcDgFrameData where
  flags v out := { out with flags := lfcDgFrameDataFlagsDes v }
  oui v out := { out with oui := v }
  did v out := { out with did := v }
  fp v out := { out with fp := v }
  nums := [fun v out => { out with fragment := v }]
  pay n bytes out := { out with payLen := n, pay := out.pay.write bytes }

def lfcDgFrameDataDes (B : Build) : LfcDgHdr → Call LfcRes (Cursor × LfcDgFrameData) Unit :=
  dgDes B .frameData frameDataStores

/-- `(enum lfc_dg_type)type_bits`, for the values that pass the check -/
def LfcDgType.cast (typeBits : U8) : LfcDgType :=
  match typeBits.toNat with
  | 1 => .monolithic
  | 2 => .frameStart
  | 3 => .frameData
  | _ => .ack

def lfcDgTypeDes {σ : Type} (typeBits : U8) : Call LfcRes σ LfcDgType :=
  if typeBits = 0 ∨ typeBits > 4 then fail .invalidType else return LfcDgType.cast typeBits

/-- `decHdrBits` is what the variable `dec_hdr_bits` holds before the call of `golay_decode12` -/
def lfcDgHdrDes (B : Build) (decHdrBits : U16) : Call LfcRes Cursor LfcDgHdr := do
  let encHdrBits ← csrRes (cursorTake 3)
  let (decBitErrs, decHdrBits) ← lift (golayDecode12 B encHdrBits decHdrBits)
  let dgExtendedBit := (decHdrBits >>> 12 &&& 1 = 1 : Bool)
  let dgTypeBits := (decHdrBits >>> 6 &&& 0x1F).setWidth 8
  let dgFlagsBits := (decHdrBits &&& 0x3F).setWidth 8
  if dgExtendedBit then
    fail .errException
  else
    let type ← lfcDgTypeDes dgTypeBits
    return { bitErrs := decBitErrs, flagBits := dgFlagsBits, type := type }

/-- a sub-parser on a member of the union -/
def unionMember {D : Type} (get : LfcDgDes → D) (put : D → LfcDgDes → LfcDgDes)
    (p : Call LfcRes (Cursor × D) Unit) : Call LfcRes (Cursor × LfcDgDes) Unit :=
  zoom (fun s => (s.1, get s.2)) (fun t s => (t.1, put t.2 s.2)) p

/-- the `switch` of `lfc_dg__des` -/
def lfcDgDesSwitch (B : Build) (hdr : LfcDgHdr) : Call LfcRes (Cursor × LfcDgDes) Unit :=
  match hdr.type with
  | .monolithic => unionMember LfcDgDes.monolithic (fun d out => { out with monolithic := d }) (lfcDgMonolithicDes B hdr)
  | .ack => unionMember LfcDgDes.ack (fun d out => { out with ack := d }) (lfcDgAckDes B hdr)
  | .frameStart => unionMember LfcDgDes.frameStart (fun d out => { out with frameStart := d }) (lfcDgFrameStartDes B hdr)
  | .frameData => unionMember LfcDgDes.frameData (fun d out => { out with frameData := d }) (lfcDgFrameDataDes B hdr)

/-- the last assertion, `res == lfc_res_ok`, holds: every other result has returned before it -/
def lfcDgDes (B : Build) (decHdrBits : U16) : Call LfcRes (Cursor × LfcDgDes) Unit := do
  let hdr ← onCursor (lfcDgHdrDes B decHdrBits)
  lfcDgDesSwitch B hdr
  modify fun s => (s.1, { s.2 with type := hdr.type })

/-! ## Reading into a struct -/

section Parses

variable {D γ α β : Type} {π : D → γ}

/-- p stores with `put` what C decodes, and fails where C does not decode; π is not touched -/
structure Parses (π : D → γ) (p : Call LfcRes (Cursor × D) Unit) (C : Codec U8 α) (put : α → D → D) : Prop where
  reads : ∀ {c : Cursor} {d : D} {a : α} {r : List U8}, c.Wf → C.decode c.rest = some (a, r) →
    p (c, d) = .ok () (c.skip (c.rest.length - r.length), put a d)
  fails : ∀ {c : Cursor} {d : D}, c.Wf → C.decode c.rest = none →
    ∃ n d', n ≤ c.rest.length ∧ π d' = π d ∧ p (c, d) = .error (.code .errNomem) (c.skip n, d')
  frame : ∀ a d, π (put a d) = π d

theorem unionMember_ok {get : LfcDgDes → D} {put : D → LfcDgDes → LfcDgDes} {p : Call LfcRes (Cursor × D) Unit}
    {c c' : Cursor} {out : LfcDgDes} {d : D} (h : p (c, get out) = .ok () (c', d)) :
    unionMember get put p (c, out) = .ok () (c', put d out) := by
  rw [unionMember, zoom, h]

theorem unionMember_error {get : LfcDgDes → D} {put : D → LfcDgDes → LfcDgDes} {p : Call LfcRes (Cursor × D) Unit}
    {c c' : Cursor} {out : LfcDgDes} {d : D} {x : Exit LfcRes} (h : p (c, get out) = .error x (c', d)) :
    unionMember get put p (c, out) = .error x (c', put d out) := by
  rw [unionMember, zoom, h]

theorem onCursor_ok {p : Call LfcRes Cursor α} {c c' : Cursor} {d : D} {a : α} (h : p c = .ok a c') :
    onCursor p (c, d) = .ok a (c', d) := zoom_ok h

theorem onCursor_error {p : Call LfcRes Cursor α} {c c' : Cursor} {d : D} {x : Exit LfcRes} (h : p c = .error x c') :
    onCursor p (c, d) = .error x (c', d) := zoom_error h

theorem field_ok {p : Call LfcRes Cursor α} {store : α → D → D} {c c' : Cursor} {d : D} {a : α}
    (h : p c = .ok a c') : field p store (c, d) = .ok () (c', store a d) := by
  rw [field, bind_ok (onCursor_ok h)]
  rfl

theorem field_error {p : Call LfcRes Cursor α} {store : α → D → D} {c c' : Cursor} {d : D} {x : Exit LfcRes}
    (h : p c = .error x c') : field p store (c, d) = .error x (c', d) := by
  rw [field, bind_error (onCursor_error h)]

theorem field_parses {p : Call CursorRes Cursor α} {C : Codec U8 α} (h : Reads p .errBufExhausted C)
    {store : α → D → D} (hπ : ∀ a d, π (store a d) = π d) : Parses π (field (csrRes p) store) C store where
  reads hc hd := field_ok (recode_ok (h.reads hc hd))
  fails := by
    intro c d hc hd
    obtain ⟨n, hn, hp⟩ := h.fails hc hd
    exact ⟨n, d, hn, rfl, field_error (recode_code hp)⟩
  frame := hπ

theorem Parses.bind {p q : Call LfcRes (Cursor × D) Unit} {C : Codec U8 α} {E : Codec U8 β} {put : α → D → D}
    {put' : β → D → D} (hp : Parses π p C put) (hq : Parses π q E put') :
    Parses π (do p; q) (C.seq E) fun a d => put' a.2 (put a.1 d) where
  reads := by
    intro c d a r hc hd
    obtain ⟨y, hC, hE⟩ := Codec.seq_decode_some.1 hd
    obtain ⟨hyl, hy⟩ := Cursor.skip_decoded C hC
    have hE' : E.decode (c.skip (c.rest.length - y.length)).rest = some (a.2, r) := by rw [hy]; exact hE
    have hrl := (Cursor.skip_decoded E hE').1
    rw [hy] at hrl
    have hc' : (c.skip (c.rest.length - y.length)).Wf := hc.skip (Nat.sub_le _ _)
    rw [bind_ok (hp.reads hc hC), hq.reads hc' hE', hy, Cursor.skip_skip]
    congr 3
    omega
  fails := by
    intro c d hc hd
    cases hC : C.decode c.rest with
    | none =>
      obtain ⟨n, d', hn, hπ, hrun⟩ := hp.fails (d := d) hc hC
      exact ⟨n, d', hn, hπ, bind_error hrun⟩
    | some ay =>
      obtain ⟨a, y⟩ := ay
      obtain ⟨hyl, hy⟩ := Cursor.skip_decoded C hC
      have hE : E.decode (c.skip (c.rest.length - y.length)).rest = none := by
        rw [Codec.seq_decode, hC] at hd
        rw [hy]
        exact Option.map_eq_none_iff.1 hd
      obtain ⟨n, d', hn, hπ, hrun⟩ := hq.fails (d := put a d) (hc.skip (Nat.sub_le _ _)) hE
      rw [hy] at hn
      refine ⟨c.rest.length - y.length + n, d', by omega, hπ.trans (hp.frame a d), ?_⟩
      rw [bind_ok (hp.reads hc hC), hrun, Cursor.skip_skip]
  frame a d := (hq.frame a.2 _).trans (hp.frame a.1 d)

theorem Parses.unit (π : D → γ) : Parses π (pure ()) Codec.unit fun _ d => d where
  reads := by
    intro c d a r _ h
    obtain ⟨-, rfl⟩ := Prod.mk.inj (Option.some.inj h)
    rw [Nat.sub_self, Cursor.skip_zero, pure_run]
  fails _ h := by simp [Codec.unit] at h
  frame _ _ := rfl

theorem Parses.iso {p : Call LfcRes (Cursor × D) Unit} {C : Codec U8 α} {put : α → D → D} (h : Parses π p C put)
    (e : α ≃ β) : Parses π p (C.iso e) fun b => put (e.symm b) where
  reads := by
    intro c d b r hc hd
    obtain ⟨⟨a, r'⟩, hC, hab⟩ := Option.map_eq_some_iff.1 hd
    obtain ⟨rfl, rfl⟩ := Prod.mk.inj hab
    rw [e.symm_apply_apply]
    exact h.reads hc hC
  fails hc hd := h.fails hc (Option.map_eq_none_iff.1 hd)
  frame b := h.frame (e.symm b)

/-- store numbers in a row -/
def storeNums : List (U32 → D → D) → List U32 → D → D
  | store :: stores, v :: vs, d => storeNums stores vs (store v d)
  | _, _, d => d

theorem fieldNums_parses {stores : List (U32 → D → D)} (hπ : ∀ store ∈ stores, ∀ v d, π (store v d) = π d) :
    Parses π (fieldNums stores) (varint.rep stores.length) fun l d => storeNums stores l.1 d := by
  induction stores with
  | nil => exact (Parses.unit π).iso Codec.Row.nilEquiv
  | cons store stores ih =>
    have hfield := field_parses cursorUnpackVarLeU32_reads (hπ store List.mem_cons_self)
    have htail := ih fun s hs => hπ s (List.mem_cons_of_mem store hs)
    have h := (hfield.bind htail).iso (Codec.Row.consEquiv stores.length)
    have hput : (fun (b : Codec.Row U32 (stores.length + 1)) (d : D) =>
        storeNums stores ((Codec.Row.consEquiv stores.length).symm b).2.1
          (store ((Codec.Row.consEquiv stores.length).symm b).1 d)) =
        fun b d => storeNums (store :: stores) b.1 d := by
      funext b d
      obtain ⟨_ | ⟨v, vs⟩, hb⟩ := b
      · cases hb
      · rfl
    exact hput ▸ h

/-- the struct with all header fields stored -/
def Stores.put (out : Stores D) (f : Fields out.nums.length) (d : D) : D :=
  storeNums out.nums f.nums.1 (out.fp f.fp (out.did f.did (out.oui f.oui d)))

/-- no header field is stored in the part π -/
structure Stores.Keeps (out : Stores D) (π : D → γ) : Prop where
  flags : ∀ v d, π (out.flags v d) = π d
  oui : ∀ v d, π (out.oui v d) = π d
  did : ∀ v d, π (out.did v d) = π d
  fp : ∀ v d, π (out.fp v d) = π d
  nums : ∀ store ∈ out.nums, ∀ v d, π (store v d) = π d

/-- the reads of a sub-parser before the payload -/
def dgFields (out : Stores D) : Call LfcRes (Cursor × D) Unit := do
  field (csrRes cursorUnpackVarLeU32) out.oui
  field (csrRes cursorUnpackVarLeU32) out.did
  field (csrRes cursorUnpackLeU32) out.fp
  fieldNums out.nums

theorem dgFields_parses {out : Stores D} (hπ : out.Keeps π) :
    Parses π (dgFields out) (fields out.nums.length) out.put :=
  ((field_parses cursorUnpackVarLeU32_reads hπ.oui).bind ((field_parses cursorUnpackVarLeU32_reads hπ.did).bind
    ((field_parses cursorUnpackLeU32_reads hπ.fp).bind (fieldNums_parses hπ.nums)))).iso (Fields.equiv _)

theorem dgDes_eq (B : Build) (out : Stores D) (hdr : LfcDgHdr) (c : Cursor) (d : D) :
    dgDes B hdr.type out hdr (c, d) =
      (do dgFields out; field (cursorTakeRemaining B) fun v => out.pay v.1 v.2) (c, out.flags hdr.flagBits d) := by
  rw [dgDes, check_of_true B rfl, bind_ok (lift_ok _ _), bind_ok (modify_run _ _)]
  simp only [dgFields, bind_assoc]

/-- **A sub-parser** stores the fields and takes the rest as payload. -/
theorem dgDes_ok {out : Stores D} (hπ : out.Keeps π) (B : Build) {hdr : LfcDgHdr} {c : Cursor} (hc : c.Wf) (d : D)
    {f : Fields out.nums.length} {pay : List U8} (h : (fields out.nums.length).decode c.rest = some (f, pay)) :
    dgDes B hdr.type out hdr (c, d) =
      .ok () (c.skip c.rest.length, out.pay pay.length pay (out.put f (out.flags hdr.flagBits d))) := by
  obtain ⟨hlen, hpay⟩ := Cursor.skip_decoded _ h
  have hc' : (c.skip (c.rest.length - pay.length)).Wf := hc.skip (Nat.sub_le _ _)
  have htake : (cursorTakeRemaining B : Call LfcRes Cursor _) (c.skip (c.rest.length - pay.length)) =
      .ok (pay.length, pay) (c.skip c.rest.length) := by
    rw [cursorTakeRemaining_run hc' B, hpay, Cursor.skip_skip, Nat.sub_add_cancel hlen]
  rw [dgDes_eq, bind_ok ((dgFields_parses hπ).reads hc h), field_ok htake]

/-- a sub-parser that runs out of bytes leaves the payload array alone -/
theorem dgDes_error {out : Stores D} (hπ : out.Keeps π) (B : Build) {hdr : LfcDgHdr} {c : Cursor} (hc : c.Wf) (d : D)
    (h : (fields out.nums.length).decode c.rest = none) :
    ∃ n d', n ≤ c.rest.length ∧ π d' = π d ∧
      dgDes B hdr.type out hdr (c, d) = .error (.code .errNomem) (c.skip n, d') := by
  obtain ⟨n, d', hn, hd, hrun⟩ := (dgFields_parses hπ).fails (d := out.flags hdr.flagBits d) hc h
  refine ⟨n, d', hn, hd.trans (hπ.flags _ d), ?_⟩
  rw [dgDes_eq, bind_error hrun]

end Parses

end LongFi
