import CcnLite.Pkt.CcntlvSpace
import CcnLite.Utils.Valid

/-!
# The space of the signers (`ccnl-ext-hmac.c`)

The two `prependSignedContent` functions on memory. Both begin with a hole of 32 bytes for the
digest, for which the offset goes down without a check. The CCNx signer has asked for more room
before; the NDN signer has not, so from an offset below 32 it writes behind the end of the address
space, that is in front of the buffer (`ndn_inSpace_iff`, `ccnx_inSpace_iff`).
-/

namespace Ccnl

open CRun

namespace OnPen

open PenM

/-! ## The functions -/

section Functions

variable (mem : UInt64 → UInt8) (hmac : HmacKey → List UInt8 → Digest) (keyval : HmacKey)

/-- The call of `ccnl_hmac256_sign`. -/
def sign (mdoffset endofsign : UInt64) : PenM Unit := fun p =>
  poke mdoffset (hmac keyval (p.bytes mem p.offset (endofsign - p.offset).toNat)).1 p

/-! The parts of `ccnl_ndntlv_prependSignedContent`. -/

/-- The code returns 1, not -1, when the signature type does not fit. -/
def ndntlvPrependHmacSignatureInfo : PenM Unit := do
  let endofsign ← offset
  EStateM.adaptExcept (fun _ => 1) (ndntlvPrependBlob ndnTlvSignatureType [ndnValSigtypeHmac256])
  ndntlvPrependTLSince ndnTlvSignatureInfo endofsign

def ndntlvPrependSignedFinalBlockId : Option UInt32 → PenM Unit
  | none => pure ()
  | some v => do
    let oldoffset2 ← offset
    ndntlvPrependIncludedNonNegInt ndnTlvNameComponent v.toNat ndnMarkerSegmentNumber
    ndntlvPrependTLSince ndnTlvFinalBlockId oldoffset2

def ndntlvPrependSignedMetaInfo (final_block_id : Option UInt32) : PenM Unit := do
  let oldoffset2 ← offset
  ndntlvPrependSignedFinalBlockId final_block_id
  ndntlvPrependTLSince ndnTlvMetaInfo oldoffset2

/-- What is signed. -/
def ndntlvPrependRegion (name : Prefix) (payload : List UInt8) (final_block_id : Option UInt32)
    (oldoffset : UInt64) : PenM Unit := do
  ndntlvPrependHmacSignatureInfo
  ndntlvPrependBlob ndnTlvContent payload
  ndntlvPrependSignedMetaInfo final_block_id
  ndntlvPrependName name
  ndntlvPrependTLSince ndnTlvData oldoffset

/-- `ccnl_ndntlv_prependSignedContent`, with `*contentpos` and `*reslen`. -/
def ndntlvPrependSignedContent (name : Prefix) (payload : List UInt8) (final_block_id : Option UInt32) :
    PenM (UInt64 × UInt64) := do
  let oldoffset ← offset
  let contentpos := oldoffset - .ofNat payload.length
  hole mdlength
  let mdoffset ← offset
  ndntlvPrependTL ndnTlvSignatureValue mdlength
  let endofsign ← offset
  ndntlvPrependRegion name payload final_block_id oldoffset
  sign mem hmac keyval mdoffset endofsign
  let o ← offset
  return (contentpos - o, oldoffset - o)

/-- The room that `ccnl_ccntlv_prependSignedContentWithHdr` asks for, as a `size_t`. -/
def signedRoom (payload : List UInt8) : UInt64 := 8 + .ofNat payload.length + 4 + 32 + 3 * 4 + 32

/-- A message that is too long to be signed. -/
def ccntlvCheckLen (r : UInt64 × UInt64) : PenM (UInt64 × UInt64) :=
  if uint16Max - 8 < r.2.toNat then throw (-1) else pure r

/-- What is signed: the message, and the algorithm behind it. It returns `*contentpos` and `len`. -/
def ccntlvPrependRegion (name : Prefix) (payload : List UInt8) (lastchunknum : Option UInt32) :
    PenM (UInt64 × UInt64) := do
  ccntlvPrependTL ccnxValidalgoHmacSha256 0
  ccntlvPrependTL ccnxTlvTlValidationAlgo 4
  let r ← ccntlvPrependContent name payload lastchunknum
  ccntlvCheckLen r

/-- `ccnl_ccntlv_prependSignedContentWithHdr`, with `*contentpos` and `*retlen`. -/
def ccntlvPrependSignedContentWithHdr (name : Prefix) (payload : List UInt8)
    (lastchunknum : Option UInt32) : PenM (UInt64 × UInt64) := do
  let oldoffset ← offset
  if oldoffset < signedRoom payload then throw (-1)
  else do
    hole mdlength
    let mdoffset ← offset
    ccntlvPrependTL ccnxTlvTlValidationPayload mdlength
    let endofsign ← offset
    let (contentpos, len) ← ccntlvPrependRegion name payload lastchunknum
    sign mem hmac keyval mdoffset endofsign
    ccntlvPrependFixedHdr ccnxTlvV1 ccnxPtData len 255
    let o ← offset
    return (contentpos, oldoffset - o)

end Functions

/-! ## The digest -/

/-- From `p` to `q` only places in front of the offset and of a digest at `mdoffset` were written. -/
structure Around (mdoffset : UInt64) (p q : Pen) : Prop where
  keeps : ∀ w ∈ p.log, w ∈ q.log
  new : ∀ w ∈ q.log, w ∈ p.log ∨ w.1 < p.offset ∨ ∃ d : Digest, w ∈ marks mdoffset d.1

section Sign

variable {mem : UInt64 → UInt8} {hmac : HmacKey → List UInt8 → Digest} {keyval : HmacKey}
  {α β : Type} {p q : Pen} {g g' : Prop} {bs ys zs : List UInt8} {a : α} {B : PenM α} {k : α → PenM β}
  {b : β} {mdoffset : UInt64}

theorem mem_log_pre (hle : zs.length ≤ p.offset.toNat) :
    ∀ w ∈ (p.pre zs).log, w ∈ p.log ∨ w.1 < p.offset := fun w hw => by
  have hsum : (p.pre zs).offset.toNat + zs.length = p.offset.toNat := by
    rw [Pen.toNat_pre hle]
    exact Nat.sub_add_cancel hle
  rcases List.mem_append.mp hw with hw | hw
  · exact .inr ((mem_marks hsum).1 w hw).2
  · exact .inl hw

theorem Around.of_pre (hle : zs.length ≤ p.offset.toNat) (hlog : q.log = (p.pre zs).log) :
    Around mdoffset p q where
  keeps _ hw := hlog ▸ List.mem_append_right _ hw
  new w hw := (mem_log_pre hle w (hlog ▸ hw)).imp_right .inl

/-- The pen when the digest of the last bytes has been written. -/
def signed (hmac : HmacKey → List UInt8 → Digest) (keyval : HmacKey) (mdoffset : UInt64)
    (bs : List UInt8) (p : Pen) : Pen :=
  ⟨(p.pre bs).offset, marks mdoffset (hmac keyval bs).1 ++ (p.pre bs).log⟩

theorem sign_run (hle : bs.length ≤ p.offset.toNat) :
    sign mem hmac keyval mdoffset p.offset (p.pre bs) = .ok () (signed hmac keyval mdoffset bs p) := by
  have hlt := p.offset.toNat_lt
  have hbytes : (p.pre bs).bytes mem (p.pre bs).offset bs.length = bs :=
    Pen.bytes_marks rfl (by omega)
  unfold sign poke signed
  rw [Pen.sub_pre, toNat_ofNat_le hle, hbytes]

theorem Around.of_signed (hbs : bs.length ≤ p.offset.toNat)
    (hzs : (zs ++ bs).length ≤ p.offset.toNat)
    (hlog : q.log = ((signed hmac keyval mdoffset bs p).pre zs).log) : Around mdoffset p q := by
  have hle : zs.length ≤ (signed hmac keyval mdoffset bs p).offset.toNat := by
    rw [List.length_append] at hzs
    show zs.length ≤ (p.pre bs).offset.toNat
    rw [Pen.toNat_pre hbs]
    omega
  have hoff : (p.pre bs).offset ≤ p.offset := by
    rw [UInt64.le_iff_toNat_le, Pen.toNat_pre hbs]
    exact Nat.sub_le _ _
  constructor
  · intro w hw
    rw [hlog]
    exact List.mem_append_right _ (List.mem_append_right _ (List.mem_append_right _ hw))
  · intro w hw
    rw [hlog] at hw
    rcases mem_log_pre hle w hw with hw | hlt
    · rcases List.mem_append.mp hw with hd | hw
      · exact .inr (.inr ⟨_, hd⟩)
      · exact (mem_log_pre hbs w hw).imp_right .inl
    · exact .inr (.inl (UInt64.lt_of_lt_of_le hlt hoff))

/-- A function that writes what is signed, the signature, and what comes after it. -/
theorem signing_cases (hB : Prepends p g bs a B)
    (hk : g → Prepends (signed hmac keyval mdoffset bs p) g' ys b (k a)) :
    (((g ∧ g') ∧ (ys ++ bs).length ≤ p.offset.toNat) ∧
      (B >>= fun a => sign mem hmac keyval mdoffset p.offset >>= fun _ => k a) p =
        .ok b ((signed hmac keyval mdoffset bs p).pre ys)) ∨
    (¬ ((g ∧ g') ∧ (ys ++ bs).length ≤ p.offset.toNat) ∧ ∃ e q,
      (B >>= fun a => sign mem hmac keyval mdoffset p.offset >>= fun _ => k a) p = .error e q ∧
        e ≠ 0 ∧ Around mdoffset p q) := by
  rw [List.length_append]
  by_cases hbs : g ∧ bs.length ≤ p.offset.toNat
  · have hrun : (B >>= fun a => sign mem hmac keyval mdoffset p.offset >>= fun _ => k a) p =
        k a (signed hmac keyval mdoffset bs p) := by
      show EStateM.bind _ _ _ = _
      rw [EStateM.bind, hB.done hbs.1 hbs.2]
      show EStateM.bind _ _ _ = _
      rw [EStateM.bind, sign_run hbs.2]
    have hoff : (signed hmac keyval mdoffset bs p).offset.toNat = p.offset.toNat - bs.length :=
      Pen.toNat_pre hbs.2
    rw [hrun]
    by_cases hys : g' ∧ ys.length ≤ (signed hmac keyval mdoffset bs p).offset.toNat
    · exact .inl ⟨⟨⟨hbs.1, hys.1⟩, by omega⟩, (hk hbs.1).done hys.1 hys.2⟩
    · obtain ⟨e, q, zs, herr, he, hzs, hlog⟩ := (hk hbs.1).fails hys
      refine .inr ⟨fun hall => hys ⟨hall.1.2, by omega⟩, e, q, herr, he, .of_signed hbs.2 ?_ hlog⟩
      rw [List.length_append]
      omega
  · obtain ⟨e, q, zs, herr, he, hzs, hlog⟩ := hB.fails hbs
    refine .inr ⟨fun hall => hbs ⟨hall.1.1, by omega⟩, e, q, ?_, he, .of_pre hzs hlog⟩
    show EStateM.bind _ _ _ = _
    rw [EStateM.bind, herr]

end Sign

/-! ## The space -/

/-- A signer whose packet has `n` bytes stays in the space in front of the offset `o`, and ends the
packet with the digest `d`. -/
structure SignedInSpace (mem : UInt64 → UInt8) (d : Digest) (n : Nat) (m : PenM (UInt64 × UInt64))
    (o : UInt64) : Prop where
  /-- Every write is in front of the offset, also when the signer fails. -/
  inside : ∀ w ∈ (m.left o).log, w.1 < o
  /-- A packet that does not fit is an error. -/
  too_long : o.toNat < n → ∃ e q, m ⟨o, []⟩ = .error e q ∧ e ≠ 0
  /-- The offset goes down by the length that is returned. -/
  size : ∀ r q, m ⟨o, []⟩ = .ok r q → q.offset.toNat + r.2.toNat = o.toNat
  /-- The digest is what stands right in front of the offset. -/
  digest : ∀ r q, m ⟨o, []⟩ = .ok r q → q.bytes mem (o - .ofNat mdlength) mdlength = d.1

section Space

variable {mem : UInt64 → UInt8} {hmac : HmacKey → List UInt8 → Digest} {keyval : HmacKey}
  {α : Type} {g g' : Prop} {tl bs ys : List UInt8} {a : α} {T : PenM Unit} {B : PenM α}
  {k : α → PenM (UInt64 × UInt64)} {b : UInt64 × UInt64} {m : PenM (UInt64 × UInt64)} {o : UInt64}

theorem toNat_hole (h : mdlength ≤ o.toNat) :
    (o - UInt64.ofNat mdlength).toNat + mdlength = o.toNat := by
  have hpre := @Pen.toNat_pre (List.replicate mdlength 0) ⟨o, []⟩ (by rw [List.length_replicate]; exact h)
  rw [List.length_replicate] at hpre
  have hoff : (o - UInt64.ofNat mdlength).toNat = o.toNat - mdlength := by
    rw [← hpre, Pen.pre, List.length_replicate]
  omega

theorem toNat_hole_wrap (h : o.toNat < mdlength) :
    (o - UInt64.ofNat mdlength).toNat + mdlength = o.toNat + 2 ^ 64 := by
  have hmd : mdlength = 32 := rfl
  rw [UInt64.toNat_sub, UInt64.toNat_ofNat_of_lt' (show mdlength < 2 ^ 64 by decide)]
  omega

/-- The digest's places are in front of the offset. -/
theorem mem_hole {d : Digest} (h : mdlength ≤ o.toNat) :
    ∀ w ∈ marks (o - UInt64.ofNat mdlength) d.1, o - UInt64.ofNat mdlength ≤ w.1 ∧ w.1 < o := by
  have hsum : (o - UInt64.ofNat mdlength).toNat + d.1.length = o.toNat := by
    rw [d.2]
    exact toNat_hole h
  exact (mem_marks hsum).1

/-- A signer leaves a hole, calls `T` for the header of the digest, and signs what `B` writes. -/
def Signer (mem : UInt64 → UInt8) (hmac : HmacKey → List UInt8 → Digest) (keyval : HmacKey)
    (o : UInt64) (T : PenM Unit) (B : PenM α) (k : α → PenM (UInt64 × UInt64)) :
    PenM (UInt64 × UInt64) := do
  T
  let endofsign ← offset
  let a ← B
  sign mem hmac keyval (o - .ofNat mdlength) endofsign
  k a

/-- The pen behind the hole. -/
def holed (o : UInt64) : Pen := ⟨o - .ofNat mdlength, []⟩

theorem signer_run (hT : Prepends (holed o) True tl () T) (htl : tl.length ≤ (holed o).offset.toNat) :
    Signer mem hmac keyval o T B k (holed o) =
      (B >>= fun a => sign mem hmac keyval (o - .ofNat mdlength) ((holed o).pre tl).offset >>= fun _ =>
        k a) ((holed o).pre tl) := by
  show EStateM.bind _ _ _ = _
  rw [EStateM.bind, hT.done trivial htl]
  rfl

/-- A signer that fails. -/
theorem SignedInSpace.of_error {d : Digest} {n : Nat} {e : Int} {q : Pen} (hrun : m ⟨o, []⟩ = .error e q)
    (he : e ≠ 0) (hin : ∀ w ∈ q.log, w.1 < o) : SignedInSpace mem d n m o := by
  constructor
  case inside =>
    unfold PenM.left
    rw [hrun]
    exact hin
  case too_long => exact fun _ => ⟨e, q, hrun, he⟩
  case size =>
    intro r q' hr
    cases hrun.symm.trans hr
  case digest =>
    intro r q' hr
    cases hrun.symm.trans hr

/-- What is written in front of the hole and into it is in front of the offset. -/
theorem lt_of_around {p q : Pen} (ho : mdlength ≤ o.toNat) (hp : ∀ w ∈ p.log, w.1 < o)
    (hoff : p.offset.toNat ≤ (holed o).offset.toNat) (hq : Around (o - .ofNat mdlength) p q) :
    ∀ w ∈ q.log, w.1 < o := by
  have hhole : (holed o).offset.toNat + mdlength = o.toNat := toNat_hole ho
  intro w hw
  rcases hq.new w hw with hold | hnew | ⟨d, hd⟩
  · exact hp w hold
  · rw [UInt64.lt_iff_toNat_lt] at hnew ⊢
    omega
  · exact (mem_hole ho w hd).2

/-- The digest can be read behind what was written in front of it. -/
theorem bytes_signed {p : Pen} (ho : mdlength ≤ o.toNat) (hbs : bs.length ≤ p.offset.toNat)
    (hys : ys.length ≤ (p.pre bs).offset.toNat) (hoff : p.offset.toNat ≤ (holed o).offset.toNat) :
    ((signed hmac keyval (o - .ofNat mdlength) bs p).pre ys).bytes mem (o - .ofNat mdlength) mdlength =
      (hmac keyval bs).1 := by
  have hpre := Pen.toNat_pre hbs
  have hsum : ((signed hmac keyval (o - .ofNat mdlength) bs p).pre ys).offset.toNat + ys.length =
      (p.pre bs).offset.toNat := by
    rw [@Pen.toNat_pre ys (signed hmac keyval (o - .ofNat mdlength) bs p) hys]
    exact Nat.sub_add_cancel hys
  have hfront : ∀ w ∈ marks ((signed hmac keyval (o - .ofNat mdlength) bs p).pre ys).offset ys,
      w.1 < o - UInt64.ofNat mdlength := fun w hw => by
    have := UInt64.lt_iff_toNat_lt.mp ((mem_marks hsum).1 w hw).2
    rw [UInt64.lt_iff_toNat_lt]
    show _ < (holed o).offset.toNat
    omega
  have hwrap : (o - UInt64.ofNat mdlength).toNat + mdlength ≤ 2 ^ 64 := by
    have := o.toNat_lt
    rw [toNat_hole ho]
    omega
  have hd := (hmac keyval bs).2
  have hbytes := @Pen.bytes_marks mem (o - .ofNat mdlength) (hmac keyval bs).1 (p.pre bs).log
    (signed hmac keyval (o - .ofNat mdlength) bs p) rfl (by rw [hd]; decide)
  rw [Pen.bytes_of_lt rfl hfront hwrap]
  rw [hd] at hbytes
  exact hbytes

/-- A signer that has room for the hole stays in its space. -/
theorem SignedInSpace.of_signer (hm : m ⟨o, []⟩ = Signer mem hmac keyval o T B k (holed o))
    (ho : mdlength ≤ o.toNat) (hT : Prepends (holed o) True tl () T)
    (hB : tl.length ≤ (holed o).offset.toNat → Prepends ((holed o).pre tl) g bs a B)
    (hk : g → Prepends (signed hmac keyval (o - .ofNat mdlength) bs ((holed o).pre tl)) g' ys b (k a))
    (hb : b.2 = o - ((signed hmac keyval (o - .ofNat mdlength) bs ((holed o).pre tl)).pre ys).offset) :
    SignedInSpace mem (hmac keyval bs) (ys.length + bs.length + tl.length + mdlength) m o := by
  have hhole : (holed o).offset.toNat + mdlength = o.toNat := toNat_hole ho
  have hpre : ∀ zs : List UInt8, zs.length ≤ (holed o).offset.toNat →
      ∀ w ∈ ((holed o).pre zs).log, w.1 < o := fun zs hzs w hw => by
    rcases mem_log_pre hzs w hw with hnil | hw
    · cases hnil
    · rw [UInt64.lt_iff_toNat_lt] at hw ⊢
      omega
  by_cases htl : tl.length ≤ (holed o).offset.toNat
  · have htloff : ((holed o).pre tl).offset.toNat = (holed o).offset.toNat - tl.length :=
      Pen.toNat_pre htl
    have hinside : ∀ q, Around (o - .ofNat mdlength) ((holed o).pre tl) q → ∀ w ∈ q.log, w.1 < o :=
      fun q => lt_of_around ho (hpre tl htl) (by omega)
    rcases @signing_cases mem hmac keyval _ _ _ g g' bs ys a B k b (o - .ofNat mdlength) (hB htl) hk with
      ⟨hfits, hrun⟩ | ⟨hfail, e, q, hrun, he, haround⟩
    · rw [← signer_run hT htl, ← hm] at hrun
      have hlen := hfits.2
      rw [List.length_append] at hlen
      have hbs : (((holed o).pre tl).pre bs).offset.toNat =
          ((holed o).pre tl).offset.toNat - bs.length := Pen.toNat_pre (by omega)
      have hys : ((signed hmac keyval (o - .ofNat mdlength) bs ((holed o).pre tl)).pre ys).offset.toNat =
          ((holed o).pre tl).offset.toNat - bs.length - ys.length := by
        rw [← hbs]
        exact Pen.toNat_pre (show ys.length ≤ (((holed o).pre tl).pre bs).offset.toNat by omega)
      constructor
      case inside =>
        unfold PenM.left
        rw [hrun]
        exact hinside _ (.of_signed (by omega) hfits.2 rfl)
      case too_long =>
        intro hshort
        omega
      case size =>
        intro r q hr
        obtain ⟨rfl, rfl⟩ := EStateM.Result.ok.inj (hrun.symm.trans hr)
        rw [hb, UInt64.toNat_sub_of_le _ _ (by rw [UInt64.le_iff_toNat_le]; omega)]
        omega
      case digest =>
        intro r q hr
        obtain ⟨-, rfl⟩ := EStateM.Result.ok.inj (hrun.symm.trans hr)
        exact bytes_signed ho (by omega) (by omega) (by omega)
    · rw [← signer_run hT htl, ← hm] at hrun
      exact .of_error hrun he (hinside q haround)
  · obtain ⟨e, q, zs, herr, he, hzs, hlog⟩ := hT.fails fun hall => htl hall.2
    have hrun : m ⟨o, []⟩ = .error e q := by
      rw [hm]
      show EStateM.bind _ _ _ = _
      rw [EStateM.bind, herr]
    exact .of_error hrun he (hlog ▸ hpre zs hzs)

/-- A signer without room for the hole writes the header of the digest behind the end of the address
space. -/
theorem not_inSpace_of_signer {d : Digest} {n : Nat}
    (hm : m ⟨o, []⟩ = Signer mem hmac keyval o T B k (holed o)) (ho : o.toNat < mdlength)
    (hpos : 0 < tl.length) (hle : tl.length ≤ mdlength) (hT : Prepends (holed o) True tl () T)
    (hB : Prepends ((holed o).pre tl) g bs a B)
    (hk : g → Prepends (signed hmac keyval (o - .ofNat mdlength) bs ((holed o).pre tl)) g' ys b (k a)) :
    ¬ SignedInSpace mem d n m o := by
  have hmd : mdlength = 32 := rfl
  have hhole : (holed o).offset.toNat + mdlength = o.toNat + 2 ^ 64 := toNat_hole_wrap ho
  have htl : tl.length ≤ (holed o).offset.toNat := by omega
  have hoff : ((holed o).pre tl).offset.toNat = (holed o).offset.toNat - tl.length := Pen.toNat_pre htl
  -- the first byte of the header
  have hsum : ((holed o).pre tl).offset.toNat + tl.length = (holed o).offset.toNat := by omega
  obtain ⟨x, hx⟩ := (mem_marks hsum).2 ((holed o).pre tl).offset (UInt64.le_refl _)
    (by rw [UInt64.lt_iff_toNat_lt]; omega)
  have hmem : (((holed o).pre tl).offset, x) ∈ ((holed o).pre tl).log := List.mem_append_left _ hx
  -- it stays
  have hleft : (((holed o).pre tl).offset, x) ∈ (m.left o).log := by
    unfold PenM.left
    rcases @signing_cases mem hmac keyval _ _ _ g g' bs ys a B k b (o - .ofNat mdlength) hB hk with
      ⟨hfits, hrun⟩ | ⟨-, e, q, hrun, -, haround⟩
    · rw [← signer_run hT htl, ← hm] at hrun
      rw [hrun]
      exact List.mem_append_right _ (List.mem_append_right _ (List.mem_append_right _ hmem))
    · rw [← signer_run hT htl, ← hm] at hrun
      rw [hrun]
      exact haround.keeps _ hmem
  intro hin
  have := UInt64.lt_iff_toNat_lt.mp (hin.inside _ hleft)
  simp only at this
  omega

end Space

/-! ## NDN -/

section Ndn

variable {name : Prefix} {payload : List UInt8} {final_block_id : Option UInt32} (p : Pen)

theorem prependHmacSignatureInfo_prepends :
    Prepends p True ndnHmacSignatureInfo () ndntlvPrependHmacSignatureInfo := by
  have hblob := @prependBlob_prepends ndnTlvSignatureType [ndnValSigtypeHmac256] (by decide) p
  exact .read (tlv_prepends ndnTlvSignatureInfo (hblob.adapt fun _ _ => Int.one_ne_zero))

theorem prependSignedMetaInfo_prepends : Prepends p True (ndnSignedMetaInfo final_block_id) ()
    (ndntlvPrependSignedMetaInfo final_block_id) := by
  have helems : Prepends p True (ndnSignedFinalBlockId final_block_id) ()
      (ndntlvPrependSignedFinalBlockId final_block_id) := by
    cases final_block_id with
    | none => exact .pure () p
    | some v =>
      have := v.toNat_lt
      exact .read (tlv_prepends ndnTlvFinalBlockId (prependIncludedNonNegInt_prepends _ (by omega) _ p))
  exact .read (tlv_prepends ndnTlvMetaInfo helems)

/-- The signed bytes, where `n` is the length that the packet gets. -/
theorem prependRegion_prepends {old : UInt64} {n : Nat} (h : name.InMemory)
    (hpay : payload.length ≤ sizeMax - 4)
    (hn : (ndnSignedElems name payload final_block_id).length ≤ p.offset.toNat →
      (old - (p.pre (ndnSignedElems name payload final_block_id)).offset).toNat = n) :
    Prepends p True (ndnTL ndnTlvData n ++ ndnSignedElems name payload final_block_id) ()
      (ndntlvPrependRegion name payload final_block_id old) := by
  have hlt := lt_of_le_sizeMax hpay
  have hinfo := prependHmacSignatureInfo_prepends p
  have hcontent := hinfo.next fun _ => @prependBlob_prepends ndnTlvContent payload (by omega) _
  have hmeta := hcontent.next fun _ => @prependSignedMetaInfo_prepends final_block_id _
  have hname := hmeta.next fun _ => prependName_prepends _ h
  have hall := hname.next fun hle => prependTLSince_prepends ndnTlvData (hn hle)
  simp only [bind_assoc] at hall
  exact hall

/-- The NDN signer is inside its space exactly from an offset on that has room for the digest. -/
theorem ndn_inSpace_iff (mem : UInt64 → UInt8) (hmac : HmacKey → List UInt8 → Digest) (keyval : HmacKey)
    (final_block_id : Option UInt32) (h : name.InMemory) (hpay : payload.length ≤ sizeMax - 4)
    (o : UInt64) :
    SignedInSpace mem (hmac keyval (ndnRegion name payload final_block_id))
      (ndnSignedData name payload final_block_id
        (hmac keyval (ndnRegion name payload final_block_id))).length
      (ndntlvPrependSignedContent mem hmac keyval name payload final_block_id) o ↔
      mdlength ≤ o.toNat := by
  have hmd : mdlength = 32 := rfl
  have hTL : ndnDigestTL.length = 2 := rfl
  have hm : ndntlvPrependSignedContent mem hmac keyval name payload final_block_id ⟨o, []⟩ =
      Signer mem hmac keyval o (ndntlvPrependTL ndnTlvSignatureValue mdlength)
        (ndntlvPrependRegion name payload final_block_id o)
        (fun _ => offset >>= fun o' => pure (o - .ofNat payload.length - o', o - o')) (holed o) := rfl
  have hT := prependTL_prepends ndnTlvSignatureValue mdlength (holed o)
  have hk : ∀ p : Pen, Prepends p True [] (o - .ofNat payload.length - p.offset, o - p.offset)
      (offset >>= fun o' => pure (o - .ofNat payload.length - o', o - o')) := fun p => .read (.pure _ p)
  constructor
  · refine fun hin => Nat.not_lt.mp fun ho => ?_
    exact not_inSpace_of_signer hm ho (by decide) (by decide) hT
      (prependRegion_prepends _ h hpay fun _ => rfl) (fun _ => hk _) hin
  · intro ho
    have hhole : (holed o).offset.toNat + mdlength = o.toNat := toNat_hole ho
    have hB : ndnDigestTL.length ≤ (holed o).offset.toNat →
        Prepends ((holed o).pre ndnDigestTL) True (ndnRegion name payload final_block_id) ()
          (ndntlvPrependRegion name payload final_block_id o) := fun htl =>
      prependRegion_prepends _ h hpay fun hle => by
        have hoff := Pen.toNat_pre htl
        have hoff' := Pen.toNat_pre hle
        rw [UInt64.toNat_sub_of_le _ _ (by rw [UInt64.le_iff_toNat_le]; omega)]
        omega
    have hin := SignedInSpace.of_signer hm ho hT hB (fun _ => hk _) (by rw [Pen.pre_nil])
    have hlen : (ndnSignedData name payload final_block_id
        (hmac keyval (ndnRegion name payload final_block_id))).length =
          ([] : List UInt8).length + (ndnRegion name payload final_block_id).length +
            ndnDigestTL.length + mdlength := by
      rw [ndnSignedData_eq, List.length_append, List.length_append,
        (hmac keyval (ndnRegion name payload final_block_id)).2, List.length_nil, Nat.zero_add]
      rfl
    rw [hlen]
    exact hin

end Ndn

/-! ## CCNx -/

section Ccnx

variable {name : Prefix} {payload : List UInt8} {last : Option UInt32} (p : Pen)

/-- The message that is signed. -/
def ccnxMessage (name : Prefix) (payload : List UInt8) (last : Option UInt32) : List UInt8 :=
  ccnxTLV ccnxTlvTlObject (ccnxContentElems name payload last)

/-- The signed bytes: the message, and the algorithm. -/
def ccnxRegion (name : Prefix) (payload : List UInt8) (last : Option UInt32) : List UInt8 :=
  ccnxMessage name payload last ++
    (ccnxTL ccnxTlvTlValidationAlgo 4 ++ ccnxTL ccnxValidalgoHmacSha256 0)

/-- A signed packet. The fixed header counts the message only. -/
def ccnxSignedContent (name : Prefix) (payload : List UInt8) (last : Option UInt32) (d : Digest) :
    List UInt8 :=
  ccnxFixedHdr ccnxPtData (ccnxMessage name payload last).length 255 ++ (ccnxRegion name payload last ++
    (ccnxTL ccnxTlvTlValidationPayload mdlength ++ d.1))

theorem checkLen_prepends {r : UInt64 × UInt64} {n : Nat} (hr : r.2.toNat = n) :
    Prepends p (n ≤ uint16Max - 8) [] r (ccntlvCheckLen r) := by
  unfold ccntlvCheckLen
  rw [hr]
  refine .check (by decide) (fun hlt hall => absurd hall.1 (Nat.not_le.mpr hlt)) fun hge => ?_
  exact (Prepends.pure r p).congr (iff_true_intro (Nat.not_lt.mp hge))

theorem ccntlvPrependRegion_prepends (h : name.InMemory) (hpay : payload.length ≤ sizeMax - 4) :
    ∃ g contentpos, (g → (ccnxMessage name payload last).length ≤ uint16Max) ∧
      Prepends p g (ccnxRegion name payload last)
        (contentpos, .ofNat (ccnxMessage name payload last).length)
        (ccntlvPrependRegion name payload last) := by
  have hmax : uint16Max - 8 ≤ uint16Max := Nat.sub_le _ _
  have htl : ∀ (type len : Nat) (p : Pen), len ≤ uint16Max →
      Prepends p True (ccnxTL type len) () (ccntlvPrependTL type len) := fun type len p hle =>
    (ccntlvPrependTL_prepends type len p).congr (iff_of_true trivial hle)
  have halgo := (htl ccnxValidalgoHmacSha256 0 p (by decide)).next fun _ =>
    htl ccnxTlvTlValidationAlgo 4 _ (by decide)
  -- the message is written before its length is looked at
  have hcontent := halgo.andThen fun _ => @ccntlvPrependContent_prepends name payload last _ h hpay
  have hall := hcontent.bind fun hle => checkLen_prepends _ (toNat_ofNat_le (by
    rw [List.length_append] at hle
    exact Nat.le_trans (Nat.le_add_right _ _) hle))
  simp only [bind_assoc] at hall
  exact ⟨_, _, fun hg => Nat.le_trans hg.2 hmax, hall⟩

theorem toNat_signedRoom (h : payload.length + 88 < 2 ^ 64) :
    (signedRoom payload).toNat = payload.length + 88 := by
  have hsum : signedRoom payload = .ofNat (payload.length + 88) := by
    unfold signedRoom
    rw [UInt64.ofNat_add, show UInt64.ofNat 88 = 88 from rfl]
    grind
  rw [hsum]
  exact UInt64.toNat_ofNat_of_lt' h

/-- The CCNx signer is inside its space exactly from an offset on that has room for the digest, or when
the check at the start sends it back. -/
theorem ccnx_inSpace_iff (mem : UInt64 → UInt8) (hmac : HmacKey → List UInt8 → Digest) (keyval : HmacKey)
    (h : name.InMemory) (hpay : payload.length ≤ sizeMax - 4) (o : UInt64) :
    SignedInSpace mem (hmac keyval (ccnxRegion name payload last))
      (ccnxSignedContent name payload last (hmac keyval (ccnxRegion name payload last))).length
      (ccntlvPrependSignedContentWithHdr mem hmac keyval name payload last) o ↔
      mdlength ≤ o.toNat ∨ o < signedRoom payload := by
  have hdef : ccntlvPrependSignedContentWithHdr mem hmac keyval name payload last ⟨o, []⟩ =
      if o < signedRoom payload then .error (-1) ⟨o, []⟩
      else Signer mem hmac keyval o (ccntlvPrependTL ccnxTlvTlValidationPayload mdlength)
        (ccntlvPrependRegion name payload last)
        (fun r => ccntlvPrependFixedHdr ccnxTlvV1 ccnxPtData r.2 255 >>= fun _ =>
          offset >>= fun o' => pure (r.1, o - o')) (holed o) := by
    unfold ccntlvPrependSignedContentWithHdr
    show (if o < signedRoom payload then throw (-1) else _ : PenM (UInt64 × UInt64)) _ = _
    split <;> rfl
  by_cases hroom : o < signedRoom payload
  · rw [if_pos hroom] at hdef
    exact iff_of_true (.of_error hdef (by decide) fun w hw => by cases hw) (.inr hroom)
  rw [if_neg hroom] at hdef
  have hT := (ccntlvPrependTL_prepends ccnxTlvTlValidationPayload mdlength (holed o)).congr
    (iff_of_true trivial (by decide))
  obtain ⟨g, contentpos, hg, hB⟩ := @ccntlvPrependRegion_prepends name payload last
    ((holed o).pre (ccnxTL ccnxTlvTlValidationPayload mdlength)) h hpay
  have hk : ∀ p : Pen, g → Prepends p ((ccnxMessage name payload last).length ≤ uint16Max - ccnxHdrlen)
      (ccnxFixedHdr ccnxPtData (ccnxMessage name payload last).length 255)
      (contentpos, o - (p.pre (ccnxFixedHdr ccnxPtData (ccnxMessage name payload last).length 255)).offset)
      (ccntlvPrependFixedHdr ccnxTlvV1 ccnxPtData (.ofNat (ccnxMessage name payload last).length) 255 >>=
        fun _ => offset >>= fun o' => pure (contentpos, o - o')) := fun p hg' =>
    (ccntlvPrependFixedHdr_prepends p (hg hg')).finish fun o' => (contentpos, o - o')
  constructor
  · refine fun hin => .inl (Nat.not_lt.mp fun ho => ?_)
    exact not_inSpace_of_signer hdef ho (by decide) (by decide) hT hB (fun hg' => hk _ hg') hin
  · intro hor
    have ho := hor.resolve_right hroom
    have hin := SignedInSpace.of_signer hdef ho hT (fun _ => hB) (fun hg' => hk _ hg') rfl
    have hlen : (ccnxSignedContent name payload last
        (hmac keyval (ccnxRegion name payload last))).length =
          (ccnxFixedHdr ccnxPtData (ccnxMessage name payload last).length 255).length +
            (ccnxRegion name payload last).length +
              (ccnxTL ccnxTlvTlValidationPayload mdlength).length + mdlength := by
      rw [ccnxSignedContent, List.length_append, List.length_append, List.length_append,
        (hmac keyval (ccnxRegion name payload last)).2, ← Nat.add_assoc, ← Nat.add_assoc]
      rfl
    rw [hlen]
    exact hin

/-- Without a wrap in the sum of the check, an offset below 32 is sent back. -/
theorem ccnx_inSpace (mem : UInt64 → UInt8) (hmac : HmacKey → List UInt8 → Digest) (keyval : HmacKey)
    (h : name.InMemory) (hpay : payload.length + 88 < 2 ^ 64) (o : UInt64) :
    SignedInSpace mem (hmac keyval (ccnxRegion name payload last))
      (ccnxSignedContent name payload last (hmac keyval (ccnxRegion name payload last))).length
      (ccntlvPrependSignedContentWithHdr mem hmac keyval name payload last) o := by
  have hle : payload.length ≤ sizeMax - 4 := by
    unfold sizeMax
    omega
  refine (ccnx_inSpace_iff mem hmac keyval h hle o).mpr ?_
  rw [UInt64.lt_iff_toNat_lt, toNat_signedRoom hpay]
  have hmd : mdlength = 32 := rfl
  omega

end Ccnx

/-! ## The result -/

/-- From which offsets the signers stay in their space. -/
theorem signers_inSpace_iff (mem : UInt64 → UInt8) (hmac : HmacKey → List UInt8 → Digest)
    (keyval : HmacKey) (name : WireName) (payload : Blob) (last : Option UInt32) (o : UInt64) :
    (SignedInSpace mem (hmac keyval (ndnRegion name.1 payload.1 last))
      (ndnSignedData name.1 payload.1 last (hmac keyval (ndnRegion name.1 payload.1 last))).length
      (ndntlvPrependSignedContent mem hmac keyval name.1 payload.1 last) o ↔ mdlength ≤ o.toNat) ∧
    (SignedInSpace mem (hmac keyval (ccnxRegion name.1 payload.1 last))
      (ccnxSignedContent name.1 payload.1 last (hmac keyval (ccnxRegion name.1 payload.1 last))).length
      (ccntlvPrependSignedContentWithHdr mem hmac keyval name.1 payload.1 last) o ↔
      mdlength ≤ o.toNat ∨ o < signedRoom payload.1) :=
  ⟨ndn_inSpace_iff mem hmac keyval last name.2 payload.2 o,
    ccnx_inSpace_iff mem hmac keyval name.2 payload.2 o⟩

/-- The name with no component. -/
def rootName : WireName :=
  ⟨{ mem := [], comp := [], suite := .ndntlv }, ⟨fun _ hc => (by cases hc), fun _ hk => (by cases hk)⟩⟩

/-- Ten bytes of room for signed content. -/
theorem ndn_signed_outside : ¬ SignedInSpace (fun _ => 0)
    (lengthMac zeroKey (ndnRegion rootName.1 [97] none))
    (ndnSignedData rootName.1 [97] none (lengthMac zeroKey (ndnRegion rootName.1 [97] none))).length
    (ndntlvPrependSignedContent (fun _ => 0) lengthMac zeroKey rootName.1 [97] none) 10 :=
  fun hin => absurd ((ndn_inSpace_iff (fun _ => 0) lengthMac zeroKey none rootName.2
    (by decide) 10).mp hin) (by decide)

end OnPen

end Ccnl
