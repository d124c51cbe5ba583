import CcnLite.Pkt.CcntlvRoundtrip
import CcnLite.Pkt.NdntlvEncode

/-!
# Signed content (`ccnl-ext-hmac.c`)

The two `prependSignedContent` functions leave a hole of 32 bytes at the end of the packet, write
the rest in front of it, and fill the hole with the HMAC of the bytes before it. `Signing` is the
buffer when all but the digest is there. The HMAC is a parameter: any function of a key and bytes.

* `prependSignedContent_written`: which bytes the NDN signer writes, the signed ones in front.
* `ccntlv_signed_pktlen`: the CCNx signer does not count the trailer in the length of the packet.
-/

namespace Ccnl

open CRun Back

/-- `keyval`, 64 bytes. -/
abbrev HmacKey := { k : List UInt8 // k.length = 64 }

/-- A packet whose signature is missing: the digest is to be written at `mdoffset`, and the bytes
from the offset to `endofsign` are to be signed. -/
structure Signing where
  o : Back
  mdoffset : Nat
  endofsign : Nat
  deriving DecidableEq

namespace Signing

/-- The bytes that are signed. -/
def region (s : Signing) : List UInt8 := (s.o.buf.drop s.o.offset).take (s.endofsign - s.o.offset)

/-- The call of `ccnl_hmac256_sign`. -/
def sign (hmac : HmacKey → List UInt8 → Digest) (keyval : HmacKey) (s : Signing) : Back where
  buf := Front.splice s.o.buf s.mdoffset (hmac keyval s.region).1
  offset := s.o.offset
  le := Nat.le_trans s.o.le (Front.le_length_splice _ _ _)

end Signing

/-- `*offset -= len`, without a check. -/
def reserve (len : Nat) (o : Back) : Run Back :=
  if len ≤ o.offset then .ok ⟨o.buf, o.offset - len, Nat.le_trans (Nat.sub_le _ _) o.le⟩
  else .error .wrap

/-- `mdlength`. -/
def mdlength : Nat := 32

/-! ## The functions -/

/-! The parts of `ccnl_ndntlv_prependSignedContent`, from the end of the packet on. -/

/-- The code returns 1, not -1, when the signature type does not fit. -/
def ndntlvPrependHmacSignatureInfo (o : Back) : Run Back := do
  let endofsign := o.offset
  let o ← ndntlvPrependBlob ndnTlvSignatureType [ndnValSigtypeHmac256] o
  ndntlvPrependTL ndnTlvSignatureInfo (endofsign - o.offset) o

/-- Every number is written, the one that stands for none elsewhere too. -/
def ndntlvPrependSignedFinalBlockId (final_block_id : Option UInt32) (o : Back) : Run Back :=
  match final_block_id with
  | none => pure o
  | some v => do
    let oldoffset2 := o.offset
    let o ← ndntlvPrependIncludedNonNegInt ndnTlvNameComponent v.toNat ndnMarkerSegmentNumber o
    ndntlvPrependTL ndnTlvFinalBlockId (oldoffset2 - o.offset) o

def ndntlvPrependSignedMetaInfo (final_block_id : Option UInt32) (o : Back) : Run Back := do
  let oldoffset2 := o.offset
  let o ← ndntlvPrependSignedFinalBlockId final_block_id o
  ndntlvPrependTL ndnTlvMetaInfo (oldoffset2 - o.offset) o

/-- `ccnl_ndntlv_prependSignedContent` up to the HMAC. -/
def ndntlvPrependUnsigned (name : Prefix) (payload : List UInt8) (final_block_id : Option UInt32)
    (o : Back) : Run Signing := do
  let oldoffset := o.offset
  let o ← reserve mdlength o
  let mdoffset := o.offset
  let o ← ndntlvPrependTL ndnTlvSignatureValue mdlength o
  let endofsign := o.offset
  let o ← ndntlvPrependHmacSignatureInfo o
  let o ← ndntlvPrependBlob ndnTlvContent payload o
  let o ← ndntlvPrependSignedMetaInfo final_block_id o
  let o ← ndntlvPrependName name o
  let o ← ndntlvPrependTL ndnTlvData (oldoffset - o.offset) o
  return ⟨o, mdoffset, endofsign⟩

/-- `ccnl_ndntlv_prependSignedContent`, with `*contentpos` and `*reslen`. -/
def ndntlvPrependSignedContent (hmac : HmacKey → List UInt8 → Digest) (keyval : HmacKey)
    (name : Prefix) (payload : List UInt8) (final_block_id : Option UInt32) (o : Back) :
    Run (Back × Nat × Nat) := do
  let contentpos := sub64 o.offset payload.length
  let s ← ndntlvPrependUnsigned name payload final_block_id o
  return (s.sign hmac keyval, sub64 contentpos s.o.offset, o.offset - s.o.offset)

def ccnxTlvTlValidationAlgo : Nat := 0x0003
def ccnxTlvTlValidationPayload : Nat := 0x0004

/-- The validation trailer, without the digest: the place of the digest, `endofsign`, and the buffer. -/
def ccntlvPrependTrailer (o : Back) : Run Signing := do
  let o ← reserve mdlength o
  let mdoffset := o.offset
  let o ← ccntlvPrependTL ccnxTlvTlValidationPayload mdlength o
  let endofsign := o.offset
  let o ← ccntlvPrependTL ccnxValidalgoHmacSha256 0 o
  let o ← ccntlvPrependTL ccnxTlvTlValidationAlgo 4 o
  return ⟨o, mdoffset, endofsign⟩

/-- `ccnl_ccntlv_prependSignedContentWithHdr` up to the HMAC, with `*contentpos` and `len`. After the
trailer `len` is its length, but then it is the out-parameter of the content encoder. -/
def ccntlvPrependUnsigned (name : Prefix) (payload : List UInt8) (lastchunknum : Option UInt32)
    (o : Back) : Run (Signing × Nat × Nat) := do
  if o.offset < 8 + payload.length + 4 + 32 + 3 * 4 + 32 then throw .bail
  let s ← ccntlvPrependTrailer o
  let (o, contentpos, len) ← ccntlvPrependContent name payload lastchunknum s.o
  if uint16Max - 8 < len then throw .bail
  return (⟨o, s.mdoffset, s.endofsign⟩, contentpos, len)

/-- `ccnl_ccntlv_prependSignedContentWithHdr`, with `*contentpos` and `*retlen`. -/
def ccntlvPrependSignedContentWithHdr (hmac : HmacKey → List UInt8 → Digest) (keyval : HmacKey)
    (name : Prefix) (payload : List UInt8) (lastchunknum : Option UInt32) (o : Back) :
    Run (Back × Nat × Nat) := do
  let oldoffset := o.offset
  let (s, contentpos, len) ← ccntlvPrependUnsigned name payload lastchunknum o
  let o ← ccntlvPrependFixedHdr ccnxTlvV1 ccnxPtData len 255 (s.sign hmac keyval)
  return (o, contentpos, oldoffset - o.offset)

/-! ## The hole and the digest -/

theorem reserve_eq_ok {len : Nat} {o o' : Back} :
    reserve len o = .ok o' ↔ o'.offset + len = o.offset ∧ o'.buf = o.buf := by
  obtain ⟨buf', off', hle'⟩ := o'
  unfold reserve
  split
  · rename_i h
    simp only [Except.ok.injEq, Back.mk.injEq]
    constructor
    · rintro ⟨rfl, rfl⟩
      exact ⟨Nat.sub_add_cancel h, rfl⟩
    · rintro ⟨h₁, rfl⟩
      exact ⟨rfl, by omega⟩
  · rename_i h
    simp only [reduceCtorEq, false_iff, not_and]
    omega

namespace Signing

variable {hmac : HmacKey → List UInt8 → Digest} {keyval : HmacKey} {s : Signing}
  {region hdr : List UInt8}

/-- The signed bytes, the header of the digest and a hole lie one behind the other. -/
structure Laid (s : Signing) (region hdr : List UInt8) : Prop where
  at_region : At s.o.buf s.o.offset (region ++ hdr)
  endofsign : s.o.offset + region.length = s.endofsign
  mdoffset : s.endofsign + hdr.length = s.mdoffset
  hole : s.mdoffset + mdlength ≤ s.o.buf.length

theorem Laid.region_eq (h : Laid s region hdr) : s.region = region := by
  have hlen : s.endofsign - s.o.offset = region.length := by
    have := h.endofsign
    omega
  rw [Signing.region, hlen]
  exact (at_append.mp h.at_region).1.take

/-- The digest fills the hole. -/
theorem Laid.at_sign (h : Laid s region hdr) :
    At (s.sign hmac keyval).buf (s.sign hmac keyval).offset
      (region ++ hdr ++ (hmac keyval region).1) := by
  have hmd : s.mdoffset = s.o.offset + (region ++ hdr).length := by
    rw [List.length_append, ← h.mdoffset, ← h.endofsign, Nat.add_assoc]
  have hwrote : Front.Wrote ⟨s.o.buf, s.mdoffset⟩
      ⟨Front.splice s.o.buf s.mdoffset (hmac keyval s.region).1, s.mdoffset + mdlength⟩
      (hmac keyval s.region).1 := by
    refine Front.app_wrote ?_
    rw [Front.app_eq (by rw [(hmac keyval s.region).2]; exact h.hole), (hmac keyval s.region).2]
    rfl
  have hkeep := hwrote.keeps h.at_region (Nat.le_of_eq hmd.symm)
  have hdigest := hwrote.at_pos
  rw [h.region_eq] at hkeep hdigest
  rw [hmd] at hkeep hdigest
  show At (Front.splice s.o.buf s.mdoffset (hmac keyval s.region).1) s.o.offset _
  rw [h.region_eq, hmd]
  exact at_append.mpr ⟨hkeep, hdigest⟩

end Signing

/-! ## NDN -/

section Ndn

variable (name : Prefix) (payload : List UInt8) (final_block_id : Option UInt32)

/-- The elements of the MetaInfo of signed content. -/
def ndnSignedFinalBlockId : List UInt8 :=
  match final_block_id with
  | none => []
  | some v => ndnTLV ndnTlvFinalBlockId
      (ndnTLV ndnTlvNameComponent (ndnMarkerSegmentNumber :: ndnNonNegVal v.toNat))

def ndnSignedMetaInfo : List UInt8 :=
  ndnTLV ndnTlvMetaInfo (ndnSignedFinalBlockId final_block_id)

def ndnHmacSignatureInfo : List UInt8 :=
  ndnTLV ndnTlvSignatureInfo (ndnTLV ndnTlvSignatureType [ndnValSigtypeHmac256])

/-- The signed elements. -/
def ndnSignedElems : List UInt8 :=
  ndnName name ++ (ndnSignedMetaInfo final_block_id ++ (ndnContent payload ++ ndnHmacSignatureInfo))

/-- The header of the digest. -/
def ndnDigestTL : List UInt8 := ndnTL ndnTlvSignatureValue mdlength

/-- The signed bytes: the header of the packet, whose length counts the digest, and the elements. -/
def ndnRegion : List UInt8 :=
  ndnTL ndnTlvData ((ndnSignedElems name payload final_block_id).length + ndnDigestTL.length +
    mdlength) ++ ndnSignedElems name payload final_block_id

/-- A signed Data packet. -/
def ndnSignedData (d : Digest) : List UInt8 :=
  ndnTLV ndnTlvData (ndnSignedElems name payload final_block_id ++ ndnTLV ndnTlvSignatureValue d.1)

variable {name payload final_block_id} {o : Back} {s : Signing}

theorem ndnSignedData_eq (d : Digest) : ndnSignedData name payload final_block_id d =
    ndnRegion name payload final_block_id ++ ndnDigestTL ++ d.1 := by
  have hd : ndnTLV ndnTlvSignatureValue d.1 = ndnDigestTL ++ d.1 := by
    rw [ndnTLV, ndnDigestTL, d.2]
    rfl
  have hlen : (ndnSignedElems name payload final_block_id ++ (ndnDigestTL ++ d.1)).length =
      (ndnSignedElems name payload final_block_id).length + ndnDigestTL.length + mdlength := by
    rw [List.length_append, List.length_append, d.2, Nat.add_assoc]
    rfl
  rw [ndnSignedData, ndnTLV, hd, hlen, ndnRegion]
  simp only [List.append_assoc]

theorem prependSignedFinalBlockId_eq (o : Back) :
    ndntlvPrependSignedFinalBlockId final_block_id o =
      pre (ndnSignedFinalBlockId final_block_id) o := by
  unfold ndntlvPrependSignedFinalBlockId ndnSignedFinalBlockId
  cases final_block_id with
  | none => exact (pre_nil o).symm
  | some v =>
    have := v.toNat_lt
    simp only [prependIncludedNonNegInt_eq ndnTlvNameComponent (show v.toNat < 2 ^ 64 by omega)]
    exact pre_tl

theorem prependSignedMetaInfo_eq (o : Back) :
    ndntlvPrependSignedMetaInfo final_block_id o = pre (ndnSignedMetaInfo final_block_id) o := by
  unfold ndntlvPrependSignedMetaInfo ndnSignedMetaInfo
  rw [← pre_tl]
  simp only [prependSignedFinalBlockId_eq]

theorem prependHmacSignatureInfo_eq (o : Back) :
    ndntlvPrependHmacSignatureInfo o = pre ndnHmacSignatureInfo o := by
  unfold ndntlvPrependHmacSignatureInfo ndnHmacSignatureInfo
  simp only [prependBlob_eq]
  exact pre_tl

/-- The writes in front of the hole. -/
theorem prependUnsigned_eq (hk : ∀ k ∈ name.chunknum, k < 2 ^ 64) (o : Back) :
    ndntlvPrependUnsigned name payload final_block_id o =
      reserve mdlength o >>= fun o₁ => pre ndnDigestTL o₁ >>= fun o₂ =>
        pre (ndnSignedElems name payload final_block_id) o₂ >>= fun o₃ =>
          pre (ndnTL ndnTlvData (o.offset - o₃.offset)) o₃ >>= fun o₄ =>
            pure ⟨o₄, o₁.offset, o₂.offset⟩ := by
  unfold ndntlvPrependUnsigned ndnSignedElems
  rw [← List.append_assoc, ← List.append_assoc]
  simp only [← pre_pre, bind_assoc, prependTL_eq, prependBlob_eq, prependHmacSignatureInfo_eq,
    prependSignedMetaInfo_eq, prependName_eq hk]
  rfl

/-- What the NDN signer writes. -/
theorem prependUnsigned_eq_ok (hk : ∀ k ∈ name.chunknum, k < 2 ^ 64) :
    ndntlvPrependUnsigned name payload final_block_id o = .ok s ↔
      s.mdoffset + mdlength = o.offset ∧ s.endofsign + ndnDigestTL.length = s.mdoffset ∧
        ∃ o₁, reserve mdlength o = .ok o₁ ∧
          pre (ndnRegion name payload final_block_id ++ ndnDigestTL) o₁ = .ok s.o := by
  rw [prependUnsigned_eq hk]
  simp only [bind_eq_ok, pure_eq_ok, ndnRegion, List.append_assoc, @pre_append_eq_ok _ _ _ _]
  constructor
  · rintro ⟨o₁, h₁, o₂, h₂, o₃, h₃, o₄, h₄, rfl⟩
    obtain ⟨hr, -⟩ := reserve_eq_ok.mp h₁
    have := offset_pre h₂
    have := offset_pre h₃
    have hlen : o.offset - o₃.offset = (ndnSignedElems name payload final_block_id).length +
        ndnDigestTL.length + mdlength := by omega
    rw [hlen] at h₄
    exact ⟨hr, by simp only; omega, o₁, h₁, o₃, ⟨o₂, h₂, h₃⟩, h₄⟩
  · rintro ⟨hmd, hend, o₁, h₁, o₃, ⟨o₂, h₂, h₃⟩, h₄⟩
    obtain ⟨hr, -⟩ := reserve_eq_ok.mp h₁
    have := offset_pre h₂
    have := offset_pre h₃
    have hlen : o.offset - o₃.offset = (ndnSignedElems name payload final_block_id).length +
        ndnDigestTL.length + mdlength := by omega
    refine ⟨o₁, h₁, o₂, h₂, o₃, h₃, s.o, by rw [hlen]; exact h₄, ?_⟩
    obtain ⟨so, md, en⟩ := s
    simp only [Signing.mk.injEq, true_and] at hmd hend ⊢
    omega

theorem prependUnsigned_laid (hk : ∀ k ∈ name.chunknum, k < 2 ^ 64)
    (h : ndntlvPrependUnsigned name payload final_block_id o = .ok s) :
    s.Laid (ndnRegion name payload final_block_id) ndnDigestTL := by
  obtain ⟨hmd, hend, o₁, h₁, hpre⟩ := (prependUnsigned_eq_ok hk).mp h
  obtain ⟨hr, hbuf⟩ := reserve_eq_ok.mp h₁
  have hoff := offset_pre hpre
  have hle := o.le
  have hlen : s.o.buf.length = o.buf.length := by
    rw [(pre_eq_ok.mp hpre).2, hbuf]
    simp only [List.length_append, List.length_take, List.length_drop] at hoff ⊢
    omega
  rw [List.length_append] at hoff
  exact ⟨at_pre hpre, by omega, hend, by omega⟩

/-- What the signer leaves in the buffer is a signed Data packet, with the HMAC of its signed
bytes. -/
theorem prependSignedContent_written {hmac : HmacKey → List UInt8 → Digest} {keyval : HmacKey}
    {o' : Back} {contentpos reslen : Nat} (hk : ∀ k ∈ name.chunknum, k < 2 ^ 64)
    (h : ndntlvPrependSignedContent hmac keyval name payload final_block_id o =
      .ok (o', contentpos, reslen)) :
    ∃ s, ndntlvPrependUnsigned name payload final_block_id o = .ok s ∧
      s.Laid (ndnRegion name payload final_block_id) ndnDigestTL ∧
      reslen = (ndnSignedData name payload final_block_id
        (hmac keyval (ndnRegion name payload final_block_id))).length ∧
      (o'.buf.drop o'.offset).take reslen = ndnSignedData name payload final_block_id
        (hmac keyval (ndnRegion name payload final_block_id)) := by
  obtain ⟨s, hs, h⟩ := (bind_eq_ok _ _ _).mp h
  obtain ⟨rfl, hres⟩ := Prod.mk.inj ((pure_eq_ok _ _).mp h)
  obtain ⟨-, rfl⟩ := Prod.mk.inj hres
  have hlaid := prependUnsigned_laid hk hs
  have hmd := ((prependUnsigned_eq_ok hk).mp hs).1
  have hat : At (s.sign hmac keyval).buf (s.sign hmac keyval).offset _ := hlaid.at_sign
  rw [← ndnSignedData_eq] at hat
  have hlen : o.offset - s.o.offset = (ndnSignedData name payload final_block_id
      (hmac keyval (ndnRegion name payload final_block_id))).length := by
    have h₁ := hlaid.endofsign
    have h₂ := hlaid.mdoffset
    have h₃ := (hmac keyval (ndnRegion name payload final_block_id)).2
    rw [show mdlength = 32 from rfl] at hmd
    rw [ndnSignedData_eq, List.length_append, List.length_append, h₃]
    omega
  refine ⟨s, hs, hlaid, hlen, ?_⟩
  rw [hlen]
  exact hat.take

end Ndn

/-! ## CCNx -/

section Ccnx

variable {name : Prefix} {payload : List UInt8} {lastchunknum : Option UInt32} {o o' : Back}

/-- The length of the validation trailer with the digest. -/
def trailerLen : Nat := 4 + 4 + 4 + mdlength

theorem prependTrailer_ok {s : Signing} (h : ccntlvPrependTrailer o = .ok s) :
    s.o.offset + trailerLen = o.offset := by
  obtain ⟨o₁, h₁, h⟩ := (bind_eq_ok _ _ _).mp h
  obtain ⟨o₂, h₂, h⟩ := (bind_eq_ok _ _ _).mp h
  obtain ⟨o₃, h₃, h⟩ := (bind_eq_ok _ _ _).mp h
  obtain ⟨o₄, h₄, h⟩ := (bind_eq_ok _ _ _).mp h
  obtain rfl := (pure_eq_ok _ _).mp h
  have hr := (reserve_eq_ok.mp h₁).1
  have hoff₂ := offset_pre (ccntlvPrependTL_eq_ok.mp h₂).2
  have hoff₃ := offset_pre (ccntlvPrependTL_eq_ok.mp h₃).2
  have hoff₄ := offset_pre (ccntlvPrependTL_eq_ok.mp h₄).2
  simp only [ccnxTL, List.length_cons, List.length_nil] at hoff₂ hoff₃ hoff₄
  unfold trailerLen
  simp only
  omega

/-- `len` is the length of the message without the trailer. -/
theorem ccntlvPrependUnsigned_ok {s : Signing} {contentpos len : Nat}
    (h : ccntlvPrependUnsigned name payload lastchunknum o = .ok (s, contentpos, len)) :
    s.o.offset + len + trailerLen = o.offset := by
  unfold ccntlvPrependUnsigned at h
  split at h
  · simp at h
  obtain ⟨t, ht, h⟩ := (bind_eq_ok _ _ _).mp h
  obtain ⟨⟨o₁, pos, l⟩, h₁, h⟩ := (bind_eq_ok _ _ _).mp h
  dsimp only at h
  split at h
  · simp at h
  obtain ⟨rfl, hres⟩ := Prod.mk.inj ((pure_eq_ok _ _).mp h)
  obtain ⟨-, rfl⟩ := Prod.mk.inj hres
  have htrailer := prependTrailer_ok ht
  obtain ⟨-, ⟨-, hpre⟩, -, hlen⟩ := ccntlvPrependContent_eq_ok.mp h₁
  have hoff := offset_pre hpre
  simp only
  omega

/-- The fixed header gives the length without the trailer. -/
theorem pktlen_fixedHdr {len : Nat} {packettype hoplimit : UInt8}
    (h : ccntlvPrependFixedHdr ccnxTlvV1 packettype len hoplimit o = .ok o') :
    ccnxPktlen (o'.buf.drop o'.offset) = ccnxHdrlen + len ∧ o'.offset + ccnxHdrlen = o.offset := by
  obtain ⟨hle, hpre⟩ := ccntlvPrependFixedHdr_eq_ok.mp h
  have hoff := offset_pre hpre
  rw [length_ccnxFixedHdr] at hoff
  have hat := at_pre hpre
  rw [ccnxFixedHdr, List.append_assoc, List.append_assoc] at hat
  have hlen := (at_append.mp (at_append.mp hat).2).1.take
  rw [length_beBytes] at hlen
  refine ⟨?_, hoff⟩
  rw [ccnxPktlen, List.drop_drop,
    show o'.offset + 2 = o'.offset + [ccnxTlvV1, packettype].length from rfl, hlen,
    beNat_beBytes, Nat.mod_eq_of_lt]
  have hmax : uint16Max = 65535 := rfl
  omega

/-- The length in the fixed header of signed content is too small by the trailer. -/
theorem ccntlv_signed_pktlen {hmac : HmacKey → List UInt8 → Digest} {keyval : HmacKey}
    {contentpos retlen : Nat} (h : ccntlvPrependSignedContentWithHdr hmac keyval name payload
      lastchunknum o = .ok (o', contentpos, retlen)) :
    ccnxPktlen (o'.buf.drop o'.offset) + trailerLen = retlen := by
  obtain ⟨⟨s, pos, len⟩, hs, h⟩ := (bind_eq_ok _ _ _).mp h
  obtain ⟨o₁, h₁, h⟩ := (bind_eq_ok _ _ _).mp h
  obtain ⟨rfl, hres⟩ := Prod.mk.inj ((pure_eq_ok _ _).mp h)
  obtain ⟨-, rfl⟩ := Prod.mk.inj hres
  obtain ⟨hlen, hoff⟩ := pktlen_fixedHdr h₁
  have hsum := ccntlvPrependUnsigned_ok hs
  rw [show (s.sign hmac keyval).offset = s.o.offset from rfl] at hoff
  omega

end Ccnx

end Ccnl
