import CcnLite.Pkt.CcnbEncode
import CcnLite.Pkt.CcntlvDecode
import CcnLite.Pkt.NdntlvEncode

/-!
# Content objects (`ccnl-pkt-builder.c`)

`mkSimpleContent` makes the packet of a content object in a scratch buffer and copies it;
`mkContentObject` puts the copy into a content, with a slice for the payload.

The place of the payload in the copy is right for no CCNB packet, for a CCNx packet that fills the
scratch buffer, and for an NDN packet whose payload repeats the bytes of the two signature fields
behind it (`payloadAt_iff`).
-/

namespace Ccnl

open CRun

/-! ## The builder -/

/-- `CCNL_MAX_PACKET_SIZE` of the Unix relay. -/
def maxPacketSize : Nat := 8096

/-- What `ccnl_mkContent` hands out: the scratch buffer, `*len`, `*contentpos` and `*offs`. -/
structure Crafted where
  tmp : List UInt8
  len : Nat
  contentpos : Nat
  offs : Nat

/-- `ccnl_mkContent`. The result of `ccnl_ccnb_fillContent` is not looked at; after a failure
`*len` is what it was. -/
def mkContent (name : Prefix) (payload : List UInt8) (tmp : Back) (len contentpos : Nat)
    (opts : Option NdnDataOpts) : Run Crafted :=
  match name.suite with
  | .ccnb => do
    match ← attempt (ccnbFillContent name payload len ⟨tmp.buf, 0⟩) with
    | some (o, contentpos, retlen) => return ⟨o.mem, len + retlen, contentpos, 0⟩
    | none => return ⟨tmp.buf, len, contentpos, 0⟩
  | .ccntlv => do
    let (o, contentpos, len) ← ccntlvPrependContentWithHdr name payload (some 0) tmp
    return ⟨o.buf, len, contentpos, o.offset⟩
  | .ndntlv => do
    let (o, contentpos, len) ← ndntlvPrependContent name payload opts tmp
    return ⟨o.buf, len, contentpos, o.offset⟩
  | .localrpc => return ⟨tmp.buf, len, contentpos, tmp.offset⟩

/-- `ccnl_mkSimpleContent`: the buffer, and `*payoffset`, which is 0 before. -/
def mkSimpleContent (name : Prefix) (payload : List UInt8) (opts : Option NdnDataOpts) :
    Run (Option (List UInt8) × Nat) := do
  match ← attempt (mkContent name payload (.room maxPacketSize) 0 0 opts) with
  | none => return (none, 0)
  | some c =>
    if 0 < c.len then return (some (← rdBytes c.tmp c.offs c.len), c.contentpos)
    else return (none, 0)

/-- `ccnl_prefix_dup`: the components, one after the other, in memory of their own. -/
def Prefix.dup (p : Prefix) : Prefix :=
  { mem := p.comps.flatten, comp := pieces 0 p.comps, suite := p.suite, chunknum := p.chunknum }

/-- What `ccnl_mkContentObject` sets in the packet of a content. -/
structure MadeContent where
  buf : List UInt8
  pfx : Prefix
  content : Span

/-- `ccnl_mkContentObject`. -/
def mkContentObject (name : Prefix) (payload : List UInt8) (opts : Option NdnDataOpts) :
    Run (Option MadeContent) := do
  match ← mkSimpleContent name payload opts with
  | (none, _) => return none
  | (some buf, dataoffset) => return some ⟨buf, name.dup, ⟨dataoffset, payload.length⟩⟩

/-! ## The place of the payload -/

/-- The payload is found at an index of a buffer. -/
structure PayloadAt (buf : List UInt8) (pos : Nat) (payload : List UInt8) : Prop where
  within : (⟨pos, payload.length⟩ : Span).Within 0 buf.length
  bytes : (⟨pos, payload.length⟩ : Span).bytes buf = payload

/-- The two signature fields of an NDN packet. -/
def ndnSignature : List UInt8 := ndnSignatureInfo ++ ndnSignatureValue

/-- The complete packet of a content object. -/
def contentPacket (name : Prefix) (payload : List UInt8) (opts : Option NdnDataOpts) : List UInt8 :=
  match name.suite with
  | .ccnb => ccnbContent name payload
  | .ccntlv => ccnxContent name payload (some 0)
  | .ndntlv => ndnData name payload opts
  | .localrpc => []

/-- The builder hands out the place of the payload: the packet is a CCNx packet that fills the
scratch buffer, or an NDN packet whose payload is the end of copies of the signature fields. -/
def PlaceRight (name : Prefix) (payload : List UInt8) (opts : Option NdnDataOpts) : Prop :=
  match name.suite with
  | .ccntlv => (contentPacket name payload opts).length = maxPacketSize
  | .ndntlv => ∃ k, payload <:+ (List.replicate k ndnSignature).flatten
  | .ccnb | .localrpc => False

section Place

variable {name : Prefix} {payload : List UInt8} {opts : Option NdnDataOpts} {buf xs ys : List UInt8}
  {pos : Nat}

/-- The payload at the end of the buffer, with `ys` behind it, and the last bytes of the buffer. -/
theorem payloadAt_last : PayloadAt (xs ++ (payload ++ ys)) (xs.length + ys.length) payload ↔
    payload <:+ payload ++ ys := by
  have hbytes : (⟨xs.length + ys.length, payload.length⟩ : Span).bytes (xs ++ (payload ++ ys)) =
      (payload ++ ys).drop ys.length := by
    rw [Span.bytes, ← List.drop_drop, List.drop_left, List.take_of_length_le]
    rw [List.length_drop, List.length_append]
    exact Nat.le_of_eq (Nat.add_sub_cancel_right ..)
  rw [List.suffix_iff_eq_drop, List.length_append, Nat.add_sub_cancel_left, ← hbytes, eq_comm]
  refine ⟨fun h => h.bytes, fun h => ⟨⟨Nat.zero_le _, ?_⟩, h⟩⟩
  simp only [List.length_append]
  omega

/-- The payload is the end of the buffer. -/
theorem payloadAt_suffix (h : payload <:+ buf) (hpos : buf.length ≤ pos + payload.length) :
    PayloadAt buf pos payload ↔ pos + payload.length = buf.length := by
  refine ⟨fun h' => Nat.le_antisymm h'.within.2 hpos, fun hlen => ?_⟩
  obtain ⟨xs, rfl⟩ := h
  rw [List.length_append] at hlen
  have hnil := (@payloadAt_last payload xs []).mpr (by simp)
  rw [List.append_nil, List.length_nil, Nat.add_zero] at hnil
  obtain rfl : pos = xs.length := by omega
  exact hnil

/-! ### The packet of each format -/

theorem mkSimpleContent_ccnb (h : name.suite = .ccnb) :
    mkSimpleContent name payload opts = .ok (none, 0) := by
  have hfill : ccnbFillContent name payload 0 ⟨(Back.room maxPacketSize).buf, 0⟩ =
      .error .bail := by
    rw [ccnbFillContent, ccnbMkHeader, if_pos (Nat.zero_le _)]
    rfl
  rw [mkSimpleContent, mkContent, h]
  simp only [hfill, attempt_bail, ok_bind]
  rfl

/-- The payload of a CCNx packet is the end of the packet. -/
theorem payload_suffix_ccnx (last : Option UInt32) : payload <:+ ccnxContent name payload last := by
  rw [ccnxContent, ccnxPacket, ccnxTLV, ccnxContentElems, ccnxTLV]
  exact (List.suffix_append _ _).trans ((List.suffix_append _ _).trans
    ((List.suffix_append _ _).trans (List.suffix_append _ _)))

/-- The signature fields of an NDN packet are behind its payload. -/
theorem payload_signature_suffix : payload ++ ndnSignature <:+ ndnData name payload opts := by
  have hcontent : payload ++ ndnSignature <:+ ndnContent payload ++ ndnSignature := by
    rw [ndnContent, ndnTLV, List.append_assoc]
    exact List.suffix_append _ _
  rw [ndnData, ndnTLV, ndnDataElems]
  exact hcontent.trans ((List.suffix_append _ _).trans
    ((List.suffix_append _ _).trans (List.suffix_append _ _)))

/-- A packet that was written from the end of the scratch buffer is copied. -/
theorem mkSimpleContent_back {o : Back} {bs : List UInt8} {contentpos : Nat}
    (h : mkContent name payload (.room maxPacketSize) 0 0 opts =
      .ok ⟨o.buf, bs.length, contentpos, o.offset⟩)
    (hpre : Back.pre bs (.room maxPacketSize) = .ok o) (hne : bs ≠ []) :
    mkSimpleContent name payload opts = .ok (some bs, contentpos) := by
  rw [mkSimpleContent, h, attempt_ok, ok_bind]
  dsimp only
  rw [if_pos (List.length_pos_iff.mpr hne), (Back.at_pre hpre).rdBytes]
  rfl

theorem sub64_eq {a b : Nat} (h : b ≤ a) (ha : a < 2 ^ 64) : sub64 a b = a - b := by
  unfold sub64 u64
  omega

theorem mkSimpleContent_ccntlv (h : name.suite = .ccntlv)
    (hfit : (contentPacket name payload opts).length ≤ maxPacketSize) :
    mkSimpleContent name payload opts =
      .ok (some (contentPacket name payload opts), maxPacketSize - payload.length) := by
  have hpacket : contentPacket name payload opts = ccnxContent name payload (some 0) := by
    rw [contentPacket, h]
  rw [hpacket] at hfit ⊢
  obtain ⟨o, ho⟩ := Back.pre_ok_iff (o := .room maxPacketSize).mpr hfit
  have hle := (@payload_suffix_ccnx name payload (some 0)).length_le
  have hprep := ccntlvPrependContentWithHdr_eq_ok.mpr
    ⟨⟨Nat.le_trans hfit (by decide), ho, rfl⟩, rfl⟩
  refine mkSimpleContent_back (o := o) ?_ ho (by simp [ccnxContent, ccnxPacket, ccnxFixedHdr])
  rw [mkContent, h]
  simp only [hprep, ok_bind, Back.offset_room]
  rw [sub64_eq (Nat.le_trans hle hfit) (by decide)]
  rfl

theorem mkSimpleContent_ndntlv (h : name.suite = .ndntlv)
    (hk : ∀ k ∈ name.chunknum, k ≤ uint32Max)
    (hfit : (contentPacket name payload opts).length ≤ maxPacketSize) :
    mkSimpleContent name payload opts =
      .ok (some (contentPacket name payload opts),
        (contentPacket name payload opts).length - payload.length) := by
  have hpacket : contentPacket name payload opts = ndnData name payload opts := by
    rw [contentPacket, h]
  rw [hpacket] at hfit ⊢
  obtain ⟨o, ho⟩ := Back.pre_ok_iff (o := .room maxPacketSize).mpr hfit
  have hoff : o.offset + (ndnData name payload opts).length = maxPacketSize := Back.offset_pre ho
  have hle := (@payload_signature_suffix name payload opts).length_le
  rw [List.length_append] at hle
  have hprep := @prependContent_eq name payload opts (.room maxPacketSize)
    fun k hk' => Nat.lt_of_le_of_lt (hk k hk') (by decide)
  rw [ho, ok_bind] at hprep
  have hsig : ndnSignature.length = 7 := by decide
  have hne : ndnData name payload opts ≠ [] := List.ne_nil_of_length_pos (by omega)
  refine mkSimpleContent_back (o := o) ?_ ho hne
  have hmax : maxPacketSize < 2 ^ 64 := by decide
  have hlen : maxPacketSize - o.offset = (ndnData name payload opts).length := by omega
  have hpos : sub64 (sub64 maxPacketSize payload.length) o.offset =
      (ndnData name payload opts).length - payload.length := by
    rw [sub64_eq (a := maxPacketSize) (by omega) hmax, sub64_eq (by omega) (by omega)]
    omega
  rw [mkContent, h]
  simp only [hprep, pure_bind, Back.offset_room, hpos, hlen]
  rfl

theorem mkSimpleContent_localrpc (h : name.suite = .localrpc) :
    mkSimpleContent name payload opts = .ok (none, 0) := by
  rw [mkSimpleContent, mkContent, h]
  rfl

/-- Where the builder has a buffer, its claim is about that buffer. -/
theorem handsOut_iff (h : mkSimpleContent name payload opts = .ok (some buf, pos)) :
    (∃ buf' pos', mkSimpleContent name payload opts = .ok (some buf', pos') ∧
      PayloadAt buf' pos' payload) ↔ PayloadAt buf pos payload := by
  constructor
  · rintro ⟨buf', pos', h', hat⟩
    rw [h] at h'
    cases h'
    exact hat
  · exact fun hat => ⟨buf, pos, h, hat⟩

/-- The builder hands out the place of the payload exactly when `PlaceRight` says so. -/
theorem mkSimpleContent_iff (hk : ∀ k ∈ name.chunknum, k ≤ uint32Max)
    (hfit : (contentPacket name payload opts).length ≤ maxPacketSize) :
    (∃ buf pos, mkSimpleContent name payload opts = .ok (some buf, pos) ∧
      PayloadAt buf pos payload) ↔ PlaceRight name payload opts := by
  have hnone : mkSimpleContent name payload opts = .ok (none, 0) →
      ¬ ∃ buf pos, mkSimpleContent name payload opts = .ok (some buf, pos) ∧
        PayloadAt buf pos payload := by
    rintro h ⟨buf, pos, hsome, -⟩
    rw [h] at hsome
    cases hsome
  unfold PlaceRight
  cases h : name.suite with
  | ccnb => exact iff_of_false (hnone (mkSimpleContent_ccnb h)) id
  | localrpc => exact iff_of_false (hnone (mkSimpleContent_localrpc h)) id
  | ccntlv =>
    have hsuffix : payload <:+ contentPacket name payload opts := by
      rw [contentPacket, h]
      exact payload_suffix_ccnx (some 0)
    have hle := Nat.le_trans hsuffix.length_le hfit
    have hsum : maxPacketSize - payload.length + payload.length = maxPacketSize :=
      Nat.sub_add_cancel hle
    rw [handsOut_iff (mkSimpleContent_ccntlv h hfit), payloadAt_suffix hsuffix (by omega), hsum,
      eq_comm]
  | ndntlv =>
    have hsuffix : payload ++ ndnSignature <:+ contentPacket name payload opts := by
      rw [contentPacket, h]
      exact payload_signature_suffix
    rw [handsOut_iff (mkSimpleContent_ndntlv h hk hfit)]
    obtain ⟨xs, hxs⟩ := hsuffix
    have hpos : (contentPacket name payload opts).length - payload.length =
        xs.length + ndnSignature.length := by
      rw [← hxs, List.length_append, List.length_append]
      omega
    rw [hpos, ← hxs, payloadAt_last, suffix_append_iff (by decide)]

/-- A content object has its payload where the builder has found it. -/
theorem mkContentObject_iff :
    (∃ c, mkContentObject name payload opts = .ok (some c) ∧
      c.content.Within 0 c.buf.length ∧ c.content.bytes c.buf = payload) ↔
    ∃ buf pos, mkSimpleContent name payload opts = .ok (some buf, pos) ∧
      PayloadAt buf pos payload := by
  unfold mkContentObject
  constructor
  · rintro ⟨c, hc, hwithin, hbytes⟩
    obtain ⟨⟨buf, pos⟩, hbuf, hc⟩ := (bind_eq_ok _ _ _).mp hc
    cases buf with
    | none => simp at hc
    | some buf =>
      cases hc
      exact ⟨buf, pos, hbuf, hwithin, hbytes⟩
  · rintro ⟨buf, pos, hbuf, hwithin, hbytes⟩
    exact ⟨_, by rw [hbuf]; rfl, hwithin, hbytes⟩

/-- Both functions find the payload exactly when `PlaceRight` says so. -/
theorem payload_position_iff (hk : ∀ k ∈ name.chunknum, k ≤ uint32Max)
    (hfit : (contentPacket name payload opts).length ≤ maxPacketSize) :
    ((∃ buf pos, mkSimpleContent name payload opts = .ok (some buf, pos) ∧
      PayloadAt buf pos payload) ↔ PlaceRight name payload opts) ∧
    ((∃ c, mkContentObject name payload opts = .ok (some c) ∧
      c.content.Within 0 c.buf.length ∧ c.content.bytes c.buf = payload) ↔
      PlaceRight name payload opts) :=
  ⟨mkSimpleContent_iff hk hfit, mkContentObject_iff.trans (mkSimpleContent_iff hk hfit)⟩

end Place

/-- The name /a in each format. -/
def slashA (suite : Suite) : Prefix := { mem := [97], comp := [⟨0, 1⟩], suite := suite }

/-- An NDN packet with the payload `hi`. -/
theorem payload_position_hi :
    ((∃ buf pos, mkSimpleContent (slashA .ndntlv) [104, 105] none = .ok (some buf, pos) ∧
      PayloadAt buf pos [104, 105]) ↔ PlaceRight (slashA .ndntlv) [104, 105] none) ∧
    ((∃ c, mkContentObject (slashA .ndntlv) [104, 105] none = .ok (some c) ∧
      c.content.Within 0 c.buf.length ∧ c.content.bytes c.buf = [104, 105]) ↔
      PlaceRight (slashA .ndntlv) [104, 105] none) :=
  payload_position_iff (by decide) (by decide)

/-- No CCNB packet is made, and in an NDN packet two bytes of the signature are taken for the
payload `hi`. -/
theorem payload_misplaced :
    ((contentPacket (slashA .ccnb) [104, 105] none).length ≤ maxPacketSize ∧
      ¬ ∃ buf pos, mkSimpleContent (slashA .ccnb) [104, 105] none = .ok (some buf, pos) ∧
        PayloadAt buf pos [104, 105]) ∧
    (contentPacket (slashA .ndntlv) [104, 105] none).length ≤ maxPacketSize ∧
      ¬ ∃ buf pos, mkSimpleContent (slashA .ndntlv) [104, 105] none = .ok (some buf, pos) ∧
        PayloadAt buf pos [104, 105] := by
  have hndn : mkSimpleContent (slashA .ndntlv) [104, 105] none = .ok (some (contentPacket
      (slashA .ndntlv) [104, 105] none), 18) := mkSimpleContent_ndntlv rfl (by decide) (by decide)
  refine ⟨⟨by decide, ?_⟩, by decide, ?_⟩
  · rintro ⟨buf, pos, h, -⟩
    rw [mkSimpleContent_ccnb rfl] at h
    cases h
  · rw [handsOut_iff hndn]
    exact fun h => absurd h.bytes (by decide)

end Ccnl
