import CcnLite.Fwd.Dispatch
import CcnLite.Utils.Fetch
import CcnLite.Utils.Hmac

/-!
# Validating a signature (`ccn-lite-valid.c`)

`ccnlParse` parses the packet that was read from the standard input, and `validate` tries the keys
on the bytes that the parser has marked as signed.

* `signed_verifies_iff`: signed NDN content verifies and comes back, when there is a byte behind it.
* `ccntlv_signed_never`: signed CCNx content never has its own length in the fixed header.
-/

namespace Ccnl

open CRun Tlv Back

/-! ## The program -/

/-- `ccnl_parse`; `none` is the packet without any field that a suite without HMAC gets. -/
def ccnlParse (mem : List UInt8) (datalen : Nat) : Run (Option Pkt) := do
  match ← nextSuite mem none ⟨0, datalen⟩ with
  | (some .ccntlv, c) =>
    let hdrlen ← ccntlvGetHdrLen (mem.drop c.pos) c.len
    let (pkt, _) ← ccntlvBytes2pkt mem 0 ⟨c.pos + hdrlen, c.len - hdrlen⟩
    return some pkt
  | (some .ndntlv, c) =>
    match ← ndntlvDehead mem c with
    | (none, _) => throw .bail
    | (some (typ, _), c) =>
      let (pkt, _) ← ndntlvBytes2pkt mem typ 0 c
      return some pkt
  | (some _, _) => return none
  | (none, _) => throw .bail

/-- Where the pointers of the HMAC check point to: the CCNx parser moves them to its copy. -/
def hmacMem (mem : List UInt8) (pkt : Pkt) : List UInt8 :=
  if pkt.suite = .ccntlv then pkt.buf else mem

section Validate

variable (hmac : HmacKey → List UInt8 → Digest) (mem : List UInt8) (pkt : Pkt)

/-- A pass of the loop over the keys: is it the digest of the packet? -/
def trySignature (keyval : HmacKey) : Run Bool := do
  match pkt.hmacStart, pkt.hmacSignature with
  | some hmacStart, some hmacSignature =>
    let data ← rdBytes (hmacMem mem pkt) hmacStart pkt.hmacLen
    let signature ← rdBytes (hmacMem mem pkt) hmacSignature 32
    return (hmac keyval data).1 == signature
  | _, _ => throw .null

/-- The loop over the keys, each of them as `ccnl_hmac256_keyval` has made it. -/
def validate (keyvals : List HmacKey) : Run Bool := keyvals.anyM (trySignature hmac mem pkt)

end Validate

/-! ## The keys -/

/-- A key that fits is found, whichever others are tried before it. -/
theorem validate_of_mem {hmac : HmacKey → List UInt8 → Digest} {mem : List UInt8} {pkt : Pkt}
    {keyvals : List HmacKey} {keyval : HmacKey} (hk : keyval ∈ keyvals)
    (htry : ∀ k, ∃ b, trySignature hmac mem pkt k = .ok b)
    (h : trySignature hmac mem pkt keyval = .ok true) : validate hmac mem pkt keyvals = .ok true := by
  unfold validate
  induction keyvals with
  | nil => cases hk
  | cons k keyvals ih =>
    obtain ⟨b, hb⟩ := htry k
    rw [List.anyM, hb, ok_bind]
    cases b with
    | true => rfl
    | false =>
      refine ih ((List.mem_cons.mp hk).resolve_left fun heq => ?_)
      subst heq
      rw [hb] at h
      cases h

/-- The signed bytes and the digest where the parser says that they are. -/
theorem validate_of_at {hmac : HmacKey → List UInt8 → Digest} {mem region : List UInt8} {pkt : Pkt}
    {start sig : Nat} {keyvals : List HmacKey} {keyval : HmacKey} (hk : keyval ∈ keyvals)
    (hstart : pkt.hmacStart = some start) (hsig : pkt.hmacSignature = some sig)
    (hlen : pkt.hmacLen = region.length) (hregion : At (hmacMem mem pkt) start region)
    (hdigest : At (hmacMem mem pkt) sig (hmac keyval region).1) :
    validate hmac mem pkt keyvals = .ok true := by
  have htry : ∀ k, trySignature hmac mem pkt k =
      .ok ((hmac k region).1 == (hmac keyval region).1) := fun k => by
    have hmd := hdigest.rdBytes
    rw [(hmac keyval region).2] at hmd
    unfold trySignature
    rw [hstart, hsig, hlen]
    dsimp only
    rw [hregion.rdBytes, ok_bind, hmd]
    rfl
  exact validate_of_mem hk (fun k => ⟨_, htry k⟩) (by rw [htry keyval, beq_self_eq_true])

/-! ## The elements of signed content -/

section Elems

variable {mem : List UInt8} {start p n : Nat} {s : NdnState} {d : NdntlvDetail}

/-- The 64 bits of `final_block_id` that signed content carries. -/
def signedBlockOf (final_block_id : Option UInt32) : Nat :=
  match final_block_id with
  | some v => v.toNat
  | none => 2 ^ 64 - 1

theorem nested_signedMetaInfo (final_block_id : Option UInt32)
    (h : At mem p (ndnSignedFinalBlockId final_block_id)) :
    nested (ndntlvDehead mem) (ndnMetaInfoElem mem)
        ⟨p, (ndnSignedFinalBlockId final_block_id).length⟩ (d, 2 ^ 64 - 1) =
      .ok (d, signedBlockOf final_block_id) := by
  cases final_block_id with
  | none => exact nested_end p _
  | some v =>
    have := v.toNat_lt
    exact nested_marked (n := 0) (show v.toNat < 2 ^ 63 by omega) (2 ^ 64 - 1) h

theorem top_signedMetaInfo (final_block_id : Option UInt32)
    (h : At mem p (ndnSignedMetaInfo final_block_id))
    (hlen : (ndnSignedMetaInfo final_block_id).length < 2 ^ 32) (hs : s.pkt.val = 2 ^ 64 - 1) :
    ndnTop mem start ⟨p, (ndnSignedMetaInfo final_block_id).length + n⟩ (s.set d) =
      ndnTop mem start ⟨p + (ndnSignedMetaInfo final_block_id).length, n⟩
        { s with pkt := { s.pkt.setNdntlv d with val := signedBlockOf final_block_id } } := by
  refine top_tlv h (by decide) (Nat.lt_of_le_of_lt (length_value_le _ _) hlen) ?_
  unfold ndnElem
  rw [show ndnTlv ndnTlvMetaInfo = .metaInfo from rfl]
  dsimp only
  rw [show (s.set d).pkt.ndntlv = d from rfl, show (s.set d).pkt.val = 2 ^ 64 - 1 from hs,
    nested_signedMetaInfo final_block_id (at_tlv.mp h).2]
  rfl

/-- The signature type says that there is an HMAC. -/
theorem top_hmacSignatureInfo (h : At mem p ndnHmacSignatureInfo) :
    ndnTop mem start ⟨p, ndnHmacSignatureInfo.length + n⟩ s =
      ndnTop mem start ⟨p + ndnHmacSignatureInfo.length, n⟩ { s with validAlgoIsHmac256 := true } := by
  have hv := (at_tlv.mp h).2
  let w := ndnTLV ndnTlvSignatureType [ndnValSigtypeHmac256]
  let q := valuePos (valuePos p ndnTlvSignatureInfo w.length) ndnTlvSignatureType 1
  have hb : rd mem q = .ok ndnValSigtypeHmac256 := (at_tlv.mp hv).2.rd
  refine top_tlv h (by decide) (by decide) ?_
  have helem : ∀ hd n', ndnSignatureInfoElem mem hd ndnTlvSignatureType 1 ⟨q, n'⟩
      s.validAlgoIsHmac256 = .ok (.stop true) := fun hd n' => by
    unfold ndnSignatureInfoElem
    rw [if_pos ⟨rfl, rfl⟩]
    dsimp only
    rw [hb, ok_bind, if_pos rfl]
    rfl
  unfold ndnElem
  rw [show ndnTlv ndnTlvSignatureInfo = .signatureInfo from rfl]
  dsimp only
  have hpos : 0 < w.length + 0 := Nat.add_pos_left (List.length_pos_iff.mpr (tlv_ne_nil _ _)) 0
  have hstop := nested_stop (dehead_tlv hv (by decide) (by decide) 0) hpos (helem _ _)
  rw [Nat.add_zero] at hstop
  rw [hstop]
  rfl

/-- The digest: what is in front of its header has been signed. -/
theorem top_digest {v : List UInt8} (hv : v.length = 32) (hs : s.validAlgoIsHmac256 = true)
    (h : At mem p (ndnTLV ndnTlvSignatureValue v)) :
    ndnTop mem start ⟨p, (ndnTLV ndnTlvSignatureValue v).length + n⟩ s =
      ndnTop mem start ⟨p + (ndnTLV ndnTlvSignatureValue v).length, n⟩
        { s with pkt := { s.pkt with
          hmacLen := p - start, hmacSignature := some (valuePos p ndnTlvSignatureValue 32) } } := by
  refine top_tlv h (by decide) (by rw [hv]; decide) ?_
  unfold ndnElem
  rw [show ndnTlv ndnTlvSignatureValue = .signatureValue from rfl]
  dsimp only
  rw [if_pos ⟨hs, hv⟩, hv]
  rfl

end Elems

/-! ## Signed NDN content -/

section Ndn

variable {hmac : HmacKey → List UInt8 → Digest} {keyval : HmacKey} {name : Prefix}
  {payload : List UInt8} {final_block_id : Option UInt32} {mem : List UInt8}

/-- The packet after the elements of signed content, with the first of them at `q`. -/
def signedPkt (q : Nat) (name : Prefix) (payload : List UInt8) (final_block_id : Option UInt32)
    (pkt : Pkt) : Pkt :=
  let c := q + (ndnName name).length + (ndnSignedMetaInfo final_block_id).length
  let md := q + (ndnSignedElems name payload final_block_id).length
  { pkt with
    pfx := some (parsedName q name)
    val := signedBlockOf final_block_id
    content := some ⟨valuePos c ndnTlvContent payload.length, payload.length⟩
    hmacLen := md
    hmacSignature := some (valuePos md ndnTlvSignatureValue 32) }

/-- The packet loop over the elements of signed content. -/
theorem top_signedElems {q : Nat} {s : NdnState} {v : List UInt8} (hname : NdnEncodable name)
    (h : At mem q (ndnSignedElems name payload final_block_id ++ ndnTLV ndnTlvSignatureValue v))
    (hlen : (ndnSignedElems name payload final_block_id).length < 2 ^ 32) (hv : v.length = 32)
    (hpfx : s.pkt.pfx = none) :
    ndnTop mem 0 ⟨q, (ndnSignedElems name payload final_block_id).length +
        (ndnTLV ndnTlvSignatureValue v).length⟩ (s.set s.pkt.ndntlv) =
      ndnTop mem 0 ⟨q + (ndnSignedElems name payload final_block_id).length +
          (ndnTLV ndnTlvSignatureValue v).length, 0⟩
        { pkt := signedPkt q name payload final_block_id (s.set s.pkt.ndntlv).pkt
          validAlgoIsHmac256 := true } := by
  obtain ⟨h, h₅⟩ := at_append.mp h
  obtain ⟨h₁, h'⟩ := at_append.mp h
  obtain ⟨h₂, h'⟩ := at_append.mp h'
  obtain ⟨h₃, h₄⟩ := at_append.mp h'
  have hlens : (ndnSignedElems name payload final_block_id).length = (ndnName name).length +
      ((ndnSignedMetaInfo final_block_id).length + ((ndnContent payload).length +
        ndnHmacSignatureInfo.length)) := by
    simp only [ndnSignedElems, List.length_append]
  have hsum : (ndnSignedElems name payload final_block_id).length +
      (ndnTLV ndnTlvSignatureValue v).length = (ndnName name).length +
        ((ndnSignedMetaInfo final_block_id).length + ((ndnContent payload).length +
          (ndnHmacSignatureInfo.length + ((ndnTLV ndnTlvSignatureValue v).length + 0)))) := by omega
  have hmd : q + (ndnName name).length + (ndnSignedMetaInfo final_block_id).length +
      (ndnContent payload).length + ndnHmacSignatureInfo.length =
        q + (ndnSignedElems name payload final_block_id).length := by omega
  rw [← hmd] at h₅
  have hset : ∀ v : Nat, { s.set s.pkt.ndntlv with pkt := { (s.set s.pkt.ndntlv).pkt with
      pfx := some (parsedName q name), val := v } } = NdnState.set { s with pkt := { s.pkt with
        pfx := some (parsedName q name), val := v } } s.pkt.ndntlv := fun v => rfl
  rw [hsum, top_name (s := s.set s.pkt.ndntlv) hname h₁ (by omega) hpfx (Nat.zero_le q), hset,
    top_signedMetaInfo final_block_id h₂ (by omega) rfl, top_content payload h₃ (by omega),
    top_hmacSignatureInfo h₄, top_digest hv rfl h₅, hmd]
  rfl

/-- A Data packet at the start of the memory is parsed as an NDN packet. -/
theorem nextSuite_data {bs : List UInt8} (h : At mem 0 (0x06 :: bs)) (n : Nat) :
    nextSuite mem none ⟨0, n + 1⟩ = .ok (some .ndntlv, ⟨0, n + 1⟩) := by
  have hb : rd mem 0 = .ok 0x06 := h.rd
  have hdehead : switchDehead mem ⟨0, n + 1⟩ = .ok none := by
    unfold switchDehead
    split
    · rfl
    · dsimp only
      rw [hb]
      rfl
  have hswitches : switches mem none ⟨0, n + 1⟩ = .ok (none, ⟨0, n + 1⟩) := by
    unfold switches loop switchStep
    rw [hdehead]
    rfl
  have hsuite : pkt2suite mem ⟨0, n + 1⟩ = .ok (some .ndntlv) := by
    unfold pkt2suite
    rw [if_neg (Nat.succ_ne_zero n), hswitches, ok_bind]
    dsimp only
    rw [hb]
    rfl
  unfold nextSuite
  rw [hswitches, ok_bind]
  dsimp only
  rw [hsuite]
  rfl

/-- The program on a Data packet whose elements end in the state `s`. -/
theorem ccnlParse_tlv {body : List UInt8} {s : NdnState} (h : At mem 0 (ndnTLV ndnTlvData body))
    (hlen : body.length < 2 ^ 32)
    (htop : ndnTop mem 0 ⟨valuePos 0 ndnTlvData body.length, body.length⟩
        { pkt := ndnPkt ndnTlvData 0 } =
      ndnTop mem 0 ⟨valuePos 0 ndnTlvData body.length + body.length, 0⟩ s) :
    ccnlParse mem (ndnTLV ndnTlvData body).length =
      (rd mem (ndnTLV ndnTlvData body).length >>= fun _ =>
        .ok (some (s.pkt.rebase 0 (ndnTLV ndnTlvData body)))) := by
  have hcons : ndnTLV ndnTlvData body = 0x06 :: (ndnTLval body.length ++ body) := rfl
  have hpos : (ndnTLV ndnTlvData body).length = (ndnTLval body.length ++ body).length + 1 := by
    rw [hcons, List.length_cons]
  have hsuite := nextSuite_data (hcons ▸ h) (ndnTLval body.length ++ body).length
  have hhead := dehead_tlv h (by decide) hlen 0
  rw [← hpos] at hsuite
  unfold ccnlParse
  rw [hsuite, ok_bind]
  dsimp only
  rw [Nat.add_zero] at hhead
  rw [hhead, ok_bind]
  dsimp only
  rw [Nat.add_zero, bytes2pkt_tlv (.inr rfl) h htop, Nat.zero_add, bind_assoc]
  rfl

/-- `final_block_id` of signed content, -1 when it carries none. -/
def signedBlockIdOf (final_block_id : Option UInt32) : Int :=
  match final_block_id with
  | some v => v.toNat
  | none => -1

/-- What the validation of signed content is to give: the signed region and the digest are where
the signer had them, a key that signed it is found, and the packet is the one that was given. -/
structure Verified (hmac : HmacKey → List UInt8 → Digest) (keyval : HmacKey) (name : Prefix)
    (payload : List UInt8) (final_block_id : Option UInt32) (s : Signing) (mem : List UInt8)
    (pkt : Pkt) : Prop where
  hmacStart : pkt.hmacStart = some 0
  hmacLen : pkt.hmacLen = s.endofsign - s.o.offset
  hmacSignature : pkt.hmacSignature = some (s.mdoffset - s.o.offset)
  valid : ∀ keyvals, keyval ∈ keyvals → validate hmac mem pkt keyvals = .ok true
  name : Named name pkt
  content : ∃ c, pkt.content = some c ∧ c.bytes pkt.buf = payload
  finalBlockId : pkt.finalBlockId = signedBlockIdOf final_block_id

theorem finalBlockId_of_signed {pkt : Pkt} (h : pkt.val = signedBlockOf final_block_id) :
    pkt.finalBlockId = signedBlockIdOf final_block_id := by
  rw [Pkt.finalBlockId, h]
  cases final_block_id with
  | none => decide
  | some v =>
    have := v.toNat_lt
    exact if_pos (by simp only [signedBlockOf]; omega)

/-- The program on signed content: it verifies, if there is a byte behind it. -/
theorem parse_signed {s : Signing} (hname : NdnEncodable name)
    (hs : s.Laid (ndnRegion name payload final_block_id) ndnDigestTL)
    (h : At mem 0 (ndnSignedData name payload final_block_id
      (hmac keyval (ndnRegion name payload final_block_id))))
    (hlen : (ndnSignedData name payload final_block_id
      (hmac keyval (ndnRegion name payload final_block_id))).length < 2 ^ 32) :
    ∃ pkt, Verified hmac keyval name payload final_block_id s mem pkt ∧
      ccnlParse mem (ndnSignedData name payload final_block_id
          (hmac keyval (ndnRegion name payload final_block_id))).length =
        (rd mem (ndnSignedData name payload final_block_id
            (hmac keyval (ndnRegion name payload final_block_id))).length >>= fun _ =>
          .ok (some pkt)) := by
  let d := hmac keyval (ndnRegion name payload final_block_id)
  let elems := ndnSignedElems name payload final_block_id
  let body := elems ++ ndnTLV ndnTlvSignatureValue d.1
  let q := valuePos 0 ndnTlvData body.length
  have hbody : body.length < 2 ^ 32 := Nat.lt_of_le_of_lt (length_value_le _ _) hlen
  have hsum : body.length = elems.length + (ndnTLV ndnTlvSignatureValue d.1).length :=
    List.length_append
  have helems : elems.length < 2 ^ 32 := by omega
  have hat : At mem q body := (at_tlv.mp h).2
  have htop := top_signedElems (q := q) (s := { pkt := ndnPkt ndnTlvData 0 }) hname hat helems
    d.2 rfl
  rw [← hsum, Nat.add_assoc, ← hsum] at htop
  let pkt := (signedPkt q name payload final_block_id (ndnPkt ndnTlvData 0)).rebase 0
    (ndnSignedData name payload final_block_id d)
  -- the place where the parser finds the digest is that where the signer put it
  have hdigestTL : (ndnTLV ndnTlvSignatureValue d.1).length = ndnDigestTL.length + mdlength := by
    rw [ndnTLV, List.length_append, d.2]
    rfl
  have hregion : (ndnRegion name payload final_block_id).length = q + elems.length := by
    rw [ndnRegion, List.length_append, Nat.add_assoc, ← hdigestTL, ← hsum]
    show _ = 0 + (ndnTL ndnTlvData body.length).length + elems.length
    rw [Nat.zero_add]
  have hend := hs.endofsign
  have hmd := hs.mdoffset
  have hlenEq : q + elems.length = s.endofsign - s.o.offset := by omega
  have hsigEq : valuePos (q + elems.length) ndnTlvSignatureValue 32 = s.mdoffset - s.o.offset := by
    show q + elems.length + ndnDigestTL.length = _
    omega
  have hdata := h
  rw [ndnSignedData_eq, List.append_assoc] at hdata
  obtain ⟨hat₁, hat₂⟩ := at_append.mp hdata
  have hat₃ := (at_append.mp hat₂).2
  rw [Nat.zero_add, hregion] at hat₃
  obtain ⟨hnameAt, h'⟩ := at_append.mp (at_append.mp hat).1
  obtain ⟨-, h'⟩ := at_append.mp h'
  have hcontentAt := (at_tlv.mp (at_append.mp h').1).2
  let c : Span := ⟨valuePos (q + (ndnName name).length +
    (ndnSignedMetaInfo final_block_id).length) ndnTlvContent payload.length, payload.length⟩
  have hparts : elems.length = (ndnName name).length + ((ndnSignedMetaInfo final_block_id).length +
      ((ndnContent payload).length + ndnHmacSignatureInfo.length)) := by
    simp only [elems, ndnSignedElems, List.length_append]
  have hdataEnd : q + body.length = 0 + (ndnSignedData name payload final_block_id d).length :=
    valuePos_add _ _ _
  refine ⟨pkt, ⟨rfl, hlenEq, congrArg some hsigEq, fun keyvals hk => ?_, ?_, ?_,
    finalBlockId_of_signed rfl⟩, ccnlParse_tlv h hbody htop⟩
  · exact validate_of_at hk rfl rfl hregion.symm hat₁ hat₃
  · refine named_rebase hnameAt (Nat.zero_le q) h ?_ rfl
    omega
  · have hwithin : c.Within 0 (0 + (ndnSignedData name payload final_block_id d).length) := by
      have hv : c.off + c.len = q + (ndnName name).length +
          (ndnSignedMetaInfo final_block_id).length + (ndnContent payload).length := valuePos_add _ _ _
      exact ⟨Nat.zero_le _, by omega⟩
    have hcopy := @bytes_rebase _ mem _ _ hwithin
    rw [Nat.add_sub_cancel_left, h.take] at hcopy
    exact ⟨c.rebase 0, rfl, hcopy.trans hcontentAt.bytes⟩

/-- What the signer wrote, with other bytes behind it: the program looks at the first of these. -/
theorem parse_written {o o' : Back} {contentpos reslen : Nat} (hname : NdnEncodable name)
    (h : ndntlvPrependSignedContent hmac keyval name payload final_block_id o =
      .ok (o', contentpos, reslen)) (hlen : reslen < 2 ^ 32) (after : List UInt8) :
    let mem := (o'.buf.drop o'.offset).take reslen ++ after
    ∃ s pkt, ndntlvPrependUnsigned name payload final_block_id o = .ok s ∧
      Verified hmac keyval name payload final_block_id s mem pkt ∧
      ccnlParse mem reslen = (rd mem reslen >>= fun _ => .ok (some pkt)) ∧
      mem[reslen]? = after[0]? := by
  intro mem
  obtain ⟨s, hs, hlaid, rfl, hwritten⟩ := prependSignedContent_written hname.chunk_lt h
  have hat := at_mid [] (ndnSignedData name payload final_block_id
    (hmac keyval (ndnRegion name payload final_block_id))) after
  have hmem : mem = ndnSignedData name payload final_block_id
      (hmac keyval (ndnRegion name payload final_block_id)) ++ after := congrArg (· ++ after) hwritten
  rw [List.nil_append, ← hmem] at hat
  obtain ⟨pkt, hpkt, hparse⟩ := parse_signed hname hlaid hat hlen
  refine ⟨s, pkt, hs, hpkt, hparse, ?_⟩
  rw [hmem, List.getElem?_append_right (Nat.le_refl _), Nat.sub_self]

/-- Signed content verifies and comes back exactly when there is a byte behind it in the receive
buffer. -/
theorem signed_verifies_iff {o o' : Back} {contentpos reslen : Nat} (hname : NdnEncodable name)
    (h : ndntlvPrependSignedContent hmac keyval name payload final_block_id o =
      .ok (o', contentpos, reslen)) (hlen : reslen < 2 ^ 32) (after : List UInt8) :
    let mem := (o'.buf.drop o'.offset).take reslen ++ after
    (∃ s pkt, ndntlvPrependUnsigned name payload final_block_id o = .ok s ∧
      ccnlParse mem reslen = .ok (some pkt) ∧
      Verified hmac keyval name payload final_block_id s mem pkt) ↔ after ≠ [] := by
  intro mem
  obtain ⟨s, pkt, hs, hpkt, hparse, hbehind⟩ := parse_written hname h hlen after
  cases after with
  | nil =>
    refine iff_of_false (fun ⟨_, pkt', _, hparse', _⟩ => ?_) (fun hne => hne rfl)
    rw [hparse] at hparse'
    obtain ⟨b, hb, -⟩ := (bind_eq_ok _ _ _).mp hparse'
    rw [rd_eq_ok, hbehind] at hb
    cases hb
  | cons b after =>
    refine iff_of_true ⟨s, pkt, hs, ?_, hpkt⟩ (List.cons_ne_nil _ _)
    rw [hparse, rd_eq_ok.mpr hbehind]
    rfl

/-! ### A packet as long as the receive buffer -/

/-- A key of zeros. -/
def zeroKey : HmacKey := ⟨List.replicate 64 0, by decide⟩

/-- A digest that looks at the number of bytes only. -/
def lengthMac (_ : HmacKey) (data : List UInt8) : Digest :=
  ⟨List.replicate 31 0 ++ [UInt8.ofNat data.length], by simp⟩

/-- A payload with which the packet fills the 64 KiB of the receive buffer. -/
def fillingPayload : List UInt8 := List.replicate 65474 0

theorem length_fillingRegion :
    (ndnRegion nameAB fillingPayload none ++ ndnDigestTL).length = 65504 := by
  have hcontent : (ndnContent fillingPayload).length = 4 + 65474 := by
    rw [ndnContent, ndnTLV, List.length_append, fillingPayload, List.length_replicate]
    rfl
  have hname : (ndnName nameAB).length = 13 := by decide +kernel
  have helems : (ndnSignedElems nameAB fillingPayload none).length = 65498 := by
    rw [ndnSignedElems, List.length_append, List.length_append, List.length_append, hcontent, hname]
    rfl
  rw [ndnRegion, List.length_append, List.length_append, helems]
  rfl

theorem prependSigned_filling : ∃ o' contentpos, ndntlvPrependSignedContent lengthMac zeroKey nameAB
    fillingPayload none (.room 65536) = .ok (o', contentpos, 65536) := by
  obtain ⟨o₁, h₁⟩ : ∃ o₁, reserve mdlength (.room 65536) = .ok o₁ := ⟨_, rfl⟩
  have hr : o₁.offset + 32 = 65536 := (reserve_eq_ok.mp h₁).1
  obtain ⟨o₂, h₂⟩ := pre_ok_iff.mpr (show (ndnRegion nameAB fillingPayload none ++
    ndnDigestTL).length ≤ o₁.offset by rw [length_fillingRegion]; omega)
  have hoff := offset_pre h₂
  rw [length_fillingRegion] at hoff
  have hs : ndntlvPrependUnsigned nameAB fillingPayload none (.room 65536) =
      .ok ⟨o₂, 65504, 65502⟩ :=
    (prependUnsigned_eq_ok nameAB_encodable.chunk_lt).mpr ⟨rfl, rfl, o₁, h₁, h₂⟩
  refine ⟨Signing.sign lengthMac zeroKey ⟨o₂, 65504, 65502⟩,
    sub64 (sub64 65536 fillingPayload.length) o₂.offset, ?_⟩
  unfold ndntlvPrependSignedContent
  rw [hs]
  show Except.ok (_, _, 65536 - o₂.offset) = _
  rw [show 65536 - o₂.offset = 65536 by omega]
  rfl

/-- The program reads behind its receive buffer. -/
theorem signed_overread : ∃ o' contentpos,
    (NdnEncodable nameAB ∧ ndntlvPrependSignedContent lengthMac zeroKey nameAB fillingPayload none
      (.room 65536) = .ok (o', contentpos, 65536)) ∧
      ¬ ∃ s pkt, ndntlvPrependUnsigned nameAB fillingPayload none (.room 65536) = .ok s ∧
        ccnlParse ((o'.buf.drop o'.offset).take 65536) 65536 = .ok (some pkt) ∧
        Verified lengthMac zeroKey nameAB fillingPayload none s
          ((o'.buf.drop o'.offset).take 65536) pkt := by
  obtain ⟨o', contentpos, h⟩ := prependSigned_filling
  refine ⟨o', contentpos, ⟨nameAB_encodable, h⟩, fun ⟨_, pkt', _, hparse', _⟩ => ?_⟩
  obtain ⟨s, pkt, -, -, hparse, hbehind⟩ := parse_written nameAB_encodable h (by decide) []
  rw [List.append_nil] at hparse hbehind
  rw [hparse] at hparse'
  obtain ⟨b, hb, -⟩ := (bind_eq_ok _ _ _).mp hparse'
  rw [rd_eq_ok, hbehind] at hb
  cases hb

/-- The name /a/b, chunk 300, with three bytes of payload, in a buffer that ends with the packet. -/
def wroteSigned : Back :=
  ⟨[6, 65, 7, 11, 8, 1, 97, 8, 1, 98, 8, 3, 0, 1, 44, 20, 6, 26, 4, 8, 2, 0, 7, 21, 3, 1, 2, 3,
    22, 3, 27, 1, 4, 23, 32] ++ List.replicate 31 0 ++ [33], 0, Nat.zero_le _⟩

theorem prependSigned_ab : ndntlvPrependSignedContent lengthMac zeroKey nameAB [1, 2, 3] (some 7)
    (.room 67) = .ok (wroteSigned, 64, 67) := by
  decide +kernel

theorem signed_verifies_ab :
    let mem := (wroteSigned.buf.drop wroteSigned.offset).take 67 ++ [0]
    (∃ s pkt, ndntlvPrependUnsigned nameAB [1, 2, 3] (some 7) (.room 67) = .ok s ∧
      ccnlParse mem 67 = .ok (some pkt) ∧
      Verified lengthMac zeroKey nameAB [1, 2, 3] (some 7) s mem pkt) ↔ [(0 : UInt8)] ≠ [] :=
  signed_verifies_iff nameAB_encodable prependSigned_ab (by decide) [0]

end Ndn

/-! ## Signed CCNx content -/

section Ccnx

/-- What signed content is to be, as a packet of `retlen` bytes in the buffer of the signer: the
fixed header says so, the forwarder and the parser take it as a whole, and the parser finds the
signed region and the digest where the signer had them. -/
structure OnePacket (s : Signing) (o' : Back) (retlen : Nat) : Prop where
  pktlen : ccnxPktlen (o'.buf.drop o'.offset) = retlen
  accepted : ∃ mem c c' pkt,
    ccntlvHeader o'.buf ⟨o'.offset, retlen⟩ = .ok (.pass ccnxPtData mem c) ∧
      ccntlvBytes2pkt mem o'.offset c = .ok (pkt, c') ∧ c'.pos = o'.offset + retlen ∧
        pkt.hmacStart = some (s.o.offset - o'.offset) ∧ pkt.hmacLen = s.endofsign - s.o.offset ∧
          pkt.hmacSignature = some (s.mdoffset - o'.offset)

/-- Whatever is signed, the length in the fixed header leaves the trailer out, so it is never that
of the packet. -/
theorem ccntlv_signed_never {hmac : HmacKey → List UInt8 → Digest} {keyval : HmacKey}
    {name : Prefix} {payload : List UInt8} {lastchunknum : Option UInt32} {o o' : Back}
    {contentpos retlen : Nat} (h : ccntlvPrependSignedContentWithHdr hmac keyval name payload
      lastchunknum o = .ok (o', contentpos, retlen)) :
    ccnxPktlen (o'.buf.drop o'.offset) + trailerLen = retlen ∧ ∀ s, ¬ OnePacket s o' retlen := by
  have hlen := ccntlv_signed_pktlen h
  refine ⟨hlen, fun s hs => ?_⟩
  have htrailer : trailerLen = 44 := rfl
  have := hs.pktlen
  omega

/-- The name /a, no chunk number. -/
def segmentA : Prefix := { mem := [0, 1, 0, 1, 97], comp := [⟨0, 5⟩], suite := .ccntlv }

/-- One byte of payload: a packet of 71 bytes whose header says 27. -/
def wroteSignedA : Back :=
  ⟨List.replicate 18 0 ++ [1, 1, 0, 27, 255, 0, 0, 9, 0, 0, 2, 0, 14, 0, 0, 0, 5, 0, 1, 0, 1, 97,
    0, 1, 0, 1, 7, 0, 3, 0, 4, 0, 4, 0, 0, 0, 4, 0, 32] ++ List.replicate 31 0 ++ [26], 18, by decide⟩

theorem prependSignedContentWithHdr_a : ccntlvPrependSignedContentWithHdr lengthMac zeroKey segmentA
    [7] none (.room 89) = .ok (wroteSignedA, 44, 71) := by
  decide +kernel

/-- The header and the packet disagree. -/
theorem ccntlv_signed_short :
    ccntlvPrependSignedContentWithHdr lengthMac zeroKey segmentA [7] none (.room 89) =
        .ok (wroteSignedA, 44, 71) ∧
      ccnxPktlen (wroteSignedA.buf.drop wroteSignedA.offset) = 27 ∧ ∀ s, ¬ OnePacket s wroteSignedA 71 :=
  ⟨prependSignedContentWithHdr_a, by decide, fun _ hs => absurd hs.pktlen (by decide)⟩

theorem ccntlv_signed_never_a :
    ccnxPktlen (wroteSignedA.buf.drop wroteSignedA.offset) + trailerLen = 71 ∧
      ∀ s, ¬ OnePacket s wroteSignedA 71 :=
  ccntlv_signed_never prependSignedContentWithHdr_a

end Ccnx

end Ccnl
