import CcnLite.Pkt.CcntlvDecode

/-!
# CCNx packets there and back

An Interest or a content object that the encoder wrote, parsed. The encoder loses the high byte of
every length, so what the parser returns is what was given exactly when the elements of the Name,
and the payload, have less than 256 bytes (`ccntlv_interest_roundtrip_iff`,
`ccntlv_content_roundtrip_iff`). The length of the message itself is not looked at.
-/

namespace Ccnl

open CRun Tlv

/-! ## Packets -/

section Packet

variable {mem : List UInt8} {start q type : Nat} {elems : List UInt8}

/-- The parser on a message that the encoder wrote: the length in the header of the message does not
matter. -/
theorem ccntlvBytes2pkt_tlv {pkt : Pkt} {r : Nat} (h : At mem q (ccnxTLV type elems))
    (ht : type < 2 ^ 8) :
    ccntlvBytes2pkt mem start ⟨q, (ccnxTLV type elems).length⟩ = .ok (pkt, ⟨r, 0⟩) ↔
      ∃ s buf, ccntlvTop mem start q ⟨q + 4, elems.length⟩ (.init type q) = .ok (⟨r, 0⟩, s) ∧
        rdBytes mem start (r - start) = .ok buf ∧ s.finish start buf = pkt := by
  have hlen : (ccnxTLV type elems).length = 4 + elems.length := List.length_append
  have hmod := Nat.mod_le elems.length (2 ^ 8)
  have hdehead := dehead_ccnxTL (n := elems.length) (at_ccnxTLV.mp h).1 (by omega)
  rw [Nat.mod_eq_of_lt ht] at hdehead
  rw [hlen, ccntlvBytes2pkt_eq_ok]
  constructor
  · rintro ⟨typ, len, c₁, s, hx, -, htop, -, buf, hbuf, hpkt⟩
    cases hdehead.symm.trans hx
    exact ⟨s, buf, htop, hbuf, hpkt⟩
  · rintro ⟨s, buf, htop, hbuf, hpkt⟩
    exact ⟨_, _, _, s, hdehead, by simp only; omega, htop, rfl, buf, hbuf, hpkt⟩

/-- The packet has the name that was given, with the chunk number as a last component. -/
def CcnxNamed (name : Prefix) (pkt : Pkt) : Prop :=
  ∃ q, pkt.pfx = some q ∧ q.comps = ccnxWireComps name ∧ q.chunknum = name.chunknum

/-- `pktlen` of the fixed header. -/
def ccnxPktlen (bs : List UInt8) : Nat := beNat ((bs.drop 2).take 2)

theorem ccnxPktlen_packet {packettype hoplimit : UInt8}
    (h : (ccnxPacket packettype hoplimit type elems).length ≤ uint16Max) :
    ccnxPktlen (ccnxPacket packettype hoplimit type elems) =
      (ccnxPacket packettype hoplimit type elems).length := by
  have hlen : (ccnxPacket packettype hoplimit type elems).length =
      ccnxHdrlen + (ccnxTLV type elems).length := by
    rw [ccnxPacket, List.length_append, length_ccnxFixedHdr]
  rw [ccnxPktlen, hlen]
  rw [hlen] at h
  have htake : ((ccnxPacket packettype hoplimit type elems).drop 2).take 2 =
      beBytes 2 (ccnxHdrlen + (ccnxTLV type elems).length) := List.take_left' (length_beBytes 2 _)
  rw [htake]
  exact (foldl_beBytes 2 _).trans (Nat.mod_eq_of_lt (Nat.lt_succ_of_le h))

/-- The name of the packet, from its bytes in the receive buffer. -/
theorem finish_comps {s : CcntlvState} {us : List (List UInt8)} {k r : Nat} {buf : List UInt8}
    (hcomp : s.p.comp = pieces k us) (h : At mem k us.flatten) (hk : start ≤ k)
    (hr : k + us.flatten.length ≤ r) (hbuf : rdBytes mem start (r - start) = .ok buf) :
    ∃ p, (s.finish start buf).pfx = some p ∧ p.comps = us ∧ p.chunknum = s.p.chunknum := by
  obtain ⟨-, rfl⟩ := rdBytes_eq_ok.mp hbuf
  refine ⟨_, rfl, ?_, rfl⟩
  show (s.p.comp.map (·.rebase start)).map (·.bytes ((mem.drop start).take (r - start))) = us
  rw [hcomp, map_bytes_rebase fun sp hsp => (within_pieces sp hsp).mono hk hr, bytes_pieces h]

/-- The Name that was given is there only when the parser has found all components. -/
theorem length_lt_of_named {s : CcntlvState} {us vs : List (List UInt8)} {name : Prefix} {k r : Nat}
    {buf : List UInt8} (hus : ccnxWireComps name = us ++ vs)
    (hlen : us.flatten.length = (ccnxWireComps name).flatten.length % 2 ^ 8)
    (hcomp : s.p.comp = pieces k us) (h : At mem k (ccnxWireComps name).flatten) (hk : start ≤ k)
    (hr : k + (ccnxWireComps name).flatten.length ≤ r)
    (hbuf : rdBytes mem start (r - start) = .ok buf) (hnamed : CcnxNamed name (s.finish start buf)) :
    (ccnxWireComps name).flatten.length < 2 ^ 8 := by
  have hle := Nat.mod_le (ccnxWireComps name).flatten.length (2 ^ 8)
  have hflat := congrArg List.flatten hus
  rw [List.flatten_append] at hflat
  rw [hflat] at h
  obtain ⟨p, hp, hcomps, -⟩ := hnamed
  obtain ⟨p', hp', hcomps', -⟩ := finish_comps hcomp (at_append.mp h).1 hk (by omega) hbuf
  obtain rfl := Option.some.inj (hp.symm.trans hp')
  have hall : us = ccnxWireComps name := hcomps'.symm.trans hcomps
  rw [hall] at hlen
  rw [hlen]
  exact Nat.mod_lt _ (Nat.two_pow_pos 8)

theorem rdBytes_packet {r : Nat} (hr : r ≤ mem.length) (hstart : start ≤ r) :
    rdBytes mem start (r - start) = .ok ((mem.drop start).take (r - start)) := by
  rw [rdBytes_eq_ok]
  exact ⟨.inr (by omega), rfl⟩

/-- The message of a packet that lies between other bytes. -/
theorem at_message (before after : List UInt8) (packettype hoplimit : UInt8) (type : Nat)
    (elems : List UInt8) :
    (ccnxPacket packettype hoplimit type elems).length = ccnxHdrlen + (ccnxTLV type elems).length ∧
      At (before ++ (ccnxPacket packettype hoplimit type elems ++ after))
        (before.length + ccnxHdrlen) (ccnxTLV type elems) := by
  have hat := at_mid before (ccnxPacket packettype hoplimit type elems) after
  have hmsg := (at_append.mp (show At _ _ (_ ++ _) from hat)).2
  rw [length_ccnxFixedHdr] at hmsg
  exact ⟨by rw [ccnxPacket, List.length_append, length_ccnxFixedHdr], hmsg⟩

end Packet

/-! ### Interests -/

section Interest

variable {mem : List UInt8} {name : Prefix} {start q r : Nat} {pkt : Pkt}

/-- The Interest that was given. -/
structure CcnxSameInterest (name : Prefix) (pkt : Pkt) : Prop where
  name : CcnxNamed name pkt
  finalBlockId : pkt.finalBlockId = -1
  content : pkt.content = none

/-- The parser on an Interest. -/
theorem parse_ccnxInterest (hname : CcnxEncodable name)
    (h : At mem q (ccnxTLV ccnxTlvTlInterest (ccnxName name))) (hq : start ≤ q)
    (hr : r = q + (ccnxTLV ccnxTlvTlInterest (ccnxName name)).length) :
    (∃ pkt, ccntlvBytes2pkt mem start
        ⟨q, (ccnxTLV ccnxTlvTlInterest (ccnxName name)).length⟩ = .ok (pkt, ⟨r, 0⟩) ∧
      CcnxSameInterest name pkt) ↔ (ccnxNameElems name).length < 2 ^ 8 := by
  have hat := (at_ccnxTLV.mp h).2
  have hlen : (ccnxTLV ccnxTlvTlInterest (ccnxName name)).length = 4 + (ccnxName name).length :=
    List.length_append
  have hlen' : (ccnxName name).length = 4 + (ccnxNameElems name).length := List.length_append
  have hend : q + 4 + 4 + (ccnxNameElems name).length = r := by omega
  have hws := hname.elems
  have hchunk := hname.withChunk
  simp only [ccntlvBytes2pkt_tlv h (by decide : ccnxTlvTlInterest < 2 ^ 8)]
  rw [ccnxName] at hat
  rw [← flatten_ccnxWireComps] at hat hend hlen' ⊢
  constructor
  · rintro ⟨pkt, ⟨s, buf, htop, hbuf, rfl⟩, hsame⟩
    rw [ccnxName, ← flatten_ccnxWireComps, ← Nat.add_zero (ccnxTLV _ _).length] at htop
    obtain ⟨us, vs, p', c, hus, hcut, hcomp, -, htop⟩ := top_ccnxName hws hat rfl rfl htop
    rw [ccntlvTop_end] at htop
    obtain ⟨-, rfl⟩ := Prod.mk.inj (Except.ok.inj htop)
    exact length_lt_of_named hus hcut hcomp (at_ccnxTLV.mp hat).2 (by omega) (by omega) hbuf hsame.name
  · intro hlt
    obtain ⟨p, hcomp, hnum, htop⟩ := @top_ccnxName_short mem start q _ 0
      (.init ccnxTlvTlInterest q) _ hws hat hlt rfl rfl
    rw [ccntlvTop_end, hend] at htop
    have hval := (at_ccnxTLV.mp hat).2
    have hmem := h.le (by simp [ccnxTLV, ccnxTL])
    rw [← hr] at hmem
    have hin := rdBytes_packet hmem (show start ≤ r by omega)
    obtain ⟨p', hp', hcomps, hnum'⟩ := finish_comps
      (s := { CcntlvState.init ccnxTlvTlInterest q with p := p }) hcomp hval (by omega) (by omega) hin
    refine ⟨_, ⟨_, _, ?_, hin, rfl⟩, ⟨p', hp', hcomps, ?_⟩, rfl, rfl⟩
    · rw [ccnxName, ← flatten_ccnxWireComps, ← Nat.add_zero (ccnxTLV _ _).length]
      exact htop
    · rw [hnum', hnum, hchunk]

/-- An Interest that was written, anywhere in the memory, comes back from the parser exactly when the
elements of its Name have less than 256 bytes. -/
theorem ccntlv_interest_roundtrip_iff {o o₁ : Back} {reslen : Nat} (hname : CcnxEncodable name)
    (h : ccntlvPrependInterestWithHdr name o = .ok (o₁, reslen)) (before after : List UInt8) :
    let written := (o₁.buf.drop o₁.offset).take reslen
    (∃ pkt, ccntlvBytes2pkt (before ++ (written ++ after)) before.length
        ⟨before.length + ccnxHdrlen, reslen - ccnxHdrlen⟩ = .ok (pkt, ⟨before.length + reslen, 0⟩) ∧
      CcnxSameInterest name pkt ∧ ccnxPktlen written = reslen) ↔
      (ccnxNameElems name).length < 2 ^ 8 := by
  intro written
  obtain ⟨hmax, hpre, rfl⟩ := ccntlvPrependInterestWithHdr_eq_ok.mp h
  have hwritten : written = ccnxInterest name := (Back.at_pre hpre).take
  rw [hwritten]
  obtain ⟨hlen, hat⟩ := at_message before after ccnxPtInterest 64 ccnxTlvTlInterest (ccnxName name)
  rw [ccnxInterest] at hmax ⊢
  rw [ccnxPktlen_packet hmax, hlen, Nat.add_sub_cancel_left]
  simp only [and_true]
  exact parse_ccnxInterest hname hat (Nat.le_add_right _ _) (by rw [Nat.add_assoc])

end Interest

/-! ### Content objects -/

section Content

variable {mem : List UInt8} {name : Prefix} {payload : List UInt8} {last : Option UInt32}
  {start q r : Nat}

/-- `final_block_id` of a content object, -1 when it carries none. -/
def lastChunkId (last : Option UInt32) : Int :=
  match last with
  | some k => k.toNat
  | none => -1

/-- The content object that was given. -/
structure CcnxSameContent (name : Prefix) (payload : List UInt8) (last : Option UInt32) (pkt : Pkt) :
    Prop where
  name : CcnxNamed name pkt
  finalBlockId : pkt.finalBlockId = lastChunkId last
  content : ∃ c, pkt.content = some c ∧ c.bytes pkt.buf = payload

theorem lastChunkId_eq {pkt : Pkt}
    (h : pkt.val = (last.map UInt32.toNat).getD (2 ^ 64 - 1)) : pkt.finalBlockId = lastChunkId last := by
  rw [Pkt.finalBlockId, h]
  cases last with
  | none => decide
  | some k =>
    have := k.toNat_lt
    exact if_pos (show k.toNat < 2 ^ 63 by omega)

/-- Where the elements of a content object are. -/
theorem at_ccnxContentElems {p : Nat} (h : At mem p (ccnxContentElems name payload last)) :
    At mem p (ccnxTLV ccnxTlvMName (ccnxWireComps name).flatten) ∧
      At mem (p + 4 + (ccnxWireComps name).flatten.length)
        (ccnxOptional ccnxTlvMEndChunk (last.map UInt32.toNat) ++ ccnxTLV ccnxTlvMPayload payload) ∧
      (ccnxContentElems name payload last).length =
        (ccnxTLV ccnxTlvMName (ccnxWireComps name).flatten).length +
          ((ccnxOptional ccnxTlvMEndChunk (last.map UInt32.toNat)).length +
            ((ccnxTLV ccnxTlvMPayload payload).length + 0)) := by
  rw [ccnxContentElems, List.append_assoc, ccnxName, ← flatten_ccnxWireComps] at h ⊢
  obtain ⟨hname, hrest⟩ := at_append.mp h
  have hlen : (ccnxTLV ccnxTlvMName (ccnxWireComps name).flatten).length =
      4 + (ccnxWireComps name).flatten.length := List.length_append
  rw [hlen, ← Nat.add_assoc] at hrest
  exact ⟨hname, hrest, by rw [List.length_append, List.length_append, Nat.add_zero]⟩

/-- The elements behind the Name, as far as the header of the payload says. -/
theorem top_ccnxContentRest {p hmacStart : Nat} {s : CcntlvState}
    (h : At mem p (ccnxOptional ccnxTlvMEndChunk (last.map UInt32.toNat) ++
      ccnxTLV ccnxTlvMPayload payload)) :
    let p' := p + (ccnxOptional ccnxTlvMEndChunk (last.map UInt32.toNat)).length
    ccntlvTop mem start hmacStart ⟨p, (ccnxOptional ccnxTlvMEndChunk (last.map UInt32.toNat)).length +
        ((ccnxTLV ccnxTlvMPayload payload).length + 0)⟩ s =
      ccntlvTop mem start hmacStart
        ⟨p' + 4 + payload.length % 2 ^ 8, payload.length - payload.length % 2 ^ 8 + 0⟩
        { s with pkt := { s.pkt with
          val := (last.map UInt32.toNat).getD s.pkt.val
          content := some ⟨p' + 4, payload.length % 2 ^ 8⟩ } } := by
  have hlast : ∀ k ∈ last.map UInt32.toNat, k ≤ uint32Max := by
    intro k hk
    obtain ⟨l, -, rfl⟩ := Option.map_eq_some_iff.mp hk
    exact Nat.le_of_lt_succ l.toNat_lt
  obtain ⟨hend, hpayload⟩ := at_append.mp h
  intro p'
  rw [top_endChunk hlast hend, top_payload hpayload]

/-- The parser goes through a content object, and the packet is the one that was given: then both
lengths fit into a byte. -/
theorem short_of_ccnxContent {p : Nat} {s : CcntlvState} {buf : List UInt8} (hname : CcnxEncodable name)
    (h : At mem p (ccnxContentElems name payload last)) (hp : start ≤ p)
    (hr : r = p + (ccnxContentElems name payload last).length)
    (htop : ccntlvTop mem start q ⟨p, (ccnxContentElems name payload last).length⟩
      (.init ccnxTlvTlObject q) = .ok (⟨r, 0⟩, s))
    (hbuf : rdBytes mem start (r - start) = .ok buf)
    (hsame : CcnxSameContent name payload last (s.finish start buf)) :
    (ccnxWireComps name).flatten.length < 2 ^ 8 ∧ payload.length < 2 ^ 8 := by
  obtain ⟨hatN, hrest, hsum⟩ := at_ccnxContentElems h
  have hlen : (ccnxTLV ccnxTlvMName (ccnxWireComps name).flatten).length =
      4 + (ccnxWireComps name).flatten.length := List.length_append
  rw [hsum] at htop hr
  obtain ⟨us, vs, p', c, hus, hcut, hcomp, -, htop⟩ := top_ccnxName hname.elems hatN rfl rfl htop
  rw [top_ccnxContentRest hrest] at htop
  by_cases hlt : payload.length < 2 ^ 8
  · rw [Nat.mod_eq_of_lt hlt, Nat.sub_self, Nat.zero_add, ccntlvTop_end] at htop
    obtain ⟨-, rfl⟩ := Prod.mk.inj (Except.ok.inj htop)
    have hval := (at_ccnxTLV.mp hatN).2
    exact ⟨length_lt_of_named hus hcut hcomp hval (by omega) (by omega) hbuf hsame.name, hlt⟩
  · have := Nat.mod_lt payload.length (Nat.two_pow_pos 8)
    have hcut : payload.length % 2 ^ 8 < payload.length := by omega
    obtain ⟨sp, hsp, hsplt⟩ := content_lt htop ⟨_, rfl, hcut⟩ (by omega)
    obtain ⟨c', hc', hbytes⟩ := hsame.content
    have hrebase : (s.finish start buf).content = some (sp.rebase start) :=
      congrArg (Option.map _) hsp
    obtain rfl := Option.some.inj (hrebase.symm.trans hc')
    have hle := List.length_take_le sp.len (List.drop (sp.rebase start).off
      (s.finish start buf).buf)
    rw [show List.take sp.len _ = (sp.rebase start).bytes (s.finish start buf).buf from rfl,
      hbytes] at hle
    omega

/-- The parser on a content object whose lengths fit into a byte. -/
theorem parse_ccnxContent_short {p : Nat} (hname : CcnxEncodable name)
    (h : At mem p (ccnxContentElems name payload last)) (hp : start ≤ p)
    (hr : r = p + (ccnxContentElems name payload last).length) (hin : r ≤ mem.length)
    (hltN : (ccnxWireComps name).flatten.length < 2 ^ 8) (hltP : payload.length < 2 ^ 8) :
    ∃ s buf, ccntlvTop mem start q ⟨p, (ccnxContentElems name payload last).length⟩
        (.init ccnxTlvTlObject q) = .ok (⟨r, 0⟩, s) ∧
      rdBytes mem start (r - start) = .ok buf ∧
      CcnxSameContent name payload last (s.finish start buf) := by
  obtain ⟨hatN, hrest, hsum⟩ := at_ccnxContentElems h
  obtain ⟨p', hcomp, hnum, htop⟩ := @top_ccnxName_short mem start q _
    ((ccnxOptional ccnxTlvMEndChunk (last.map UInt32.toNat)).length +
      ((ccnxTLV ccnxTlvMPayload payload).length + 0))
    (.init ccnxTlvTlObject q) _ hname.elems hatN hltN rfl rfl
  have hN : (ccnxTLV ccnxTlvMName (ccnxWireComps name).flatten).length =
      4 + (ccnxWireComps name).flatten.length := List.length_append
  have hP : (ccnxTLV ccnxTlvMPayload payload).length = 4 + payload.length := List.length_append
  rw [← hsum, top_ccnxContentRest hrest, Nat.mod_eq_of_lt hltP, Nat.sub_self, Nat.zero_add,
    ccntlvTop_end] at htop
  rw [hsum] at hr
  have hend : p + 4 + (ccnxWireComps name).flatten.length +
      (ccnxOptional ccnxTlvMEndChunk (last.map UInt32.toNat)).length + 4 + payload.length = r := by
    omega
  rw [hend] at htop
  have hbuf := rdBytes_packet hin (show start ≤ r by omega)
  let sp : Span :=
    ⟨p + 4 + (ccnxWireComps name).flatten.length +
      (ccnxOptional ccnxTlvMEndChunk (last.map UInt32.toNat)).length + 4, payload.length⟩
  have hw : sp.Within start r := ⟨by simp only [sp]; omega, by simp only [sp]; omega⟩
  have hbytes : At mem sp.off payload := (at_ccnxTLV.mp (at_append.mp hrest).2).2
  let s : CcntlvState := { CcntlvState.init ccnxTlvTlObject q with
    p := p'
    pkt := { (CcntlvState.init ccnxTlvTlObject q).pkt with
      content := some sp
      val := (last.map UInt32.toNat).getD (2 ^ 64 - 1) } }
  obtain ⟨p₁, hp₁, hcomps₁, hnum₁⟩ := finish_comps (s := s) hcomp (at_ccnxTLV.mp hatN).2
    (by omega) (by omega) hbuf
  refine ⟨s, _, htop, hbuf, ⟨p₁, hp₁, hcomps₁, hnum₁.trans (hnum.trans hname.withChunk)⟩,
    lastChunkId_eq rfl, ⟨_, rfl, ?_⟩⟩
  exact (bytes_rebase hw).trans hbytes.bytes

/-- The parser on a content object. -/
theorem parse_ccnxContent (hname : CcnxEncodable name)
    (h : At mem q (ccnxTLV ccnxTlvTlObject (ccnxContentElems name payload last))) (hq : start ≤ q)
    (hr : r = q + (ccnxTLV ccnxTlvTlObject (ccnxContentElems name payload last)).length) :
    (∃ pkt, ccntlvBytes2pkt mem start
        ⟨q, (ccnxTLV ccnxTlvTlObject (ccnxContentElems name payload last)).length⟩ =
          .ok (pkt, ⟨r, 0⟩) ∧ CcnxSameContent name payload last pkt) ↔
      (ccnxNameElems name).length < 2 ^ 8 ∧ payload.length < 2 ^ 8 := by
  have hat := (at_ccnxTLV.mp h).2
  have hin := h.le (by simp [ccnxTLV, ccnxTL])
  have hlen : (ccnxTLV ccnxTlvTlObject (ccnxContentElems name payload last)).length =
      4 + (ccnxContentElems name payload last).length := List.length_append
  have hend : r = q + 4 + (ccnxContentElems name payload last).length := by omega
  have hq' : start ≤ q + 4 := by omega
  rw [← hr] at hin
  simp only [ccntlvBytes2pkt_tlv h (by decide : ccnxTlvTlObject < 2 ^ 8)]
  rw [← flatten_ccnxWireComps]
  constructor
  · rintro ⟨pkt, ⟨s, buf, htop, hbuf, rfl⟩, hsame⟩
    exact short_of_ccnxContent hname hat hq' hend htop hbuf hsame
  · rintro ⟨hltN, hltP⟩
    obtain ⟨s, buf, htop, hbuf, hsame⟩ := parse_ccnxContent_short hname hat hq' hend hin hltN hltP
    exact ⟨_, ⟨s, buf, htop, hbuf, rfl⟩, hsame⟩

/-- A content object that was written, anywhere in the memory, comes back from the parser exactly
when the elements of its Name, and its payload, have less than 256 bytes. -/
theorem ccntlv_content_roundtrip_iff {o o₁ : Back} {contentpos reslen : Nat}
    (hname : CcnxEncodable name)
    (h : ccntlvPrependContentWithHdr name payload last o = .ok (o₁, contentpos, reslen))
    (before after : List UInt8) :
    let written := (o₁.buf.drop o₁.offset).take reslen
    (∃ pkt, ccntlvBytes2pkt (before ++ (written ++ after)) before.length
        ⟨before.length + ccnxHdrlen, reslen - ccnxHdrlen⟩ = .ok (pkt, ⟨before.length + reslen, 0⟩) ∧
      CcnxSameContent name payload last pkt ∧ ccnxPktlen written = reslen) ↔
      (ccnxNameElems name).length < 2 ^ 8 ∧ payload.length < 2 ^ 8 := by
  intro written
  obtain ⟨⟨hmax, hpre, rfl⟩, -⟩ := ccntlvPrependContentWithHdr_eq_ok.mp h
  have hwritten : written = ccnxContent name payload last := (Back.at_pre hpre).take
  rw [hwritten]
  obtain ⟨hlen, hat⟩ := at_message before after ccnxPtData 255 ccnxTlvTlObject
    (ccnxContentElems name payload last)
  rw [ccnxContent] at hmax ⊢
  rw [ccnxPktlen_packet hmax, hlen, Nat.add_sub_cancel_left]
  simp only [and_true]
  exact parse_ccnxContent hname hat (Nat.le_add_right _ _) (by rw [Nat.add_assoc])

end Content

/-! ## Both -/

/-- An Interest or a content object that was written comes back from the parser, with its length in
the fixed header, exactly when no length is lost. -/
theorem ccntlv_roundtrip_iff {name : Prefix} (hname : CcnxEncodable name) (o : Back)
    (before after : List UInt8) :
    (∀ o₁ reslen, ccntlvPrependInterestWithHdr name o = .ok (o₁, reslen) →
      let written := (o₁.buf.drop o₁.offset).take reslen
      ((∃ pkt, ccntlvBytes2pkt (before ++ (written ++ after)) before.length
          ⟨before.length + ccnxHdrlen, reslen - ccnxHdrlen⟩ =
            .ok (pkt, ⟨before.length + reslen, 0⟩) ∧
        CcnxSameInterest name pkt ∧ ccnxPktlen written = reslen) ↔
        (ccnxNameElems name).length < 2 ^ 8)) ∧
    (∀ payload last o₁ contentpos reslen,
      ccntlvPrependContentWithHdr name payload last o = .ok (o₁, contentpos, reslen) →
      let written := (o₁.buf.drop o₁.offset).take reslen
      ((∃ pkt, ccntlvBytes2pkt (before ++ (written ++ after)) before.length
          ⟨before.length + ccnxHdrlen, reslen - ccnxHdrlen⟩ =
            .ok (pkt, ⟨before.length + reslen, 0⟩) ∧
        CcnxSameContent name payload last pkt ∧ ccnxPktlen written = reslen) ↔
        (ccnxNameElems name).length < 2 ^ 8 ∧ payload.length < 2 ^ 8)) :=
  ⟨fun _ _ h => ccntlv_interest_roundtrip_iff hname h before after,
    fun _ _ _ _ _ h => ccntlv_content_roundtrip_iff hname h before after⟩

/-- The name /a, with a chunk number or without. -/
def segA (chunknum : Option Nat) : Prefix :=
  { mem := [0, 1, 0, 1, 97], comp := [⟨0, 5⟩], suite := .ccntlv, chunknum := chunknum }

theorem segA_encodable {chunknum : Option Nat} (h : ∀ k ∈ chunknum, k ≤ uint32Max) :
    CcnxEncodable (segA chunknum) where
  comp w hw := ⟨[97], by decide, List.mem_singleton.mp hw⟩
  chunknum := h

/-- Content of one byte, and its packet in a buffer with room for 39 bytes. -/
def wroteContent : Back :=
  ⟨[1, 1, 0, 38, 255, 0, 0, 9, 0, 0, 2, 0, 25, 0, 0, 0, 11, 0, 1, 0, 1, 97, 0, 16, 0, 2, 1, 44, 0, 25,
    0, 1, 7, 0, 1, 0, 1, 2], 0, Nat.zero_le _⟩

theorem ccntlv_roundtrip_a :
    (∃ pkt, ccntlvBytes2pkt ([] ++ (wroteContent.buf ++ [])) 0 ⟨9, 29⟩ = .ok (pkt, ⟨38, 0⟩) ∧
      CcnxSameContent (segA (some 300)) [2] (some 7) pkt ∧ ccnxPktlen wroteContent.buf = 38) ↔
      (ccnxNameElems (segA (some 300))).length < 2 ^ 8 ∧ [(2 : UInt8)].length < 2 ^ 8 :=
  (ccntlv_roundtrip_iff (segA_encodable (by decide)) (.room 38) [] []).2 [2] (some 7) wroteContent 37 38
    (by decide +kernel)

/-- A payload of 256 bytes, and its packet in a buffer with room for 282 bytes. -/
def wroteLongContent : Back :=
  ⟨[1, 1, 1, 26, 255, 0, 0, 9, 0, 0, 2, 0, 13, 0, 0, 0, 5, 0, 1, 0, 1, 97, 0, 1, 0, 0] ++
    List.replicate 256 0, 0, Nat.zero_le _⟩

/-- The parser takes it for an empty payload. -/
theorem ccntlv_content_loses_payload :
    (CcnxEncodable (segA none) ∧ ccntlvPrependContentWithHdr (segA none) (List.replicate 256 0) none
      (.room 282) = .ok (wroteLongContent, 26, 282)) ∧
      ¬ ∃ pkt, ccntlvBytes2pkt wroteLongContent.buf 0 ⟨9, 273⟩ = .ok (pkt, ⟨282, 0⟩) ∧
        CcnxSameContent (segA none) (List.replicate 256 0) none pkt ∧
        ccnxPktlen wroteLongContent.buf = 282 := by
  refine ⟨⟨segA_encodable nofun, by decide +kernel⟩, fun ⟨pkt, hparse, hsame, _⟩ => ?_⟩
  have hempty : (ccntlvBytes2pkt wroteLongContent.buf 0 ⟨9, 273⟩).toOption.map
      (fun r => r.1.content.map Span.len) = some (some 0) := by
    decide +kernel
  obtain ⟨c, hc, hbytes⟩ := hsame.content
  rw [hparse] at hempty
  have hlen : c.len = 0 := by simpa [Except.toOption, hc] using hempty
  have hcount := congrArg List.length hbytes
  rw [Span.bytes, hlen, List.take_zero, List.length_nil, List.length_replicate] at hcount
  omega

end Ccnl
