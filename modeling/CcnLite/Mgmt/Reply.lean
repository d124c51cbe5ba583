import CcnLite.Core.Serve
import CcnLite.Lib.Pieces
import CcnLite.Pkt.Builder
import CcnLite.Pkt.CcnbDecode

/-!
# Replies of the management commands (`ccnl-mgmt.c`)

`mgmtSendReturnSplit` is `ccnl_mgmt_send_return_split`: a reply goes out in packets of `packetsize`
bytes, the first to the face that asked and the others into the content store. The others are never
made, since `ccnl_mkSimpleContent` makes no CCNB packet (`mkSimpleContent_ccnb`).

`Split` says what the packets of a reply are, `mgmtSplit_iff` when the call makes them.
-/

namespace Ccnl

open CRun

/-! ## Fields -/

/-- `ccnl_ccnb_mkField`. It looks for room for one byte, and not for the data. -/
def ccnbMkField (bufend num typ : Nat) (data : List UInt8) (o : Front) : Run Front := do
  let o ← ccnbMkHeader bufend num ccnTtDtag o
  let o ← ccnbMkHeader bufend data.length typ o
  if bufend ≤ o.pos + 1 then throw .bail
  else
    let o ← o.app data
    o.app [0]

/-- `ccnl_ccnb_mkBlob`, and `ccnl_ccnb_mkStrBlob` on the bytes of a string. -/
def ccnbMkBlob (bufend num : Nat) (data : List UInt8) (o : Front) : Run Front :=
  ccnbMkField bufend num ccnTtBlob data o

/-- A buffer that is written from its start on. -/
def emptyFront (n : Nat) : Front := ⟨List.replicate n 0, 0⟩

/-- The bytes that have been written into it. -/
def frontBytes (o : Front) : Run (List UInt8) := rdBytes o.mem 0 o.pos

/-- The bytes of a string of ASCII characters. -/
def asciiBytes (s : String) : List UInt8 := s.toList.map fun c => UInt8.ofNat c.toNat

section Fields

variable {bufend num typ : Nat} {data bs : List UInt8} {o o₁ : Front}

/-- The run returns `o` with `bs` written behind it, in memory of the same size. -/
def Writes (o : Front) (bs : List UInt8) (x : Run Front) : Prop :=
  ∃ o', x = .ok o' ∧ Front.Wrote o o' bs ∧ o'.mem.length = o.mem.length

theorem writes_app (h : o.pos + bs.length ≤ o.mem.length) : Writes o bs (o.app bs) := by
  have hok : o.app bs = .ok ⟨Front.splice o.mem o.pos bs, o.pos + bs.length⟩ := if_pos (.inr h)
  exact ⟨_, hok, Front.app_wrote hok, Front.length_splice h⟩

/-- Two writes, one after the other. -/
theorem Writes.bind {x : Run Front} {f : Front → Run Front} {xs ys : List UInt8}
    (hx : Writes o xs x) (hf : ∀ o', o'.pos = o.pos + xs.length → o'.mem.length = o.mem.length →
      Writes o' ys (f o')) : Writes o (xs ++ ys) (x >>= f) := by
  obtain ⟨o₁, rfl, hw₁, hl₁⟩ := hx
  obtain ⟨o₂, ho₂, hw₂, hl₂⟩ := hf o₁ hw₁.pos hl₁
  exact ⟨o₂, ho₂, hw₁.append hw₂, hl₂.trans hl₁⟩

theorem writes_hdr {tt : Nat} (h : o.pos + (ccnbHdr num tt).length < bufend)
    (hmem : bufend ≤ o.mem.length) : Writes o (ccnbHdr num tt) (ccnbMkHeader bufend num tt o) := by
  rw [ccnbMkHeader, if_neg (Nat.not_le.mpr h)]
  exact writes_app (by omega)

/-- A field is written where there is room for it. -/
theorem writes_blob (h : o.pos + (ccnbField1 num data).length < bufend)
    (hmem : bufend ≤ o.mem.length) :
    Writes o (ccnbField1 num data) (ccnbMkBlob bufend num data o) := by
  have hlen : (ccnbField1 num data).length = (ccnbHdr num ccnTtDtag).length +
      ((ccnbHdr data.length ccnTtBlob).length + (data.length + 1)) := by
    simp only [ccnbField1, ccnbBlob, List.length_append, List.length_singleton, Nat.add_assoc]
  rw [ccnbField1, ccnbBlob, List.append_assoc]
  refine (writes_hdr (by omega) hmem).bind fun o₁ hp₁ hl₁ => ?_
  refine (writes_hdr (by omega) (by omega)).bind fun o₂ hp₂ hl₂ => ?_
  rw [if_neg (by omega)]
  refine (writes_app (by omega)).bind fun o₃ hp₃ hl₃ => ?_
  exact writes_app (by rw [List.length_singleton]; omega)

/-- What has been written into an empty buffer is copied. -/
theorem Writes.copy {n : Nat} {x : Run Front} (h : Writes (emptyFront n) bs x) :
    (x >>= frontBytes) = .ok bs := by
  obtain ⟨o', rfl, hw, -⟩ := h
  have hpos : o'.pos = bs.length := hw.pos.trans (Nat.zero_add _)
  rw [ok_bind, frontBytes, hpos]
  exact hw.at_pos.rdBytes

end Fields

/-! ## The packets of a reply -/

def ccnDtagAny : Nat := 13
def ccnDtagContentdigest : Nat := 21
def ccnlDtagFrag : Nat := 99005

/-- `size/2`. -/
def packetsize : Nat := maxPacketSize / 2 / 2

/-- The mark of the last packet. -/
def mgmtMark (last : Bool) (packetend : Nat) (o : Front) : Run Front :=
  if last then ccnbMkBlob packetend ccnDtagAny (asciiBytes "last") o else .ok o

/-- `packet`: the mark, and a part of the reply. -/
def mgmtPacket (last : Bool) (part : List UInt8) : Run Front := do
  let packetend := packetsize * 2
  let o ← ccnbMkHeader packetend ccnlDtagFrag ccnTtDtag (emptyFront packetend)
  let o ← mgmtMark last packetend o
  let o ← ccnbMkBlob packetend ccnDtagContentdigest part o
  if packetend ≤ o.pos + 1 then throw .bail else o.app [0]

/-- `buf2`: the packet in a content object. -/
def mgmtBuf2 (packet : List UInt8) : Run Front := do
  let o ← ccnbMkHeader maxPacketSize ccnDtagContentobj ccnTtDtag (emptyFront maxPacketSize)
  if maxPacketSize ≤ o.pos + packet.length + 1 then throw .bail
  else
    let o ← o.app packet
    o.app [0]

/-- `ccnl_URItoPrefix` of /mgmt/seqnum-`it`. -/
def seqnumName (it : Nat) : Prefix :=
  let mgmt := asciiBytes "mgmt"
  let seqnum := asciiBytes s!"seqnum-{it}"
  { mem := mgmt ++ seqnum
    comp := [⟨0, mgmt.length⟩, ⟨mgmt.length, seqnum.length⟩]
    suite := .ccnb }

/-- What becomes of a packet: it is sent, or it is a content that is served and cached. -/
inductive Shipment where
  | sent (buf : List UInt8)
  | cached (c : Content)
  deriving DecidableEq, Repr

/-- The variables of the loop; `made` are the packets so far. -/
structure Splitting where
  relay : Relay
  made : List Shipment := []

section Split

variable (digest : List UInt8 → Digest) (now : Nat) («from» : FaceId) (buf : List UInt8)

/-- What is done with packet `it`. -/
def mgmtDeliver (s : Splitting) (it : Nat) (buf2 : List UInt8) : Run Splitting := do
  if it = 0 then
    return { relay := ← faceEnqueue s.relay «from» buf2, made := s.made ++ [.sent buf2] }
  else
    match ← mkSimpleContent (seqnumName it) buf2 none with
    | (none, _) => throw .bail
    | (some pktbuf, contentpos) =>
      let c := contentNew now
        { buf := pktbuf, pfx := some (seqnumName it), content := some ⟨contentpos, buf2.length⟩,
          s := .ccnb {}, suite := .ccnb }
      let s' ← servePending digest s.relay c
      return { relay := ← contentAdd2cache s'.relay s'.c, made := s.made ++ [.cached s'.c] }

/-- A pass of the loop. -/
def mgmtSplitStep (numPackets : Nat) (s : Splitting) (it : Nat) : Run Splitting := do
  let len5 := min (buf.length - it * packetsize) packetsize
  let part ← rdBytes buf (it * packetsize) len5
  let packet ← mgmtPacket (it == numPackets - 1) part >>= frontBytes
  let buf2 ← mgmtBuf2 packet >>= frontBytes
  mgmtDeliver digest now «from» s it buf2

/-- The loop, which ends where a pass gives up. -/
def mgmtSplitFrom (numPackets : Nat) : List Nat → Splitting → Run (Splitting × Int)
  | [], s => .ok (s, 0)
  | it :: its, s => do
    match ← attempt (mgmtSplitStep digest now «from» buf numPackets s it) with
    | none => return (s, 1)
    | some s => mgmtSplitFrom numPackets its s

/-- `ccnl_mgmt_send_return_split`. -/
def mgmtSendReturnSplit (σ : Relay) : Run (Splitting × Int) :=
  let numPackets := buf.length / packetsize + 1
  mgmtSplitFrom digest now «from» buf numPackets (List.range numPackets) { relay := σ }

end Split

/-! ## What the packets are -/

/-- The `frag` element of a part. -/
def fragBytes (last : Bool) (part : List UInt8) : List UInt8 :=
  ccnbHdr ccnlDtagFrag ccnTtDtag ++
    ((if last then ccnbField1 ccnDtagAny (asciiBytes "last") else []) ++
      (ccnbField1 ccnDtagContentdigest part ++ [0]))

/-- The content object around it. -/
def replyBytes (last : Bool) (part : List UInt8) : List UInt8 :=
  ccnbHdr ccnDtagContentobj ccnTtDtag ++ (fragBytes last part ++ [0])

/-- The packet with the number `it` and the bytes `bs` has been sent, when it is the first, or is a
content of its own name. -/
def Ships (it : Nat) (bs : List UInt8) : Shipment → Prop
  | .sent buf => it = 0 ∧ buf = bs
  | .cached c => it ≠ 0 ∧ ∃ p s, c.pkt.pfx = some p ∧ p.comps = (seqnumName it).comps ∧
      c.pkt.content = some s ∧ s.bytes c.pkt.buf = bs

/-- The packets carry the reply: their parts are the reply, in order of their numbers, and the last
one is marked, no other. -/
def Split (reply : List UInt8) (made : List Shipment) : Prop :=
  ∃ parts : List (List UInt8), parts ≠ [] ∧ parts.flatten = reply ∧ made.length = parts.length ∧
    ∀ it part d, parts[it]? = some part → made[it]? = some d →
      Ships it (replyBytes (it + 1 == parts.length) part) d

section Packets

variable {last : Bool} {part packet : List UInt8}

theorem length_hdr {num : Nat} (tt : Nat) (h : num < 2 ^ 53) : (ccnbHdr num tt).length ≤ 8 :=
  length_hdr_le.mpr h

theorem length_fragBytes (h : part.length ≤ packetsize) :
    (fragBytes last part).length + 2 < packetsize * 2 := by
  have h₁ := length_hdr ccnTtDtag (show ccnlDtagFrag < 2 ^ 53 by decide)
  have h₂ := length_hdr ccnTtDtag (show ccnDtagContentdigest < 2 ^ 53 by decide)
  have hps : packetsize = 2024 := rfl
  have h₃ := length_hdr ccnTtBlob (show part.length < 2 ^ 53 by omega)
  have h₄ : (if last then ccnbField1 ccnDtagAny (asciiBytes "last") else []).length ≤ 7 := by
    cases last <;> decide
  simp only [fragBytes, List.length_append, List.length_singleton]
  simp only [ccnbField1, ccnbBlob, List.length_append, List.length_singleton] at h₄ ⊢
  omega

/-- A part is put into a packet. -/
theorem writes_mgmtPacket (h : part.length ≤ packetsize) :
    Writes (emptyFront (packetsize * 2)) (fragBytes last part) (mgmtPacket last part) := by
  have hlen := @length_fragBytes last part h
  simp only [fragBytes, List.length_append, List.length_singleton] at hlen
  have hmem : (emptyFront (packetsize * 2)).mem.length = packetsize * 2 := List.length_replicate
  have hpos : (emptyFront (packetsize * 2)).pos = 0 := rfl
  refine (writes_hdr (by omega) (by omega)).bind fun o₁ hp₁ hl₁ => ?_
  have hany : Writes o₁ (if last then ccnbField1 ccnDtagAny (asciiBytes "last") else [])
      (mgmtMark last (packetsize * 2) o₁) := by
    cases last with
    | true => exact writes_blob (by simp only [if_true] at hlen; omega) (by omega)
    | false => exact ⟨o₁, rfl, .refl o₁, rfl⟩
  refine hany.bind fun o₂ hp₂ hl₂ => ?_
  refine (writes_blob (by omega) (by omega)).bind fun o₃ hp₃ hl₃ => ?_
  rw [if_neg (by omega)]
  exact writes_app (by rw [List.length_singleton]; omega)

/-- The packet is put into a content object. -/
theorem writes_mgmtBuf2 (h : packet.length + 16 ≤ maxPacketSize) :
    Writes (emptyFront maxPacketSize) (ccnbHdr ccnDtagContentobj ccnTtDtag ++ (packet ++ [0]))
      (mgmtBuf2 packet) := by
  have hhdr := length_hdr ccnTtDtag (show ccnDtagContentobj < 2 ^ 53 by decide)
  have hmem : (emptyFront maxPacketSize).mem.length = maxPacketSize := List.length_replicate
  have hpos : (emptyFront maxPacketSize).pos = 0 := rfl
  refine (writes_hdr (by omega) (by omega)).bind fun o₁ hp₁ hl₁ => ?_
  rw [if_neg (by omega)]
  refine (writes_app (by omega)).bind fun o₂ hp₂ hl₂ => ?_
  exact writes_app (by rw [List.length_singleton]; omega)

end Packets

/-! ## What the call makes -/

section Made

variable {digest : List UInt8 → Digest} {now : Nat} {«from» : FaceId} {buf : List UInt8}
  {σ : Relay} {s : Splitting} {it n : Nat}

/-- Pass `it` makes the packet of part `it`. -/
theorem mgmtSplitStep_eq (h : it ≤ buf.length / packetsize) :
    mgmtSplitStep digest now «from» buf n s it =
      mgmtDeliver digest now «from» s it (replyBytes (it == n - 1) (piece packetsize buf it)) := by
  have hps : packetsize = 2024 := rfl
  have hstart : it * packetsize ≤ buf.length := (Nat.le_div_iff_mul_le (by decide)).mp h
  have hpart : rdBytes buf (it * packetsize) (min (buf.length - it * packetsize) packetsize) =
      .ok (piece packetsize buf it) := by
    refine rdBytes_eq_ok.mpr ⟨.inr (by omega), ?_⟩
    rw [piece, Nat.min_comm, ← List.length_drop, ← List.take_eq_take_min]
  have hlen : (piece packetsize buf it).length ≤ packetsize := by
    rw [length_piece]
    exact Nat.min_le_left ..
  have hfrag := @length_fragBytes (it == n - 1) _ hlen
  have hmax : maxPacketSize = packetsize * 4 := rfl
  rw [mgmtSplitStep, hpart, ok_bind, (writes_mgmtPacket hlen).copy, ok_bind,
    (writes_mgmtBuf2 (by omega)).copy, ok_bind, replyBytes]

/-- The relay after it has sent a buffer. -/
def Relay.sent (σ : Relay) (f : FaceId) (buf : List UInt8) : Relay :=
  { σ with out := σ.out ++ [.send f buf] }

/-- The first packet is sent. -/
theorem mgmtDeliver_first {bs : List UInt8} (hf : s.relay.Listed «from») :
    mgmtDeliver digest now «from» s 0 bs =
      .ok ⟨s.relay.sent «from» bs, s.made ++ [.sent bs]⟩ := by
  obtain ⟨x, hx⟩ := hf.face
  rw [mgmtDeliver, if_pos rfl, faceEnqueue, hx]
  rfl

/-- No other packet is made. -/
theorem mgmtDeliver_later {bs : List UInt8} (h : it ≠ 0) :
    mgmtDeliver digest now «from» s it bs = .error .bail := by
  rw [mgmtDeliver, if_neg h, mkSimpleContent_ccnb rfl]
  rfl

/-- The first packet of a reply. -/
def firstPacket (buf : List UInt8) : List UInt8 :=
  replyBytes (decide (buf.length < packetsize)) (piece packetsize buf 0)

/-- The call sends the first packet, and gives up when there are others. -/
theorem mgmtSendReturnSplit_eq (digest : List UInt8 → Digest) (now : Nat) (buf : List UInt8)
    (hf : σ.Listed «from») :
    mgmtSendReturnSplit digest now «from» buf σ =
      .ok (⟨σ.sent «from» (firstPacket buf), [.sent (firstPacket buf)]⟩,
        if buf.length < packetsize then 0 else 1) := by
  have hpos : 0 < packetsize := by decide
  have hlast : (0 == buf.length / packetsize + 1 - 1) = decide (buf.length < packetsize) := by
    rw [Nat.add_sub_cancel, Bool.eq_iff_iff, beq_iff_eq, decide_eq_true_iff, eq_comm,
      Nat.div_eq_zero_iff, or_iff_right (Nat.ne_of_gt hpos)]
  have hfirst : mgmtSplitFrom digest now «from» buf (buf.length / packetsize + 1)
      (List.range (buf.length / packetsize + 1)) { relay := σ } =
        mgmtSplitFrom digest now «from» buf (buf.length / packetsize + 1)
          (List.range' 1 (buf.length / packetsize))
          ⟨σ.sent «from» (firstPacket buf), [.sent (firstPacket buf)]⟩ := by
    rw [List.range_eq_range', List.range'_succ, mgmtSplitFrom, mgmtSplitStep_eq (Nat.zero_le _),
      hlast, ← firstPacket, mgmtDeliver_first hf]
    rfl
  rw [mgmtSendReturnSplit, hfirst]
  by_cases hlt : buf.length < packetsize
  · rw [Nat.div_eq_of_lt hlt, if_pos hlt]
    rfl
  · obtain ⟨k, hk⟩ := Nat.exists_eq_succ_of_ne_zero
      (Nat.ne_of_gt (Nat.div_pos (Nat.not_lt.mp hlt) hpos))
    rw [hk, List.range'_succ, mgmtSplitFrom, mgmtSplitStep_eq (by omega),
      mgmtDeliver_later Nat.one_ne_zero, if_neg hlt]
    rfl

/-- Only the last packet is marked. -/
theorem replyBytes_ne (part part' : List UInt8) : replyBytes true part ≠ replyBytes false part' := by
  intro h
  have h₁ := List.append_cancel_left h
  simp only [fragBytes, List.append_assoc] at h₁
  have h₂ := List.append_cancel_left h₁
  have hany : ccnbHdr ccnDtagAny ccnTtDtag = [0xea] := by decide
  have hdigest : ccnbHdr ccnDtagContentdigest ccnTtDtag = [0x01, 0xaa] := by decide
  simp [ccnbField1, hany, hdigest] at h₂

/-- A single packet is the last. -/
theorem Split.single {last : Bool} {part : List UInt8}
    (h : Split buf [.sent (replyBytes last part)]) : last = true := by
  obtain ⟨parts, -, -, hlen, hall⟩ := h
  match parts, hlen with
  | [part'], _ =>
    obtain ⟨-, heq⟩ := hall 0 part' _ rfl rfl
    cases last with
    | true => rfl
    | false => exact absurd heq.symm (replyBytes_ne _ _)

/-- The packets of a reply are made, each of them, exactly when the reply fits into one. -/
theorem mgmtSplit_iff (digest : List UInt8 → Digest) (now : Nat) («from» : FaceId)
    (buf : List UInt8) (σ : Relay) (hf : σ.Listed «from») :
    (∃ s rc, mgmtSendReturnSplit digest now «from» buf σ = .ok (s, rc) ∧ Split buf s.made) ↔
      buf.length < packetsize := by
  have hrun := mgmtSendReturnSplit_eq digest now buf hf
  constructor
  · rintro ⟨s, rc', hrun', hsplit⟩
    obtain ⟨rfl, -⟩ := Prod.mk.inj (Except.ok.inj (hrun.symm.trans hrun'))
    exact of_decide_eq_true hsplit.single
  · intro hlt
    refine ⟨_, _, hrun, [buf], List.cons_ne_nil _ _, List.append_nil _, rfl, ?_⟩
    intro it part d hpart hd
    cases it with
    | succ it => cases hpart
    | zero =>
      obtain rfl := Option.some.inj hpart
      obtain rfl := Option.some.inj hd
      refine ⟨rfl, ?_⟩
      rw [firstPacket, decide_eq_true hlt, piece, Nat.zero_mul, List.drop_zero,
        List.take_of_length_le hlt.le]
      rfl

theorem mgmtSplit_three :
    (∃ s rc, mgmtSendReturnSplit (fun _ => ⟨List.replicate 32 0, rfl⟩) 0 1 [1, 2, 3]
        { faces := [{ faceid := 1, ifndx := 0 }] } = .ok (s, rc) ∧ Split [1, 2, 3] s.made) ↔
      [(1 : UInt8), 2, 3].length < packetsize :=
  mgmtSplit_iff _ 0 1 [1, 2, 3] { faces := [{ faceid := 1, ifndx := 0 }] } (by decide)

/-- Of a reply that fills a packet, the second packet, which is empty and the last, is not made. -/
theorem mgmtSplit_full :
    ¬ ∀ (digest : List UInt8 → Digest) (now : Nat) («from» : FaceId) (buf : List UInt8) (σ : Relay),
      σ.Listed «from» → ∃ s rc, mgmtSendReturnSplit digest now «from» buf σ = .ok (s, rc) ∧
        Split buf s.made := by
  intro h
  let σ : Relay := { faces := [{ faceid := 1, ifndx := 0 }] }
  let buf : List UInt8 := List.replicate packetsize 7
  have hσ : σ.Listed 1 := by decide
  obtain ⟨s, rc, hrun, hsplit⟩ := h (fun _ => ⟨List.replicate 32 0, rfl⟩) 0 1 buf σ hσ
  have hrun' := mgmtSendReturnSplit_eq (fun _ => ⟨List.replicate 32 0, rfl⟩) 0 buf hσ
  obtain ⟨rfl, -⟩ := Prod.mk.inj (Except.ok.inj (hrun'.symm.trans hrun))
  have hlt := of_decide_eq_true hsplit.single
  rw [List.length_replicate] at hlt
  exact Nat.lt_irrefl _ hlt

end Made

end Ccnl
