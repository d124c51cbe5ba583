import CcnLite.Pkt.CcnbRoundtrip

/-!
# CCNB packets inside a frame

`ccnbFrameStep_parsed`: where the encoder's bytes stand in a frame, between other packets, the pass of
`ccnl_ccnb_forwarder` takes them off and hands the same packet to the handler, whatever comes behind
the frame in the receive buffer. For an Interest with a Nonce this asks that it is the last one.
`ccnbFrame_packets`: the loop goes through a frame of such packets one after the other.
-/

namespace Ccnl

open CRun

/-! ## Memory behind the frame -/

section Grows

variable (mem rest : List UInt8)

theorem ccnbDeheadFrom_grows (k val : Nat) (c : Cursor) :
    Grows (ccnbDeheadFrom mem k val c) (ccnbDeheadFrom (mem ++ rest) k val c) := by
  induction k generalizing val c with
  | zero => exact .refl _
  | succ k ih =>
    unfold ccnbDeheadFrom
    split
    · exact .refl _
    · refine (rd_grows mem rest c.pos).bind fun b => ?_
      split
      · exact .refl _
      · exact ih _ _

theorem ccnbDehead_grows (c : Cursor) : Grows (ccnbDehead mem c) (ccnbDehead (mem ++ rest) c) := by
  unfold ccnbDehead
  split
  · exact .refl _
  · refine (rd_grows mem rest c.pos).bind fun b => ?_
    split
    · exact .refl _
    · exact ccnbDeheadFrom_grows mem rest _ _ _

theorem consumeWith_grows {hunt hunt' : Cursor → Option Span → Run (Cursor × Option Span)}
    (h : ∀ c v, Grows (hunt c v) (hunt' c v)) (typ num : Nat) (c : Cursor) (v : Option Span) :
    Grows (consumeWith hunt typ num c v) (consumeWith hunt' typ num c v) := by
  unfold consumeWith
  split
  · exact .refl _
  · split
    · exact h c v
    · exact .refl _

theorem huntFrom_grows (n : Nat) (c : Cursor) (v : Option Span) :
    Grows (huntFrom mem n c v) (huntFrom (mem ++ rest) n c v) := by
  induction n generalizing c v with
  | zero => exact .refl _
  | succ n ih =>
    refine (ccnbDehead_grows mem rest c).bind fun x => ?_
    match x with
    | none => exact .refl _
    | some ((num, typ), c) =>
      simp only
      split
      · exact .refl _
      · exact (consumeWith_grows ih typ num c v).bind fun y => ih y.1 y.2

theorem ccnbConsume_grows (typ num : Nat) (c : Cursor) (v : Option Span) :
    Grows (ccnbConsume mem typ num c v) (ccnbConsume (mem ++ rest) typ num c v) :=
  consumeWith_grows (fun c v => huntFrom_grows mem rest (c.len + 1) c v) typ num c v

theorem ccnbNameStep_grows (s : Cursor × List (Option Span)) :
    Grows (ccnbNameStep mem s) (ccnbNameStep (mem ++ rest) s) := by
  refine (ccnbDehead_grows mem rest s.1).bind fun x => ?_
  match x with
  | none => exact .refl _
  | some ((num, typ), c) =>
    simp only
    split
    · exact .refl _
    · split
      · exact (huntFrom_grows mem rest _ c none).bind fun y => .refl _
      · exact (ccnbConsume_grows mem rest typ num c none).bind fun y => .refl _

theorem ccnbField_grows (c : Cursor) : Grows (ccnbField mem c) (ccnbField (mem ++ rest) c) :=
  (huntFrom_grows mem rest _ c none).bind fun _ => .refl _

theorem ccnbUint_grows (c : Cursor) (bound : Nat) :
    Grows (ccnbUint mem c bound) (ccnbUint (mem ++ rest) c bound) :=
  (ccnbField_grows mem rest c).bind fun x => (rdBytes_grows mem rest x.1.off x.1.len).bind fun _ =>
    .refl _

theorem ccnbBuf_grows (c : Cursor) (old : Option (List UInt8)) :
    Grows (ccnbBuf mem c old) (ccnbBuf (mem ++ rest) c old) := by
  cases old with
  | some b => exact (huntFrom_grows mem rest _ c none).bind fun _ => .refl _
  | none =>
    exact (ccnbField_grows mem rest c).bind fun x =>
      (rdBytes_grows mem rest x.1.off x.1.len).bind fun _ => .refl _

theorem ccnbElem_grows (start hd num : Nat) (c : Cursor) (s : CcnbState) :
    Grows (ccnbElem mem start hd num c s) (ccnbElem (mem ++ rest) start hd num c s) := by
  unfold ccnbElem
  cases ccnDtag num with
  | name =>
    exact (Grows.loop (ccnbNameStep_grows mem rest) (c.len + 1) (c, s.comp)).bind fun _ => .refl _
  | content => exact (ccnbConsume_grows mem rest ccnTtDtag num c _).bind fun _ => .refl _
  | scope =>
    refine (ccnbField_grows mem rest c).bind fun x => ?_
    simp only
    split
    · exact (rd_grows mem rest x.1.off).bind fun _ => .refl _
    · exact .refl _
  | answerOrigKind => exact (ccnbUint_grows mem rest c _).bind fun _ => .refl _
  | minSuffComp => exact (ccnbUint_grows mem rest c _).bind fun _ => .refl _
  | maxSuffComp => exact (ccnbUint_grows mem rest c _).bind fun _ => .refl _
  | nonce => exact (ccnbBuf_grows mem rest c _).bind fun _ => .refl _
  | pubPubKDigest => exact (ccnbBuf_grows mem rest c _).bind fun _ => .refl _
  | other => exact (huntFrom_grows mem rest _ c none).bind fun _ => .refl _

theorem ccnbStep_grows (start : Nat) (s : Cursor × CcnbState) :
    Grows (ccnbStep mem start s) (ccnbStep (mem ++ rest) start s) := by
  refine (ccnbDehead_grows mem rest s.1).bind fun x => ?_
  match x with
  | none => exact .refl _
  | some ((num, typ), c) =>
    simp only
    split
    · exact .refl _
    · split
      · exact (ccnbElem_grows mem rest start s.1.pos num c s.2).bind fun _ => .refl _
      · exact (ccnbConsume_grows mem rest typ num c none).bind fun _ => .refl _

/-- What the parser returns does not depend on what lies behind. -/
theorem ccnbBytes2pkt_grows (start : Nat) (c : Cursor) :
    Grows (ccnbBytes2pkt mem start c) (ccnbBytes2pkt (mem ++ rest) start c) :=
  (Grows.loop (ccnbStep_grows mem rest start) (c.len + 1) (c, { pkt := ccnbPkt })).bind fun x =>
    (rdBytes_grows mem rest start (x.1.pos - start)).bind fun _ => .refl _

end Grows

/-! ## Packets between others -/

/-- A packet with the name `name`, in a buffer of its own, after the two bytes of its header. -/
def ccnbPktOf (name : Prefix) (buf : List UInt8) (pkt : Pkt) : Pkt :=
  { pkt with
    buf := buf
    pfx := some
      { mem := buf
        comp := ccnbSpans (2 + (ccnbHdr ccnDtagName ccnTtDtag).length) name.comps
        suite := .ccnb
        nameptr := some 2
        namelen := (ccnbNameBytes name).length } }

/-- The packet that the forwarder makes of an Interest. -/
def ccnbInterestPkt (name : Prefix) (nonce : Option UInt32) : Pkt :=
  ccnbPktOf name (ccnbInterest name nonce)
    { ccnbPkt.setCcnb { ccnbPkt.ccnb with nonce := nonce.map wordBytes } with
      type := ccnDtagInterest, flags := pktRequest }

/-- The packet that the forwarder makes of a content object. -/
def ccnbContentPkt (name : Prefix) (payload : List UInt8) : Pkt :=
  ccnbPktOf name (ccnbContent name payload)
    { ccnbPkt with
      content := some (blobSpan (2 + (ccnbNameBytes name).length +
        (ccnbHdr ccnDtagContent ccnTtDtag).length) payload)
      type := ccnDtagContentobj
      flags := pktReply }

section Packets

variable {name : Prefix} {nonce : Option UInt32} {payload : List UInt8} {start : Nat}

theorem ccnbSpans_rebase (start q : Nat) (vs : List (List UInt8)) :
    (ccnbSpans (start + q) vs).map (·.rebase start) = ccnbSpans q vs := by
  induction vs generalizing q with
  | nil => rfl
  | cons v vs ih =>
    have hspan : (blobSpan (start + q + (ccnbHdr ccnDtagComponent ccnTtDtag).length) v).rebase start =
        blobSpan (q + (ccnbHdr ccnDtagComponent ccnTtDtag).length) v := by
      simp only [blobSpan, Span.rebase, Span.mk.injEq, and_true]
      omega
    rw [ccnbSpans, List.map_cons, hspan, Nat.add_assoc, ih]
    rfl

/-- The packet does not depend on the place where it was parsed. -/
theorem finish_rebase (name : Prefix) (buf : List UInt8) (pkt : Pkt) :
    (CcnbState.finish { ccnbNamedState start (start + 2) name with pkt := pkt }
      (ccnbSpans (start + 2 + (ccnbHdr ccnDtagName ccnTtDtag).length) name.comps)).rebase start buf =
      ccnbPktOf name buf { pkt with content := pkt.content.map (·.rebase start) } := by
  have hspans := ccnbSpans_rebase start (2 + (ccnbHdr ccnDtagName ccnTtDtag).length) name.comps
  rw [← Nat.add_assoc] at hspans
  simp only [CcnbState.finish, ccnbNamedState, CcnbState.withName, Pkt.rebase, ccnbPktOf,
    Option.map_some, hspans, Nat.add_sub_cancel_left]

/-- The bytes of a packet between others. -/
theorem take_packet {hdr elems before after : List UInt8} (hhdr : hdr.length = 2) :
    ((before ++ ((hdr ++ elems) ++ after)).drop before.length).take
      (before.length + 2 + elems.length - before.length) = hdr ++ elems := by
  have hlen : before.length + 2 + elems.length - before.length = (hdr ++ elems).length := by
    rw [List.length_append]
    omega
  rw [List.drop_left, hlen, List.take_left]

theorem ccnbInterest_parsed (hn : name.compcnt ≤ maxNameComp)
    (hshort : ∀ v ∈ name.comps, v.length < 2 ^ 53) (before after : List UInt8)
    (hclosed : nonce ≠ none → ccnbHeader after = none) :
    let p := ccnbInterest name nonce
    ∃ pkt, ccnbBytes2pkt (before ++ (p ++ after)) before.length
        ⟨before.length + 2, p.length - 2 + after.length⟩ =
          .ok (pkt, ⟨before.length + p.length, after.length⟩) ∧
      { pkt with type := ccnDtagInterest, flags := pktRequest } = ccnbInterestPkt name nonce := by
  intro p
  have hhdr : (ccnbHdr ccnDtagInterest ccnTtDtag).length = 2 := rfl
  obtain ⟨hat, hstart, hstop, hdrop⟩ := at_ccnbPacket hhdr before (ccnbInterestElems name nonce) after
  have hle := hat.le (List.append_ne_nil_of_right_ne_nil _
    (List.append_ne_nil_of_right_ne_nil _ (List.cons_ne_nil _ _)))
  have hparse : ccnbBytes2pkt _ before.length _ = _ :=
    ccnbBytes2pkt_of_top ((top_ccnbInterest hn hat).mpr ⟨hshort, hdrop.symm ▸ hclosed, rfl⟩) rfl hle
  rw [hstart, hstop, take_packet hhdr] at hparse
  refine ⟨_, hparse, ?_⟩
  rw [ccnbInterestState, finish_rebase]
  rfl

theorem ccnbContent_parsed (hn : name.compcnt ≤ maxNameComp)
    (hshort : ∀ v ∈ name.comps, v.length < 2 ^ 53) (hpayload : payload.length < 2 ^ 53)
    (before after : List UInt8) :
    let p := ccnbContent name payload
    ∃ pkt, ccnbBytes2pkt (before ++ (p ++ after)) before.length
        ⟨before.length + 2, p.length - 2 + after.length⟩ =
          .ok (pkt, ⟨before.length + p.length, after.length⟩) ∧
      { pkt with type := ccnDtagContentobj, flags := pktReply } = ccnbContentPkt name payload := by
  intro p
  have hhdr : (ccnbHdr ccnDtagContentobj ccnTtDtag).length = 2 := rfl
  obtain ⟨hat, hstart, hstop, hdrop⟩ := at_ccnbPacket hhdr before (ccnbContentElems name payload) after
  have hle := hat.le (List.append_ne_nil_of_right_ne_nil _
    (List.append_ne_nil_of_right_ne_nil _ (List.cons_ne_nil _ _)))
  have hparse : ccnbBytes2pkt _ before.length _ = _ :=
    ccnbBytes2pkt_of_top ((top_ccnbContentElems hn hat).mpr ⟨⟨hshort, hpayload⟩, rfl⟩) rfl hle
  rw [hstart, hstop, take_packet hhdr] at hparse
  have hspan : (blobSpan (before.length + 2 + (ccnbNameBytes name).length +
      (ccnbHdr ccnDtagContent ccnTtDtag).length) payload).rebase before.length =
      blobSpan (2 + (ccnbNameBytes name).length + (ccnbHdr ccnDtagContent ccnTtDtag).length)
        payload := by
    simp only [blobSpan, Span.rebase, Span.mk.injEq, and_true]
    omega
  refine ⟨_, hparse, ?_⟩
  rw [finish_rebase, Option.map_some, hspan]
  rfl

/-- The end of a pass of `ccnl_ccnb_forwarder`: the handler gets the packet. -/
def ccnbHandOver {τ : Type} (handle : τ → Pkt → Run (τ × Bool)) (t : τ) (pkt : Pkt) (c : Cursor) :
    Run ((τ × Cursor) ⊕ (τ × Option Cursor)) := do
  match ← handle t pkt with
  | (t, true) => return .inl (t, c)
  | (t, false) => return .inr (t, none)

/-- The pass over a packet that stands between `before` and `after`. -/
theorem ccnbFrameStep_parsed {τ : Type} {handle : τ → Pkt → Run (τ × Bool)} {t : τ} {num flags : Nat}
    {elems before after : List UInt8} {pkt pkt' : Pkt} (rest : List UInt8)
    (hnum : num = ccnDtagInterest ∧ flags = pktRequest ∨
      num = ccnDtagContentobj ∧ flags = pktReply)
    (hparse : ccnbBytes2pkt (before ++ ((ccnbHdr num ccnTtDtag ++ elems) ++ after)) before.length
      ⟨before.length + 2, (ccnbHdr num ccnTtDtag ++ elems).length - 2 + after.length⟩ =
        .ok (pkt, ⟨before.length + (ccnbHdr num ccnTtDtag ++ elems).length, after.length⟩))
    (hpkt : { pkt with type := num, flags := flags } = pkt') :
    ccnbFrameStep handle (before ++ ((ccnbHdr num ccnTtDtag ++ elems) ++ after) ++ rest)
        (t, ⟨before.length, (ccnbHdr num ccnTtDtag ++ elems).length + after.length⟩) =
      ccnbHandOver handle t pkt'
        ⟨before.length + (ccnbHdr num ccnTtDtag ++ elems).length, after.length⟩ := by
  have hlen : (ccnbHdr num ccnTtDtag).length = 2 := by
    rcases hnum with ⟨rfl, -⟩ | ⟨rfl, -⟩ <;> rfl
  have hsmall : num < 2 ^ 53 := by
    rcases hnum with ⟨rfl, -⟩ | ⟨rfl, -⟩ <;> decide
  have hhdr : At (before ++ ((ccnbHdr num ccnTtDtag ++ elems) ++ after)) before.length
      (ccnbHdr num ccnTtDtag) := (at_append.mp (at_mid before _ after)).1
  have hat := ccnbAt_hdr hhdr (by decide) hsmall
  have hmem : (before ++ ((ccnbHdr num ccnTtDtag ++ elems) ++ after)).length =
      before.length + ((ccnbHdr num ccnTtDtag ++ elems).length + after.length) := by
    rw [List.length_append, List.length_append]
  have hhead : (ccnbHdr num ccnTtDtag ++ elems).length = 2 + elems.length := by
    rw [List.length_append, hlen]
  have hdehead : ccnbDehead (before ++ ((ccnbHdr num ccnTtDtag ++ elems) ++ after) ++ rest)
      ⟨before.length, (ccnbHdr num ccnTtDtag ++ elems).length + after.length⟩ =
        .ok (some ((num, ccnTtDtag), ⟨before.length + 2,
          (ccnbHdr num ccnTtDtag ++ elems).length - 2 + after.length⟩)) := by
    refine ccnbDehead_grows _ rest _ _ ?_
    rw [hmem] at hat
    rw [hat.dehead (Nat.le_of_eq hmem.symm), hlen]
    congr 4
    simp only
    omega
  have htaken := ccnbBytes2pkt_grows _ rest _ _ _ hparse
  unfold ccnbFrameStep
  rw [if_neg (by simp only; omega), hdehead, ok_bind]
  simp only
  rw [if_pos ⟨trivial, by rcases hnum with ⟨rfl, -⟩ | ⟨rfl, -⟩ <;> simp⟩, Nat.add_sub_cancel, htaken]
  subst hpkt
  have hflags : (if num = ccnDtagInterest then pktRequest else pktReply) = flags := by
    rcases hnum with ⟨rfl, rfl⟩ | ⟨rfl, rfl⟩ <;> rfl
  simp only [attempt, hflags]
  rfl

end Packets

/-! ## Frames of packets -/

/-- A packet as the encoder is asked for it. -/
inductive CcnbMsg where
  | interest (name : Prefix) (nonce : Option UInt32)
  | content (name : Prefix) (payload : List UInt8)

namespace CcnbMsg

def name : CcnbMsg → Prefix
  | interest name _ => name
  | content name _ => name

def bytes : CcnbMsg → List UInt8
  | interest name nonce => ccnbInterest name nonce
  | content name payload => ccnbContent name payload

/-- The packet that the forwarder makes of it. -/
def pkt : CcnbMsg → Pkt
  | interest name nonce => ccnbInterestPkt name nonce
  | content name payload => ccnbContentPkt name payload

/-- The name fits into a prefix. -/
def Fits (m : CcnbMsg) : Prop := m.name.compcnt ≤ maxNameComp

/-- The parser can read all lengths. -/
def Short : CcnbMsg → Prop
  | interest name _ => ∀ v ∈ name.comps, v.length < 2 ^ 53
  | content name payload => (∀ v ∈ name.comps, v.length < 2 ^ 53) ∧ payload.length < 2 ^ 53

/-- The packet has all its end markers: it is no Interest with a Nonce. -/
def Closed : CcnbMsg → Prop
  | interest _ nonce => nonce = none
  | content _ _ => True

/-- The pass over a packet takes off its bytes. -/
theorem frameStep {τ : Type} (handle : τ → Pkt → Run (τ × Bool)) (t : τ) {m : CcnbMsg}
    (hn : m.Fits) (hshort : m.Short) (before after rest : List UInt8)
    (hclosed : m.Closed ∨ after = []) :
    ccnbFrameStep handle (before ++ (m.bytes ++ after) ++ rest)
        (t, ⟨before.length, m.bytes.length + after.length⟩) =
      ccnbHandOver handle t m.pkt ⟨before.length + m.bytes.length, after.length⟩ := by
  cases m with
  | interest name nonce =>
    have hend : nonce ≠ none → ccnbHeader after = none := by
      intro hno
      rcases hclosed with hclosed | rfl
      · exact absurd hclosed hno
      · rfl
    obtain ⟨pkt, hparse, hpkt⟩ := ccnbInterest_parsed hn hshort before after hend
    exact ccnbFrameStep_parsed rest (.inl ⟨rfl, rfl⟩) hparse hpkt
  | content name payload =>
    obtain ⟨pkt, hparse, hpkt⟩ := ccnbContent_parsed hn hshort.1 hshort.2 before after
    exact ccnbFrameStep_parsed rest (.inr ⟨rfl, rfl⟩) hparse hpkt

theorem two_le_length (m : CcnbMsg) : 2 ≤ m.bytes.length := by
  cases m <;> simp only [bytes, ccnbInterest, ccnbContent, List.length_append]
  · exact Nat.le_add_right 2 _
  · exact Nat.le_add_right 2 _

end CcnbMsg

section Frame

variable {τ : Type} {handle : τ → Pkt → Run (τ × Bool)} {take : τ → CcnbMsg → Run τ}

theorem ccnbFrameLoop_packets {ms : List CcnbMsg} {mem before rest : List UInt8} {t : τ} {n : Nat}
    (hmem : mem = before ++ (ms.map CcnbMsg.bytes).flatten ++ rest)
    (hhandle : ∀ t, ∀ m ∈ ms, handle t m.pkt = (take t m).map (·, true))
    (hn : ∀ m ∈ ms, m.Fits) (hshort : ∀ m ∈ ms, m.Short) (hclosed : ∀ m ∈ ms.dropLast, m.Closed)
    (hfuel : (ms.map CcnbMsg.bytes).flatten.length < n) :
    loop (ccnbFrameStep handle mem) n
        (t, ⟨before.length, (ms.map CcnbMsg.bytes).flatten.length⟩) =
      (ms.foldlM take t).map
        (·, some ⟨before.length + (ms.map CcnbMsg.bytes).flatten.length, 0⟩) := by
  induction ms generalizing before t n with
  | nil =>
    obtain ⟨n, rfl⟩ := Nat.exists_eq_succ_of_ne_zero (Nat.ne_of_gt hfuel)
    rfl
  | cons m ms ih =>
    obtain ⟨n, rfl⟩ := Nat.exists_eq_succ_of_ne_zero (Nat.ne_of_gt (Nat.lt_of_le_of_lt (Nat.zero_le _)
      hfuel))
    rw [List.map_cons, List.flatten_cons] at hmem hfuel ⊢
    have hend : m.Closed ∨ (ms.map CcnbMsg.bytes).flatten = [] := by
      cases ms with
      | nil => exact .inr rfl
      | cons m' ms => exact .inl (hclosed m (by simp))
    have hlen := m.two_le_length
    rw [List.length_append] at hfuel ⊢
    have hstep := CcnbMsg.frameStep handle t (hn m (by simp)) (hshort m (by simp))
      before _ rest hend
    rw [← hmem, ccnbHandOver, hhandle t m (by simp)] at hstep
    rw [loop, hstep, List.foldlM_cons]
    cases htake : take t m with
    | error s => rfl
    | ok t' =>
      have hclosed' : ∀ m ∈ ms.dropLast, m.Closed := by
        cases ms with
        | nil => simp
        | cons m' ms => exact fun m hm => hclosed m (List.mem_cons_of_mem _ hm)
      have hmem' : mem = (before ++ m.bytes) ++ (ms.map CcnbMsg.bytes).flatten ++ rest := by
        rw [hmem, List.append_assoc before m.bytes]
      have hrest := @ih _ t' n hmem' (fun t m' hm' => hhandle t m' (by simp [hm']))
        (fun m' hm' => hn m' (by simp [hm'])) (fun m' hm' => hshort m' (by simp [hm'])) hclosed'
        (by omega)
      rw [List.length_append, Nat.add_assoc] at hrest
      exact hrest

/-- The loop over a frame of packets. -/
theorem ccnbFrame_packets {ms : List CcnbMsg} (rest : List UInt8) (t : τ)
    (hhandle : ∀ t, ∀ m ∈ ms, handle t m.pkt = (take t m).map (·, true))
    (hn : ∀ m ∈ ms, m.Fits) (hshort : ∀ m ∈ ms, m.Short) (hclosed : ∀ m ∈ ms.dropLast, m.Closed) :
    let p := (ms.map CcnbMsg.bytes).flatten
    ccnbFrame handle (p ++ rest) t ⟨0, p.length⟩ =
      (ms.foldlM take t).map (·, some ⟨p.length, 0⟩) := by
  intro p
  have hloop : loop (ccnbFrameStep handle (p ++ rest)) (p.length + 1)
      (t, ⟨([] : List UInt8).length, p.length⟩) =
        (ms.foldlM take t).map (·, some ⟨([] : List UInt8).length + p.length, 0⟩) :=
    ccnbFrameLoop_packets rfl hhandle hn hshort hclosed (Nat.lt_succ_self _)
  rw [List.length_nil, Nat.zero_add] at hloop
  exact hloop

end Frame

end Ccnl
