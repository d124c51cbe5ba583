import CcnLite.Fwd.Network
import CcnLite.Fwd.Peers
import CcnLite.Pkt.Behind

/-!
# An Interest and its Data across relays

A frame that is one packet is handled as this packet, whatever lies behind it in the receive buffer
(`FramePacket.rxLoop`). A relay that has no content for an Interest gives it to the next one and keeps
the face that waits (`Relay.Forwards.run`); one that has a content sends it (`Relay.Serves.run`); and
the Data goes to the face that waits (`Forwarded.run`). What is sent to a face goes to the address of
its peer (`Relay.datagram`), so a `Route` is a path of relays each of which has a face to the next.

`fetch_over_path` puts this together, by induction on the path: nothing else has to happen for the Data
to come back than that the relays on the path get what the others send them.
-/

namespace Ccnl

open CRun

/-! ## The packet of a frame -/

/-- What a forwarder hands to the handlers: an Interest, with the suite that it came in, or a Data. -/
inductive Packet where
  | interest (suite : Suite) (pkt : Pkt)
  | content (pkt : Pkt)
  deriving DecidableEq, Repr

/-- The bytes of the packet. -/
def Packet.buf : Packet → List UInt8
  | interest _ pkt => pkt.buf
  | content pkt => pkt.buf

/-- What the handlers do with it. -/
def Packet.handle (E : Env) (now : Nat) (f : FaceId) (σ : Relay) : Packet → Run Relay
  | interest suite pkt => Prod.fst <$> handleInterest E now (cMatch E.digest suite) σ f pkt
  | content pkt => handleContent E now σ pkt

/-- The frame is one packet: what it starts with, and what the parser of its suite makes of it. The NDN
parser looks at the byte behind the frame, whatever that is. -/
inductive FramePacket : List UInt8 → Packet → Prop
  | ndnInterest {bs : List UInt8} {pkt : Pkt} {c : Cursor}
      (h : ∀ b, ndntlvParse (0x05 :: bs ++ [b]) ⟨0, bs.length + 1⟩ = .ok (pkt, c)) :
      FramePacket (0x05 :: bs) (.interest .ndntlv pkt)
  | ndnData {bs : List UInt8} {pkt : Pkt} {c : Cursor}
      (h : ∀ b, ndntlvParse (0x06 :: bs ++ [b]) ⟨0, bs.length + 1⟩ = .ok (pkt, c)) :
      FramePacket (0x06 :: bs) (.content pkt)
  | ccnxInterest {bs : List UInt8} {pkt : Pkt}
      (h : ccntlvInterest (0x01 :: 0x00 :: bs) ⟨0, bs.length + 2⟩ = .ok pkt) :
      FramePacket (0x01 :: 0x00 :: bs) (.interest .ccntlv pkt)
  | ccnxData {bs mem : List UInt8} {pkt : Pkt} {c c' : Cursor}
      (hh : ccntlvHeader (0x01 :: 0x01 :: bs) ⟨0, bs.length + 2⟩ = .ok (.pass ccnxPtData mem c))
      (h : ccntlvBytes2pkt mem 0 c = .ok (pkt, c')) (ht : pkt.type = ccnxTlvTlObject) :
      FramePacket (0x01 :: 0x01 :: bs) (.content { pkt with flags := pkt.flags ||| pktReply })
  | ccnbInterest {bs : List UInt8} {pkt : Pkt} {c : Cursor}
      (h : ccnbBytes2pkt (0x01 :: 0xd2 :: bs) 0 ⟨2, bs.length⟩ = .ok (pkt, c)) (hc : c.len = 0) :
      FramePacket (0x01 :: 0xd2 :: bs)
        (.interest .ccnb { pkt with type := ccnDtagInterest, flags := pktRequest })
  | ccnbData {bs : List UInt8} {pkt : Pkt} {c : Cursor}
      (h : ccnbBytes2pkt (0x04 :: 0x82 :: bs) 0 ⟨2, bs.length⟩ = .ok (pkt, c)) (hc : c.len = 0) :
      FramePacket (0x04 :: 0x82 :: bs)
        (.content { pkt with type := ccnDtagContentobj, flags := pktReply })

section Frame

variable {E : Env} {now n : Nat} {σ : Relay} {g : FaceId} {f slack : List UInt8} {p : Packet}

/-- A frame whose first packet takes all of it: the loop ends after this packet. -/
theorem rxLoop_packet {mem mem' : List UInt8} {suite : Suite} {c' : Cursor} {run : Run (Relay × Bool)}
    (hn : n ≠ 0) (hsuite : nextSuite mem none ⟨0, n⟩ = .ok (some suite, ⟨0, n⟩)) (hc : c'.len = 0)
    (htable : rxTable E now g σ mem ⟨0, n⟩ suite =
      run.map fun r => (r.1, mem', if r.2 then some c' else none)) :
    rxLoop E now g σ mem n = Prod.fst <$> run := by
  have hstep : ∀ σ₁, rxStep E now g ⟨σ₁, mem', c', some suite⟩ = .ok (.inr σ₁) := by
    intro σ₁
    unfold rxStep
    rw [if_pos hc]
    rfl
  unfold rxLoop loop
  unfold rxStep
  rw [if_neg hn, hsuite, ok_bind]
  simp only [htable]
  cases run with
  | error s => rfl
  | ok r =>
    obtain ⟨σ₁, b⟩ := r
    cases b with
    | false => rfl
    | true =>
      show (loop (rxStep E now g) (2 * n + 1) ⟨σ₁, mem', c', some suite⟩) = .ok σ₁
      unfold loop
      rw [hstep]
      rfl

theorem ndntlvParse_type {b : UInt8} {mem : List UInt8} {pkt : Pkt} {c : Cursor}
    (hb : b = 0x05 ∨ b = 0x06) (h : ndntlvParse (b :: mem) ⟨0, n⟩ = .ok (pkt, c)) :
    pkt.type = b.toNat := by
  obtain ⟨typ, len, c₂, pkt', hhead, -, -, rfl⟩ := ndntlvParse_eq_ok.mp h
  obtain ⟨⟨m, hnum, -⟩, -⟩ := dehead_eq_ok.mp hhead
  rcases hb with rfl | rfl <;> simp [numAt, numSize] at hnum <;> exact hnum.1.symm

/-! ### The forwarders -/

theorem rxTable_ndntlv {mem : List UInt8} {pkt : Pkt} {c c' : Cursor}
    (h : ndntlvParse mem c = .ok (pkt, c')) :
    rxTable E now g σ mem c .ndntlv =
      (ndntlvHandle E now g σ pkt).map fun r => (r.1, mem, if r.2 then some c' else none) := by
  simp only [rxTable, ndntlvForwarder, h, attempt_ok, ok_bind]
  cases ndntlvHandle E now g σ pkt <;> rfl

theorem rxTable_ccntlv {mem mem' : List UInt8} {pkttype : UInt8} {pkt : Pkt} {c c₁ c' : Cursor}
    (hh : ccntlvHeader mem c = .ok (.pass pkttype mem' c₁))
    (h : ccntlvBytes2pkt mem' c.pos c₁ = .ok (pkt, c')) :
    rxTable E now g σ mem c .ccntlv =
      (ccntlvHandle E now g σ pkttype pkt).map fun r => (r.1, mem', if r.2 then some c' else none) := by
  simp only [rxTable, ccntlvForwarder, hh, h, attempt_ok, ok_bind]
  cases ccntlvHandle E now g σ pkttype pkt <;> rfl

/-- The frame is one packet, so the loop of the forwarder ends after it. -/
theorem rxTable_ccnb {mem : List UInt8} {num : Nat} {pkt : Pkt} {c : Cursor}
    (hnum : num = ccnDtagInterest ∨ num = ccnDtagContentobj)
    (hhead : ccnbDehead mem ⟨0, n + 2⟩ = .ok (some ((num, ccnTtDtag), ⟨2, n⟩)))
    (h : ccnbBytes2pkt mem 0 ⟨2, n⟩ = .ok (pkt, c)) (hc : c.len = 0) :
    rxTable E now g σ mem ⟨0, n + 2⟩ .ccnb =
      (ccnbHandle E now g σ { pkt with
        type := num, flags := if num = ccnDtagInterest then pktRequest else pktReply }).map
        fun r => (r.1, mem, if r.2 then some c else none) := by
  have hend : ∀ σ₁, ccnbFrameStep (ccnbHandle E now g) mem (σ₁, c) = .ok (.inr (σ₁, some c)) := by
    intro σ₁
    unfold ccnbFrameStep
    rw [if_pos hc]
    rfl
  unfold rxTable ccnbForwarder ccnbFrame loop
  unfold ccnbFrameStep
  rw [if_neg (by simp), hhead]
  simp only [ok_bind, hnum, and_self, ↓reduceIte, Nat.sub_self, h, attempt_ok]
  cases ccnbHandle E now g σ { pkt with
    type := num, flags := if num = ccnDtagInterest then pktRequest else pktReply } with
  | error s => rfl
  | ok r =>
    obtain ⟨σ₁, ok⟩ := r
    cases ok with
    | false => rfl
    | true =>
      show (loop (ccnbFrameStep (ccnbHandle E now g) mem) (n + 2) (σ₁, c) >>= fun x =>
        pure (x.1, mem, x.2)) = .ok (σ₁, mem, some c)
      unfold loop
      rw [hend]
      rfl

/-- A handler that always returns 0. -/
theorem fst_map_true (x : Run Relay) : (Prod.fst <$> (do return (← x, true)) : Run Relay) = x := by
  cases x <;> rfl

/-- A frame that is one packet is handled as this packet, whatever lies behind it. -/
theorem FramePacket.rxLoop (h : FramePacket f p) (hslack : slack ≠ []) :
    rxLoop E now g σ (f ++ slack) f.length = p.handle E now g σ := by
  have hbehind : ∀ bs pkt c n, (∀ b, ndntlvParse (bs ++ [b]) ⟨0, n⟩ = .ok (pkt, c)) →
      ndntlvParse (bs ++ slack) ⟨0, n⟩ = .ok (pkt, c) := by
    intro bs pkt c n h
    obtain ⟨b, rest, rfl⟩ := List.exists_cons_of_ne_nil hslack
    have hgrow := ndntlvParse_grows (bs ++ [b]) rest _ _ (h b)
    rwa [List.append_assoc] at hgrow
  cases h with
  | @ndnInterest bs pkt c h =>
    have htype : pkt.type = ndnTlvInterest := ndntlvParse_type (.inl rfl) (h 0)
    have htable := @rxTable_ndntlv E now σ g _ _ _ _ (hbehind _ _ _ _ h)
    have hsuite := nextSuite_ndntlv (b := 0x05) (.inl rfl) (bs ++ slack) (Nat.succ_ne_zero bs.length)
    refine (rxLoop_packet (by simp) hsuite (ndntlvParse_len (h 0)).1 htable).trans ?_
    rw [ndntlvHandle, if_pos htype]
    rfl
  | @ndnData bs pkt c h =>
    have htype : pkt.type = ndnTlvData := ndntlvParse_type (.inr rfl) (h 0)
    have htable := @rxTable_ndntlv E now σ g _ _ _ _ (hbehind _ _ _ _ h)
    have hsuite := nextSuite_ndntlv (b := 0x06) (.inr rfl) (bs ++ slack) (Nat.succ_ne_zero bs.length)
    refine (rxLoop_packet (by simp) hsuite (ndntlvParse_len (h 0)).1 htable).trans ?_
    rw [ndntlvHandle, if_neg (by rw [htype]; decide), if_pos htype]
    exact fst_map_true _
  | @ccnxInterest bs pkt h =>
    obtain ⟨mem', c₁, pkt₀, c₂, hhd, hp, ht, rfl⟩ := ccntlvInterest_eq_ok h
    have htable := @rxTable_ccntlv E now σ g _ _ _ _ _ _ _ (ccntlvHeader_behind _ slack hhd)
      (ccntlvBytes2pkt_grows _ slack _ _ _ hp)
    have hsuite : nextSuite (ccnxTlvV1 :: 0x00 :: (bs ++ slack)) none ⟨0, bs.length + 2⟩ = _ :=
      nextSuite_ccntlv (by decide) _ (by omega)
    refine (rxLoop_packet (by simp) hsuite (ccntlvBytes2pkt_len hp) htable).trans ?_
    rw [ccntlvHandle, if_pos ⟨rfl, ht⟩]
    rfl
  | @ccnxData bs mem' pkt c₁ c₂ hhd hp ht =>
    have htable := @rxTable_ccntlv E now σ g _ _ _ _ _ _ _ (ccntlvHeader_behind _ slack hhd)
      (ccntlvBytes2pkt_grows _ slack _ _ _ hp)
    have hsuite : nextSuite (ccnxTlvV1 :: 0x01 :: (bs ++ slack)) none ⟨0, bs.length + 2⟩ = _ :=
      nextSuite_ccntlv (by decide) _ (by omega)
    refine (rxLoop_packet (by simp) hsuite (ccntlvBytes2pkt_len hp) htable).trans ?_
    rw [ccntlvHandle, if_neg (fun hint => absurd hint.1 (by decide)), if_pos ⟨rfl, ht⟩]
    exact fst_map_true _
  | @ccnbInterest bs pkt c h hc =>
    have htable := @rxTable_ccnb E now bs.length σ g (0x01 :: 0xd2 :: bs ++ slack) _ _ _ (.inl rfl) rfl
      (ccnbBytes2pkt_grows _ slack _ _ _ h) hc
    have hsuite := nextSuite_ccnb_first (.inl rfl) (bs ++ slack) (show 1 < bs.length + 2 by omega)
    refine (rxLoop_packet (by simp) hsuite hc htable).trans ?_
    rw [ccnbHandle, if_pos (by simp [pktRequest])]
    rfl
  | @ccnbData bs pkt c h hc =>
    have htable := @rxTable_ccnb E now bs.length σ g (0x04 :: 0x82 :: bs ++ slack) _ _ _ (.inr rfl) rfl
      (ccnbBytes2pkt_grows _ slack _ _ _ h) hc
    have hsuite := nextSuite_ccnb_first (.inr rfl) (bs ++ slack) (show 1 < bs.length + 2 by omega)
    refine (rxLoop_packet (by simp) hsuite hc htable).trans ?_
    rw [ccnbHandle, if_neg (by simp [ccnDtagContentobj, ccnDtagInterest, pktReply, pktRequest])]
    exact fst_map_true _

/-- A Data goes on byte for byte. -/
theorem FramePacket.whole {d : Pkt} (h : FramePacket f (.content d)) : d.buf = f := by
  cases h with
  | @ndnData bs _ c h =>
    have hlen := (ndntlvParse_len (h 0)).1
    obtain ⟨typ, len, c₂, pkt', hhead, -, hp, rfl⟩ := ndntlvParse_eq_ok.mp (h 0)
    obtain ⟨-, hlim⟩ := dehead_eq_ok.mp hhead
    obtain ⟨-, hlim₁, hbuf, -⟩ := ndntlvBytes2pkt_inside hp (Nat.zero_le _)
    have hpos : c.pos = (0x06 :: bs).length := by
      simp only [List.length_cons]
      simp only at hlim
      omega
    show pkt'.buf = _
    rw [hbuf, hpos, List.drop_zero, Nat.sub_zero, List.take_left]
  | @ccnxData bs mem pkt c₁ c hhd hp ht =>
    have hsame := (ccntlvHeader_writes hhd).2 _ rfl (by decide) (by decide)
    obtain ⟨-, hle, hend⟩ := ccntlvHeader_pass hhd
    obtain ⟨-, hlim, hbuf, -⟩ := ccntlvBytes2pkt_inside hp hle
    have hlen := ccntlvBytes2pkt_len hp
    have hpos : c.pos = (0x01 :: 0x01 :: bs).length := by
      simp only [List.length_cons]
      simp only at hend
      omega
    show pkt.buf = _
    rw [hbuf, hsame, hpos, List.drop_zero, Nat.sub_zero, List.take_length]
  | @ccnbData bs pkt c h hc =>
    have hin : 2 + bs.length ≤ (0x04 :: 0x82 :: bs).length := by
      simp only [List.length_cons]
      omega
    obtain ⟨-, hlim⟩ := (ccnbBytes2pkt_returns hin).mp ⟨pkt, h⟩
    show pkt.buf = _
    rw [(ccnbBytes2pkt_inside hin (Nat.zero_le _) h).buf, List.drop_zero, Nat.sub_zero,
      List.take_of_length_le]
    simp only [List.length_cons] at hlim ⊢
    omega

end Frame

/-! ## Datagrams -/

/-- The face is at the interface `z`, with the peer `a`. -/
def Relay.Linked (σ : Relay) (f : FaceId) (z : Nat) (a : SockAddr) : Prop :=
  ∃ x, σ.face f = .ok x ∧ x.ifndx = z ∧ x.peer = some a

/-- Faces stay linked. -/
structure KeepsLinks (σ τ : Relay) : Prop where
  links : ∀ f z a, σ.Linked f z a → τ.Linked f z a
  ifs : τ.ifs = σ.ifs

/-- A datagram: where it comes from, where it goes, and its bytes. -/
structure Datagram where
  src : SockAddr
  dst : SockAddr
  bytes : List UInt8
  deriving DecidableEq, Repr

/-- A buffer for a face goes out at the interface of the face, to its peer. -/
def Relay.datagram (σ : Relay) : Out → Option Datagram
  | .send f buf => do
    let x ← (σ.face f).toOption
    let dst ← x.peer
    let ifc ← if 0 ≤ x.ifndx then σ.ifs[x.ifndx.toNat]? else none
    return ⟨ifc.addr, dst, buf⟩
  | .tap .. => none

/-- The datagrams that a relay has sent between two states. A face that was removed was there
before. -/
def postedBetween (σ τ : Relay) : List Datagram :=
  (τ.out.drop σ.out.length).filterMap fun o => (τ.datagram o).orElse fun _ => σ.datagram o

section Links

variable {E : Env} {now : Nat} {σ τ υ : Relay} {f : FaceId} {z : Nat} {a : SockAddr}
  {buf : List UInt8} {ifc : Iface}

theorem KeepsLinks.refl (σ : Relay) : KeepsLinks σ σ := ⟨fun _ _ _ h => h, rfl⟩

theorem KeepsLinks.trans (h : KeepsLinks σ τ) (h' : KeepsLinks τ υ) : KeepsLinks σ υ :=
  ⟨fun f z a hl => h'.links f z a (h.links f z a hl), h'.ifs.trans h.ifs⟩

theorem KeepsLinks.of_faces (hf : τ.faces = σ.faces) (hi : τ.ifs = σ.ifs) : KeepsLinks σ τ := by
  refine ⟨fun f z a hl => ?_, hi⟩
  obtain ⟨x, hx, hl⟩ := hl
  exact ⟨x, by unfold Relay.face at hx ⊢; rwa [hf], hl⟩

/-- A change of flags and times. -/
theorem KeepsLinks.of_map {g : Face → Face} (hid : ∀ x, (g x).faceid = x.faceid)
    (hg : ∀ x, (g x).ifndx = x.ifndx ∧ (g x).peer = x.peer) (hf : τ.faces = σ.faces.map g)
    (hi : τ.ifs = σ.ifs) : KeepsLinks σ τ := by
  refine ⟨fun f z a hl => ?_, hi⟩
  obtain ⟨x, hx, hz, ha⟩ := hl
  refine ⟨g x, ?_, (hg x).1.trans hz, (hg x).2.trans ha⟩
  rw [Relay.face_map hid hf, hx]
  rfl

theorem Relay.Linked.listed (h : σ.Linked f z a) : σ.Listed f := by
  obtain ⟨x, hx, -⟩ := h
  exact Relay.listed_of_face hx

theorem Relay.Linked.datagram (h : σ.Linked f z a) (hi : σ.ifs[z]? = some ifc) :
    σ.datagram (.send f buf) = some ⟨ifc.addr, a, buf⟩ := by
  obtain ⟨x, hx, hz, ha⟩ := h
  simp [Relay.datagram, hx, Except.toOption, ha, hz, hi]

/-- What is handed to a linked face goes out. -/
theorem mem_postedBetween {new : List Out} (hl : τ.Linked f z a) (hi : τ.ifs[z]? = some ifc)
    (hout : τ.out = σ.out ++ new) (hmem : .send f buf ∈ new) :
    ⟨ifc.addr, a, buf⟩ ∈ postedBetween σ τ := by
  refine List.mem_filterMap.mpr ⟨.send f buf, ?_, ?_⟩
  · rw [hout, List.drop_left]
    exact hmem
  · simp [hl.datagram hi]

/-- The search for a face leaves everything but the face table alone. -/
theorem getFaceOrCreate_rest (now : Nat) (σ : Relay) (i : Int) (sa : Option SockAddr) :
    ∃ fs n, (getFaceOrCreate now σ i sa).1 = { σ with faces := fs, seqno := n } := by
  rcases getFaceOrCreate_relay now σ i sa with heq | ⟨f, heq⟩ | ⟨j, -, heq⟩ <;> rw [heq]
  · exact ⟨σ.faces, σ.seqno, rfl⟩
  · exact ⟨_, σ.seqno, rfl⟩
  · exact ⟨_, _, rfl⟩

theorem getFaceOrCreate_links (h : σ.Ok) (now : Nat) (i : Int) (sa : Option SockAddr) :
    KeepsLinks σ (getFaceOrCreate now σ i sa).1 := by
  rcases getFaceOrCreate_relay now σ i sa with heq | ⟨f, heq⟩ | ⟨j, -, heq⟩ <;> rw [heq]
  · exact .refl σ
  · refine .of_map (g := fun x => if x.faceid = f then { x with lastUsed := u32 now } else x)
      (fun x => ?_) (fun x => ?_) rfl rfl
    · split <;> rfl
    · split <;> exact ⟨rfl, rfl⟩
  · refine ⟨fun g z a hl => ?_, rfl⟩
    have hle : g ≤ σ.seqno := by
      obtain ⟨x, hx, hid⟩ := hl.listed
      exact hid ▸ h.ids x hx
    obtain ⟨x, hx, hl⟩ := hl
    refine ⟨x, ?_, hl⟩
    rw [Relay.face_eq_ok] at hx ⊢
    rw [← hx]
    refine List.find?_cons_of_neg fun heq => ?_
    have hnew : σ.seqno + 1 = g := beq_iff_eq.mp heq
    exact Nat.not_succ_le_self σ.seqno (hnew.trans_le hle)

/-- A face of the table is the one with its number. -/
theorem Relay.Faced.face_of_mem (h : σ.Faced) {x : Face} (hx : x ∈ σ.faces) :
    σ.face x.faceid = .ok x := by
  obtain ⟨y, hy⟩ := Relay.Listed.face ⟨x, hx, rfl⟩
  have hmem := List.mem_of_find?_eq_some (Relay.face_eq_ok.mp hy)
  obtain rfl := List.inj_on_of_nodup_map h.nodup hmem hx (Relay.faceid_of_face hy)
  exact hy

/-- What the search for the face of a peer at an interface gives. -/
structure Found (σ τ : Relay) (z : Nat) (a : SockAddr) (g : FaceId) : Prop where
  ok : τ.Ok
  faced : τ.Faced
  links : KeepsLinks σ τ
  linked : ∃ p, addrSame p a = true ∧ τ.Linked g z p
  rest : τ = { σ with faces := τ.faces, seqno := τ.seqno }

theorem getFaceOrCreate_found (hok : σ.Ok) (hσ : σ.Faced)
    (h : getFaceOrCreate now σ z (some a) = (τ, some f)) : Found σ τ z a f := by
  have hτ : (getFaceOrCreate now σ z (some a)).1 = τ := by rw [h]
  have hfaced : τ.Faced := hτ ▸ getFaceOrCreate_faced hσ now z (some a)
  obtain ⟨x, hx, rfl, hz, hpeer⟩ := get_has h
  obtain ⟨p, hp, hsame⟩ := hpeer a rfl
  have hne : (z : Int) ≠ -1 := by omega
  rw [Relay.ifndxFor, if_neg hne] at hz
  refine ⟨getFaceOrCreate_ok (by omega) hok h, hfaced, hτ ▸ getFaceOrCreate_links hok now z (some a),
    ⟨p, hsame, x, hfaced.face_of_mem hx, (Option.some.inj hz).symm, hp⟩, ?_⟩
  obtain ⟨fs, n, heq⟩ := getFaceOrCreate_rest now σ z (some a)
  rw [← hτ, heq]

/-- A peer at an interface always gets a face. -/
theorem getFaceOrCreate_some (now : Nat) (σ : Relay) (z : Nat) (a : SockAddr) :
    ∃ τ g, getFaceOrCreate now σ z (some a) = (τ, some g) := by
  obtain ⟨⟨τ, o⟩, hg⟩ : ∃ r, getFaceOrCreate now σ z (some a) = r := ⟨_, rfl⟩
  have hne : (z : Int) ≠ -1 := by omega
  rcases getFaceOrCreate_cases hg with ⟨x, -, rfl, -⟩ | ⟨-, hz, -⟩ | ⟨-, rfl, -⟩
  · exact ⟨τ, _, hg⟩
  · rw [Relay.ifndxFor, if_neg hne] at hz
    cases hz
  · exact ⟨τ, _, hg⟩

end Links

/-! ## One relay -/

/-- The relay has no use for the Interest itself: it is not for management, new to the relay, and of
a kind that is forwarded, there is no content for it, and room in the PIT. An entry of the FIB leads
to the face `u`, which is not the one that the Interest comes from. -/
structure Relay.Forwards (E : Env) (σ : Relay) (suite : Suite) (q : Pkt) (ifndx : Nat) (src : SockAddr)
    (u : FaceId) : Prop where
  ok : σ.Ok
  faced : σ.Faced
  fresh : nonceIsDup σ q ≠ none
  plain : isMgmt q = .ok false
  miss : csFind (cMatch E.digest suite) q σ.contents = .ok none
  unknown : pitFind q σ.pit = .ok none
  fwdOK : pktFwdOK q = true
  room : ¬ (σ.maxPitEntries ≠ -1 ∧ σ.maxPitEntries ≤ σ.pitcnt)
  route : ∃ fwd ∈ σ.fib, fwd.face = some u ∧
    ∃ fp ∈ fwd.pfx, ∃ p ∈ q.pfx, fwd.suite = p.suite ∧ fp.comps <+: p.comps
  away : ∀ x ∈ σ.faces, x.ifndx = ifndx → (∃ p ∈ x.peer, addrSame p src = true) → x.faceid ≠ u

/-- The relay after it has forwarded an Interest of the face `g` to the face `u`. -/
structure Forwarded (σ τ : Relay) (q : Pkt) (g u : FaceId) : Prop where
  ok : τ.Ok
  faced : τ.Faced
  contents : τ.contents = σ.contents
  contentcnt : τ.contentcnt = σ.contentcnt
  maxCacheEntries : τ.maxCacheEntries = σ.maxCacheEntries
  links : KeepsLinks σ τ
  waits : Waits g q τ.pit
  sent : ∃ new, τ.out = σ.out ++ new ∧ .send u q.buf ∈ new

section Hop

variable {E : Env} {now z : Nat} {σ τ : Relay} {f g u : FaceId} {a src : SockAddr} {suite : Suite}
  {q d : Pkt}

/-- The list of nonces decides. -/
theorem nonceIsDup_congr (h : τ.nonces = σ.nonces) (hq : nonceIsDup σ q ≠ none) :
    ∃ ns, nonceIsDup τ q = some { τ with nonces := ns } := by
  unfold nonceIsDup at hq ⊢
  cases hn : q.nonce with
  | none => exact ⟨τ.nonces, rfl⟩
  | some n =>
    rw [hn] at hq
    simp only [h, ne_eq, Option.map_eq_none_iff] at hq ⊢
    obtain ⟨ns, hns⟩ := Option.ne_none_iff_exists'.mp hq
    exact ⟨ns, by rw [hns]; rfl⟩

/-- The face that the Interest comes from is not the one that it goes to. -/
theorem Relay.Forwards.ne (h : σ.Forwards E suite q z src u)
    (hg : getFaceOrCreate now σ z (some src) = (τ, some g)) : g ≠ u := by
  obtain ⟨fwd, hmem, hu, -⟩ := h.route
  rcases getFaceOrCreate_cases hg with ⟨y, hy, hf, -⟩ | ⟨-, -, -, hf⟩ | ⟨-, hf, -⟩
  · cases hf
    obtain ⟨-, hyz, hpeer⟩ := found_some.mp (List.find?_some hy)
    exact h.away y (List.mem_of_find?_eq_some hy) hyz hpeer
  · cases hf
  · cases hf
    have hle := h.faced.ids u (h.faced.fib fwd hmem u hu)
    exact fun heq => Nat.not_succ_le_self σ.seqno (heq.trans_le hle)

/-- The entry that the Interest gets. -/
def newEntry (now : Nat) (q : Pkt) (g : FaceId) : Interest where
  pkt := q
  «from» := some g
  pending := [⟨g, u32 now⟩]
  lifetime := u32 (pktInterestLifetime q)
  lastUsed := u32 now

/-- The Interest gets an entry, and goes to the face. -/
theorem Relay.Forwards.handle (h : σ.Forwards E suite q z src u)
    (hg : getFaceOrCreate now σ z (some src) = (τ, some g)) :
    ∃ υ, handleInterest E now (cMatch E.digest suite) τ g q = .ok (υ, true) ∧ Forwarded τ υ q g u := by
  have hf := getFaceOrCreate_found h.ok h.faced hg
  obtain ⟨p, -, x, hx, -⟩ := hf.linked
  obtain ⟨ns, hns⟩ := nonceIsDup_congr (show τ.nonces = σ.nonces by rw [hf.rest]) h.fresh
  have hunknown : pitFind q τ.pit = .ok none := by
    rw [hf.rest]
    exact h.unknown
  have hmiss : csFind (cMatch E.digest suite) q τ.contents = .ok none := by
    rw [hf.rest]
    exact h.miss
  have hroom : ¬ (τ.maxPitEntries ≠ -1 ∧ τ.maxPitEntries ≤ τ.pitcnt) := by
    rw [hf.rest]
    exact h.room
  let υ : Relay := { τ with nonces := ns, pit := newEntry now q g :: τ.pit, pitcnt := τ.pitcnt + 1 }
  obtain ⟨ω, hω⟩ : ∃ ω, interestPropagate υ (newEntry now q g) = .ok ω := by
    refine (interestPropagate_follows υ _).2 hf.faced.fib fun f hf => ?_
    cases hf
    exact Relay.listed_of_face hx
  have hins : pitInsert now { τ with nonces := ns } g q = .ok (some ω) := by
    unfold pitInsert interestNew
    simp only [hunknown, ok_bind, h.fwdOK, Bool.not_true, Bool.false_eq_true, ↓reduceIte,
      if_neg hroom]
    have hentry : interestAppendPending now { newEntry now q g with pending := [] } g =
        newEntry now q g := by simp [interestAppendPending, newEntry]
    show (interestPropagate { υ with
      pit := interestAppendPending now { newEntry now q g with pending := [] } g :: τ.pit }
      (interestAppendPending now { newEntry now q g with pending := [] } g) >>= fun r => pure (some r)) = _
    rw [hentry]
    change (interestPropagate υ (newEntry now q g) >>= fun r => pure (some r)) = _
    rw [hω]
    rfl
  have hhandle : handleInterest E now (cMatch E.digest suite) τ g q = .ok (ω, true) := by
    unfold handleInterest
    rw [hx, ok_bind]
    simp only [hns, h.plain, ok_bind, Bool.false_eq_true, ↓reduceIte, hmiss, hins]
    rfl
  have hfaced : ω.Faced :=
    pitInsert_faced (hf.faced.of_roots (τ := { τ with nonces := ns }) rfl fun i hi => ⟨i, hi, fun _ => id⟩)
      (Relay.listed_of_face hx) hins ω rfl
  obtain ⟨fwd, hmem, hu, fp, hfp, p, hp, hsuite, hpre⟩ := h.route
  have hok : ω.Ok := handleInterest_ok hf.ok
    (.inr (.inr (Option.ne_none_iff_exists'.mpr ⟨p, hp⟩))) hhandle
  have hserves : fwd.serves υ (newEntry now q g) := by
    refine ⟨⟨fp, hfp, p, hp, hsuite, hpre⟩, fun horigin => ?_⟩
    obtain ⟨f, hfrom, hface, -⟩ := horigin
    cases hfrom
    exact h.ne hg (Option.some.inj (hface.symm.trans hu))
  have hfib : fwd ∈ τ.fib := by
    rw [hf.rest]
    exact hmem
  have hω := (interestPropagate_follows υ _).1 ω hω
  have hsent : .send u q.buf ∈ handed (newEntry now q g) fwd :=
    List.mem_append_right _ (by rw [hu]; exact List.mem_singleton.mpr rfl)
  have hwaits : Waits g q ω.pit := by
    rw [hω]
    exact ⟨newEntry now q g, List.mem_cons_self, rfl, _, List.mem_singleton.mpr rfl, rfl⟩
  refine ⟨ω, hhandle, hok, hfaced, by rw [hω], by rw [hω], by rw [hω],
    .of_faces (by rw [hω]) (by rw [hω]), hwaits, _, congrArg Relay.out hω, ?_⟩
  exact List.mem_flatMap.mpr ⟨fwd, List.mem_filter.mpr ⟨hfib, by simpa using hserves⟩, hsent⟩

/-- A relay with a content for the Interest. -/
structure Relay.Serves (E : Env) (σ : Relay) (suite : Suite) (q : Pkt) (bytes : List UInt8) : Prop where
  ok : σ.Ok
  faced : σ.Faced
  fresh : nonceIsDup σ q ≠ none
  plain : isMgmt q = .ok false
  hit : ∃ c, csFind (cMatch E.digest suite) q σ.contents = .ok (some c) ∧ c.pkt.buf = bytes

/-- The Interest is answered. -/
theorem Relay.Serves.handle {bytes : List UInt8} (h : σ.Serves E suite q bytes)
    (hg : getFaceOrCreate now σ z (some src) = (τ, some g)) :
    ∃ υ, handleInterest E now (cMatch E.digest suite) τ g q = .ok (υ, true) ∧ KeepsLinks τ υ ∧
      υ.out = τ.out ++ [.send g bytes] := by
  have hf := getFaceOrCreate_found h.ok h.faced hg
  obtain ⟨p, -, x, hx, hz, -⟩ := hf.linked
  obtain ⟨ns, hns⟩ := nonceIsDup_congr (show τ.nonces = σ.nonces by rw [hf.rest]) h.fresh
  obtain ⟨c, hc, rfl⟩ := h.hit
  have hhit : csFind (cMatch E.digest suite) q τ.contents = .ok (some c) := by
    rw [hf.rest]
    exact hc
  have hid := Relay.faceid_of_face hx
  have hdeliver : deliver { τ with nonces := ns } x c.pkt =
      .ok { τ with nonces := ns, out := τ.out ++ [.send g c.pkt.buf] } := by
    unfold deliver
    rw [if_pos (by omega), hid, sendPkt, faceEnqueue,
      show ({ τ with nonces := ns } : Relay).face g = .ok x from hx, ok_bind]
    rfl
  refine ⟨_, ?_, .of_faces (τ := { τ with nonces := ns, out := τ.out ++ [.send g c.pkt.buf] }) rfl rfl, rfl⟩
  unfold handleInterest
  rw [hx, ok_bind]
  simp only [hns, h.plain, ok_bind, Bool.false_eq_true, ↓reduceIte, hhit, hdeliver]
  rfl

/-! ### Data -/

/-- Serving leaves the stale flag of the content alone. -/
theorem serveFrom_stale {digest : List UInt8 → Digest} {pit kept : List Interest} {s s' : Serving}
    (h : serveFrom digest pit s = .ok (kept, s')) : s'.c.stale = s.c.stale := by
  induction pit generalizing s kept with
  | nil =>
    cases h
    rfl
  | cons i pit ih =>
    unfold serveFrom at h
    split at h
    · cases h
    obtain ⟨m, -, h⟩ := (bind_eq_ok _ _ _).mp h
    split at h
    · obtain ⟨s₁, h₁, h⟩ := (bind_eq_ok _ _ _).mp h
      refine (ih h).trans ?_
      show s₁.c.stale = s.c.stale
      unfold serveEntry at h₁
      split at h₁
      · cases h₁
        rfl
      · refine foldlM_inv (I := fun s₁ : Serving => s₁.c.stale = s.c.stale) (fun s₁ pi s₂ hs hf => ?_)
          rfl h₁
        obtain ⟨x, -, hf⟩ := (bind_eq_ok _ _ _).mp hf
        split at hf
        · cases hf
          exact hs
        · obtain ⟨υ, -, hf⟩ := (bind_eq_ok _ _ _).mp hf
          cases hf
          exact hs
    · obtain ⟨⟨kept₁, s₁⟩, h₁, h⟩ := (bind_eq_ok _ _ _).mp h
      cases h
      exact ih h₁

theorem servePending_stale {digest : List UInt8 → Digest} {c : Content} {s : Serving}
    (h : servePending digest σ c = .ok s) : s.c.stale = c.stale := by
  obtain ⟨⟨kept, s₁⟩, h₁, h⟩ := (bind_eq_ok _ _ _).mp h
  cases h
  exact serveFrom_stale h₁

/-- Eviction is about the content store. -/
theorem evict_rest (σ : Relay) : ∃ cs n, evict σ = { σ with contents := cs, contentcnt := n } := by
  unfold evict
  split
  · split
    · exact ⟨_, _, rfl⟩
    · exact ⟨σ.contents, σ.contentcnt, rfl⟩
  · exact ⟨σ.contents, σ.contentcnt, rfl⟩

theorem evict_takes_congr (hc : τ.contents = σ.contents) (hn : τ.contentcnt = σ.contentcnt)
    (hm : τ.maxCacheEntries = σ.maxCacheEntries) : (evict τ).Takes ↔ (evict σ).Takes := by
  unfold evict
  rw [hm, hn, hc]
  split
  · split
    · simp [Relay.Takes, contentRemove, hm, hn]
    · simp [Relay.Takes, hm, hn]
  · simp [Relay.Takes, hm, hn]

/-- The relay after a Data: the face gets it, and the content store, if it takes one more. -/
structure DataServed (σ τ : Relay) (d : Pkt) (g : FaceId) : Prop where
  links : KeepsLinks σ τ
  sent : ∃ new, τ.out = σ.out ++ new ∧ .send g d.buf ∈ new
  stored : σ.maxCacheEntries ≠ 0 → (evict σ).Takes →
    ∃ c rest, τ.contents = c :: rest ∧ c.pkt = d ∧ c.stale = false

/-- A Data that is not in the store goes to a face that waits for it. -/
theorem handleContent_waiting (hσ : σ.Ok) (hnew : isCached d.pfx σ.contents = .ok false)
    (hw : Waits g q σ.pit) (hm : Matches E.digest { pkt := q } { pkt := d }) :
    ∃ τ, handleContent E now σ d = .ok τ ∧ DataServed σ τ d g := by
  have hdef : ∀ i ∈ σ.pit, ∃ p b,
      i.pkt.pfx = some p ∧ pitMatch E.digest i.pkt p (contentNew now d) = .ok b :=
    servePending_defined (fun i hi => (hσ.pit i hi).named) hm.named
  obtain ⟨s, -, hs, -⟩ := servePending_spec hdef fun i hi => (hσ.pit i hi).pending
  obtain ⟨sent, -, hmem, hrel, hpkt, hcnt⟩ := servePending_relay hσ hs
  obtain ⟨i, hi, rfl, pi, hpi, rfl⟩ := hw
  have hmatch : Matches E.digest i (contentNew now d) := by
    obtain ⟨p, hp, hm⟩ := hm
    exact ⟨p, hp, hm⟩
  have hcnt : s.cnt ≠ 0 := fun h0 => hcnt.mp h0 i hi hmatch
  have hsent : Out.send pi.face d.buf ∈ sent.map (.send · d.buf) :=
    List.mem_map_of_mem ((hmem pi.face).mpr ⟨i, hi, hmatch, pi, hpi, rfl⟩)
  have hlinks : KeepsLinks σ s.relay :=
    .of_map (g := Face.mark (answered E.digest (contentNew now d) σ.pit)) (fun _ => rfl)
      (fun _ => ⟨rfl, rfl⟩) (by rw [hrel]) (by rw [hrel])
  have hout : s.relay.out = σ.out ++ sent.map (.send · d.buf) := by
    rw [hrel]
    rfl
  unfold handleContent
  simp only [hnew, hs, ok_bind, Bool.false_eq_true, ↓reduceIte, if_neg hcnt]
  have hmax : s.relay.maxCacheEntries = σ.maxCacheEntries := by rw [hrel]
  rw [hmax]
  by_cases hzero : σ.maxCacheEntries = 0
  · rw [if_neg (not_not.mpr hzero)]
    exact ⟨s.relay, rfl, hlinks, ⟨_, hout, hsent⟩, fun hne => absurd hzero hne⟩
  rw [if_pos hzero]
  have hcached : isCached s.c.pkt.pfx s.relay.contents = .ok false := by
    rw [hpkt, hrel]
    exact hnew
  have htakes : (evict s.relay).Takes ↔ (evict σ).Takes :=
    evict_takes_congr (by rw [hrel]) (by rw [hrel]) hmax
  obtain ⟨cs, n, hevict⟩ := evict_rest s.relay
  unfold contentAdd2cache
  rw [hcached, ok_bind]
  simp only [Bool.false_eq_true, ↓reduceIte]
  split
  · refine ⟨_, rfl, hlinks.trans (.of_faces ?_ ?_), ⟨_, ?_, hsent⟩, fun _ _ => ⟨s.c, _, rfl, hpkt, ?_⟩⟩
    · rw [hevict]
    · rw [hevict]
    · rw [hevict]
      exact hout
    · exact servePending_stale hs
  · rename_i hfull
    refine ⟨_, rfl, hlinks.trans (.of_faces ?_ ?_), ⟨_, ?_, hsent⟩, fun _ ht =>
      absurd (htakes.mpr ht) hfull⟩
    · rw [hevict]
    · rw [hevict]
    · rw [hevict]
      exact hout

end Hop

/-! ## The way through the network -/

/-- Relays with addresses: what a relay sends goes from the address of its interface to the address of
the peer. -/
def wires {ι : Type} [DecidableEq ι] (E : ι → Env) :
    Sys (Wired ι Relay Datagram) (Wired.Event ι Event Datagram) :=
  Wired.sys (fun i => system (E i)) postedBetween

/-- Somebody has sent the bytes from `src` to `dst`. -/
def Posted {ι : Type} (N : Wired ι Relay Datagram) (src dst : SockAddr) (bytes : List UInt8) : Prop :=
  ∃ a, addrSame a dst = true ∧ ⟨src, a, bytes⟩ ∈ N.wire

/-- A frame that a relay gets at an interface has been sent to the address of the interface. -/
def Arrives {ι : Type} : Wired.Event ι Event Datagram → Wired ι Relay Datagram → Prop
  | .node i (.rx _ z src frame), N =>
    ∃ ifc, (N.node i).ifs[z]? = some ifc ∧ Posted N src ifc.addr (frame.mem.take frame.len)
  | _, _ => True

/-- The store of the relay has the Data for each Interest that it satisfies. -/
def Relay.Finds (E : Env) (σ : Relay) (d : Pkt) : Prop :=
  ∀ suite q p cp, q.pfx = some p → d.pfx = some cp → cp.suite = p.suite →
    cMatch E.digest suite q { pkt := d } = .ok true →
    ∃ c, csFind (cMatch E.digest suite) q σ.contents = .ok (some c) ∧ c.pkt = d

/-- The Interest `f` from `src` to the first relay of the path, at its address `dst`, finds its way
along the path to a relay that has the Data `d`, and these are the events when it goes there and the
Data goes back. The times and what else is in the receive buffers can be anything. -/
inductive Route {ι : Type} (E : ι → Env) (node : ι → Relay) (d : Pkt) (df : List UInt8) :
    List UInt8 → SockAddr → SockAddr → List ι → List (Wired.Event ι Event Datagram) → Prop
  | store {i : ι} {f slack : List UInt8} {suite : Suite} {q : Pkt} {src : SockAddr} {z now : Nat}
      {ifc : Iface} (hf : FramePacket f (.interest suite q)) (hslack : slack ≠ [])
      (hz : (node i).ifs[z]? = some ifc) (h : (node i).Serves (E i) suite q df) :
      Route E node d df f src ifc.addr [i] [.node i (.rx now z src (.of f slack))]
  | relay {i : ι} {f slack slack' : List UInt8} {suite : Suite} {q : Pkt} {src peer next : SockAddr}
      {z up now now' : Nat} {ifc ifu : Iface} {u : FaceId} {path : List ι}
      {es : List (Wired.Event ι Event Datagram)} (hf : FramePacket f (.interest suite q))
      (hslack : slack ≠ []) (hslack' : slack' ≠ [])
      (hz : (node i).ifs[z]? = some ifc) (h : (node i).Forwards (E i) suite q z src u)
      (hu : (node i).Linked u up peer) (hup : (node i).ifs[up]? = some ifu)
      (hpeer : addrSame peer next = true) (hm : Matches (E i).digest { pkt := q } { pkt := d })
      (hnew : isCached d.pfx (node i).contents = .ok false) (hi : i ∉ path)
      (hr : Route E node d df q.buf ifu.addr next path es) :
      Route E node d df f src ifc.addr (i :: path) (.node i (.rx now z src (.of f slack)) ::
        (es ++ [.node i (.rx now' up next (.of df slack'))]))

section Route

variable {ι : Type} [DecidableEq ι] {E : ι → Env} {N : Wired ι Relay Datagram} {node : ι → Relay}
  {d : Pkt} {df f : List UInt8} {src dst : SockAddr} {path : List ι}
  {es : List (Wired.Event ι Event Datagram)}

theorem cMatch_congr {digest : List UInt8 → Digest} {suite : Suite} {q : Pkt} {c c' : Content}
    (hp : c'.pkt = c.pkt) (hs : c'.stale = c.stale) :
    cMatch digest suite q c' = cMatch digest suite q c := by
  cases suite <;> simp only [cMatch, ccnbCMatch, ccntlvCMatch, ndntlvCMatch, iPrefixofC, hp, hs]

/-- The Data is at the head of the store. -/
theorem finds_head {E : Env} {σ : Relay} {c : Content} {rest : List Content}
    (h : σ.contents = c :: rest) (hd : c.pkt = d) (hs : c.stale = false) : σ.Finds E d := by
  intro suite q p cp hq hcp hsuite hm
  refine ⟨c, ?_, hd⟩
  have hmatch : cMatch E.digest suite q c = .ok true := by
    rw [cMatch_congr (c := { pkt := d }) hd hs, hm]
  rw [h, csFind, hd, hcp, hq]
  simp only [deref_some, ok_bind, hsuite, ne_eq, not_true_eq_false, ↓reduceIte, hmatch]
  rfl

/-- One packet comes to a relay. -/
theorem coreRX_packet {E : Env} {now z : Nat} {σ τ : Relay} {a : SockAddr} {g : FaceId}
    {p : Packet} {slack : List UInt8} (hg : getFaceOrCreate now σ z (some a) = (τ, some g))
    (hp : FramePacket f p) (hslack : slack ≠ []) :
    Event.run E (.rx now z a (.of f slack)) σ = p.handle E now g τ := by
  show coreRX E now σ z (some a) (f ++ slack) f.length = _
  unfold coreRX
  rw [hg]
  exact hp.rxLoop hslack

/-- The frame that an event gives to a relay. -/
theorem take_frame (f slack : List UInt8) : (Frame.of f slack).mem.take (Frame.of f slack).len = f :=
  List.take_left

/-- The event when a relay gets the Interest. -/
theorem Relay.Forwards.run {E : Env} {σ : Relay} {suite : Suite} {q : Pkt} {z u now : Nat}
    {slack : List UInt8} (h : σ.Forwards E suite q z src u) (hf : FramePacket f (.interest suite q))
    (hslack : slack ≠ []) :
    ∃ τ g p, Event.run E (.rx now z src (.of f slack)) σ = .ok τ ∧ Forwarded σ τ q g u ∧
      addrSame p src = true ∧ τ.Linked g z p := by
  obtain ⟨σ₁, g, hg⟩ := getFaceOrCreate_some now σ z src
  have hfound := getFaceOrCreate_found h.ok h.faced hg
  obtain ⟨p, hsame, hlinked⟩ := hfound.linked
  obtain ⟨τ, hτ, hfwd⟩ := h.handle hg
  obtain ⟨new, hout, hmem⟩ := hfwd.sent
  refine ⟨τ, g, p, ?_, ?_, hsame, hfwd.links.links g z p hlinked⟩
  · rw [coreRX_packet hg hf hslack, Packet.handle, hτ]
    rfl
  · exact
      { ok := hfwd.ok
        faced := hfwd.faced
        contents := hfwd.contents.trans (by rw [hfound.rest])
        contentcnt := hfwd.contentcnt.trans (by rw [hfound.rest])
        maxCacheEntries := hfwd.maxCacheEntries.trans (by rw [hfound.rest])
        links := hfound.links.trans hfwd.links
        waits := hfwd.waits
        sent := ⟨new, by rw [hout, hfound.rest], hmem⟩ }

/-- The event when a relay that has a content for the Interest gets it. -/
theorem Relay.Serves.run {E : Env} {σ : Relay} {suite : Suite} {q : Pkt} {z now : Nat}
    {slack : List UInt8} (h : σ.Serves E suite q df) (hf : FramePacket f (.interest suite q))
    (hslack : slack ≠ []) :
    ∃ τ g p, Event.run E (.rx now z src (.of f slack)) σ = .ok τ ∧ KeepsLinks σ τ ∧
      addrSame p src = true ∧ τ.Linked g z p ∧ τ.out = σ.out ++ [.send g df] := by
  obtain ⟨σ₁, g, hg⟩ := getFaceOrCreate_some now σ z src
  have hfound := getFaceOrCreate_found h.ok h.faced hg
  obtain ⟨p, hsame, hlinked⟩ := hfound.linked
  obtain ⟨τ, hτ, hlinks, hout⟩ := h.handle hg
  refine ⟨τ, g, p, ?_, hfound.links.trans hlinks, hsame, hlinks.links g z p hlinked, ?_⟩
  · rw [coreRX_packet hg hf hslack, Packet.handle, hτ]
    rfl
  · rw [hout, hfound.rest]

/-- The event when a relay gets the Data that a face waits for. -/
theorem Forwarded.run {E : Env} {σ : Relay} {q : Pkt} {g : FaceId} {z now : Nat} {slack : List UInt8}
    (hok : σ.Ok) (hfaced : σ.Faced) (hw : Waits g q σ.pit) (hd : FramePacket df (.content d))
    (hslack : slack ≠ []) (hnew : isCached d.pfx σ.contents = .ok false)
    (hm : Matches E.digest { pkt := q } { pkt := d }) :
    ∃ τ, Event.run E (.rx now z src (.of df slack)) σ = .ok τ ∧ DataServed σ τ d g := by
  obtain ⟨σ₁, g', hg⟩ := getFaceOrCreate_some now σ z src
  have hfound := getFaceOrCreate_found hok hfaced hg
  have hnew₁ : isCached d.pfx σ₁.contents = .ok false := by
    rw [hfound.rest]
    exact hnew
  have hw₁ : Waits g q σ₁.pit := by
    rw [hfound.rest]
    exact hw
  obtain ⟨τ, hτ, hserved⟩ := handleContent_waiting hfound.ok hnew₁ hw₁ hm
  obtain ⟨new, hout, hmem⟩ := hserved.sent
  refine ⟨τ, ?_, hfound.links.trans hserved.links, ⟨new, by rw [hout, hfound.rest], hmem⟩, ?_⟩
  · rw [coreRX_packet hg hd hslack]
    exact hτ
  · intro hmax htakes
    refine hserved.stored (by rw [hfound.rest]; exact hmax) ?_
    refine (evict_takes_congr ?_ ?_ ?_).mpr htakes <;> rw [hfound.rest]

theorem wires_step {i : ι} {e : Event} {σ : Relay} (h : Event.run (E i) e (N.node i) = .ok σ) :
    (wires E).step (.node i e) N =
      .ok ⟨Function.update N.node i σ, N.wire ++ postedBetween (N.node i) σ⟩ := by
  show ((system (E i)).step e (N.node i) >>= fun s => _) = _
  rw [show (system (E i)).step e (N.node i) = .ok σ from h]
  rfl

/-- What a fetch over a path does to the network. -/
structure FetchedOver (E : ι → Env) (N N' : Wired ι Relay Datagram) (d : Pkt) (df : List UInt8)
    (src dst : SockAddr) (path : List ι) : Prop where
  posted : Posted N' dst src df
  rest : ∀ j ∉ path, N'.node j = N.node j
  finds : ∀ i ∈ path.dropLast, (N.node i).maxCacheEntries ≠ 0 → (evict (N.node i)).Takes →
    (N'.node i).Finds (E i) d

omit [DecidableEq ι] in
theorem Route.ne_nil (h : Route E node d df f src dst path es) : path ≠ [] := by
  cases h <;> exact List.cons_ne_nil _ _

theorem Route.fetches (hd : FramePacket df (.content d)) (h : Route E node d df f src dst path es)
    (hnode : ∀ i ∈ path, N.node i = node i) (hw : Posted N src dst f) :
    ∃ N', es.foldlM (fun N e => (wires E).step e N) N = .ok N' ∧
      Along (fun N e => (wires E).step e N) (fun N e => Arrives e N) es N ∧
      FetchedOver E N N' d df src dst path := by
  induction h generalizing N with
  | @store i f slack suite q src z now ifc hf hslack hz h =>
    have hi := hnode i List.mem_cons_self
    rw [← hi] at hz h
    obtain ⟨τ, g, p, hrun, hlinks, hsame, hlinked, hout⟩ := @Relay.Serves.run df f src _ _ _ q z now slack h hf hslack
    have hstep := wires_step (E := E) hrun
    refine ⟨_, by rw [List.foldlM_cons, hstep, ok_bind]; rfl,
      ⟨⟨ifc, hz, by rw [take_frame]; exact hw⟩, fun _ _ => trivial⟩, ?_, fun j hj => ?_, ?_⟩
    · refine ⟨p, hsame, List.mem_append_right _ ?_⟩
      exact mem_postedBetween hlinked (hlinks.ifs ▸ hz) hout (List.mem_singleton.mpr rfl)
    · have hne : j ≠ i := by
        rintro rfl
        exact hj List.mem_cons_self
      exact Function.update_of_ne hne _ _
    · intro j hj
      cases hj
  | @relay i f slack slack' suite q src peer next z up now now' ifc ifu u path es hf hslack
      hslack' hz h hu hup hpeer hm hnew hi hr ih =>
    have hiN := hnode i List.mem_cons_self
    rw [← hiN] at hz h hu hup hnew
    obtain ⟨τ, g, p, hrun, hfwd, hsame, hlinked⟩ := @Relay.Forwards.run f src _ _ _ q z u now slack h hf hslack
    have hstep := wires_step (E := E) hrun
    -- the Interest has gone on
    let N₁ : Wired ι Relay Datagram :=
      ⟨Function.update N.node i τ, N.wire ++ postedBetween (N.node i) τ⟩
    have hself₁ : N₁.node i = τ := Function.update_self _ _ _
    have hother₁ : ∀ j, j ≠ i → N₁.node j = N.node j := fun j hj => Function.update_of_ne hj _ _
    obtain ⟨new, hout, hmem⟩ := hfwd.sent
    have hpost₁ : Posted N₁ ifu.addr next q.buf :=
      ⟨peer, hpeer, List.mem_append_right _
        (mem_postedBetween (hfwd.links.links u up peer hu) (hfwd.links.ifs ▸ hup) hout hmem)⟩
    have hne : ∀ j ∈ path, j ≠ i := by
      rintro j hj rfl
      exact hi hj
    obtain ⟨N₂, hfold, halong, hfetched⟩ := ih (N := N₁)
      (fun j hj => (hother₁ j (hne j hj)).trans (hnode j (List.mem_cons_of_mem _ hj))) hpost₁
    -- the Data comes back
    have hself₂ : N₂.node i = τ := (hfetched.rest i hi).trans hself₁
    obtain ⟨ω, hrun', hserved⟩ := @Forwarded.run d df next (E i) τ q g up now' slack' hfwd.ok hfwd.faced
      hfwd.waits hd hslack' (by rw [hfwd.contents]; exact hnew) hm
    have hstep' := wires_step (E := E) (N := N₂) (hself₂.symm ▸ hrun')
    let N₃ : Wired ι Relay Datagram :=
      ⟨Function.update N₂.node i ω, N₂.wire ++ postedBetween (N₂.node i) ω⟩
    have hself₃ : N₃.node i = ω := Function.update_self _ _ _
    have hother₃ : ∀ j, j ≠ i → N₃.node j = N₂.node j := fun j hj => Function.update_of_ne hj _ _
    obtain ⟨new', hout', hmem'⟩ := hserved.sent
    refine ⟨N₃, ?_, ⟨⟨ifc, hz, by rw [take_frame]; exact hw⟩, fun N₁' hN₁ => ?_⟩, ?_, fun j hj => ?_,
      fun j hj hmax htakes => ?_⟩
    · rw [List.foldlM_cons, hstep, ok_bind, List.foldlM_append, hfold, ok_bind, List.foldlM_cons, hstep']
      rfl
    · obtain rfl : N₁' = N₁ := Except.ok.inj (hN₁.symm.trans hstep)
      refine halong.append fun N₂' hN₂ => ?_
      obtain rfl : N₂' = N₂ := Except.ok.inj (hN₂.symm.trans hfold)
      refine ⟨⟨ifu, ?_, by rw [take_frame]; exact hfetched.posted⟩, fun _ _ => trivial⟩
      rw [hself₂, hfwd.links.ifs]
      exact hup
    · refine ⟨p, hsame, List.mem_append_right _ ?_⟩
      rw [hself₂]
      refine mem_postedBetween (hserved.links.links g z p hlinked) ?_ hout' (hd.whole ▸ hmem')
      rw [hserved.links.ifs, hfwd.links.ifs]
      exact hz
    · have hji : j ≠ i := by
        rintro rfl
        exact hj List.mem_cons_self
      rw [hother₃ j hji, hfetched.rest j fun hmem => hj (List.mem_cons_of_mem _ hmem), hother₁ j hji]
    · rw [List.dropLast_cons_of_ne_nil hr.ne_nil] at hj
      rcases List.mem_cons.mp hj with rfl | hj
      · obtain ⟨c, rest, hcs, hcd, hstale⟩ := hserved.stored (by rw [hfwd.maxCacheEntries]; exact hmax)
          ((evict_takes_congr hfwd.contents hfwd.contentcnt hfwd.maxCacheEntries).mpr htakes)
        rw [hself₃]
        exact finds_head hcs hcd hstale
      · have hji := hne j (List.dropLast_subset _ hj)
        rw [hother₃ j hji]
        refine hfetched.finds j hj ?_ ?_
        · rwa [hother₁ j hji]
        · rwa [hother₁ j hji]

/-- An Interest fetches its Data over a path of any length: each relay on the way hands it to the next
one, the last one has the Data, and the Data comes back to where the Interest came from, byte for byte.
Each relay on the way keeps the Data, if its store takes one more, and finds it again for each
Interest that it satisfies. The other relays see nothing of it. -/
theorem fetch_over_path (hd : FramePacket df (.content d))
    (h : Route E N.node d df f src dst path es) (hw : Posted N src dst f) :
    ∃ N', es.foldlM (fun N e => (wires E).step e N) N = .ok N' ∧
      Along (fun N e => (wires E).step e N) (fun N e => Arrives e N) es N ∧
      FetchedOver E N N' d df src dst path :=
  h.fetches hd (fun _ _ => rfl) hw

end Route

/-! ## Three relays in a row -/

/-- The packet of an NDN frame. -/
def ndnPktOf (f : List UInt8) : Pkt :=
  ((ndntlvParse (f ++ [0]) ⟨0, f.length⟩).toOption.map Prod.fst).getD (ndnPkt 0 0)

/-- A relay at the address `a` with the name `/a` in its FIB, towards the address `b`. -/
def relayTowards (a b : Nat) : Relay where
  ifs := [{ addr := .inet a 9695 }]
  faces := [{ faceid := 1, ifndx := 0, peer := some (.inet b 9695) }]
  fib := [{ pfx := some ⟨[0x61], [⟨0, 1⟩], .ndntlv, none, 0, none⟩, suite := .ndntlv, face := some 1 }]
  maxCacheEntries := -1
  seqno := 1

/-- A relay at the address `a` that has a Data in its store. -/
def relayWith (a : Nat) (d : Pkt) : Relay where
  ifs := [{ addr := .inet a 9695 }]
  contents := [{ pkt := d }]
  contentcnt := 1
  maxCacheEntries := -1

theorem relayTowards_ok (a b : Nat) : (relayTowards a b).Ok where
  pit i hi := by cases hi
  contents c hc := by cases hc
  remote x hx := by rw [List.mem_singleton.mp hx]
  ids x hx := by
    rw [List.mem_singleton.mp hx]
    exact Nat.le_refl 1

theorem relayTowards_faced (a b : Nat) : (relayTowards a b).Faced where
  nodup := List.nodup_singleton _
  ids f hf := by
    obtain ⟨x, hx, rfl⟩ := hf
    rw [List.mem_singleton.mp hx]
    exact Nat.le_refl 1
  refs f hf := by
    rcases hf with ⟨i, hi, -⟩ | ⟨fwd, hfwd, hface⟩
    · cases hi
    · rw [List.mem_singleton.mp hfwd] at hface
      cases hface
      exact ⟨_, List.mem_singleton.mpr rfl, rfl⟩

/-- A relay in the row forwards the Interest for `/a`, unless it comes from where it would go to. -/
theorem relayTowards_forwards {a b c : Nat} (hbc : b ≠ c) :
    (relayTowards a b).Forwards .still .ndntlv (ndnPktOf ndnInterestA) 0 (.inet c 9695) 1 where
  ok := relayTowards_ok a b
  faced := relayTowards_faced a b
  fresh := by
    have hnonce : (ndnPktOf ndnInterestA).nonce = none := by decide +kernel
    simp [nonceIsDup, hnonce]
  plain := by decide +kernel
  miss := rfl
  unknown := rfl
  fwdOK := by decide +kernel
  room := by simp [relayTowards]
  route := ⟨_, List.mem_singleton.mpr rfl, rfl, _, rfl, by decide +kernel⟩
  away x hx _ hp := by
    rw [List.mem_singleton.mp hx] at hp
    obtain ⟨p, hp, hsame⟩ := hp
    cases hp
    simp [addrSame, hbc] at hsame

theorem framePacket_interestA : FramePacket ndnInterestA (.interest .ndntlv (ndnPktOf ndnInterestA)) := by
  have h : ∀ n : Fin 256, ndntlvParse (ndnInterestA ++ [UInt8.ofFin n]) ⟨0, ndnInterestA.length⟩ =
      .ok (ndnPktOf ndnInterestA, ⟨7, 0⟩) := by decide +kernel
  exact .ndnInterest fun b => h b.toFin

theorem framePacket_dataA : FramePacket ndnDataA (.content (ndnPktOf ndnDataA)) := by
  have h : ∀ n : Fin 256, ndntlvParse (ndnDataA ++ [UInt8.ofFin n]) ⟨0, ndnDataA.length⟩ =
      .ok (ndnPktOf ndnDataA, ⟨10, 0⟩) := by decide +kernel
  exact .ndnData fun b => h b.toFin

theorem relayWith_serves (a : Nat) :
    (relayWith a (ndnPktOf ndnDataA)).Serves .still .ndntlv (ndnPktOf ndnInterestA) ndnDataA where
  ok :=
    { pit := fun i hi => by cases hi
      contents := fun c hc => by
        rw [List.mem_singleton.mp hc]
        decide +kernel
      remote := fun x hx => by cases hx
      ids := fun x hx => by cases hx }
  faced :=
    { nodup := List.nodup_nil
      ids := fun f hf => by
        obtain ⟨x, hx, -⟩ := hf
        cases hx
      refs := fun f hf => by
        rcases hf with ⟨i, hi, -⟩ | ⟨fwd, hfwd, -⟩
        · cases hi
        · cases hfwd }
  fresh := by
    have hnonce : (ndnPktOf ndnInterestA).nonce = none := by decide +kernel
    simp [nonceIsDup, hnonce]
  plain := by decide +kernel
  hit := by
    have hbuf : (ndnPktOf ndnDataA).buf = ndnDataA := by decide +kernel
    refine ⟨{ pkt := ndnPktOf ndnDataA }, ?_, hbuf⟩
    show csFind (cMatch Env.still.digest .ndntlv) (ndnPktOf ndnInterestA) [{ pkt := ndnPktOf ndnDataA }] = _
    decide +kernel

/-- The row: the relays at the addresses 1 and 2, and the relay with the Data at the address 3. -/
def row : Fin 3 → Relay
  | 0 => relayTowards 1 2
  | 1 => relayTowards 2 3
  | 2 => relayWith 3 (ndnPktOf ndnDataA)

/-- The host at the address 9 gets the Data from the third relay, and the first two keep it. -/
theorem fetch_over_path_three : ∃ N : Wired (Fin 3) Relay Datagram,
    Posted N (.inet 1 9695) (.inet 9 9695) ndnDataA ∧
      (N.node 0).Finds .still (ndnPktOf ndnDataA) ∧ (N.node 1).Finds .still (ndnPktOf ndnDataA) := by
  let N : Wired (Fin 3) Relay Datagram := ⟨row, [⟨.inet 9 9695, .inet 1 9695, ndnInterestA⟩]⟩
  let E : Fin 3 → Env := fun _ => .still
  let d := ndnPktOf ndnDataA
  let q := ndnPktOf ndnInterestA
  have hbuf : q.buf = ndnInterestA := by decide +kernel
  have hmatch : Matches Env.still.digest { pkt := q } { pkt := d } := by decide +kernel
  have hlink : ∀ a b, (relayTowards a b).Linked 1 0 (.inet b 9695) := fun a b => ⟨_, rfl, rfl, rfl⟩
  have hthree := @Route.store _ E row d ndnDataA 2 ndnInterestA [0] _ q (.inet 2 9695) 0 3 _
    framePacket_interestA (by simp) rfl (relayWith_serves 3)
  have htwo := @Route.relay _ E row d ndnDataA 1 ndnInterestA [0] [0] _ q (.inet 1 9695) _ _ 0 0 2 4 _ _
    1 [2] _ framePacket_interestA (by simp) (by simp) rfl (relayTowards_forwards (by decide)) (hlink 2 3)
    rfl (addrSame_self _) hmatch rfl (by decide) (by rw [hbuf]; exact hthree)
  have hone := @Route.relay _ E row d ndnDataA 0 ndnInterestA [0] [0] _ q (.inet 9 9695) _ _ 0 0 1 5 _ _
    1 [1, 2] _ framePacket_interestA (by simp) (by simp) rfl (relayTowards_forwards (by decide)) (hlink 1 2)
    rfl (addrSame_self _) hmatch rfl (by decide) (by rw [hbuf]; exact htwo)
  obtain ⟨N', -, -, hfetched⟩ := fetch_over_path (N := N) framePacket_dataA hone
    ⟨_, addrSame_self _, List.mem_singleton.mpr rfl⟩
  exact ⟨N', hfetched.posted, hfetched.finds 0 (by decide) (by decide) (by decide),
    hfetched.finds 1 (by decide) (by decide) (by decide)⟩

end Ccnl
