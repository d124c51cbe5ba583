import CcnLite.Utils.Parse

/-!
# What a signature covers

`ccn-lite-valid` checks the digest of the bytes that the parser has marked as signed, and passes the
packet on. The parser goes on behind the digest, and takes what it finds there as well.
`signature_covers`: two packets with the same signed bytes deliver the same if no element behind
them sets a field, and each packet has another one that verifies like it with another payload.
-/

namespace Ccnl

open CRun Tlv

/-! ## What is delivered -/

/-- What a packet delivers: the name with its chunk number, the payload and the final block id. -/
def Pkt.delivered (pkt : Pkt) : Option (List (List UInt8) × Option Nat) × List UInt8 × Int :=
  (pkt.pfx.map fun p => (p.comps, p.chunknum), pkt.contentBytes, pkt.finalBlockId)

/-- The `hmacLen` bytes from `hmacStart` on. -/
def signedRegion (mem : List UInt8) (pkt : Pkt) : List UInt8 :=
  match pkt.hmacStart with
  | some hmacStart => ((hmacMem mem pkt).drop hmacStart).take pkt.hmacLen
  | none => []

/-- The program gets signed content: a Data packet of NDN or a content object of CCNx. -/
structure Accepted (mem : List UInt8) (n : Nat) (pkt : Pkt) : Prop where
  parse : ccnlParse mem n = .ok (some pkt)
  content : pkt.suite = .ndntlv ∧ pkt.type = ndnTlvData ∨
    pkt.suite = .ccntlv ∧ pkt.type = ccnxTlvTlObject
  signed : 0 < pkt.hmacLen

/-- Behind the signed bytes, that is in the element of the digest or behind it, there is an element
that sets a field of what is delivered. -/
def Overridden (mem : List UInt8) (n : Nat) (pkt : Pkt) : Prop :=
  ∃ hmacStart typ, pkt.hmacStart = some hmacStart ∧
    match pkt.suite with
    | .ccntlv =>
      Behind (ccntlvHeaders mem) n (hmacStart + pkt.hmacLen) typ ∧ (ccnxTlvM typ).Delivers
    | _ => Behind (ndnHeader mem) n (hmacStart + pkt.hmacLen) typ ∧ (ndnTlv typ).Delivers

section Delivered

variable {mem mem' : List UInt8} {n n' : Nat} {pkt pkt' : Pkt}

/-- What a packet delivers, in terms of the receive buffer. -/
theorem delivered_rebase (h : pkt.Inside 0 n) : (pkt.rebase 0 (mem.take n)).delivered =
    (pkt.pfx.map fun p => (p.comp.map (·.bytes mem), p.chunknum),
      (pkt.content.map (·.bytes mem)).getD [], pkt.finalBlockId) := by
  have hbuf : mem.take n = (mem.drop 0).take (n - 0) := rfl
  refine Prod.ext ?_ (Prod.ext ?_ rfl)
  · cases hp : pkt.pfx with
    | none => simp only [Pkt.delivered, Pkt.rebase, hp, Option.map_none]
    | some p =>
      simp only [Pkt.delivered, Pkt.rebase, hp, Option.map_some, Prefix.comps]
      rw [hbuf, map_bytes_rebase (h.pfx p hp).comp]
  · cases hc : pkt.content with
    | none => simp only [Pkt.delivered, Pkt.contentBytes, Pkt.rebase, hc, Option.map_none]
    | some c =>
      simp only [Pkt.delivered, Pkt.contentBytes, Pkt.rebase, hc, Option.map_some]
      rw [hbuf, bytes_rebase (h.content c hc)]

/-- Slices among the common bytes. -/
theorem bytes_agree (h : pkt.Inside 0 n) (hA : Agree mem mem' 0 0 n) (k : Int) :
    (pkt.pfx.map fun p => (p.comp.map (·.bytes mem), p.chunknum),
        (pkt.content.map (·.bytes mem)).getD [], k) =
      (pkt.pfx.map fun p => (p.comp.map (·.bytes mem'), p.chunknum),
        (pkt.content.map (·.bytes mem')).getD [], k) := by
  have hspan : ∀ s : Span, s.Within 0 n → s.bytes mem = s.bytes mem' := fun s hs =>
    (hA.slice (Nat.zero_le s.off) rfl (by rw [Nat.zero_add]; exact hs.2)).bytes
  refine Prod.ext ?_ (Prod.ext ?_ rfl)
  · cases hp : pkt.pfx with
    | none => rfl
    | some p =>
      have hcomp := List.map_congr_left fun s hs => hspan s ((h.pfx p hp).comp s hs)
      simp only [Option.map_some, hcomp]
  · cases hc : pkt.content with
    | none => rfl
    | some c => simp only [Option.map_some, hspan c (h.content c hc)]

/-- With the packet of the same fields, and the signed bytes and the digest among the common bytes,
the check of the signature is the same. -/
theorem signed_agree {a q e : Nat} (hstart : pkt.hmacStart = some a)
    (hstart' : pkt'.hmacStart = some a) (hlen : pkt'.hmacLen = pkt.hmacLen)
    (hsig : pkt.hmacSignature = some q) (hsig' : pkt'.hmacSignature = some q)
    (hA : Agree (hmacMem mem pkt) (hmacMem mem' pkt') 0 0 e) (ha : a + pkt.hmacLen ≤ e)
    (hq : q + 32 ≤ e) : signedRegion mem' pkt' = signedRegion mem pkt ∧
      ∀ hmac keyvals, validate hmac mem' pkt' keyvals = validate hmac mem pkt keyvals := by
  have hdata := hA.slice (Nat.zero_le a) rfl (k := pkt.hmacLen) (by omega)
  have hmd := hA.slice (Nat.zero_le q) rfl (k := 32) (by omega)
  refine ⟨?_, fun hmac keyvals => ?_⟩
  · rw [signedRegion, signedRegion, hstart, hstart', hlen]
    exact hdata.take.symm
  · have htry : trySignature hmac mem' pkt' = trySignature hmac mem pkt := by
      funext keyval
      unfold trySignature
      rw [hstart, hstart', hlen, hsig, hsig']
      dsimp only
      rw [hdata.rdBytes, hmd.rdBytes]
    rw [validate, validate, htry]

end Delivered

/-- There is a packet with the payload `b` that verifies like this one does. -/
def Forged (mem : List UInt8) (pkt : Pkt) (b : UInt8) : Prop :=
  ∃ mem' n' pkt', Accepted mem' n' pkt' ∧
    (signedRegion mem' pkt' = signedRegion mem pkt ∧
      ∀ hmac keyvals, validate hmac mem' pkt' keyvals = validate hmac mem pkt keyvals) ∧
    pkt'.contentBytes = [b]

/-! ## NDN -/

section Ndn

variable {mem mem' : List UInt8} {n n' typ typ' : Nat} {pkt pkt' : Pkt} {c c₁ c' c₁' : Cursor}
  {s s' : NdnState}

theorem NdnRun.kind (h : NdnRun mem n pkt c c₁ typ s) :
    (pkt.type, pkt.hmacStart, pkt.suite) = (typ, some 0, .ndntlv) := by
  rw [h.pkt]
  exact (ndnElem_signedLoop mem 0).kind_top h.loop

theorem NdnRun.digest (h : NdnRun mem n pkt c c₁ typ s) (hs : 0 < pkt.hmacLen) :
    ∃ t q u, NdnDigestAt mem 0 c₁ { pkt := ndnPkt typ 0 } s t q u := by
  rw [h.pkt] at hs
  exact (ndnElem_signedLoop mem 0).digest (dehead_decodes mem) h.loop rfl hs

theorem NdnRun.region (h : NdnRun mem n pkt c c₁ typ s) :
    signedRegion mem pkt = mem.take pkt.hmacLen := by
  have hkind := h.kind
  simp only [Prod.mk.injEq] at hkind
  rw [signedRegion, hmacMem, hkind.2.1, hkind.2.2, if_neg (by decide)]
  rfl

theorem NdnRun.inside (h : NdnRun mem n pkt c c₁ typ s) : s.pkt.Inside 0 n :=
  (packetLoop_inside h.loop (Nat.zero_le _) (ndnPkt_inside _ _ _ _)).1

theorem NdnRun.lim (h : NdnRun mem n pkt c c₁ typ s) :
    c.pos + 2 ≤ c₁.pos ∧ c.pos + c.len = n ∧ c₁.pos + c₁.len = n := by
  obtain ⟨len, hx⟩ := h.head
  obtain ⟨hh, hlim⟩ := dehead_eq_ok.mp hx
  have := hh.lt
  have := nextSuite_lim h.suite
  omega

theorem NdnRun.hmacLen (h : NdnRun mem n pkt c c₁ typ s) : pkt.hmacLen = s.pkt.hmacLen := by
  rw [h.pkt]
  rfl

/-- The signed bytes end in the packet. -/
theorem NdnRun.hmacLen_lt (h : NdnRun mem n pkt c c₁ typ s) (hs : 0 < pkt.hmacLen) :
    c₁.pos ≤ pkt.hmacLen ∧ pkt.hmacLen < n := by
  obtain ⟨t, q, u, hd⟩ := h.digest hs
  have hend := hd.end_le (dehead_decodes mem)
  have hpos := hd.pos
  have hle := hd.lim (dehead_decodes mem)
  have hlim := h.lim
  rw [← h.hmacLen] at hpos
  omega

/-- The signed bytes are the same in both memories. -/
theorem NdnRun.agree (h : NdnRun mem n pkt c c₁ typ s) (h' : NdnRun mem' n' pkt' c' c₁' typ' s')
    (hs : 0 < pkt.hmacLen) (hs' : 0 < pkt'.hmacLen)
    (hr : signedRegion mem' pkt' = signedRegion mem pkt) :
    pkt.hmacLen = pkt'.hmacLen ∧ Agree mem mem' 0 0 pkt.hmacLen := by
  have hlt := h.hmacLen_lt hs
  have hlt' := h'.hmacLen_lt hs'
  have hle := h.le
  have hle' := h'.le
  rw [h.region, h'.region] at hr
  have hlen := congrArg List.length hr
  rw [List.length_take, List.length_take] at hlen
  have heq : pkt.hmacLen = pkt'.hmacLen := by omega
  refine ⟨heq, by omega, by omega, ?_⟩
  rw [List.drop_zero, List.drop_zero, ← hr, heq]

/-- The elements start at the same place, in packets of the same type. -/
theorem NdnRun.same_start (h : NdnRun mem n pkt c c₁ typ s) (h' : NdnRun mem' n' pkt' c' c₁' typ' s')
    (hA : Agree mem mem' 0 0 c₁.pos) (hle : c₁.pos ≤ n') : c₁.pos = c₁'.pos ∧ typ = typ' := by
  have hlim := h.lim
  have hsuite := nextSuite_agree h.suite (hA.slice (Nat.le_refl 0) rfl (by omega)) (by omega)
    (show c.pos + 2 ≤ n' by omega)
  rw [h'.suite] at hsuite
  obtain ⟨-, rfl⟩ := Prod.mk.inj (Except.ok.inj hsuite)
  obtain ⟨len, hx⟩ := h.head
  obtain ⟨len', hx'⟩ := h'.head
  obtain ⟨⟨m, hm, -, hm₂, -⟩, -⟩ := dehead_eq_ok.mp hx
  obtain ⟨⟨m', hm', -, hm₂', -⟩, -⟩ := dehead_eq_ok.mp hx'
  have hlt := numAt_lt hm₂
  have htyp := Option.some.inj ((numAt_agree hA hm (by omega)).symm.trans hm')
  obtain ⟨rfl, rfl⟩ := Prod.mk.inj htyp
  have hlen := Option.some.inj ((numAt_agree hA hm₂ (Nat.le_refl _)).symm.trans hm₂')
  exact ⟨(Prod.mk.inj hlen).2, rfl⟩

theorem NdnRun.not_delivers (h : NdnRun mem n pkt c c₁ typ s) (hb : ¬ Overridden mem n pkt) (k : Nat)
    (hk : Behind (ndnHeader mem) (c₁.pos + c₁.len) (0 + s.pkt.hmacLen) k) :
    ¬ (ndnTlv k).Delivers := by
  intro hdel
  have hkind := h.kind
  simp only [Prod.mk.injEq] at hkind
  rw [h.lim.2.2, ← h.hmacLen] at hk
  refine hb ⟨0, k, hkind.2.1, ?_⟩
  rw [hkind.2.2]
  exact ⟨hk, hdel⟩

/-- With nothing behind that sets a field, the signed bytes determine what is delivered. -/
theorem NdnRun.covered (h : NdnRun mem n pkt c c₁ typ s) (h' : NdnRun mem' n' pkt' c' c₁' typ' s')
    (hs : 0 < pkt.hmacLen) (hs' : 0 < pkt'.hmacLen)
    (hr : signedRegion mem' pkt' = signedRegion mem pkt) (hb : ¬ Overridden mem n pkt)
    (hb' : ¬ Overridden mem' n' pkt') : pkt'.delivered = pkt.delivered := by
  obtain ⟨hlen, hA⟩ := h.agree h' hs hs' hr
  have hlt := h.hmacLen_lt hs
  have hlt' := h'.hmacLen_lt hs'
  obtain ⟨hpos, rfl⟩ := h.same_start h' (hA.slice (Nat.le_refl 0) rfl (by omega)) (by omega)
  obtain ⟨t, q, u, hd⟩ := h.digest hs
  obtain ⟨t', q', u', hd'⟩ := h'.digest hs'
  have hsame : s.pkt.hmacLen = s'.pkt.hmacLen := by rw [← h.hmacLen, ← h'.hmacLen, hlen]
  have hAs : Agree mem mem' 0 0 (0 + s.pkt.hmacLen) := by
    rw [Nat.zero_add, ← h.hmacLen]
    exact hA
  obtain rfl := NdnDigestAt.same hd hd' hsame hpos hAs
  have hout := hd.delivered (ndnElem_signedLoop mem 0) (dehead_decodes mem) (h.not_delivers hb)
  have hout' := hd'.delivered (ndnElem_signedLoop mem' 0) (dehead_decodes mem')
    (h'.not_delivers hb')
  simp only [Prod.mk.injEq] at hout hout'
  rw [h.pkt, h'.pkt, delivered_rebase h.inside, delivered_rebase h'.inside, hout.1, hout.2.1,
    hout'.1, hout'.2.1, Pkt.finalBlockId, Pkt.finalBlockId, hout.2.2, hout'.2.2]
  exact (bytes_agree (NdnDigestAt.inside hd (Nat.zero_le _) (ndnPkt_inside _ _ _ _)) hAs _).symm

/-! ### Another payload behind the same signature -/

/-- Elements of a type that the parser does not know. -/
def ndnPad (k : Nat) : List UInt8 := (List.replicate k (ndnTLV 1 [])).flatten

theorem ndnPad_succ (k : Nat) : ndnPad (k + 1) = ndnTLV 1 [] ++ ndnPad k := by
  rw [ndnPad, List.replicate_succ, List.flatten_cons]
  rfl

theorem length_ndnPad (k : Nat) : (ndnPad k).length = 2 * k := by
  induction k with
  | zero => rfl
  | succ k ih =>
    rw [ndnPad_succ, List.length_append, ih, show (ndnTLV 1 []).length = 2 from rfl]
    omega

theorem top_ndnPad {p m k : Nat} {u : NdnState} (h : At mem p (ndnPad k)) :
    ndnTop mem 0 ⟨p, (ndnPad k).length + m⟩ u = ndnTop mem 0 ⟨p + (ndnPad k).length, m⟩ u := by
  induction k generalizing p with
  | zero => rw [show (ndnPad 0).length = 0 from rfl, Nat.zero_add, Nat.add_zero]
  | succ k ih =>
    rw [ndnPad_succ] at h ⊢
    obtain ⟨h₁, h₂⟩ := at_append.mp h
    have hone : ndnTop mem 0 ⟨p, (ndnTLV 1 []).length + ((ndnPad k).length + m)⟩ u =
        ndnTop mem 0 ⟨p + (ndnTLV 1 []).length, (ndnPad k).length + m⟩ u :=
      top_tlv h₁ (by decide) (by decide) rfl
    rw [List.length_append, Nat.add_assoc, hone, ih h₂, Nat.add_assoc]

theorem ndnElem_digest {start hd typ : Nat} {cur : Cursor} {u : NdnState}
    (ht : ndnTlv typ = .signatureValue) (hu : u.validAlgoIsHmac256 = true) :
    ndnElem mem start hd typ 32 cur u = .ok (u.signed (hd - start) cur.pos) := by
  unfold ndnElem
  rw [ht]
  exact if_pos ⟨hu, rfl⟩

/-- The bytes of a memory up to `e`, and others behind them. -/
theorem agree_take_append {e : Nat} (h : e ≤ mem.length) (tail : List UInt8) :
    Agree mem (mem.take e ++ tail) 0 0 e := by
  have hlen : (mem.take e).length = e := by
    rw [List.length_take]
    omega
  refine ⟨by omega, ?_, ?_⟩
  · rw [List.length_append, hlen]
    omega
  · rw [List.drop_zero, List.drop_zero, List.take_append_of_le_length (by omega), List.take_take,
      Nat.min_self]

/-- The packet up to the end of the digest, with elements behind it as far as it went at least, and
the payload `b`, in a buffer with a byte more. -/
def ndnForged (mem : List UInt8) (e k : Nat) (b : UInt8) : List UInt8 :=
  mem.take e ++ (ndnPad k ++ (ndnContent [b] ++ [0]))

/-- From the digest on. -/
theorem top_ndnForged {e k : Nat} (b : UInt8) (he : e ≤ mem.length) (u : NdnState) :
    ndnTop (ndnForged mem e k b) 0 ⟨e, 2 * k + 3⟩ u =
        .ok (⟨e + 2 * k + 3, 0⟩, { u with pkt := { u.pkt with
          content := some ⟨e + 2 * k + 2, 1⟩ } }) ∧
      At (ndnForged mem e k b) (e + 2 * k + 2) [b] := by
  have hlen : (mem.take e).length = e := by
    rw [List.length_take]
    omega
  have hat : At (ndnForged mem e k b) e (ndnPad k ++ (ndnContent [b] ++ [0])) := by
    have := at_mid (mem.take e) (ndnPad k ++ (ndnContent [b] ++ [0])) []
    rwa [List.append_nil, hlen] at this
  obtain ⟨h₁, h₂⟩ := at_append.mp hat
  obtain ⟨h₃, h₄⟩ := at_append.mp h₂
  rw [length_ndnPad] at h₃ h₄
  have hpad := top_ndnPad (m := 3) (u := u) h₁
  have hcontent := @top_content (ndnForged mem e k b) 0 (e + 2 * k) 0 u [b] h₃
    (show 3 < 2 ^ 32 by decide)
  rw [length_ndnPad] at hpad
  rw [hpad]
  refine ⟨hcontent.trans ((top_ndn_end _).trans ?_), (at_tlv.mp h₃).2⟩
  rw [h₄.rd]
  rfl

/-- The elements up to the digest, in another memory with the same bytes there. -/
theorem ndnTop_digest {t q : Cursor} {u s₀ : NdnState} (hd : NdnDigestAt mem 0 c₁ s₀ s t q u)
    (hA : Agree mem mem' 0 0 (q.pos + 32)) (hle : q.pos + 32 ≤ n') :
    ndnTop mem' 0 ⟨c₁.pos, n' - c₁.pos⟩ s₀ =
      ndnTop mem' 0 ⟨q.pos + 32, n' - (q.pos + 32)⟩ (u.signed s.pkt.hmacLen q.pos) := by
  have hend := hd.end_le (dehead_decodes mem)
  have hpos := hd.pos
  have hd₁ := hd.lim (dehead_decodes mem)
  have hfenced : Fenced mem mem' (0 + s.pkt.hmacLen) := by
    obtain ⟨x, hx, hne⟩ := NdnDigestAt.fence hd
    have hget := hA.get (Nat.zero_le (0 + s.pkt.hmacLen)) rfl (by omega)
    exact ⟨hA.slice (Nat.le_refl 0) rfl (by omega), ⟨x, hx, hne⟩, ⟨x, hget ▸ hx, hne⟩⟩
  have hd₂ : c₁.pos + (n' - c₁.pos) = n' := by omega
  obtain ⟨t', hr', ht', htl⟩ := ndnTop_follows hfenced
    (show c₁.pos = (⟨c₁.pos, n' - c₁.pos⟩ : Cursor).pos from rfl) (by simp only; omega) hd.reached
    (Nat.le_of_eq hpos)
  obtain ⟨k, hx, hk⟩ := hd.head
  obtain ⟨hh, -⟩ := dehead_eq_ok.mp hx
  have htl : t'.pos + t'.len = n' := htl.trans hd₂
  obtain ⟨v, hv, hh'⟩ := (ndn_local hA).head (t'.pos + t'.len) hh (Nat.zero_le _) (by omega)
    (show t.pos + 0 = t'.pos + 0 from ht') (by omega) (by omega)
  obtain rfl : q.pos = v := hv
  have hagain : Again (topStep (ndntlvDehead mem') (ndnElem mem' 0)) (t', u)
      (⟨q.pos + 32, n' - (q.pos + 32)⟩, u.signed s.pkt.hmacLen q.pos) := by
    have hdigest : ndnElem mem' 0 t'.pos k 32 ⟨q.pos, t'.pos + t'.len - q.pos⟩ u =
        .ok (u.signed (t'.pos - 0) q.pos) := ndnElem_digest hk hd.algo
    rw [show t'.pos - 0 = s.pkt.hmacLen by omega] at hdigest
    exact topStep_again.mpr ⟨k, 32, _, (dehead_decodes mem').of_head hh', hdigest,
      by simp only; omega, Cursor.ext rfl (by simp only; omega)⟩
  exact top_reached (dehead_decodes mem') (hr'.tail hagain)

/-- The program on another memory, with the same bytes up to the elements. -/
theorem NdnRun.elsewhere (h : NdnRun mem n pkt c c₁ typ s) (hA : Agree mem mem' 0 0 c₁.pos)
    (hn : n ≤ n') (hle : n' ≤ mem'.length)
    (hloop : ndnTop mem' 0 ⟨c₁.pos, n' - c₁.pos⟩ { pkt := ndnPkt typ 0 } = .ok (⟨n', 0⟩, s')) :
    NdnRun mem' n' (s'.pkt.rebase 0 (mem'.take n')) ⟨c.pos, n' - c.pos⟩ ⟨c₁.pos, n' - c₁.pos⟩ typ
      s' := by
  have hlim := h.lim
  obtain ⟨len, hx⟩ := h.head
  obtain ⟨hh, -⟩ := dehead_eq_ok.mp hx
  have hlen := (ndn_local hA).len_le hh
  have hsum : c.pos + (n' - c.pos) = n' := by omega
  obtain ⟨v, hv, hh'⟩ := (ndn_local hA).head (c.pos + (n' - c.pos)) hh (Nat.zero_le _) (by omega)
    rfl (by omega) (by omega)
  obtain rfl : c₁.pos = v := hv
  refine ⟨nextSuite_agree h.suite (hA.slice (Nat.le_refl 0) rfl (by omega)) (by omega) (by omega),
    ⟨len, ?_⟩, h.type, hloop, hle, rfl⟩
  rw [(dehead_decodes mem').of_head (c := ⟨c.pos, n' - c.pos⟩) hh', hsum]

/-- Signed content can be given the payload `b`. -/
theorem NdnRun.forged (h : NdnRun mem n pkt c c₁ ndnTlvData s) (hs : 0 < pkt.hmacLen) (b : UInt8) :
    Forged mem pkt b := by
  obtain ⟨t, q, u, hd⟩ := h.digest hs
  have hend := hd.end_le (dehead_decodes mem)
  have hpos := hd.pos
  have hlim := h.lim
  have hle := h.le
  have hd₁ := hd.lim (dehead_decodes mem)
  have hlen := h.hmacLen
  obtain ⟨e, he⟩ : ∃ e, e = q.pos + 32 := ⟨_, rfl⟩
  -- as many elements as are needed for what the header of the packet says
  obtain ⟨k, hk⟩ : ∃ k, k = n - e := ⟨_, rfl⟩
  have hA : Agree mem (ndnForged mem e k b) 0 0 e := agree_take_append (by omega) _
  obtain ⟨htop, hat⟩ := top_ndnForged (k := k) b (show e ≤ mem.length by omega)
    (u.signed s.pkt.hmacLen q.pos)
  have hloop := ndnTop_digest hd (he ▸ hA) (show q.pos + 32 ≤ e + 2 * k + 3 by omega)
  rw [← he, show e + 2 * k + 3 - e = 2 * k + 3 by omega, htop] at hloop
  have hrun := h.elsewhere (hA.slice (Nat.le_refl 0) rfl (by omega)) (by omega)
    (hat.le (List.cons_ne_nil _ _)) hloop
  have hkind := h.kind
  have hkind' := hrun.kind
  simp only [Prod.mk.injEq] at hkind hkind'
  refine ⟨_, _, _, ⟨hrun.parse, .inl ⟨hkind'.2.2, hkind'.1⟩, hlen ▸ hs⟩, ?_,
    (congrArg (fun d => d.2.1) (delivered_rebase hrun.inside)).trans hat.bytes⟩
  have hsig : pkt.hmacSignature = some q.pos := by
    rw [h.pkt]
    exact hd.signature
  refine signed_agree hkind.2.1 hkind'.2.1 hlen.symm hsig rfl (e := e) ?_ (by omega) (by omega)
  rw [hmacMem, hmacMem, hkind.2.2, hkind'.2.2]
  exact hA

end Ndn

/-! ## CCNx -/

section Ccnx

variable {mem mem' : List UInt8} {n n' typ typ' : Nat} {pkt pkt' : Pkt} {c c₁ c' c₁' : Cursor}
  {s s' : CcntlvState}

theorem CcnxRun.kind (h : CcnxRun mem n pkt c c₁ typ s) :
    (pkt.type, pkt.hmacStart, pkt.suite) = (typ, some c.pos, .ccntlv) := by
  have hkind := (ccntlvElem_signedLoop mem 0 c.pos).kind_top h.loop
  simp only [Prod.mk.injEq] at hkind
  rw [h.pkt]
  exact Prod.ext hkind.1 (Prod.ext (congrArg (Option.map (· - 0)) hkind.2.1) hkind.2.2)

theorem CcnxRun.hmacLen (h : CcnxRun mem n pkt c c₁ typ s) : pkt.hmacLen = s.pkt.hmacLen := by
  rw [h.pkt]
  rfl

theorem CcnxRun.hmacSignature (h : CcnxRun mem n pkt c c₁ typ s) :
    pkt.hmacSignature = s.pkt.hmacSignature := by
  rw [h.pkt]
  cases hsig : s.pkt.hmacSignature <;> simp [Pkt.rebase, CcntlvState.finish, hsig]

theorem CcnxRun.digest (h : CcnxRun mem n pkt c c₁ typ s) (hs : 0 < pkt.hmacLen) :
    ∃ t q u, CcnxDigestAt mem 0 c.pos c₁ (.init typ c.pos) s t q u := by
  rw [h.hmacLen] at hs
  exact (ccntlvElem_signedLoop mem 0 c.pos).digest (ccntlvDehead_decodes mem) h.loop rfl hs

theorem CcnxRun.lim (h : CcnxRun mem n pkt c c₁ typ s) :
    c₁.pos = c.pos + 4 ∧ c.pos + c.len = n ∧ c₁.pos + c₁.len = n := by
  obtain ⟨c₀, hdrlen, hsuite, hhdr, rfl⟩ := h.suite
  obtain ⟨len, hx, -⟩ := h.head
  obtain ⟨⟨hq, -⟩, hlim⟩ := ccntlvDehead_eq_ok.mp hx
  have := nextSuite_lim hsuite
  have := getHdrLen_le hhdr
  simp only at hq hlim ⊢
  omega

/-- The signed bytes end in the packet. -/
theorem CcnxRun.hmacLen_lt (h : CcnxRun mem n pkt c c₁ typ s) (hs : 0 < pkt.hmacLen) :
    c₁.pos ≤ c.pos + pkt.hmacLen ∧ c.pos + pkt.hmacLen < n := by
  obtain ⟨t, q, u, hd⟩ := h.digest hs
  have hend := hd.end_le (ccntlvDehead_decodes mem)
  have hpos := hd.pos
  have hle := hd.lim (ccntlvDehead_decodes mem)
  have hlim := h.lim
  rw [← h.hmacLen] at hpos
  omega

theorem CcnxRun.region (h : CcnxRun mem n pkt c c₁ typ s) (hs : 0 < pkt.hmacLen) :
    signedRegion mem pkt = (mem.drop c.pos).take pkt.hmacLen := by
  have hkind := h.kind
  simp only [Prod.mk.injEq] at hkind
  have hbuf : pkt.buf = mem.take n := by rw [h.pkt]; rfl
  have hlt := h.hmacLen_lt hs
  rw [signedRegion, hmacMem, hkind.2.1, hkind.2.2, if_pos rfl, hbuf]
  dsimp only
  rw [List.drop_take, List.take_take, Nat.min_eq_left (by omega)]

/-- The signed bytes are the same in both memories. -/
theorem CcnxRun.agree (h : CcnxRun mem n pkt c c₁ typ s) (h' : CcnxRun mem' n' pkt' c' c₁' typ' s')
    (hs : 0 < pkt.hmacLen) (hs' : 0 < pkt'.hmacLen)
    (hr : signedRegion mem' pkt' = signedRegion mem pkt) :
    pkt.hmacLen = pkt'.hmacLen ∧ Agree mem mem' c.pos c'.pos pkt.hmacLen := by
  have hlt := h.hmacLen_lt hs
  have hlt' := h'.hmacLen_lt hs'
  have hle := h.le
  have hle' := h'.le
  rw [h.region hs, h'.region hs'] at hr
  have hlen := congrArg List.length hr
  rw [List.length_take, List.length_take, List.length_drop, List.length_drop] at hlen
  have heq : pkt.hmacLen = pkt'.hmacLen := by omega
  exact ⟨heq, by omega, by omega, by rw [← hr, heq]⟩

/-- What is delivered, in terms of the receive buffer. -/
theorem CcnxRun.delivered (h : CcnxRun mem n pkt c c₁ typ s) : pkt.delivered =
    (some (s.p.comp.map (·.bytes mem), s.p.chunknum), (s.pkt.content.map (·.bytes mem)).getD [],
      s.pkt.finalBlockId) := by
  have hin := (messageLoop_inside h.loop (Nat.zero_le _) (CcntlvState.init_inside _ _ _)).1
  rw [h.pkt]
  exact delivered_rebase ⟨hin.content, by rintro q ⟨⟩; exact hin.p⟩

theorem CcnxRun.not_delivers (h : CcnxRun mem n pkt c c₁ typ s) (hb : ¬ Overridden mem n pkt) (k : Nat)
    (hk : Behind (ccntlvHeaders mem) (c₁.pos + c₁.len) (c.pos + s.pkt.hmacLen) k) :
    ¬ (ccnxTlvM k).Delivers := by
  intro hdel
  have hkind := h.kind
  simp only [Prod.mk.injEq] at hkind
  rw [h.lim.2.2, ← h.hmacLen] at hk
  refine hb ⟨c.pos, k, hkind.2.1, ?_⟩
  rw [hkind.2.2]
  exact ⟨hk, hdel⟩

/-- With nothing behind that sets a field, the signed bytes determine what is delivered. -/
theorem CcnxRun.covered (h : CcnxRun mem n pkt c c₁ typ s) (h' : CcnxRun mem' n' pkt' c' c₁' typ' s')
    (hs : 0 < pkt.hmacLen) (hs' : 0 < pkt'.hmacLen)
    (hr : signedRegion mem' pkt' = signedRegion mem pkt) (hb : ¬ Overridden mem n pkt)
    (hb' : ¬ Overridden mem' n' pkt') : pkt'.delivered = pkt.delivered := by
  obtain ⟨hlen, hA⟩ := h.agree h' hs hs' hr
  have hlim := h.lim
  have hlim' := h'.lim
  obtain ⟨t, q, u, hd⟩ := h.digest hs
  obtain ⟨t', q', u', hd'⟩ := h'.digest hs'
  have hsame := CcnxDigestAt.same hd hd' (by rw [← h.hmacLen, ← h'.hmacLen, hlen]) (by omega)
    (by omega) ⟨rfl, rfl, rfl, rfl⟩ (h.hmacLen ▸ hA)
  have hout := hd.delivered (ccntlvElem_signedLoop mem 0 c.pos) (ccntlvDehead_decodes mem)
    (h.not_delivers hb)
  have hout' := hd'.delivered (ccntlvElem_signedLoop mem' 0 c'.pos) (ccntlvDehead_decodes mem')
    (h'.not_delivers hb')
  simp only [Prod.mk.injEq] at hout hout'
  obtain ⟨hcomp, hchunk⟩ := Prod.mk.inj hsame.name
  rw [h.delivered, h'.delivered, hout.1, hout.2.1, hout'.1, hout'.2.1, Pkt.finalBlockId,
    Pkt.finalBlockId, hout.2.2, hout'.2.2, hcomp, hchunk, hsame.content, hsame.val]

/-! ### Another payload behind the same signature -/

/-- Elements of a type that the parser does not know. -/
def ccnxPad (k : Nat) : List UInt8 := (List.replicate k (ccnxTLV 5 [])).flatten

theorem ccnxPad_succ (k : Nat) : ccnxPad (k + 1) = ccnxTLV 5 [] ++ ccnxPad k := by
  rw [ccnxPad, List.replicate_succ, List.flatten_cons]
  rfl

theorem length_ccnxPad (k : Nat) : (ccnxPad k).length = 4 * k := by
  induction k with
  | zero => rfl
  | succ k ih =>
    rw [ccnxPad_succ, List.length_append, ih, show (ccnxTLV 5 []).length = 4 from rfl]
    omega

theorem ccntlvElem_other {a hd typ len : Nat} {cur : Cursor} {u : CcntlvState} (hl : len ≤ cur.len)
    (ht : ccnxTlvM typ = .other) : ccntlvElem mem 0 a hd typ len cur u = .ok u := by
  unfold ccntlvElem
  rw [if_neg (Nat.not_lt.mpr hl), ht]
  rfl

theorem top_ccnxPad {a p m k : Nat} {u : CcntlvState} (h : At mem p (ccnxPad k)) :
    ccntlvTop mem 0 a ⟨p, (ccnxPad k).length + m⟩ u =
      ccntlvTop mem 0 a ⟨p + (ccnxPad k).length, m⟩ u := by
  induction k generalizing p with
  | zero => rw [show (ccnxPad 0).length = 0 from rfl, Nat.zero_add, Nat.add_zero]
  | succ k ih =>
    rw [ccnxPad_succ] at h ⊢
    obtain ⟨h₁, h₂⟩ := at_append.mp h
    have helem : ccntlvElem mem 0 a p 5 0 ⟨p + 4, 0 + ((ccnxPad k).length + m)⟩ u = .ok u :=
      ccntlvElem_other (Nat.zero_le _) rfl
    have hone := top_ccnxTLV h₁ (by decide) helem
    change _ = ccntlvTop mem 0 a ⟨p + 4 + 0, 0 + ((ccnxPad k).length + m)⟩ u at hone
    rw [Nat.add_zero, Nat.zero_add] at hone
    rw [List.length_append, Nat.add_assoc, hone]
    rw [show (ccnxTLV 5 []).length = 4 from rfl] at h₂ ⊢
    rw [ih h₂, Nat.add_assoc]

/-- `ndnForged` for a message. -/
def ccnxForged (mem : List UInt8) (e k : Nat) (b : UInt8) : List UInt8 :=
  mem.take e ++ (ccnxPad k ++ ccnxTLV ccnxTlvMPayload [b])

theorem top_ccnxForged {a e k : Nat} (b : UInt8) (he : e ≤ mem.length) (u : CcntlvState) :
    ccntlvTop (ccnxForged mem e k b) 0 a ⟨e, 4 * k + 5⟩ u =
        .ok (⟨e + 4 * k + 5, 0⟩, { u with pkt := { u.pkt with
          content := some ⟨e + 4 * k + 4, 1⟩ } }) ∧
      At (ccnxForged mem e k b) (e + 4 * k + 4) [b] := by
  have hlen : (mem.take e).length = e := by
    rw [List.length_take]
    omega
  have hat : At (ccnxForged mem e k b) e (ccnxPad k ++ ccnxTLV ccnxTlvMPayload [b]) := by
    have := at_mid (mem.take e) (ccnxPad k ++ ccnxTLV ccnxTlvMPayload [b]) []
    rwa [List.append_nil, hlen] at this
  obtain ⟨h₁, h₂⟩ := at_append.mp hat
  rw [length_ccnxPad] at h₂
  have hpad := top_ccnxPad (a := a) (m := 5) (u := u) h₁
  have hpayload := @top_payload (ccnxForged mem e k b) 0 a (e + 4 * k) 0 u [b] h₂
  rw [length_ccnxPad] at hpad
  rw [hpad]
  exact ⟨hpayload.trans (ccntlvTop_end _), (at_ccnxTLV.mp h₂).2⟩

theorem ccntlvElem_digest {a hd typ : Nat} {cur : Cursor} {u : CcntlvState} (hl : 32 ≤ cur.len)
    (ht : ccnxTlvM typ = .validationPayload) (hu : u.validAlgoIsHmac256 = true) :
    ccntlvElem mem 0 a hd typ 32 cur u = .ok (u.signed (cur.pos - a - 4) cur.pos) := by
  unfold ccntlvElem
  rw [if_neg (by omega), ht]
  exact if_pos ⟨hu, rfl⟩

/-- The elements up to the digest, in another memory with the same bytes there. -/
theorem ccntlvTop_digest {a : Nat} {t q : Cursor} {u s₀ : CcntlvState}
    (hd : CcnxDigestAt mem 0 a c₁ s₀ s t q u) (hsame : SameDelivered mem mem' s₀ s₀)
    (hA : Agree mem mem' 0 0 (q.pos + 32)) (hle : q.pos + 32 ≤ n') :
    ∃ u' : CcntlvState, ccntlvTop mem' 0 a ⟨c₁.pos, n' - c₁.pos⟩ s₀ =
      ccntlvTop mem' 0 a ⟨q.pos + 32, n' - (q.pos + 32)⟩ (u'.signed s.pkt.hmacLen q.pos) := by
  have hend := hd.end_le (ccntlvDehead_decodes mem)
  have hpos := hd.pos
  have hd₁ := hd.lim (ccntlvDehead_decodes mem)
  have hd₂ : c₁.pos + (n' - c₁.pos) = n' := by omega
  obtain ⟨t', u', hr', ht', htl, hu⟩ := top_follows (ccntlvDehead_decodes mem)
    (ccntlvDehead_decodes mem') (ccntlv_local hA) (ccntlvElem_follows hA 0 0 a a)
    (Nat.zero_le c₁.pos) (show c₁.pos + 0 = (⟨c₁.pos, n' - c₁.pos⟩ : Cursor).pos + 0 from rfl)
    (by simp only; omega) hsame hd.reached (by omega)
  obtain ⟨k, hx, hk⟩ := hd.head
  obtain ⟨hh, -⟩ := ccntlvDehead_eq_ok.mp hx
  have htl : t'.pos + t'.len = n' := htl.trans hd₂
  have hhead := hh
  obtain ⟨hq, -⟩ := hhead
  obtain ⟨v, hv, hh'⟩ := (ccntlv_local hA).head (t'.pos + t'.len) hh (Nat.zero_le _) (by omega)
    ht' (by omega) (by omega)
  obtain rfl : q.pos = v := hv
  refine ⟨u', ?_⟩
  have hagain : Again (topStep (ccntlvDehead mem') (ccntlvElem mem' 0 a)) (t', u')
      (⟨q.pos + 32, n' - (q.pos + 32)⟩, u'.signed s.pkt.hmacLen q.pos) := by
    have hdigest : ccntlvElem mem' 0 a t'.pos k 32 ⟨q.pos, t'.pos + t'.len - q.pos⟩ u' =
        .ok (u'.signed (q.pos - a - 4) q.pos) :=
      ccntlvElem_digest (by simp only; omega) hk (hu.algo ▸ hd.algo)
    rw [show q.pos - a - 4 = s.pkt.hmacLen by omega] at hdigest
    exact topStep_again.mpr ⟨k, 32, _, (ccntlvDehead_decodes mem').of_head hh', hdigest,
      by simp only; omega, Cursor.ext rfl (by simp only; omega)⟩
  exact top_reached (ccntlvDehead_decodes mem') (hr'.tail hagain)

/-- The program on another memory, with the same bytes up to the elements. -/
theorem CcnxRun.elsewhere {m : Nat} (h : CcnxRun mem n pkt c c₁ typ s) (hA : Agree mem mem' 0 0 m)
    (hm : c.pos + 9 ≤ m) (hn : n ≤ n') (hle : n' ≤ mem'.length)
    (hloop : ccntlvTop mem' 0 c.pos ⟨c₁.pos, n' - c₁.pos⟩ (.init typ c.pos) = .ok (⟨n', 0⟩, s')) :
    CcnxRun mem' n' (s'.finish 0 (mem'.take n')) ⟨c.pos, n' - c.pos⟩ ⟨c₁.pos, n' - c₁.pos⟩ typ
      s' := by
  have hlim := h.lim
  obtain ⟨c₀, hdrlen, hsuite, hhdr, rfl⟩ := h.suite
  obtain ⟨len, hx, hlen⟩ := h.head
  simp only at hlim hm
  have hlim₀ := nextSuite_lim hsuite
  have hhdrlen := getHdrLen_le hhdr
  have hhdr' : ccntlvGetHdrLen (mem'.drop c₀.pos) (n' - c₀.pos) = .ok hdrlen := by
    have hbytes := ((hA.slice (Nat.zero_le c₀.pos) rfl (k := 9) (by omega)).drop.slice
      (Nat.zero_le 7) rfl (k := 2) (by omega)).rdBytes
    obtain ⟨hp, hhp, hval⟩ := (bind_eq_ok _ _ _).mp hhdr
    refine (bind_eq_ok _ _ _).mpr ⟨hp, hbytes ▸ hhp, ?_⟩
    dsimp only at hval ⊢
    split at hval
    · rename_i hfit
      rw [if_pos (by omega)]
      exact hval
    · simp at hval
  obtain ⟨hh, -⟩ := ccntlvDehead_eq_ok.mp hx
  have hsum : c₀.pos + hdrlen + (n' - (c₀.pos + hdrlen)) = n' := by omega
  have hfit := (ccntlv_local hA).len_le hh
  simp only at hfit
  obtain ⟨v, hv, hh'⟩ := (ccntlv_local hA).head (c₀.pos + hdrlen + (n' - (c₀.pos + hdrlen))) hh
    (Nat.zero_le _) (by omega) rfl (by omega) (by simp only; omega)
  obtain rfl : c₁.pos = v := hv
  refine ⟨⟨⟨c₀.pos, n' - c₀.pos⟩, hdrlen, ?_, hhdr', ?_⟩, ⟨len, ?_, ?_⟩, hloop, hle, rfl⟩
  · exact nextSuite_agree hsuite (hA.slice (Nat.le_refl 0) rfl (by omega)) (by omega) (by omega)
  · exact Cursor.ext rfl (by simp only; omega)
  · rw [(ccntlvDehead_decodes mem').of_head
      (c := ⟨c₀.pos + hdrlen, n' - (c₀.pos + hdrlen)⟩) hh', hsum]
  · simp only
    omega

/-- Signed content can be given the payload `b`. -/
theorem CcnxRun.forged (h : CcnxRun mem n pkt c c₁ ccnxTlvTlObject s) (hs : 0 < pkt.hmacLen)
    (b : UInt8) : Forged mem pkt b := by
  obtain ⟨t, q, u, hd⟩ := h.digest hs
  have hend := hd.end_le (ccntlvDehead_decodes mem)
  have hpos := hd.pos
  have hlim := h.lim
  have hle := h.le
  have hd₁ := hd.lim (ccntlvDehead_decodes mem)
  have hlen := h.hmacLen
  obtain ⟨e, he⟩ : ∃ e, e = q.pos + 32 := ⟨_, rfl⟩
  obtain ⟨k, hk⟩ : ∃ k, k = n - e := ⟨_, rfl⟩
  have hA : Agree mem (ccnxForged mem e k b) 0 0 e := agree_take_append (by omega) _
  have hsame : SameDelivered mem (ccnxForged mem e k b) (.init ccnxTlvTlObject c.pos)
    (.init ccnxTlvTlObject c.pos) := ⟨rfl, rfl, rfl, rfl⟩
  obtain ⟨u', hloop⟩ := ccntlvTop_digest hd hsame (he ▸ hA)
    (show q.pos + 32 ≤ e + 4 * k + 5 by omega)
  obtain ⟨htop, hat⟩ := top_ccnxForged (a := c.pos) (k := k) b (show e ≤ mem.length by omega)
    (u'.signed s.pkt.hmacLen q.pos)
  rw [← he, show e + 4 * k + 5 - e = 4 * k + 5 by omega, htop] at hloop
  have hrun := h.elsewhere hA (by omega) (by omega) (hat.le (List.cons_ne_nil _ _)) hloop
  have hkind := h.kind
  have hkind' := hrun.kind
  simp only [Prod.mk.injEq] at hkind hkind'
  refine ⟨_, _, _, ⟨hrun.parse, .inr ⟨hkind'.2.2, hkind'.1⟩, hlen ▸ hs⟩, ?_,
    (congrArg (fun d => d.2.1) hrun.delivered).trans hat.bytes⟩
  refine signed_agree hkind.2.1 hkind'.2.1 hlen.symm (h.hmacSignature.trans hd.signature) rfl
    (e := e) ?_ (by omega) (by omega)
  -- the digest is looked up in the copies of the two packets
  have hbuf : pkt.buf = mem.take n := by
    rw [h.pkt]
    rfl
  rw [hmacMem, hmacMem, hkind.2.2, hkind'.2.2, if_pos rfl, if_pos rfl, hbuf]
  exact hA.of_take (by omega) (by omega)

/-- The signed bytes of content start with a zero. -/
theorem CcnxRun.region_start (h : CcnxRun mem n pkt c c₁ ccnxTlvTlObject s) (hs : 0 < pkt.hmacLen) :
    (signedRegion mem pkt)[0]? = some 0 := by
  obtain ⟨len, hx, -⟩ := h.head
  obtain ⟨⟨-, -, hle, htyp, -, -⟩, -⟩ := ccntlvDehead_eq_ok.mp hx
  rw [h.region hs, List.getElem?_take_of_lt hs, List.getElem?_drop, Nat.add_zero]
  rw [List.take_take, show min 2 4 = 2 from rfl] at htyp
  rw [(h.lim).1] at hle
  have h₀ : c.pos < mem.length := by omega
  have h₁ : c.pos + 1 < mem.length := by omega
  rw [List.drop_eq_getElem_cons h₀, List.drop_eq_getElem_cons h₁] at htyp
  rw [List.getElem?_eq_getElem h₀]
  have hval : 2 = (0 * 2 ^ 8 + mem[c.pos].toNat) * 2 ^ 8 + mem[c.pos + 1].toNat := htyp
  exact congrArg some (UInt8.toNat_inj.mp (by simp only [UInt8.toNat_zero]; omega))

end Ccnx

/-! ## The signature and what is delivered -/

section Main

variable {mem mem' : List UInt8} {n n' : Nat} {pkt pkt' : Pkt}

theorem Accepted.cases (h : Accepted mem n pkt) :
    (∃ c c₁ s, NdnRun mem n pkt c c₁ ndnTlvData s) ∨
      ∃ c c₁ s, CcnxRun mem n pkt c c₁ ccnxTlvTlObject s := by
  rcases ccnlParse_cases h.parse with ⟨c, c₁, typ, s, hrun⟩ | ⟨c, c₁, typ, s, hrun⟩
  · have hkind := hrun.kind
    simp only [Prod.mk.injEq] at hkind
    rcases h.content with ⟨-, htyp⟩ | ⟨hsuite, -⟩
    · obtain rfl := hkind.1.symm.trans htyp
      exact .inl ⟨c, c₁, s, hrun⟩
    · exact absurd (hkind.2.2.symm.trans hsuite) nofun
  · have hkind := hrun.kind
    simp only [Prod.mk.injEq] at hkind
    rcases h.content with ⟨hsuite, -⟩ | ⟨-, htyp⟩
    · exact absurd (hkind.2.2.symm.trans hsuite) nofun
    · obtain rfl := hkind.1.symm.trans htyp
      exact .inr ⟨c, c₁, s, hrun⟩

/-- Content of NDN and content of CCNx have different signed bytes. -/
theorem region_ne {c c₁ c' c₁' : Cursor} {s : NdnState} {s' : CcntlvState}
    (h : NdnRun mem n pkt c c₁ ndnTlvData s) (hs : 0 < pkt.hmacLen)
    (h' : CcnxRun mem' n' pkt' c' c₁' ccnxTlvTlObject s') (hs' : 0 < pkt'.hmacLen) :
    signedRegion mem' pkt' ≠ signedRegion mem pkt := by
  intro heq
  have h0 := h'.region_start hs'
  rw [heq, h.region, List.getElem?_take_of_lt hs] at h0
  exact nextSuite_ndntlv_start h.suite (rd_eq_ok.mpr h0)

/-- Packets with the same signed bytes deliver the same, if in both of them no element from the
digest on sets a field of it. But every packet with signed bytes has another one with the same
signed bytes, that every key verifies like the packet, and with another payload. -/
theorem signature_covers (h : Accepted mem n pkt) :
    (∀ mem' n' pkt', Accepted mem' n' pkt' → signedRegion mem' pkt' = signedRegion mem pkt →
      ¬ Overridden mem n pkt → ¬ Overridden mem' n' pkt' → pkt'.delivered = pkt.delivered) ∧
    ∃ mem' n' pkt', Accepted mem' n' pkt' ∧ signedRegion mem' pkt' = signedRegion mem pkt ∧
      (∀ hmac keyvals, validate hmac mem' pkt' keyvals = validate hmac mem pkt keyvals) ∧
      pkt'.contentBytes ≠ pkt.contentBytes := by
  have hs := h.signed
  constructor
  · intro mem' n' pkt' h' hr hb hb'
    have hs' := h'.signed
    rcases h.cases with ⟨c, c₁, s, hrun⟩ | ⟨c, c₁, s, hrun⟩ <;>
      rcases h'.cases with ⟨c', c₁', s', hrun'⟩ | ⟨c', c₁', s', hrun'⟩
    · exact hrun.covered hrun' hs hs' hr hb hb'
    · exact absurd hr (region_ne hrun hs hrun' hs')
    · exact absurd hr.symm (region_ne hrun' hs' hrun hs)
    · exact hrun.covered hrun' hs hs' hr hb hb'
  · have hforged : ∀ b, Forged mem pkt b := fun b => by
      rcases h.cases with ⟨c, c₁, s, hrun⟩ | ⟨c, c₁, s, hrun⟩
      · exact hrun.forged hs b
      · exact hrun.forged hs b
    have hother : ∃ b, [b] ≠ pkt.contentBytes := by
      by_cases h0 : [0] = pkt.contentBytes
      · exact ⟨1, fun h1 => absurd (h1.trans h0.symm) (by decide)⟩
      · exact ⟨0, h0⟩
    obtain ⟨b, hb⟩ := hother
    obtain ⟨mem', n', pkt', hacc, ⟨hr, hval⟩, hcontent⟩ := hforged b
    exact ⟨mem', n', pkt', hacc, hr, hval, hcontent ▸ hb⟩

/-- What the parser gives for one packet, by computation. -/
theorem exists_accepted (mem : List UInt8) (n : Nat) (p : Pkt → Prop) [DecidablePred p]
    (h : (ccnlParse mem n).toOption.join.any (fun pkt =>
      ((pkt.suite = .ndntlv ∧ pkt.type = ndnTlvData ∨
        pkt.suite = .ccntlv ∧ pkt.type = ccnxTlvTlObject) ∧ 0 < pkt.hmacLen) ∧ p pkt) = true) :
    ∃ pkt, Accepted mem n pkt ∧ p pkt := by
  cases hx : ccnlParse mem n with
  | error e =>
    rw [hx] at h
    cases h
  | ok x =>
    rw [hx] at h
    cases x with
    | none => cases h
    | some pkt =>
      obtain ⟨⟨hcontent, hs⟩, hp⟩ := of_decide_eq_true h
      exact ⟨pkt, ⟨hx, hcontent, hs⟩, hp⟩

/-- Signed content with the payload 1, 2, 3, and the byte behind it that the program looks at. -/
def signedAB : List UInt8 := wroteSigned.buf ++ [0]

/-- The same with a content of one byte behind the digest. -/
def signedTwice : List UInt8 := wroteSigned.buf ++ [0x15, 1, 9, 0]

/-- The digest is the last element. -/
theorem behind_signedAB {typ : Nat} (h : Behind (ndnHeader signedAB) 67 33 typ) :
    typ = ndnTlvSignatureValue := by
  have hone : ∀ {t l v}, (ndnHeader signedAB).Head 67 33 t l v →
      t = ndnTlvSignatureValue ∧ v + l = 67 := fun {t l v} hh => by
    have hx := (dehead_decodes signedAB).of_head (c := ⟨33, 34⟩) hh
    have hy : ndntlvDehead signedAB ⟨33, 34⟩ =
      .ok (some (ndnTlvSignatureValue, 32), ⟨35, 32⟩) := by decide +kernel
    rw [hy] at hx
    obtain ⟨h₁, h₂⟩ := Prod.mk.inj (Except.ok.inj hx)
    obtain ⟨rfl, rfl⟩ := Prod.mk.inj (Option.some.inj h₁)
    obtain ⟨rfl, -⟩ := Cursor.mk.inj h₂
    exact ⟨rfl, rfl⟩
  have hend : ∀ {t l v}, ¬ (ndnHeader signedAB).Head 67 67 t l v := fun hh => by
    have := (dehead_decodes signedAB).lt _ _ _ _ _ hh
    omega
  obtain ⟨q, len, v, hr, hh⟩ := h
  rcases hr.cases_head with rfl | ⟨q₁, ⟨t, l, v₁, hh₁, rfl⟩, hr⟩
  · exact (hone hh).1
  · rw [(hone hh₁).2] at hr
    rcases hr.cases_head with rfl | ⟨_, ⟨_, _, _, hh₂, -⟩, -⟩
    · exact absurd hh hend
    · exact absurd hh₂ hend

theorem signature_covers_ab : ∃ pkt, (Accepted signedAB 67 pkt ∧ ¬ Overridden signedAB 67 pkt) ∧
    (∀ mem' n' pkt', Accepted mem' n' pkt' → signedRegion mem' pkt' = signedRegion signedAB pkt →
      ¬ Overridden signedAB 67 pkt → ¬ Overridden mem' n' pkt' → pkt'.delivered = pkt.delivered) ∧
    ∃ mem' n' pkt', Accepted mem' n' pkt' ∧ signedRegion mem' pkt' = signedRegion signedAB pkt ∧
      (∀ hmac keyvals, validate hmac mem' pkt' keyvals = validate hmac signedAB pkt keyvals) ∧
      pkt'.contentBytes ≠ pkt.contentBytes := by
  obtain ⟨pkt, h, hsuite, hstart, hlen⟩ := exists_accepted signedAB 67
    (fun pkt => pkt.suite = .ndntlv ∧ pkt.hmacStart = some 0 ∧ pkt.hmacLen = 33)
    (by decide +kernel)
  refine ⟨pkt, ⟨h, ?_⟩, signature_covers h⟩
  rintro ⟨a, typ, ha, hover⟩
  obtain rfl := Option.some.inj (hstart.symm.trans ha)
  rw [hsuite, hlen] at hover
  rw [behind_signedAB hover.1] at hover
  exact hover.2

/-- Two packets with the same signed bytes, both of which the key verifies, with two payloads. -/
theorem signature_misses_content : ¬ ∀ mem n pkt mem' n' pkt', Accepted mem n pkt →
    Accepted mem' n' pkt' → signedRegion mem' pkt' = signedRegion mem pkt →
      (∃ hmac keyvals, validate hmac mem pkt keyvals = .ok true ∧
        validate hmac mem' pkt' keyvals = .ok true) → pkt'.delivered = pkt.delivered := by
  intro hall
  obtain ⟨pkt, h, hr, hv, hd⟩ := exists_accepted signedAB 67
    (fun pkt => signedRegion signedAB pkt = signedAB.take 33 ∧
      validate lengthMac signedAB pkt [zeroKey] = .ok true ∧ pkt.contentBytes = [1, 2, 3])
    (by decide +kernel)
  obtain ⟨pkt', h', hr', hv', hd'⟩ := exists_accepted signedTwice 70
    (fun pkt => signedRegion signedTwice pkt = signedAB.take 33 ∧
      validate lengthMac signedTwice pkt [zeroKey] = .ok true ∧ pkt.contentBytes = [9])
    (by decide +kernel)
  have heq := hall _ _ _ _ _ _ h h' (hr'.trans hr.symm) ⟨lengthMac, [zeroKey], hv, hv'⟩
  have hcontent : pkt'.contentBytes = pkt.contentBytes := congrArg (fun d => d.2.1) heq
  rw [hd, hd'] at hcontent
  cases hcontent

end Main

end Ccnl
