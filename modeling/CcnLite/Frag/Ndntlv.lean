import Mathlib.Control.Traversable.Basic
import CcnLite.Frag.BeginEnd2015
import CcnLite.Pkt.NdntlvConfined
import CcnLite.Pkt.NdntlvSpace

/-!
# NDN fragments (`ccnl_ndntlv_mkFrag`)

The fragments of a `USE_FRAG` build with the NDN packets, on memory. `ccnl_ndntlv_mkFrag` adds up
the return values of `ccnl_ndntlv_prependTL` for the length of the headers, but that function
returns 0 since it was changed to return no length. So the buffer has two bytes more than the piece,
and nobody looks whether the headers fit. A short piece gets its headers in front of the buffer
(`ndntlvMkFrag_short`), a longer one gets none (`ndntlvMkFrag_long`).
-/

namespace Ccnl

open CRun Tlv BeginEnd

/-- `NDN_TLV_NDNLP`, which is `NDN_TLV_Fragment`. -/
def ndnTlvNdnlp : Nat := 0x64
def ndnTlvNdnlpFragment : Nat := 0x52
def ndnTlvFragBeginEndFields : Nat := 0x5c

/-! ## Receiving -/

/-- `CCNL_PKT_FRAGMENT`. -/
def pktFragment : Nat := 0x03

/-- The packet before the loop, in a `USE_FRAG` build. -/
def ndnFragPkt (pkttype start : Nat) : Pkt :=
  if pkttype = ndnTlvNdnlp then { ndnPkt pkttype start with flags := pktFragment }
  else ndnPkt pkttype start

/-- `ccnl_ndntlv_bytes2pkt` of a `USE_FRAG` build. -/
def ndntlvBytes2pktFrag (mem : List UInt8) (pkttype start : Nat) (c : Cursor) :
    Run (Pkt × Cursor) := do
  if pkttype ≠ ndnTlvInterest ∧ pkttype ≠ ndnTlvData ∧ pkttype ≠ ndnTlvNdnlp then throw .bail
  let (c, s) ← top (ndntlvDehead mem) (ndnElem mem start) c { pkt := ndnFragPkt pkttype start }
  if 0 < c.len then throw .bail
  let buf ← rdBytes mem start (c.pos - start)
  return (s.pkt.rebase start buf, c)

/-- The parser as `ccnl_ndntlv_forwarder` runs it in a `USE_FRAG` build. -/
def ndntlvParseFrag (mem : List UInt8) (c : Cursor) : Run (Pkt × Cursor) := do
  match ← ndntlvDehead mem c with
  | (none, _) => throw .bail
  | (some (typ, len), c₁) =>
    if c₁.len < len then throw .bail
    let (pkt, c₂) ← ndntlvBytes2pktFrag mem typ c.pos c₁
    return ({ pkt with type := typ }, c₂)

/-- Fragments apart, the two builds read the same packets. -/
theorem ndntlvBytes2pktFrag_eq {pkttype : Nat} (h : pkttype ≠ ndnTlvNdnlp) (mem : List UInt8)
    (start : Nat) (c : Cursor) :
    ndntlvBytes2pktFrag mem pkttype start c = ndntlvBytes2pkt mem pkttype start c := by
  have hpkt : ndnFragPkt pkttype start = ndnPkt pkttype start := if_neg h
  unfold ndntlvBytes2pktFrag ndntlvBytes2pkt
  simp only [hpkt, ne_eq, h, not_false_eq_true, and_true]

/-! ## Sending -/

/-- What a call makes: a buffer of `size` bytes, every write with its place, which counts from the
buffer, the bytes that are returned, and `*consumed`. -/
structure NdnFrag where
  size : Nat
  log : List (UInt64 × UInt8)
  buf : List UInt8
  consumed : Nat

/-- What is returned, after a run that ends with `r`. -/
def NdnFrag.ofRun (mem : UInt64 → UInt8) (size datalen : Nat) (r : Nat × Pen) : NdnFrag where
  size := size
  log := r.2.log
  buf := r.2.bytes mem 0 r.1
  consumed := u32 datalen

namespace OnPen

open PenM

/-- The value of a call. What it writes before it fails stays. -/
def rc (m : PenM Unit) : StateM Pen Int := fun p =>
  match m p with
  | .ok _ q => (0, q)
  | .error e q => (e, q)

/-- `hdrlen`, for a piece of `datalen` bytes. -/
def ndntlvFragOverhead (datalen : Nat) : StateM Pen Nat := do
  let r ← rc (ndntlvPrependTL ndnTlvNdnlpFragment datalen)
  let hdrlen := size64 r
  let r ← rc (ndntlvPrependTL ndnTlvFragBeginEndFields 2)
  let hdrlen := u64 (hdrlen + size64 (r + 2))
  let r ← rc (ndntlvPrependTL ndnTlvNdnlp (u64 (hdrlen + datalen)))
  return u64 (hdrlen + size64 r)

/-- `hdrlen` for what is left of the packet, computed in `test[20]`. -/
def ndntlvFragHdrlen (mtu : Int) (rest : Nat) : Nat :=
  let datalen := min mtu ((rest : Int).bmod (2 ^ 64))
  Id.run ((ndntlvFragOverhead (size64 datalen)).run' ⟨20, []⟩)

/-- The flag of a fragment; `CCNL_DTAG_FRAG_FLAG_*` are `CCNL_BEFRAG_FLAG_*`. -/
def ndntlvFragFlag (pktlen sendoffs datalen : Nat) : Flag :=
  if pktlen ≤ datalen then .single
  else if sendoffs = 0 then .first
  else if sub64 pktlen sendoffs ≤ u32 datalen then .last
  else .mid

/-- The headers in front of the piece. -/
def ndntlvFragHeaders (tmp datalen size : Nat) : StateM Pen Unit := do
  let _ ← rc (ndntlvPrependTL ndnTlvNdnlpFragment datalen)
  let _ ← rc (hole 2)
  let p ← get
  let _ ← rc (poke p.offset (beBytes 2 tmp))
  let _ ← rc (ndntlvPrependTL ndnTlvFragBeginEndFields 2)
  let p ← get
  let _ ← rc (ndntlvPrependTL ndnTlvNdnlp (.ofNat size - p.offset).toNat)

/-- The frame is moved to the start of the buffer. It returns `buf->datalen`. -/
def ndntlvFragMove (mem : UInt64 → UInt8) (size : Nat) : StateM Pen Nat := do
  let p ← get
  if 0 < p.offset then
    let n := (.ofNat size - p.offset).toNat
    let _ ← rc (poke 0 (p.bytes mem p.offset n))
    return n
  else return size

/-- What is behind the first write: the headers, and the move. -/
def ndntlvFragFrame (mem : UInt64 → UInt8) (tmp datalen size : Nat) : StateM Pen Nat := do
  ndntlvFragHeaders tmp datalen size
  ndntlvFragMove mem size

/-- The buffer of a piece. -/
def ndntlvFragBuf (mem : UInt64 → UInt8) (tmp size : Nat) (data : List UInt8) : NdnFrag :=
  let offset := UInt64.ofNat size - .ofNat data.length
  .ofRun mem size data.length
    (ndntlvFragFrame mem tmp data.length size ⟨offset, marks offset data⟩)

/-- `ccnl_ndntlv_mkFrag`. `mem` is what is in memory, from the buffer on. -/
def ndntlvMkFrag (mem : UInt64 → UInt8) (fr : Frag) : Run NdnFrag := do
  let bigpkt ← deref fr.bigpkt
  let rest := sub64 bigpkt.length fr.sendoffs
  let hdrlen := ndntlvFragHdrlen fr.mtu rest
  let datalen := min (sub64 (size64 fr.mtu) hdrlen) rest
  let data ← rdBytes bigpkt fr.sendoffs datalen
  let flag := ndntlvFragFlag bigpkt.length fr.sendoffs datalen
  let tmp := (fr.sendseq &&& 0x3fff) ||| befragBits flag <<< 14
  return ndntlvFragBuf mem tmp (u64 (datalen + hdrlen)) data

/-! ## The length of the headers -/

section Hdrlen

variable {α β : Type} {p q : Pen} {g : Prop} {bs : List UInt8} {m : PenM Unit}

theorem stateM_bind {x : StateM Pen α} {f : α → StateM Pen β} {a : α} (h : x p = (a, q)) :
    (x >>= f) p = f a q := by
  show StateT.bind x f p = _
  rw [StateT.bind, h]
  rfl

theorem get_run (p : Pen) : (get : StateM Pen Pen) p = (p, p) := rfl

theorem rc_of_prepends (h : Prepends p True bs () m) (hle : bs.length ≤ p.offset.toNat) :
    rc m p = (0, p.pre bs) := by
  rw [rc, h.done trivial hle]

/-- What has been written stays written. -/
theorem log_subset_rc (h : Prepends p g bs () m) : p.log ⊆ (rc m p).2.log := by
  by_cases hfit : g ∧ bs.length ≤ p.offset.toNat
  · rw [rc, h.done hfit.1 hfit.2]
    exact List.subset_append_right _ _
  · obtain ⟨e, q, zs, hrun, -, -, hlog⟩ := h.fails hfit
    rw [rc, hrun]
    show p.log ⊆ q.log
    rw [hlog]
    exact List.subset_append_right _ _

/-- Without room for the length, nothing is written. -/
theorem rc_prependTL_full {type len : Nat} (h : p.offset.toNat < (tlvalForm len).1 + 1) :
    rc (ndntlvPrependTL type len) p = (-1, p) := by
  have hform := tlvalForm_le len
  have hlt : p.offset < .ofNat ((tlvalForm len).1 + 1) := (lt_ofNat_iff (by omega)).mpr h
  have hval : ndntlvPrependTLval len p = .error (-1) p := by
    have hdef : ndntlvPrependTLval len = (offset >>= fun o =>
      if o < .ofNat ((tlvalForm len).1 + 1) then throw (-1)
      else prependBytes (tlvalForm len).1 len >>= fun _ => put (tlvalForm len).2) := rfl
    rw [hdef]
    show (if p.offset < .ofNat ((tlvalForm len).1 + 1) then throw (-1) else _ : PenM Unit) p = _
    rw [if_pos hlt]
    rfl
  have hTL : ndntlvPrependTL type len p = .error (-1) p := by
    show EStateM.bind _ _ p = _
    rw [EStateM.bind, hval]
  rw [rc, hTL]

/-- The length of a header whose type is a byte below 253. -/
theorem length_ndnTL {type len : Nat} (ht : type < 253) :
    (ndnTL type len).length = (tlvalForm len).1 + 2 := by
  rw [ndnTL, List.length_append, ndnTLval, ndnTLval, List.length_cons, List.length_cons,
    length_beBytes, length_beBytes, tlvalForm, if_pos ht]
  omega

theorem tlvalForm_le_four {len : Nat} (h : len < 2 ^ 32) : (tlvalForm len).1 ≤ 4 := by
  unfold tlvalForm
  split
  · exact Nat.zero_le _
  split
  · decide
  · rw [if_pos (by omega)]

theorem ndntlvFragOverhead_eq {datalen : Nat} (h : datalen < 2 ^ 31) :
    Id.run ((ndntlvFragOverhead datalen).run' ⟨20, []⟩) = 2 := by
  have hlen₁ := @length_ndnTL ndnTlvNdnlpFragment datalen (by decide)
  have hlen₂ : (ndnTL ndnTlvFragBeginEndFields 2).length = 2 := by decide
  have hlen₃ := @length_ndnTL ndnTlvNdnlp (u64 (2 + datalen)) (by decide)
  have hu : u64 (2 + datalen) < 2 ^ 32 := by
    unfold u64
    omega
  have h₁ := tlvalForm_le_four (show datalen < 2 ^ 32 by omega)
  have h₃ := tlvalForm_le_four hu
  let p₀ : Pen := ⟨20, []⟩
  let p₁ := p₀.pre (ndnTL ndnTlvNdnlpFragment datalen)
  let p₂ := p₁.pre (ndnTL ndnTlvFragBeginEndFields 2)
  have hoff₀ : p₀.offset.toNat = 20 := rfl
  have hoff₁ : p₁.offset.toNat = 20 - (ndnTL ndnTlvNdnlpFragment datalen).length :=
    Pen.toNat_pre (by omega)
  have hoff₂ : p₂.offset.toNat = p₁.offset.toNat - 2 := by
    rw [← hlen₂]
    exact Pen.toNat_pre (by omega)
  have hrun₁ : rc (ndntlvPrependTL ndnTlvNdnlpFragment datalen) p₀ = (0, p₁) :=
    rc_of_prepends (prependTL_prepends _ _ p₀) (by omega)
  have hrun₂ : rc (ndntlvPrependTL ndnTlvFragBeginEndFields 2) p₁ = (0, p₂) :=
    rc_of_prepends (prependTL_prepends _ _ p₁) (by omega)
  have hrun₃ := rc_of_prepends (prependTL_prepends ndnTlvNdnlp (u64 (2 + datalen)) p₂) (by omega)
  have hrun : ndntlvFragOverhead datalen p₀ = (2, p₂.pre (ndnTL ndnTlvNdnlp (u64 (2 + datalen)))) := by
    rw [ndntlvFragOverhead, stateM_bind hrun₁, stateM_bind hrun₂]
    exact stateM_bind hrun₃
  rw [StateT.run', hrun]
  rfl

/-- The headers count for two bytes, however long they are. -/
theorem ndntlvFragHdrlen_eq {mtu : Int} {rest : Nat} (h0 : 0 ≤ mtu) (hlt : mtu < 2 ^ 31)
    (hrest : rest < 2 ^ 63) : ndntlvFragHdrlen mtu rest = 2 := by
  have hbmod : (rest : Int).bmod (2 ^ 64) = rest := Int.bmod_eq_of_le (by omega) (by omega)
  have hsize : size64 (min mtu (rest : Int)) < 2 ^ 31 := by
    unfold size64
    omega
  rw [ndntlvFragHdrlen, hbmod, ndntlvFragOverhead_eq hsize]

end Hdrlen

/-! ## The two kinds of pieces -/

section Pieces

variable {mem : UInt64 → UInt8} {tmp : Nat} {data : List UInt8}

theorem log_subset_move (mem : UInt64 → UInt8) (size : Nat) (p : Pen) :
    p.log ⊆ (ndntlvFragMove mem size p).2.log := by
  by_cases h : 0 < p.offset
  · have hrun : ndntlvFragMove mem size p = ((.ofNat size - p.offset).toNat,
        ⟨p.offset, marks 0 (p.bytes mem p.offset (.ofNat size - p.offset).toNat) ++ p.log⟩) := by
      unfold ndntlvFragMove
      rw [stateM_bind (get_run p), if_pos h]
      rfl
    rw [hrun]
    exact List.subset_append_right _ _
  · have hrun : ndntlvFragMove mem size p = (size, p) := by
      unfold ndntlvFragMove
      rw [stateM_bind (get_run p), if_neg h]
      rfl
    rw [hrun]
    exact fun _ hw => hw

theorem rc_eta (m : PenM Unit) (p : Pen) : rc m p = ((rc m p).1, (rc m p).2) := rfl

theorem rc_hole (n : Nat) (p : Pen) : rc (hole n) p = (0, ⟨p.offset - .ofNat n, p.log⟩) := rfl

theorem rc_poke (i : UInt64) (bs : List UInt8) (p : Pen) :
    rc (poke i bs) p = (0, ⟨p.offset, marks i bs ++ p.log⟩) := rfl

/-- The flags are written two places in front of the first header. -/
theorem mem_log_frame {p q : Pen} {r : Int} {size : Nat}
    (h : rc (ndntlvPrependTL ndnTlvNdnlpFragment data.length) p = (r, q)) :
    (q.offset - 2, UInt8.ofNat (tmp / 2 ^ 8)) ∈
      (ndntlvFragFrame mem tmp data.length size p).2.log := by
  let p₂ : Pen := ⟨q.offset - .ofNat 2, marks (q.offset - .ofNat 2) (beBytes 2 tmp) ++ q.log⟩
  have hmem : (q.offset - 2, UInt8.ofNat (tmp / 2 ^ 8)) ∈ p₂.log :=
    List.mem_append_left _ List.mem_cons_self
  let p₃ := (rc (ndntlvPrependTL ndnTlvFragBeginEndFields 2) p₂).2
  let p₄ := (rc (ndntlvPrependTL ndnTlvNdnlp (.ofNat size - p₃.offset).toNat) p₃).2
  have hheads : ndntlvFragHeaders tmp data.length size p = ((), p₄) := by
    unfold ndntlvFragHeaders
    rw [stateM_bind h, stateM_bind (rc_hole _ _), stateM_bind (get_run _), stateM_bind (rc_poke _ _ _),
      stateM_bind (rc_eta _ _), stateM_bind (get_run _), stateM_bind (rc_eta _ _)]
    rfl
  rw [ndntlvFragFrame, stateM_bind hheads]
  exact log_subset_move mem size p₄ (log_subset_rc (prependTL_prepends _ _ p₃)
    (log_subset_rc (prependTL_prepends _ _ p₂) hmem))

/-- There are two bytes in front of the piece. -/
theorem offset_piece (data : List UInt8) :
    UInt64.ofNat (data.length + 2) - .ofNat data.length = 2 := by
  rw [UInt64.ofNat_add]
  show UInt64.ofNat data.length + 2 - UInt64.ofNat data.length = 2
  grind

/-- The flags of a short piece are written in front of the buffer. -/
theorem ndntlvMkFrag_short (hlt : data.length < 253) :
    ∃ w ∈ (ndntlvFragBuf mem tmp (data.length + 2) data).log, data.length + 2 ≤ w.1.toNat := by
  have hlen : (ndnTL ndnTlvNdnlpFragment data.length).length = 2 := by
    rw [length_ndnTL (by decide), tlvalForm, if_pos hlt]
  let p₀ : Pen := ⟨2, marks 2 data⟩
  let p₁ := p₀.pre (ndnTL ndnTlvNdnlpFragment data.length)
  have hrun : rc (ndntlvPrependTL ndnTlvNdnlpFragment data.length) p₀ = (0, p₁) :=
    rc_of_prepends (prependTL_prepends _ _ p₀) (Nat.le_of_eq hlen)
  have hoff : p₁.offset = 0 := by
    show (2 : UInt64) - .ofNat (ndnTL ndnTlvNdnlpFragment data.length).length = 0
    rw [hlen]
    rfl
  refine ⟨(p₁.offset - 2, UInt8.ofNat (tmp / 2 ^ 8)), ?_, ?_⟩
  · rw [ndntlvFragBuf, offset_piece]
    exact mem_log_frame hrun
  · rw [hoff]
    show data.length + 2 ≤ 2 ^ 64 - 2
    omega

/-- A long piece is sent behind the flags, without a header. -/
theorem ndntlvMkFrag_long (hge : 253 ≤ data.length) (hlt : data.length < 2 ^ 31) :
    ndntlvFragBuf mem tmp (data.length + 2) data =
      ⟨data.length + 2, marks 0 (beBytes 2 tmp ++ data), beBytes 2 tmp ++ data, data.length⟩ := by
  have hform : ∀ {n}, 253 ≤ n → 2 ≤ (tlvalForm n).1 := fun {n} hn => by
    unfold tlvalForm
    rw [if_neg (by omega)]
    split
    · decide
    split <;> decide
  have hrun₁ : rc (ndntlvPrependTL ndnTlvNdnlpFragment data.length) ⟨2, marks 2 data⟩ =
      (-1, ⟨2, marks 2 data⟩) := rc_prependTL_full (Nat.lt_succ_of_le (hform hge))
  have hmarks : marks 0 (beBytes 2 tmp) ++ marks 2 data = marks 0 (beBytes 2 tmp ++ data) := by
    rw [marks_append, length_beBytes]
    rfl
  have hzero : (2 : UInt64) - .ofNat 2 = 0 := by decide
  have hhole : rc (hole 2) ⟨2, marks 2 data⟩ = (0, ⟨0, marks 2 data⟩) := by
    show (0, (⟨2 - .ofNat 2, marks 2 data⟩ : Pen)) = _
    rw [hzero]
  have hpoke : rc (poke 0 (beBytes 2 tmp)) ⟨0, marks 2 data⟩ =
      (0, ⟨0, marks 0 (beBytes 2 tmp ++ data)⟩) := by
    show (0, (⟨0, marks 0 (beBytes 2 tmp) ++ marks 2 data⟩ : Pen)) = _
    rw [hmarks]
  have hfull : ∀ type len log, rc (ndntlvPrependTL type len) ⟨0, log⟩ = (-1, ⟨0, log⟩) :=
    fun type len log => rc_prependTL_full (Nat.succ_pos _)
  have hheads : ndntlvFragHeaders tmp data.length (data.length + 2) ⟨2, marks 2 data⟩ =
      ((), ⟨0, marks 0 (beBytes 2 tmp ++ data)⟩) := by
    unfold ndntlvFragHeaders
    rw [stateM_bind hrun₁, stateM_bind hhole, stateM_bind (get_run _), stateM_bind hpoke,
      stateM_bind (hfull _ _ _),
      stateM_bind (get_run _), stateM_bind (hfull _ _ _)]
    rfl
  have hmove : ∀ log, ndntlvFragMove mem (data.length + 2) ⟨0, log⟩ = (data.length + 2, ⟨0, log⟩) :=
    fun log => by
      unfold ndntlvFragMove
      rw [stateM_bind (get_run _), if_neg (show ¬ (0 : UInt64) < 0 by decide)]
      rfl
  have hlen : (beBytes 2 tmp ++ data).length = data.length + 2 := by
    rw [List.length_append, length_beBytes, Nat.add_comm]
  have hbytes : (⟨0, marks 0 (beBytes 2 tmp ++ data)⟩ : Pen).bytes mem 0 (data.length + 2) =
      beBytes 2 tmp ++ data := by
    rw [← hlen]
    exact Pen.bytes_marks (List.append_nil _).symm (by omega)
  have hsmall : u32 data.length = data.length := Nat.mod_eq_of_lt (by omega)
  have hframe : ndntlvFragFrame mem tmp data.length (data.length + 2) ⟨2, marks 2 data⟩ =
      (data.length + 2, ⟨0, marks 0 (beBytes 2 tmp ++ data)⟩) := by
    rw [ndntlvFragFrame, stateM_bind hheads, hmove]
  rw [ndntlvFragBuf, offset_piece, hframe, NdnFrag.ofRun, hbytes, hsmall]

end Pieces

end OnPen

/-! ## What the receiver finds -/

section Received

variable {mem : List UInt8} {start : Nat} {c c' : Cursor} {pkt : Pkt}

/-- An element is the content, or it leaves the content as it is. -/
theorem ndnElem_content {hd typ len : Nat} {cur : Cursor} {s s' : NdnState}
    (h : ndnElem mem start hd typ len cur s = .ok s') :
    s'.pkt.content = s.pkt.content ∨ s'.pkt.content = some ⟨cur.pos, len⟩ := by
  cases ndnElem_taken h with
  | content => exact .inr rfl
  | name | selectors | nonce | scope | metaInfo | interestLifetime | fragFields | signatureInfo
  | digest | noDigest | other => exact .inl rfl

/-- The content of a packet is behind a header of the packet loop. -/
theorem packetLoop_content {s s' : NdnState}
    (h : top (ndntlvDehead mem) (ndnElem mem start) c s = .ok (c', s')) (h0 : s.pkt.content = none) :
    ∀ t, s'.pkt.content = some t → t.Within (c.pos + 1) (c.pos + c.len) := by
  obtain ⟨⟨p, -, hp, hin⟩, hlim⟩ := top_inv (dehead_decodes mem)
    (I := fun p s => ∀ t, s.pkt.content = some t → t.Within (c.pos + 1) p) h
    (fun t ht => by simp [h0] at ht)
    fun p typ len cur a a' ha hle hlt he _ t ht => by
      obtain hsame | hnew := ndnElem_content he
      · exact (ha t (hsame ▸ ht)).mono (Nat.le_refl _) (by omega)
      · obtain rfl := Option.some.inj (hnew.symm.trans ht)
        exact ⟨show c.pos + 1 ≤ cur.pos by omega, Nat.le_refl _⟩
  exact fun t ht => (hin t ht).mono (Nat.le_refl _) (by omega)

/-- A frame of `n` bytes has a content of less than `n - 2` bytes. -/
theorem parseFrag_content {n : Nat} (h : ndntlvParseFrag mem ⟨0, n⟩ = .ok (pkt, c)) {t : Span}
    (ht : pkt.content = some t) : t.len + 3 ≤ n := by
  unfold ndntlvParseFrag at h
  obtain ⟨⟨head, c₁⟩, hdh, h⟩ := (bind_eq_ok _ _ _).mp h
  match head with
  | none => simp at h
  | some (typ, len) =>
    obtain ⟨hhead, hlim⟩ := dehead_eq_ok.mp hdh
    have hlt := hhead.lt
    simp only at h hlim hlt
    split at h
    · simp at h
    obtain ⟨⟨pkt', c₂⟩, hpkt, h⟩ := (bind_eq_ok _ _ _).mp h
    cases h
    unfold ndntlvBytes2pktFrag at hpkt
    split at hpkt
    · simp at hpkt
    obtain ⟨⟨c₃, s⟩, hl, hpkt⟩ := (bind_eq_ok _ _ _).mp hpkt
    simp only at hpkt
    split at hpkt
    · simp at hpkt
    obtain ⟨buf, -, hpkt⟩ := (bind_eq_ok _ _ _).mp hpkt
    cases hpkt
    obtain ⟨u, hu, rfl⟩ := Option.map_eq_some_iff.mp ht
    have hnone : (ndnFragPkt typ 0).content = none := by
      unfold ndnFragPkt
      split <;> rfl
    obtain ⟨h₁, h₂⟩ := packetLoop_content hl hnone u hu
    show u.len + 3 ≤ n
    omega

end Received

/-! ## The fragments -/

/-- `f` is the next fragment of the packet `p`: it was written inside the buffer, it has at most
`mtu` bytes, and a receiver finds in it the piece of `f.consumed` bytes, the number and the flags.
There may be anything behind the frame in the receive buffer. -/
structure FragmentOf (fr : Frag) (p : List UInt8) (f : NdnFrag) : Prop where
  inside : ∀ w ∈ f.log, w.1.toNat < f.size
  fits : f.buf.length ≤ fr.mtu
  consumed : 1 ≤ f.consumed
  received : ∃ after pkt c, ndntlvParseFrag (f.buf ++ after) ⟨0, f.buf.length⟩ = .ok (pkt, c) ∧
    pkt.type = ndnTlvNdnlp ∧
    (∃ t, pkt.content = some t ∧ t.bytes pkt.buf = (p.drop fr.sendoffs).take f.consumed) ∧
    pkt.val = fr.sendseq % 2 ^ 14 ∧
    (pkt.flags &&& pktFragBegin ≠ 0 ↔ fr.sendoffs = 0) ∧
    (pkt.flags &&& pktFragEnd ≠ 0 ↔ p.length ≤ fr.sendoffs + f.consumed)

/-- There is a piece of `p` to send, and the `mtu` has room for the shortest headers and a byte. -/
structure Frag.Ready (fr : Frag) (p : List UInt8) : Prop where
  bigpkt : fr.bigpkt = some p
  sendoffs : fr.sendoffs < p.length
  length : p.length < 2 ^ 63
  mtu : 9 ≤ fr.mtu
  mtu_lt : fr.mtu < 2 ^ 31

namespace OnPen

variable {fr : Frag} {p : List UInt8}

/-- The piece is what fits in behind two bytes. -/
theorem ndntlvMkFrag_eq (mem : UInt64 → UInt8) (h : fr.Ready p) :
    ∃ tmp data, ndntlvMkFrag mem fr = .ok (ndntlvFragBuf mem tmp (data.length + 2) data) ∧
      (p.drop fr.sendoffs).take data.length = data ∧ data.length < 2 ^ 31 := by
  obtain ⟨hbig, hoffs, hlen, hmtu, hlt⟩ := h
  obtain ⟨n, hn⟩ : ∃ n, n = min (fr.mtu.toNat - 2) (p.length - fr.sendoffs) := ⟨_, rfl⟩
  have hrest : sub64 p.length fr.sendoffs = p.length - fr.sendoffs := by
    unfold sub64 u64
    omega
  have hhdr : ndntlvFragHdrlen fr.mtu (p.length - fr.sendoffs) = 2 :=
    ndntlvFragHdrlen_eq (by omega) hlt (by omega)
  have hroom : sub64 (size64 fr.mtu) 2 = fr.mtu.toNat - 2 := by
    unfold sub64 u64 size64
    omega
  have hdata : rdBytes p fr.sendoffs n = .ok ((p.drop fr.sendoffs).take n) :=
    rdBytes_eq_ok.mpr ⟨.inr (by omega), rfl⟩
  have hdatalen : ((p.drop fr.sendoffs).take n).length = n := by
    rw [List.length_take, List.length_drop]
    omega
  have hsize : u64 (n + 2) = n + 2 := Nat.mod_eq_of_lt (by omega)
  refine ⟨(fr.sendseq &&& 0x3fff) ||| befragBits (ndntlvFragFlag p.length fr.sendoffs n) <<< 14,
    (p.drop fr.sendoffs).take n, ?_, by rw [hdatalen], by omega⟩
  rw [ndntlvMkFrag, hbig, deref_some, ok_bind, hrest]
  simp only [hhdr, hroom, ← hn, hdata, hsize, hdatalen]
  rfl

/-- No call makes a fragment: the headers of a short piece are written outside of the buffer, and
those of a long one are missing. -/
theorem ndntlvMkFrag_fails (mem : UInt64 → UInt8) (h : fr.Ready p) :
    ∃ f, ndntlvMkFrag mem fr = .ok f ∧ ¬ FragmentOf fr p f := by
  obtain ⟨tmp, data, hrun, htake, hlt⟩ := ndntlvMkFrag_eq mem h
  refine ⟨_, hrun, fun hfrag => ?_⟩
  by_cases hshort : data.length < 253
  · obtain ⟨w, hw, hout⟩ := @ndntlvMkFrag_short mem tmp data hshort
    exact Nat.not_lt.mpr hout (hfrag.inside w hw)
  · rw [ndntlvMkFrag_long (Nat.not_lt.mp hshort) hlt] at hfrag
    obtain ⟨after, pkt, c, hparse, -, ⟨t, ht, hbytes⟩, -⟩ := hfrag.received
    have hroom := parseFrag_content hparse ht
    rw [List.length_append, length_beBytes] at hroom
    have hlen := congrArg List.length (hbytes.trans htake)
    rw [Span.bytes, List.length_take] at hlen
    omega

/-- Whatever is left to be sent, and whatever the `mtu` is, the call makes no fragment. -/
theorem no_fragment_made {fr : Frag} {p : List UInt8} (h : fr.Ready p) (mem : UInt64 → UInt8) :
    ∃ f, ndntlvMkFrag mem fr = .ok f ∧ ¬ FragmentOf fr p f := ndntlvMkFrag_fails mem h

/-- An Interest that fits into one fragment. -/
def wholeFrag : Frag where
  protocol := .beginEnd2015
  mtu := 1500
  bigpkt := some [0x05, 0x05, 0x07, 0x03, 0x08, 0x01, 0x61]
  outsuite := some .ndntlv

theorem wholeFrag_ready : wholeFrag.Ready [0x05, 0x05, 0x07, 0x03, 0x08, 0x01, 0x61] := by
  constructor <;> decide

theorem no_fragment_made_whole : ∃ f, ndntlvMkFrag (fun _ => 0) wholeFrag = .ok f ∧
    ¬ FragmentOf wholeFrag [0x05, 0x05, 0x07, 0x03, 0x08, 0x01, 0x61] f :=
  no_fragment_made wholeFrag_ready fun _ => 0

theorem fragment_outside_buffer : ¬ ∀ (fr : Frag) (p : List UInt8) (mem : UInt64 → UInt8) (f : NdnFrag),
    fr.Ready p → ndntlvMkFrag mem fr = .ok f → FragmentOf fr p f := by
  intro h
  obtain ⟨f, hrun, hnot⟩ := ndntlvMkFrag_fails (fun _ => 0) wholeFrag_ready
  exact hnot (h _ _ _ f wholeFrag_ready hrun)

end OnPen

end Ccnl
