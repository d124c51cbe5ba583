import Mathlib.Data.List.Forall2
import CcnLite.Pkt.Reencode
import CcnLite.Rpc.Builtin
import CcnLite.Rpc.Unsent

/-!
# The answers to RPC requests (`ccnl-localrpc.c`)

What a client gets for its requests, in a world where the variables that are not set hold 0
(`RpcWorld.Calm`). Every function that can be called ends in one `ccnl_emit_RpcReturn` (`Replies`).

* `request_returns`: when the relay comes back from a request.
* `frame_answered`: the answers to the requests of a frame.
-/

namespace Ccnl

open CRun

/-! ## A reply to a request -/

/-- The variables that are not set hold 0, a node is not at the start or the end of the address
space, and the two texts are short. -/
structure RpcWorld.Calm (W : RpcWorld) : Prop where
  stack : ∀ req i, W.stack req i = 0
  junk : ∀ req, W.junk req = 0
  addr : ∀ t, 4096 ≤ W.addr t ∧ W.addr t < 2 ^ 63
  compileString : W.compileString.length < 2 ^ 15
  ctime : ∀ req, (W.ctime req).length < 2 ^ 15

/-- The memory with the texts of a reply behind the frame. -/
def replyMem (mem reason : List UInt8) (val : Option (List UInt8)) : List UInt8 :=
  mem ++ reason ++ val.getD []

/-- Where the reason is. -/
def replyReason (mem reason : List UInt8) : Span := ⟨mem.length, reason.length⟩

/-- The content of a reply. -/
def replyText (mem reason : List UInt8) (val : Option (List UInt8)) : Option Rdr :=
  val.map fun v => mkStr ⟨mem.length + reason.length, v.length⟩

/-- The codes of the replies. -/
def replyCodes : List Int32 := [200, 403, 404, 415, 501]

section Reply

variable {W : RpcWorld} {mem reason : List UInt8} {val : Option (List UInt8)} {f : FaceId}
  {req t : Rdr} {rc : Int32} {s : RpcState} {nonce : Span} {x : Face}

theorem inBuf_reason : InBuf (replyMem mem reason val) (replyReason mem reason).off
    (replyReason mem reason).len := by
  refine .inr ?_
  simp only [replyMem, replyReason, List.length_append]
  omega

theorem fresh_text : ∀ c ∈ replyText mem reason val, c.Fresh (replyMem mem reason val) := by
  intro c hc
  obtain ⟨v, rfl, rfl⟩ := Option.map_eq_some_iff.mp hc
  refine ⟨plain_blob (by decide) (.inr ?_), rfl, rfl⟩
  simp only [replyMem, Option.getD_some, List.length_append]
  omega

theorem length_ndnTLV_lt {ty : RdrType} {v : List UInt8} (h : v.length < 253) :
    (ndnTLV ty.code.toNat v).length = 2 + v.length := by
  have hcode : lrpcFieldlen ty.code.toNat = 1 := if_pos (code_lt ty)
  have hlen : lrpcFieldlen v.length = 1 := if_pos h
  rw [ndnTLV, ndnTL, List.length_append, List.length_append, length_tlval, length_tlval, hcode,
    hlen]

theorem length_rc (h : rc ∈ replyCodes) :
    ((mkNonNegInt rc.toInt64.toUInt64.toNat).enc mem).length ≤ 4 := by
  have henc : (mkNonNegInt rc.toInt64.toUInt64.toNat).enc mem =
      (mkNonNegInt rc.toInt64.toUInt64.toNat).enc [] := rfl
  rw [henc]
  simp only [replyCodes, List.mem_cons, List.not_mem_nil, or_false] at h
  rcases h with rfl | rfl | rfl | rfl | rfl
  · decide
  · decide
  · decide
  · decide
  · decide

/-- The bytes of a reply, one element after the other. -/
theorem length_returnBytes (hreason : reason.length < 253) (hrc : rc ∈ replyCodes) :
    (returnBytes (replyMem mem reason val) nonce rc (replyReason mem reason)
        (replyText mem reason val)).length ≤
      (ndnTLV RdrType.nonce.code.toNat (nonce.bytes (replyMem mem reason val))).length + 6 +
        reason.length +
        (contentBytes (replyMem mem reason val) (replyText mem reason val)).length := by
  have hnonce : (mkNonce nonce).enc (replyMem mem reason val) =
      ndnTLV RdrType.nonce.code.toNat (nonce.bytes (replyMem mem reason val)) := by
    simp [mkNonce, Rdr.enc, RdrFields.value, RdrType.IsBlob]
  have hstr : (mkStr (replyReason mem reason)).enc (replyMem mem reason val) =
      ndnTLV RdrType.str.code.toNat ((replyReason mem reason).bytes (replyMem mem reason val)) := by
    simp [mkStr, Rdr.enc, RdrFields.value, RdrType.IsBlob]
  have hlen : ((replyReason mem reason).bytes (replyMem mem reason val)).length = reason.length :=
    length_span inBuf_reason
  have hcode := @length_rc (replyMem mem reason val) rc hrc
  have htlv := @length_ndnTLV_lt .str ((replyReason mem reason).bytes (replyMem mem reason val))
    (by omega)
  rw [returnBytes, hnonce, hstr, List.length_append, List.length_append, List.length_append, htlv,
    hlen]
  omega

/-- The content has at most 9 bytes more than its text. -/
theorem length_contentBytes (hval : ∀ v ∈ val, v.length < 2 ^ 15) :
    (contentBytes (replyMem mem reason val) (replyText mem reason val)).length < 2 ^ 15 + 20 := by
  cases val with
  | none => simp [contentBytes, replyText]
  | some v =>
    have hv := hval v rfl
    have hin : InBuf (replyMem mem reason (some v)) (mem.length + reason.length) v.length := by
      refine .inr ?_
      simp only [replyMem, Option.getD_some, List.length_append]
      omega
    have hlen : ((⟨mem.length + reason.length, v.length⟩ : Span).bytes
        (replyMem mem reason (some v))).length = v.length := length_span hin
    have henc : contentBytes (replyMem mem reason (some v)) (replyText mem reason (some v)) =
        ndnTLV RdrType.str.code.toNat ((⟨mem.length + reason.length, v.length⟩ : Span).bytes
          (replyMem mem reason (some v))) := by
      simp [contentBytes, replyText, mkStr, Rdr.enc, RdrFields.value, RdrType.IsBlob]
    have h₁ := length_ndnTLval RdrType.str.code.toNat
    have h₂ := length_ndnTLval v.length
    rw [henc, ndnTLV, ndnTL, List.length_append, List.length_append, hlen]
    omega

/-- A reply with a short nonce fits. -/
theorem fits_short (hn : InBuf (replyMem mem reason val) nonce.off nonce.len)
    (hlen : nonce.len ≤ 36) (hreason : reason.length < 253) (hrc : rc ∈ replyCodes)
    (hval : ∀ v ∈ val, v.length < 2 ^ 15) :
    Fits (replyMem mem reason val) nonce rc (replyReason mem reason)
      (replyText mem reason val) := by
  have hsize := @length_returnBytes mem reason val rc nonce hreason hrc
  have htext := @length_contentBytes mem reason val hval
  have hspan := length_span hn
  have htlv := @length_ndnTLV_lt .nonce (nonce.bytes (replyMem mem reason val)) (by omega)
  refine ⟨?_, by omega⟩
  have hcode : (ndnTLval RdrType.reply.code.toNat).length = 1 := rfl
  have hnum : (ndnTLval (returnBytes (replyMem mem reason val) nonce rc (replyReason mem reason)
      (replyText mem reason val)).length).length ≤ 3 := by
    rw [length_tlval, lrpcFieldlen]
    split
    · omega
    · rw [if_pos (by omega)]
  have hrlen : (replyReason mem reason).len = reason.length := rfl
  rw [ndnTLV, ndnTL, List.length_append, List.length_append, hcode, hrlen]
  omega

/-! What becomes of a reply, by what `ccnl_emit_RpcReturn` makes of it. -/

theorem rpcReturn_of_some {pkt : List UInt8}
    (h : emitRpcReturn (W.stack req) (W.junk req) (replyMem mem reason val) (W.raw req)
      (t.asBin W.addr (replyMem mem reason val).length) rc (replyReason mem reason)
      (replyText mem reason val) = .ok (some pkt)) (hx : s.relay.face f = .ok x) :
    rpcReturn W mem f req t rc reason val s =
      .ok ⟨{ s.relay with out := s.relay.out ++ [.send f pkt] }, s.ops ++ [.enqueue pkt]⟩ := by
  unfold replyMem replyReason replyText at h
  simp only [rpcReturn, h, faceEnqueue, hx]
  rfl

theorem rpcReturn_of_none
    (h : emitRpcReturn (W.stack req) (W.junk req) (replyMem mem reason val) (W.raw req)
      (t.asBin W.addr (replyMem mem reason val).length) rc (replyReason mem reason)
      (replyText mem reason val) = .ok none) :
    rpcReturn W mem f req t rc reason val s = .ok s := by
  unfold replyMem replyReason replyText at h
  simp only [rpcReturn, h]
  rfl

theorem rpcReturn_of_error {e : Stop}
    (h : emitRpcReturn (W.stack req) (W.junk req) (replyMem mem reason val) (W.raw req)
      (t.asBin W.addr (replyMem mem reason val).length) rc (replyReason mem reason)
      (replyText mem reason val) = .error e) :
    rpcReturn W mem f req t rc reason val s = .error e := by
  unfold replyMem replyReason replyText at h
  simp only [rpcReturn, h]
  rfl

/-- A request is answered where its nonce can be read, and the answer is sent when the nonce is
short. -/
theorem rpcReturn_sends (hW : W.Calm) (hx : s.relay.face f = .ok x) (hmem : mem.length < 2 ^ 31)
    (hnonce : t.asBin W.addr (replyMem mem reason val).length = nonce)
    (hn : InBuf (replyMem mem reason val) nonce.off nonce.len)
    (hreason : reason.length < 253) (hrc : rc ∈ replyCodes)
    (hval : ∀ v ∈ val, v.length < 2 ^ 15) :
    ∃ s', rpcReturn W mem f req t rc reason val s = .ok s' ∧
      (nonce.len ≤ 36 → ∃ bytes, s'.relay.out = s.relay.out ++ [.send f bytes] ∧
        emitRpcReturn (W.stack req) (W.junk req) (replyMem mem reason val) (W.raw req) nonce rc
          (replyReason mem reason) (replyText mem reason val) = .ok (some bytes) ∧
        Delivered (W.stack req) (W.junk req) (replyMem mem reason val) (W.raw req) nonce rc
          (replyReason mem reason) (replyText mem reason val)) := by
  have hstack : ∀ i, W.stack req i = 0 := hW.stack req
  rw [hW.junk req]
  by_cases hfits : Fits (replyMem mem reason val) nonce rc (replyReason mem reason)
      (replyText mem reason val)
  · have hdel := @Fits.delivered (W.stack req) _ (W.raw req) _ _ _ _ hn inBuf_reason fresh_text
      hstack hfits
    obtain ⟨bytes, c, r, t', hemit, hrest⟩ := hdel
    have hsent : rpcReturn W mem f req t rc reason val s = .ok
        ⟨{ s.relay with out := s.relay.out ++ [.send f bytes] }, s.ops ++ [.enqueue bytes]⟩ :=
      rpcReturn_of_some (by rw [hnonce, hW.junk req, hemit]) hx
    exact ⟨_, hsent, fun _ => ⟨bytes, rfl, hemit, bytes, c, r, t', hemit, hrest⟩⟩
  · have hspan := length_span hn
    have hsize := @length_returnBytes mem reason val rc nonce hreason hrc
    have htext := @length_contentBytes mem reason val hval
    have hnlen : nonce.len < 2 ^ 31 + 2 ^ 16 := by
      have htotal : (replyMem mem reason val).length < 2 ^ 31 + 2 ^ 16 := by
        cases val with
        | none => simp only [replyMem, Option.getD_none, List.length_append, List.length_nil]; omega
        | some v =>
          have hv := hval v rfl
          simp only [replyMem, Option.getD_some, List.length_append]
          omega
      rcases hn with hn | hn <;> omega
    have htlv : (ndnTLV RdrType.nonce.code.toNat
        (nonce.bytes (replyMem mem reason val))).length ≤ 18 + nonce.len := by
      have h₁ := length_ndnTLval RdrType.nonce.code.toNat
      have h₂ := length_ndnTLval (nonce.bytes (replyMem mem reason val)).length
      rw [ndnTLV, ndnTL, List.length_append, List.length_append]
      omega
    have hnone := @emitRpcReturn_none (W.stack req) _ (W.raw req) _ _ _ _ hn inBuf_reason
      fresh_text (by omega) hfits
    have hkept : rpcReturn W mem f req t rc reason val s = .ok s :=
      rpcReturn_of_none (by rw [hnonce, hW.junk req, hnone])
    refine ⟨s, hkept, fun hlen => absurd ?_ hfits⟩
    exact fits_short hn hlen hreason hrc hval

end Reply

/-! ## The parts of a request -/

/-- What a term with a number holds. -/
def Rdr.number : Rdr → Nat
  | .null => 0
  | .node d _ _ _ => d.val

/-- A decoded term, with its bytes in the memory. -/
def Placed (mem : List UInt8) (t : Rdr) : Prop := ∃ lo hi, Tiles mem t lo hi ∧ hi ≤ mem.length

section Placed

variable {mem : List UInt8} {t : Rdr}

theorem Placed.decoded (h : Placed mem t) : Decoded mem t := by
  obtain ⟨lo, hi, htiles, -⟩ := h
  exact ⟨lo, hi, htiles⟩

theorem placed_null : Placed mem .null := ⟨0, 0, rfl, Nat.zero_le _⟩

theorem Placed.next (h : Placed mem t) : Placed mem t.nextinseq := by
  cases t with
  | null => exact placed_null
  | node d u aux next =>
    obtain ⟨lo, hi, ⟨typ, vallen, q, -, -, hnext⟩, hle⟩ := h
    exact ⟨_, _, hnext, hle⟩

theorem Placed.below (h : Placed mem t) : Placed mem t.first ∧ Placed mem t.parts := by
  cases t with
  | null => exact ⟨placed_null, placed_null⟩
  | node d u aux next =>
    obtain ⟨lo, hi, ⟨typ, vallen, q, ⟨-, hhead, -, hlen⟩, hvalue, hnext⟩, hle⟩ := h
    have hq := hhead.lt
    have hend := hnext.le
    split at hvalue
    · obtain ⟨-, -, mid, hu, haux⟩ := hvalue
      have hmid := haux.le
      exact ⟨⟨_, _, hu, by omega⟩, _, _, haux, by omega⟩
    · obtain ⟨rfl, rfl, -⟩ := hvalue
      exact ⟨placed_null, placed_null⟩

/-- The bytes of a leaf. -/
theorem Placed.data (h : Placed mem t) (hblob : t.type.IsBlob) :
    InBuf mem t.data.off t.data.len := by
  cases t with
  | null => exact absurd hblob (by decide)
  | node d u aux next =>
    obtain ⟨lo, hi, htiles, hle⟩ := h
    have hleaf : d.data ∈ (Rdr.node d u aux next).leaves :=
      by
      have hblob' : d.type.IsBlob := hblob
      rw [Rdr.leaves, if_pos hblob']
      exact List.mem_append_left _ (List.mem_singleton_self _)
    obtain ⟨-, hlast⟩ := htiles.leaves_within _ hleaf
    exact .inr (Nat.le_trans hlast hle)

/-- A number is below `2 ^ 64`. -/
theorem Placed.number_lt (h : Placed mem t) (htype : t.type = .nonnegint) : t.number < 2 ^ 64 := by
  cases t with
  | null => cases htype
  | node d u aux next =>
    obtain ⟨lo, hi, ⟨typ, vallen, q, -, hvalue, -⟩, -⟩ := h
    have htype' : d.type = .nonnegint := htype
    rw [if_neg (by rw [htype']; decide)] at hvalue
    obtain ⟨-, -, -, hval⟩ := hvalue
    rw [Rdr.number, hval htype']
    exact nonNeg_lt _

end Placed

/-! ## One reply for each request -/

/-- The call is one reply, from a state with the same client where nothing more was sent. -/
def Replies (W : RpcWorld) (mem : List UInt8) (f : FaceId) (req nonce : Rdr) (s : RpcState)
    (x : Run RpcState) : Prop :=
  ∃ s₁ rc reason val, x = rpcReturn W mem f req nonce rc reason val s₁ ∧
    s₁.relay.face f = s.relay.face f ∧ s₁.relay.out = s.relay.out ∧
    reason.length < 253 ∧ rc ∈ replyCodes ∧ ∀ v ∈ val, v.length < 2 ^ 15

section Replies

variable {W : RpcWorld} {mem : List UInt8} {f : FaceId} {req nonce param : Rdr} {s : RpcState}
  {x : Face}

theorem replies_none {rc : Int32} {reason : List UInt8} (hreason : reason.length < 253)
    (hrc : rc ∈ replyCodes) :
    Replies W mem f req nonce s (rpcReturn W mem f req nonce rc reason none s) :=
  ⟨s, rc, reason, none, rfl, rfl, rfl, hreason, hrc, nofun⟩

theorem rpcString_ok (hp : Placed mem param) (htype : param.type = .flatname) :
    ∃ v, rpcString mem param = .ok v := by
  have hread := rdBytes_eq_ok.mpr ⟨hp.data (by rw [htype]; decide), rfl⟩
  exact ⟨_, by rw [rpcString, hread]; rfl⟩

theorem rpcSyslog_replies (hp : Placed mem param) :
    Replies W mem f req nonce s (rpcSyslog W mem f req nonce param s) := by
  obtain ⟨r, hget, hcode⟩ := hp.decoded.answer
  have hstr := hcode .str (by decide)
  rw [rpcSyslog, hget, ok_bind]
  dsimp only
  by_cases htype : param.type = .str
  · have hread := rdBytes_eq_ok.mpr ⟨hp.data (by rw [htype]; decide), rfl⟩
    rw [if_pos (hstr.mpr htype), hread, ok_bind]
    exact replies_none (by decide) (by decide)
  · rw [if_neg (mt hstr.mp htype)]
    exact replies_none (by decide) (by decide)

theorem allBin_ok (hp : Placed mem param) : ∃ b, allBin mem param = .ok b := by
  induction param with
  | null => exact ⟨true, rfl⟩
  | node d u aux next _ _ ih =>
    obtain ⟨r, hget, -⟩ := hp.decoded.answer
    obtain ⟨b, hb⟩ := ih hp.next
    rw [allBin, hget, ok_bind]
    dsimp only
    split
    · exact ⟨false, rfl⟩
    · exact ⟨b, hb⟩

theorem rpcCacheAdd_replies (hx : s.relay.face f = .ok x) (hp : Placed mem param) :
    Replies W mem f req nonce s (rpcCacheAdd W mem f req nonce param s) := by
  obtain ⟨b, hb⟩ := allBin_ok hp
  rw [rpcCacheAdd, hx, ok_bind]
  split
  · exact replies_none (by decide) (by decide)
  · rw [hb, ok_bind]
    split
    · exact replies_none (by decide) (by decide)
    · exact replies_none (by decide) (by decide)

theorem rpcForward_replies (hp : Placed mem param) :
    Replies W mem f req nonce s (rpcForward W mem f req nonce param s) := by
  obtain ⟨r, hget, hcode⟩ := hp.decoded.answer
  have hflat := hcode .flatname (by decide)
  rw [rpcForward, hget, ok_bind]
  dsimp only
  by_cases htype : param.type = .flatname
  · obtain ⟨v, hv⟩ := rpcString_ok hp htype
    rw [if_neg (not_not.mpr (hflat.mpr htype)), hv, ok_bind]
    exact replies_none (by decide) (by decide)
  · rw [if_pos (mt hflat.mp htype)]
    exact replies_none (by decide) (by decide)

theorem rpcLookup_replies (hW : W.Calm) (hp : Placed mem param) :
    Replies W mem f req nonce s (rpcLookup W mem f req nonce param s) := by
  obtain ⟨r, hget, hcode⟩ := hp.decoded.answer
  have hflat := hcode .flatname (by decide)
  rw [rpcLookup, hget, ok_bind]
  dsimp only
  by_cases htype : param.type = .flatname
  · obtain ⟨v, hv⟩ := rpcString_ok hp htype
    rw [if_pos (hflat.mpr htype), hv, ok_bind]
    by_cases hcompile : v = asciiBytes "/rpc/config/compileString"
    · rw [if_pos hcompile]
      refine ⟨s, _, _, _, rfl, rfl, rfl, by decide, by decide, ?_⟩
      intro v hv
      cases hv
      exact hW.compileString
    · rw [if_neg hcompile]
      by_cases htime : v = asciiBytes "/rpc/config/localTime"
      · rw [if_pos htime]
        refine ⟨s, _, _, _, rfl, rfl, rfl, by decide, by decide, ?_⟩
        intro v hv
        cases hv
        have hctime := hW.ctime req
        rw [List.length_dropLast]
        omega
      · rw [if_neg htime]
        exact replies_none (by decide) (by decide)
  · rw [if_neg (mt hflat.mp htype)]
    exact replies_none (by decide) (by decide)

/-- Contents with names can be compared. -/
theorem removeNamed_ok {p : Prefix} {cs : List Content} {k cnt : Nat}
    (hnamed : ∀ c ∈ cs, c.pkt.pfx.isSome) : ∃ y, removeNamed p k cs (s, cnt) = .ok y := by
  induction cs generalizing k s cnt with
  | nil => exact ⟨_, rfl⟩
  | cons c cs ih =>
    obtain ⟨q, hq⟩ := Option.isSome_iff_exists.mp (hnamed c List.mem_cons_self)
    have hcs : ∀ c ∈ cs, c.pkt.pfx.isSome := fun c hc => hnamed c (List.mem_cons_of_mem _ hc)
    rw [removeNamed, deref_eq_ok.mpr hq, ok_bind]
    split
    · exact ih hcs
    · exact ih hcs

/-- The text after the loop of `rpc_cacheRemove`. -/
theorem length_removed {cnt : Nat} (h : cnt < 2 ^ 31) :
    (asciiBytes s!"rpc_cacheRemove: removed {cnt} entries\n").length < 253 := by
  have hdigits : (Nat.toDigits 10 cnt).length ≤ 10 :=
    (Nat.length_toDigits_le_iff (by decide) (by decide)).mpr (by omega)
  simp [asciiBytes, toString]
  omega

theorem cacheRemoveFrom_replies {cnt : Nat} (hp : Placed mem param)
    (hnamed : ∀ c ∈ s.relay.contents, c.pkt.pfx.isSome)
    (hfew : cnt + s.relay.contents.length < 2 ^ 31) :
    Replies W mem f req nonce s (cacheRemoveFrom W mem f req nonce param (s, cnt)) := by
  induction param generalizing s cnt with
  | null => exact replies_none (length_removed (by omega)) (by decide)
  | node d u aux next _ _ ih =>
    obtain ⟨r, hget, hcode⟩ := hp.decoded.answer
    have hflat := hcode .flatname (by decide)
    rw [cacheRemoveFrom, hget, ok_bind]
    dsimp only
    by_cases htype : d.type = .flatname
    · obtain ⟨v, hv⟩ := rpcString_ok hp htype
      rw [if_neg (not_not.mpr (hflat.mpr htype)), hv, ok_bind]
      obtain ⟨⟨s₁, cnt₁⟩, hremove⟩ := @removeNamed_ok s (rpcName v) s.relay.contents 0 cnt hnamed
      rw [hremove, ok_bind]
      obtain ⟨hrelay, -, hcnt⟩ :=
        @removeNamed_does f s s₁ (rpcName v) [] s.relay.contents cnt cnt₁ rfl hremove
      have hcontents : s₁.relay.contents =
          s.relay.contents.filter fun c => !c.isNamed (rpcName v) := by rw [hrelay]; rfl
      have hsplit := List.length_eq_countP_add_countP
        (fun c : Content => c.isNamed (rpcName v)) (l := s.relay.contents)
      obtain ⟨s₂, rc, reason, val, hreply, hface, hout, hrest⟩ := @ih s₁ cnt₁ hp.next
        (fun c hc => hnamed c (List.mem_of_mem_filter (hcontents ▸ hc)))
        (by rw [hcontents, ← List.countP_eq_length_filter, hcnt]; simp at hsplit ⊢; omega)
      refine ⟨s₂, rc, reason, val, hreply, ?_, ?_, hrest⟩
      · rw [hface, hrelay]
        rfl
      · rw [hout, hrelay]
    · rw [if_pos (mt hflat.mp htype)]
      exact replies_none (by decide) (by decide)

theorem rpcCacheRemove_replies (hx : s.relay.face f = .ok x) (hp : Placed mem param)
    (hnamed : ∀ c ∈ s.relay.contents, c.pkt.pfx.isSome)
    (hfew : s.relay.contents.length < 2 ^ 31) :
    Replies W mem f req nonce s (rpcCacheRemove W mem f req nonce param s) := by
  rw [rpcCacheRemove, hx, ok_bind]
  split
  · exact replies_none (by decide) (by decide)
  · exact cacheRemoveFrom_replies hp hnamed (by omega)

theorem Builtin.fct_replies (y : Builtin) (hW : W.Calm) (hx : s.relay.face f = .ok x)
    (hp : Placed mem param) (hnamed : ∀ c ∈ s.relay.contents, c.pkt.pfx.isSome)
    (hfew : s.relay.contents.length < 2 ^ 31) :
    Replies W mem f req nonce s (y.fct W mem f req nonce param s) := by
  cases y with
  | cacheAdd => exact rpcCacheAdd_replies hx hp
  | cacheRemove => exact rpcCacheRemove_replies hx hp hnamed hfew
  | forward => exact rpcForward_replies hp
  | lookup => exact rpcLookup_replies hW hp
  | syslog => exact rpcSyslog_replies hp

theorem findBuiltin_ok {var : Span} {xs : List Builtin} (hin : InBuf mem var.off var.len) :
    ∃ b, findBuiltin mem var xs = .ok b := by
  have hread := rdBytes_eq_ok.mpr ⟨hin, rfl⟩
  induction xs with
  | nil => exact ⟨none, rfl⟩
  | cons y ys ih =>
    obtain ⟨b, hb⟩ := ih
    rw [findBuiltin]
    by_cases hlen : y.name.length = var.len
    · rw [if_pos hlen, hread, ok_bind]
      split
      · exact ⟨some y, rfl⟩
      · exact ⟨b, hb⟩
    · exact ⟨b, by rw [if_neg hlen, hb]⟩

/-- A request that has a nonce is one reply. -/
theorem request_replies (hW : W.Calm) (hx : s.relay.face f = .ok x) (hp : Placed mem req)
    (hnamed : ∀ c ∈ s.relay.contents, c.pkt.pfx.isSome)
    (hfew : s.relay.contents.length < 2 ^ 31) (hnonce : req.parts.type = .nonce) :
    ∃ y rc, localrpcHandleRequest W mem f req s = (·, rc) <$> y ∧
      Replies W mem f req req.parts s y := by
  have hne : req.parts ≠ .null := by
    intro hnull
    rw [hnull] at hnonce
    cases hnonce
  rw [localrpcHandleRequest_eq hp.decoded hne]
  by_cases hbad : req.parts.type ≠ .nonce ∨ req.parts.nextinseq.type ≠ .application
  · rw [if_pos hbad]
    exact ⟨_, _, rfl, replies_none (by decide) (by decide)⟩
  rw [if_neg hbad]
  by_cases hname : req.parts.nextinseq.first.type ≠ .flatname
  · rw [if_pos hname]
    exact ⟨_, _, rfl, replies_none (by decide) (by decide)⟩
  rw [if_neg hname]
  have hfct := hp.below.2.next.below
  obtain ⟨b, hb⟩ := @findBuiltin_ok mem req.parts.nextinseq.first.data builtin
    (hfct.1.data (by rw [not_not.mp hname]; decide))
  rw [hb, ok_bind]
  cases b with
  | none => exact ⟨_, _, rfl, replies_none (by decide) (by decide)⟩
  | some y => exact ⟨_, _, rfl, y.fct_replies hW hx hfct.2 hnamed hfew⟩

end Replies

/-! ## Requests -/

/-- The first part of the request is a number: it is taken for the length of a nonce at a null
pointer, and the reply with so many bytes is small, for the biggest numbers since its size wraps
around. -/
def Rdr.NullNonce (req : Rdr) : Prop :=
  req.parts.type = .nonnegint ∧
    (0 < req.parts.number ∧ req.parts.number ≤ 38 ∨ 2 ^ 64 - 47 ≤ req.parts.number)

instance (req : Rdr) : Decidable req.NullNonce := inferInstanceAs (Decidable (_ ∧ _))

/-- The buffer is a reply to the request: it has the nonce of the request in it, and is decoded as
it was meant. -/
def IsReply (W : RpcWorld) (mem : List UInt8) (req : Rdr) (bytes : List UInt8) : Prop :=
  ∃ code reason val,
    emitRpcReturn (W.stack req) (W.junk req) (replyMem mem reason val) (W.raw req) req.parts.data
      code (replyReason mem reason) (replyText mem reason val) = .ok (some bytes) ∧
    Delivered (W.stack req) (W.junk req) (replyMem mem reason val) (W.raw req) req.parts.data code
      (replyReason mem reason) (replyText mem reason val)

section Requests

variable {W : RpcWorld} {mem reason : List UInt8} {val : Option (List UInt8)} {f : FaceId}
  {req t : Rdr} {s : RpcState} {x : Face} {rc : Int32}

theorem inBuf_replyMem {i n : Nat} (h : InBuf mem i n) : InBuf (replyMem mem reason val) i n := by
  rcases h with h | h
  · exact .inl h
  · refine .inr ?_
    simp only [Ccnl.replyMem, List.length_append]
    omega

/-- The reply to a malformed request reads a null pointer when there is one to read. -/
theorem rpcReturn_null {v : Nat} (hW : W.Calm) (hreason : reason.length = 21) (hpos : 0 < v)
    (hbin : t.asBin W.addr (replyMem mem reason none).length =
      ⟨(replyMem mem reason none).length, v⟩) :
    rpcReturn W mem f req t 404 reason none s =
      if nullReplyLen v ≤ 69 then .error (.oob (replyMem mem reason none).length) else .ok s := by
  have hemit : emitRpcReturn (W.stack req) (W.junk req) (replyMem mem reason none) (W.raw req)
      (t.asBin W.addr (replyMem mem reason none).length) 404 (replyReason mem reason) none =
      if nullReplyLen v ≤ 69 then .error (.oob (replyMem mem reason none).length)
      else .ok none := by
    rw [hbin, hW.junk req]
    exact emitRpcReturn_null hreason hpos
  by_cases hfits : nullReplyLen v ≤ 69
  · rw [if_pos hfits] at hemit ⊢
    exact rpcReturn_of_error hemit
  · rw [if_neg hfits] at hemit ⊢
    exact rpcReturn_of_none hemit

/-- A malformed request comes back unless the null pointer is read. -/
theorem malformed_ok (hW : W.Calm) (hx : s.relay.face f = .ok x) (hmem : mem.length < 2 ^ 31)
    (hp : Placed mem t) (hreason : reason.length = 21) :
    (∃ s', rpcReturn W mem f req t 404 reason none s = .ok s') ↔
      ¬ (t.type = .nonnegint ∧ (0 < t.number ∧ t.number ≤ 38 ∨ 2 ^ 64 - 47 ≤ t.number)) := by
  have hsends : ∀ nonce, t.asBin W.addr (replyMem mem reason none).length = nonce →
      InBuf (replyMem mem reason none) nonce.off nonce.len →
      ∃ s', rpcReturn W mem f req t 404 reason none s = .ok s' := by
    intro nonce hnonce hn
    obtain ⟨s', hs', -⟩ := @rpcReturn_sends W mem reason none f req t 404 s nonce x hW hx hmem
      hnonce hn (by omega) (by decide) nofun
    exact ⟨s', hs'⟩
  cases t with
  | null => exact iff_of_true (hsends _ rfl (.inl rfl)) fun h => nomatch h.1
  | node d u aux next =>
    by_cases hblob : d.type.IsBlob
    · have hbin : (Rdr.node d u aux next).asBin W.addr (replyMem mem reason none).length =
          d.data := if_pos hblob
      refine iff_of_true (hsends _ hbin (inBuf_replyMem (hp.data hblob))) fun h => ?_
      have htype : d.type = .nonnegint := h.1
      rw [htype] at hblob
      exact absurd hblob (by decide)
    by_cases hint : d.type = .nonnegint
    · have hbin : (Rdr.node d u aux next).asBin W.addr (replyMem mem reason none).length =
          ⟨(replyMem mem reason none).length, d.val⟩ := by
        rw [Rdr.asBin, if_neg hblob, if_pos hint]
      have hlt : d.val < 2 ^ 64 := hp.number_lt hint
      by_cases hzero : d.val = 0
      · refine iff_of_true (hsends _ hbin (.inl hzero)) fun h => ?_
        have hnum : 0 < d.val ∧ d.val ≤ 38 ∨ 2 ^ 64 - 47 ≤ d.val := h.2
        omega
      · rw [rpcReturn_null hW hreason (Nat.pos_of_ne_zero hzero) hbin]
        have hsmall := nullReplyLen_le hlt
        show (∃ s', _ = Except.ok s') ↔
          ¬ (d.type = .nonnegint ∧ (0 < d.val ∧ d.val ≤ 38 ∨ 2 ^ 64 - 47 ≤ d.val))
        by_cases hfits : nullReplyLen d.val ≤ 69
        · rw [if_pos hfits]
          have hnum := hsmall.mp hfits
          exact iff_of_false (fun ⟨_, h⟩ => nomatch h) fun h => h ⟨hint, by omega⟩
        · rw [if_neg hfits]
          have hnum := mt hsmall.mpr hfits
          exact iff_of_true ⟨s, rfl⟩ fun h => hnum (by omega)
    have hnot : ¬ ((Rdr.node d u aux next).type = .nonnegint ∧
        (0 < (Rdr.node d u aux next).number ∧ (Rdr.node d u aux next).number ≤ 38 ∨
          2 ^ 64 - 47 ≤ (Rdr.node d u aux next).number)) := fun h => hint h.1
    by_cases hfirst : d.type.HasFirst
    · have hbin : (Rdr.node d u aux next).asBin W.addr (replyMem mem reason none).length =
          ⟨(replyMem mem reason none).length, W.addr u⟩ := by
        rw [Rdr.asBin, if_neg hblob, if_neg hint, if_pos hfirst]
      have haddr := hW.addr u
      rw [rpcReturn_null hW hreason (by omega) hbin,
        if_neg (mt (nullReplyLen_le (by omega)).mp (by omega))]
      exact iff_of_true ⟨s, rfl⟩ hnot
    · have hbin : (Rdr.node d u aux next).asBin W.addr (replyMem mem reason none).length =
          ⟨(replyMem mem reason none).length, 0⟩ := by
        rw [Rdr.asBin, if_neg hblob, if_neg hint, if_neg hfirst]
      exact iff_of_true (hsends _ hbin (.inl rfl)) hnot

/-- A request with a nonce gets a reply when the nonce is short. -/
theorem request_sends (hW : W.Calm) (hx : s.relay.face f = .ok x) (hmem : mem.length < 2 ^ 31)
    (hp : Placed mem req) (hnamed : ∀ c ∈ s.relay.contents, c.pkt.pfx.isSome)
    (hfew : s.relay.contents.length < 2 ^ 31) (hnonce : req.parts.type = .nonce) :
    ∃ s' rc, localrpcHandleRequest W mem f req s = .ok (s', rc) ∧
      (req.parts.data.len ≤ 36 → ∃ bytes, IsReply W mem req bytes ∧
        s'.relay.out = s.relay.out ++ [.send f bytes]) := by
  obtain ⟨y, rc, hreq, s₁, code, reason, val, hy, hface, hout, hreason, hcode, hval⟩ :=
    @request_replies W mem f req s x hW hx hp hnamed hfew hnonce
  have hblob : req.parts.type.IsBlob := by
    rw [hnonce]
    decide
  have hbin : req.parts.asBin W.addr (replyMem mem reason val).length = req.parts.data := by
    revert hblob
    cases req.parts with
    | null => exact fun hblob => absurd hblob (by decide)
    | node d u aux next => exact fun hblob => if_pos hblob
  obtain ⟨s', hs', hsent⟩ := @rpcReturn_sends W mem reason val f req req.parts code s₁
    req.parts.data x hW (hface.trans hx) hmem hbin (inBuf_replyMem (hp.below.2.data hblob)) hreason
    hcode hval
  refine ⟨s', rc, by rw [hreq, hy, hs']; rfl, fun hlen => ?_⟩
  obtain ⟨bytes, hout', hemit, hdel⟩ := hsent hlen
  exact ⟨bytes, ⟨code, reason, val, hemit, hdel⟩, by rw [hout', hout]⟩

/-- A request without a nonce is malformed. -/
theorem request_malformed (hd : Decoded mem req) (hne : req.parts ≠ .null)
    (hnonce : req.parts.type ≠ .nonce) :
    localrpcHandleRequest W mem f req s = (·, -1) <$>
      rpcReturn W mem f req req.parts 404 (asciiBytes "malformed RPC request") none s := by
  rw [localrpcHandleRequest_eq hd hne, if_pos (.inl hnonce)]

theorem request_null (hnull : req.parts = .null) :
    localrpcHandleRequest W mem f req s = .ok (s, -1) := by
  unfold localrpcHandleRequest
  rw [hnull]
  rfl

/-- A decoded request lies in the memory. -/
theorem placed_of_getType {p n : Nat} {r : Int} (hin : p + n ≤ mem.length)
    (hget : getType mem (unserialize p n) = .ok (r, req)) (hr : 0 ≤ r) :
    Placed mem req ∧ req.flatlen ≤ n := by
  obtain ⟨-, -, hle, htiles⟩ := (getTypeFrom_tiles (Nat.lt_succ_self n)).tiles _ _ hget hr
  exact ⟨⟨_, _, htiles, by omega⟩, hle⟩

end Requests

/-- A request in a frame comes back unless its first part is a number in the place of the nonce that
has a null pointer read. -/
theorem request_returns (W : RpcWorld) (hW : W.Calm) (mem : List UInt8) (hmem : mem.length < 2 ^ 31)
    (p n : Nat) (hin : p + n ≤ mem.length) (req : Rdr)
    (hget : getType mem (unserialize p n) = .ok (RdrType.request.code, req)) (f : FaceId) (x : Face)
    (s : RpcState) (hx : s.relay.face f = .ok x) (hnamed : ∀ c ∈ s.relay.contents, c.pkt.pfx.isSome)
    (hfew : s.relay.contents.length < 2 ^ 31) :
    (∃ y, localrpcHandleRequest W mem f req s = .ok y) ↔ ¬ req.NullNonce := by
  obtain ⟨hp, -⟩ := placed_of_getType hin hget (by decide)
  by_cases hnonce : req.parts.type = .nonce
  · obtain ⟨s', rc, hdone, -⟩ := request_sends hW hx hmem hp hnamed hfew hnonce
    refine iff_of_true ⟨_, hdone⟩ fun h => ?_
    have htype := h.1
    rw [hnonce] at htype
    cases htype
  by_cases hnull : req.parts = .null
  · refine iff_of_true ⟨_, request_null hnull⟩ fun h => ?_
    have htype := h.1
    rw [hnull] at htype
    cases htype
  rw [request_malformed hp.decoded hnull hnonce]
  refine Iff.trans ?_ (@malformed_ok W mem (asciiBytes "malformed RPC request") f req req.parts
    s x hW hx hmem hp.below.2 (by decide))
  constructor
  · rintro ⟨y, hy⟩
    obtain ⟨s', hs', -⟩ := (map_eq_ok _ _ _).mp hy
    exact ⟨s', hs'⟩
  · rintro ⟨s', hs'⟩
    exact ⟨(s', -1), by rw [hs']; rfl⟩

/-- A world that is calm. -/
def RpcWorld.calm : RpcWorld :=
  ⟨fun _ _ => 0, fun _ => 0, fun _ _ => 0, fun _ => 4096, [], fun _ => []⟩

theorem calm_calm : RpcWorld.calm.Calm where
  stack _ _ := rfl
  junk _ := rfl
  addr _ := ⟨Nat.le_refl 4096, Nat.pow_lt_pow_right (by decide : 1 < 2) (by decide : 12 < 63)⟩
  compileString := Nat.two_pow_pos 15
  ctime _ := Nat.two_pow_pos 15

/-- A request with the number 5 in the place of its nonce. -/
def nullNonce : List UInt8 := [0x81, 3, 1, 1, 5]

/-- Five bytes stop the relay. -/
theorem request_returns_never :
    ∃ req, getType nullNonce (unserialize 0 5) = .ok (RdrType.request.code, req) ∧
      ¬ ∃ y, localrpcHandleRequest .calm nullNonce 1 req
        { relay := relayOfClient (.unix []) } = .ok y := by
  obtain ⟨⟨r, req⟩, hget, rfl, hnull⟩ : ∃ y, getType nullNonce (unserialize 0 5) = .ok y ∧
      (y.1 = RdrType.request.code ∧ y.2.NullNonce) := exists_ok (by decide +kernel)
  refine ⟨req, hget, fun h => ?_⟩
  exact (request_returns .calm calm_calm nullNonce (by decide) 0 5 (by decide) req hget 1
    { faceid := 1, ifndx := 0, peer := some (.unix []) } { relay := relayOfClient (.unix []) } rfl
    (by decide) (by decide)).mp h hnull

/-! ## Frames -/

/-- What a request gets: one reply at most, and with a nonce of up to 36 bytes one reply. -/
def RpcAnswered (W : RpcWorld) (mem : List UInt8) (req : Rdr) (bufs : List (List UInt8)) : Prop :=
  bufs.length ≤ 1 ∧ (req.parts.type = .nonce → req.parts.data.len ≤ 36 →
    ∃ bytes, bufs = [bytes] ∧ IsReply W mem req bytes)

/-- The terms that are decoded one after the other, with their types, from one cursor to another. -/
def Terms (mem : List UInt8) : Cursor → List (Int × Rdr) → Cursor → Prop
  | c, [], c' => c' = c
  | c, (r, t) :: ts, c' =>
    getType mem (unserialize c.pos c.len) = .ok (r, t) ∧
      (r = RdrType.request.code ∨ r = RdrType.reply.code) ∧
      Terms mem ⟨c.pos + t.flatlen, c.len - t.flatlen⟩ ts c'

/-- The requests among the terms. -/
def requests (ts : List (Int × Rdr)) : List Rdr :=
  (ts.filter (·.1 = RdrType.request.code)).map (·.2)

section Frames

variable {W : RpcWorld} {mem : List UInt8} {f : FaceId} {req : Rdr} {s s' : RpcState} {x : Face}
  {rc : Int} {c c' : Cursor}

theorem Terms.snoc {ts : List (Int × Rdr)} {r : Int} {t : Rdr} (h : Terms mem c ts c')
    (hget : getType mem (unserialize c'.pos c'.len) = .ok (r, t))
    (hr : r = RdrType.request.code ∨ r = RdrType.reply.code) :
    Terms mem c (ts ++ [(r, t)]) ⟨c'.pos + t.flatlen, c'.len - t.flatlen⟩ := by
  induction ts generalizing c with
  | nil =>
    cases h
    exact ⟨hget, hr, rfl⟩
  | cons y ys ih =>
    obtain ⟨hy, hr', hrest⟩ := h
    exact ⟨hy, hr', ih hrest⟩

theorem rpcReturn_out {nonce : Rdr} {code : Int32} {reason : List UInt8}
    {val : Option (List UInt8)} (h : rpcReturn W mem f req nonce code reason val s = .ok s') :
    ∃ bufs : List (List UInt8), bufs.length ≤ 1 ∧
      s'.relay.out = s.relay.out ++ bufs.map (.send f) := by
  obtain ⟨r, -, h⟩ := (bind_eq_ok _ _ _).mp h
  cases r with
  | none =>
    cases h
    exact ⟨[], Nat.zero_le _, (List.append_nil _).symm⟩
  | some pkt =>
    obtain ⟨σ, henqueue, h⟩ := (bind_eq_ok _ _ _).mp h
    cases h
    obtain ⟨y, -, hout⟩ := (bind_eq_ok _ _ _).mp henqueue
    cases hout
    exact ⟨[pkt], Nat.le_refl _, rfl⟩

/-- A request that comes back is answered. -/
theorem request_answered (hW : W.Calm) (hx : s.relay.face f = .ok x) (hmem : mem.length < 2 ^ 31)
    (hp : Placed mem req) (hnamed : ∀ c ∈ s.relay.contents, c.pkt.pfx.isSome)
    (hfew : s.relay.contents.length < 2 ^ 31)
    (h : localrpcHandleRequest W mem f req s = .ok (s', rc)) :
    ∃ bufs, RpcAnswered W mem req bufs ∧ s'.relay.out = s.relay.out ++ bufs.map (.send f) := by
  by_cases hnonce : req.parts.type = .nonce
  · obtain ⟨y, rc', hreq, s₁, code, reason, val, hy, -, hout, -⟩ :=
      @request_replies W mem f req s x hW hx hp hnamed hfew hnonce
    obtain ⟨s₂, rc₂, hdone, hsent⟩ := request_sends hW hx hmem hp hnamed hfew hnonce
    cases h.symm.trans hdone
    by_cases hlen : req.parts.data.len ≤ 36
    · obtain ⟨bytes, hreply, hout'⟩ := hsent hlen
      exact ⟨[bytes], ⟨Nat.le_refl _, fun _ _ => ⟨bytes, rfl, hreply⟩⟩, hout'⟩
    · rw [hreq] at h
      obtain ⟨s₂, hs₂, h⟩ := (map_eq_ok _ _ _).mp h
      cases h
      rw [hy] at hs₂
      obtain ⟨bufs, hone, hout'⟩ := rpcReturn_out hs₂
      exact ⟨bufs, ⟨hone, fun _ hle => absurd hle hlen⟩, by rw [hout', hout]⟩
  by_cases hnull : req.parts = .null
  · cases h.symm.trans (request_null hnull)
    exact ⟨[], ⟨Nat.zero_le _, fun h => absurd h hnonce⟩, (List.append_nil _).symm⟩
  · rw [request_malformed hp.decoded hnull hnonce] at h
    obtain ⟨s₂, hs₂, h⟩ := (map_eq_ok _ _ _).mp h
    cases h
    obtain ⟨bufs, hone, hout⟩ := rpcReturn_out hs₂
    exact ⟨bufs, ⟨hone, fun h => absurd h hnonce⟩, hout⟩

/-- Contents keep their names, and their number does not grow. -/
structure NamedContents (s : RpcState) : Prop where
  named : ∀ c ∈ s.relay.contents, c.pkt.pfx.isSome
  few : s.relay.contents.length < 2 ^ 31

theorem NamedContents.of_does {names : List Prefix} (h : NamedContents s)
    (hd : RpcDoes f names s s') : NamedContents s' := by
  obtain ⟨⟨bufs, hrelay⟩, -⟩ := hd
  have hcontents : s'.relay.contents = s.relay.contents.filter fun c => !c.isAsked names := by
    rw [hrelay]
    rfl
  refine ⟨fun c hc => h.named c (List.mem_of_mem_filter (hcontents ▸ hc)), ?_⟩
  rw [hcontents]
  exact Nat.lt_of_le_of_lt (List.length_filter_le _ _) h.few

/-- The terms so far, and the answers to the requests among them. -/
structure FrameLoop (W : RpcWorld) (mem : List UInt8) (f : FaceId) (x : Face) (c : Cursor)
    (s s' : RpcState) (c' : Cursor) : Prop where
  terms : ∃ ts bufs, Terms mem c ts c' ∧ List.Forall₂ (RpcAnswered W mem) (requests ts) bufs ∧
    s'.relay.out = s.relay.out ++ bufs.flatten.map (.send f)
  face : s'.relay.face f = .ok x
  contents : NamedContents s'
  last : c'.pos + c'.len ≤ mem.length

/-- A pass of the loop. -/
theorem rpcExecStep_answers (hW : W.Calm) (hmem : mem.length < 2 ^ 31)
    {y : RpcState × Int × Cursor}
    {r : (RpcState × Int × Cursor) ⊕ (RpcState × Option Cursor)}
    (h : FrameLoop W mem f x c s y.1 y.2.2)
    (hs : rpcExecStep W (fun a => .ok a.flatlen) mem f y = .ok r) :
    r.elim (fun y => FrameLoop W mem f x c s y.1 y.2.2) fun y =>
      ∃ c', FrameLoop W mem f x c s y.1 c' ∧ ∀ e ∈ y.2, e = c' := by
  obtain ⟨s', rc, c'⟩ := y
  unfold rpcExecStep at hs
  dsimp only at hs
  split at hs
  · cases hs
    exact ⟨c', h, fun e he => (Option.some.inj he).symm⟩
  obtain ⟨b, -, hs⟩ := (bind_eq_ok _ _ _).mp hs
  split at hs
  · cases hs
    exact ⟨c', h, nofun⟩
  obtain ⟨⟨type, a⟩, hget, hs⟩ := (bind_eq_ok _ _ _).mp hs
  dsimp only at hs
  split at hs
  · cases hs
    exact ⟨c', h, nofun⟩
  rename_i htype
  have hkind : type = RdrType.request.code ∨ type = RdrType.reply.code := by
    by_contra hnot
    exact htype (not_or.mp hnot)
  obtain ⟨⟨s₁, rc₁⟩, hhandle, hs⟩ := (bind_eq_ok _ _ _).mp hs
  obtain ⟨⟨ts, bufs, hterms, hanswers, hout⟩, hface, hcontents, hlast⟩ := h
  dsimp only at hterms hout hface hcontents hlast
  have hpos : 0 ≤ type := by
    rcases hkind with rfl | rfl <;> decide
  obtain ⟨hp, hle⟩ := placed_of_getType hlast hget hpos
  have h₁ : ∃ buf, List.Forall₂ (RpcAnswered W mem) (requests (ts ++ [(type, a)])) (bufs ++ buf) ∧
      s₁.relay.out = s'.relay.out ++ buf.flatten.map (.send f) ∧ s₁.relay.face f = .ok x ∧
      NamedContents s₁ := by
    by_cases hreq : type = RdrType.request.code
    · rw [if_pos hreq] at hhandle
      obtain ⟨buf, hanswer, hout₁⟩ :=
        request_answered hW hface hmem hp hcontents.named hcontents.few hhandle
      have hdoes := localrpcHandleRequest_does hface hp.decoded hhandle
      refine ⟨[buf], ?_, ?_, hdoes.face f ▸ hface, hcontents.of_does hdoes⟩
      · have hmore : requests (ts ++ [(type, a)]) = requests ts ++ [a] := by
          simp [requests, List.filter_append, hreq]
        rw [hmore]
        exact List.rel_append hanswers (.cons hanswer .nil)
      · rw [hout₁, List.flatten_singleton]
    · rw [if_neg hreq] at hhandle
      cases hhandle
      have hsame : requests (ts ++ [(type, a)]) = requests ts := by
        simp [requests, List.filter_append, hreq]
      exact ⟨[], by rw [hsame, List.append_nil]; exact hanswers, (List.append_nil _).symm, hface,
        hcontents⟩
  obtain ⟨buf, hanswers₁, hout₁, hface₁, hcontents₁⟩ := h₁
  dsimp only [ok_bind] at hs
  rw [if_neg (by omega)] at hs
  cases hs
  refine ⟨⟨_, _, hterms.snoc hget hkind, hanswers₁, ?_⟩, hface₁, hcontents₁, by simp only; omega⟩
  rw [hout₁, hout, List.flatten_append, List.map_append, List.append_assoc]

end Frames

end Ccnl
