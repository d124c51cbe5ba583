import CcnLite.Rpc.Return

/-!
# Replies that are not sent (`ccnl-localrpc.c`)

`ccnl_emit_RpcReturn` where the reply does not fit its buffer, and where the nonce is not there: what
a malformed request has in its place is taken for a nonce, with a null pointer to its bytes. The size
of the nonce decides whether these are read.

* `emitRpcReturn_none`: a reply that does not fit is not sent.
* `emitRpcReturn_null`: the bytes at a null pointer are read when the reply would fit.
-/

namespace Ccnl

open CRun

section Emit

variable {stack : Nat → Nat} {junk : Nat} {mem : List UInt8} {raw : Nat → UInt8}
  {nonce reason : Span} {rc : Int32} {content content' : Option Rdr} {len : Nat}

/-- The reply is what `ccnl_rdr_serialize` makes of it, behind the code switch. -/
theorem emitRpcReturn_of_len (hlen : returnLen reason content = some (content', len))
    (h2 : 2 ≤ len) :
    emitRpcReturn stack junk mem raw nonce rc reason content =
      serialize stack junk mem (appendReturn mkSeq nonce rc reason content')
        (((List.range len).map raw).drop 2) (sub64 len 2) >>= fun x =>
        match x with
        | none => .ok none
        | some (data, res) => Front.app [0x82] ⟨data, 0⟩ >>= fun p =>
          .ok (some ([0x80, 3] ++ p.mem.take res)) := by
  obtain ⟨tmp, htmp, hswitch⟩ : ∃ tmp, switchPrependCoding encLocalrpc (.room 10) = .ok tmp ∧
    tmp.buf.drop tmp.offset = [0x80, 3] := exists_ok (by decide)
  have happ : Front.app [0x80, 3] ⟨(List.range len).map raw, 0⟩ =
      .ok ⟨[0x80, 3] ++ ((List.range len).map raw).drop 2, 2⟩ := Front.app_eq (by simp; omega)
  unfold emitRpcReturn
  simp only [hlen, htmp, attempt_ok, ok_bind, hswitch, happ]
  rfl

/-- The size of a reply without a content, whatever the nonce points to. -/
def nullReplyLen (v : Nat) : Nat :=
  lrpcTLVlen .sequence (u64 (u64 (u64 (lrpcTLVlen .nonce v) + 4) + 23))

theorem nullReplyLen_le {v : Nat} (hv : v < 2 ^ 64) :
    nullReplyLen v ≤ 69 ↔ v ≤ 38 ∨ 2 ^ 64 - 47 ≤ v := by
  have hone : ∀ n < 253, lrpcFieldlen n = 1 := fun n hn => if_pos hn
  have hnine : ∀ n, 2 ^ 32 ≤ n → lrpcFieldlen n = 9 := by
    intro n hn
    rw [lrpcFieldlen, if_neg (by omega), if_neg (by omega), if_neg (by omega)]
  have hrange : ∀ n, 1 ≤ lrpcFieldlen n ∧ lrpcFieldlen n ≤ 9 := by
    intro n
    unfold lrpcFieldlen
    split
    · omega
    split
    · omega
    split <;> omega
  unfold nullReplyLen lrpcTLVlen u64
  rw [hone RdrType.nonce.code.toNat (by decide), hone RdrType.sequence.code.toNat (by decide)]
  by_cases hsmall : v ≤ 38
  · rw [hone v (by omega), hone _ (by omega)]
    omega
  by_cases hbig : 2 ^ 64 - 47 ≤ v
  · rw [hnine v (by omega)]
    -- the sum wraps around at one of the two additions
    by_cases hwrap : 2 ^ 64 - 37 ≤ v
    · rw [hone _ (by omega)]
      omega
    · rw [hnine _ (by omega)]
      omega
  · have hfirst := hrange v
    have hsecond := hrange (1 + lrpcFieldlen v + v + 4 + 23)
    simp (disch := omega) only [Nat.mod_eq_of_lt]
    omega

/-- The parts of such a reply with their sizes. -/
theorem getFlatLen_null {v : Nat} (hreason : reason.len = 21) :
    ∃ d next, getFlatLen true (returnParts ⟨mem.length, v⟩ 404 reason none) 0 =
        some (.node d .null .null next, u64 (u64 (u64 (lrpcTLVlen .nonce v) + 4) + 23)) ∧
      d.type = .nonce ∧ d.data = ⟨mem.length, v⟩ := by
  have hint : lrpcTLVlen .nonnegint (nonNegIntLen (Int64.toUInt64 404).toNat) = 4 := by decide
  have hstr : lrpcTLVlen .flatname 21 = 23 := by decide
  simp [returnParts, getFlatLen, RdrType.IsBlob, hreason, hint, hstr]

/-- The headers are written, and then the nonce is read. -/
theorem serializeFill_null {d d' : RdrFields} {next : Rdr} {v n : Nat} {buf : List UInt8}
    (hbuf : 69 ≤ buf.length) (hd' : d'.type = .sequence) (htype : d.type = .nonce)
    (hdata : d.data = ⟨mem.length, v⟩) (hpos : 0 < v)
    (hmeasure : fillLen stack d' .null (.node d .null .null next) 0 = some n) :
    serializeFill stack mem false (.node d' .null (.node d .null .null next) .null) 0 buf =
      .error (.oob mem.length) := by
  have hread : rdBytes mem mem.length v = .error (.oob mem.length) := if_neg (by omega)
  have hhead : ∀ (ty : RdrType) (m : Nat), (ndnTL ty.code.toNat m).length ≤ 18 := by
    intro ty m
    have h₁ := length_ndnTLval ty.code.toNat
    have h₂ := length_ndnTLval m
    rw [ndnTL, List.length_append]
    omega
  have hseq := hhead .sequence n
  have hnonce := hhead .nonce v
  have hgrow := Front.le_length_splice buf 0 (ndnTL RdrType.sequence.code.toNat n)
  rw [serializeFill, hd', if_neg (by decide), if_neg (by decide), if_pos (by decide), hmeasure]
  dsimp only
  rw [fillTandL_eq (by omega), ok_bind, if_neg (by decide), serializeFill, htype,
    if_pos (by decide), hdata]
  dsimp only
  rw [fillTandL_eq (by omega), ok_bind, hread]
  rfl

/-- A nonce at a null pointer is read when its size lets the reply fit. -/
theorem emitRpcReturn_null {v : Nat} (hreason : reason.len = 21) (hpos : 0 < v) :
    emitRpcReturn stack 0 mem raw ⟨mem.length, v⟩ 404 reason none =
      if nullReplyLen v ≤ 69 then .error (.oob mem.length) else .ok none := by
  have hlen : returnLen reason none = some (none, 71) := by
    rw [returnLen, hreason]
    rfl
  obtain ⟨d, next, hparts, htype, hdata⟩ := @getFlatLen_null mem reason v hreason
  have hroom : sub64 71 2 = 69 := by decide
  have htotal : u64 (0 + nullReplyLen v) = nullReplyLen v := by
    rw [Nat.zero_add]
    exact Nat.mod_mod _ _
  rw [emitRpcReturn_of_len hlen (by decide), mkSeq, appendReturn_node, serialize,
    getFlatLen_sequence, hparts, hroom]
  dsimp only [Option.map_some]
  rw [← nullReplyLen, htotal]
  by_cases hfits : nullReplyLen v ≤ 69
  · rw [if_pos hfits, if_neg (by omega)]
    have hmeasure : fillLen stack { type := .sequence, flatlen := nullReplyLen v } .null
        (.node d .null .null next) 0 = some (u64 (u64 (u64 (lrpcTLVlen .nonce v) + 4) + 23)) := by
      simp [fillLen, RdrType.HasFirst, getFlatLen_again hparts]
    rw [serializeFill_null (by simp) rfl htype hdata hpos hmeasure]
    rfl
  · rw [if_neg hfits, if_pos (by omega)]
    rfl

/-- A reply that does not fit is not sent. -/
theorem emitRpcReturn_none (hn : InBuf mem nonce.off nonce.len)
    (hr : InBuf mem reason.off reason.len) (hc : ∀ c ∈ content, c.Fresh mem)
    (hlt : (returnBytes mem nonce rc reason content).length < 2 ^ 32)
    (h : ¬ Fits mem nonce rc reason content) :
    emitRpcReturn stack 0 mem raw nonce rc reason content = .ok none := by
  have hlen := @returnLen_fresh mem nonce reason content hr rc hc (by omega)
  have hle := @length_returnBytes_le mem nonce reason hr rc content
  have hparts : (returnParts nonce rc reason (content.map (Rdr.sized mem))).Plain mem :=
    plain_returnParts hn hr (plain_sized_content hc)
  have henc := @enc_parts mem nonce reason rc (content.map (Rdr.sized mem)) .sequence (.inl rfl)
  rw [returnBytes_sized] at henc
  have hnum := length_ndnTLval (returnBytes mem nonce rc reason content).length
  have hcode : (ndnTLval RdrType.sequence.code.toNat).length = 1 := rfl
  have hsize : (ndnTLV RdrType.sequence.code.toNat
      (returnBytes mem nonce rc reason content)).length =
      1 + (ndnTLval (returnBytes mem nonce rc reason content).length).length +
        (returnBytes mem nonce rc reason content).length := by
    rw [ndnTLV, ndnTL, List.length_append, List.length_append, hcode]
  have hsame : (ndnTLV RdrType.reply.code.toNat (returnBytes mem nonce rc reason content)).length =
      (ndnTLV RdrType.sequence.code.toNat (returnBytes mem nonce rc reason content)).length := rfl
  have hmeasure : ∃ t, getFlatLen false
      (appendReturn mkSeq nonce rc reason (content.map (Rdr.sized mem))) 0 = some (t,
        (ndnTLV RdrType.sequence.code.toNat (returnBytes mem nonce rc reason content)).length) := by
    have hplain := @plain_parts mem .sequence _ (.inl rfl) hparts
    rw [mkSeq, appendReturn_node, ← henc]
    have hsized := @getFlatLen_plain mem _ 0 hplain (by rw [henc]; omega)
    rw [Nat.zero_add] at hsized
    exact ⟨_, (getFlatLen_single rfl (by simp)).trans hsized⟩
  obtain ⟨t, ht⟩ := hmeasure
  have hroom : sub64 (reason.len + 50 + (contentBytes mem content).length) 2 <
      (ndnTLV RdrType.sequence.code.toNat (returnBytes mem nonce rc reason content)).length := by
    have hnot := not_and.mp h
    have hbig : ¬ 2 + (ndnTLV RdrType.reply.code.toNat
        (returnBytes mem nonce rc reason content)).length ≤
        reason.len + 50 + (contentBytes mem content).length := fun hfit => hnot hfit hlt
    unfold sub64 u64
    omega
  rw [emitRpcReturn_of_len hlen (by omega), serialize, ht]
  dsimp only
  rw [if_pos hroom]
  rfl

end Emit

end Ccnl
