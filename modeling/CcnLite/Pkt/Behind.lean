import CcnLite.Pkt.Ccntlv
import CcnLite.Pkt.Ndntlv

/-!
# What lies behind a frame

A frame is the front of the receive buffer. What a parser returns for it does not depend on the bytes
behind it (`ndntlvParse_grows`, `ccntlvBytes2pkt_grows`). The fixed header of a CCNx packet is written
to, and the bytes behind the frame stay as they are (`ccntlvHeader_behind`).
-/

namespace CRun.Tlv

section Grows

variable {α : Type} {dehead dehead' : Cursor → Run (Option (Nat × Nat) × Cursor)}

theorem stepOver_grows (e : Elem α) : Grows (stepOver e) (stepOver e) := .refl _

theorem nested_grows {elem elem' : Nat → Nat → Nat → Cursor → α → Run (Elem α)}
    (hd : ∀ c, Grows (dehead c) (dehead' c))
    (he : ∀ hd typ i cp a, Grows (elem hd typ i cp a) (elem' hd typ i cp a)) (cp : Cursor) (a : α) :
    Grows (nested dehead elem cp a) (nested dehead' elem' cp a) := by
  refine Grows.loop (fun s => ?_) (cp.len + 1) (cp, a)
  unfold nestedStep
  split
  · exact .refl _
  · refine (hd s.1).bind fun x => ?_
    match x with
    | (none, _) => exact .refl _
    | (some (typ, i), c) => exact (he s.1.pos typ i c s.2).bind fun _ => .refl _

theorem top_grows {elem elem' : Nat → Nat → Nat → Cursor → α → Run α}
    (hd : ∀ c, Grows (dehead c) (dehead' c))
    (he : ∀ hd typ i cp a, Grows (elem hd typ i cp a) (elem' hd typ i cp a)) (cp : Cursor) (a : α) :
    Grows (top dehead elem cp a) (top dehead' elem' cp a) := by
  refine Grows.loop (fun s => ?_) (cp.len + 1) (cp, a)
  refine (hd s.1).bind fun x => ?_
  match x with
  | (none, _) => exact .refl _
  | (some (typ, i), c) => exact (he s.1.pos typ i c s.2).bind fun _ => .refl _

end Grows

end CRun.Tlv

namespace Ccnl

open CRun Tlv

variable (mem rest : List UInt8)

/-! ## NDN -/

theorem ndntlvVarlenint_grows (c : Cursor) :
    Grows (ndntlvVarlenint mem c) (ndntlvVarlenint (mem ++ rest) c) := by
  refine (rd_grows mem rest c.pos).bind fun b => ?_
  split
  · exact .refl _
  · split
    · exact (rdBytes_grows mem rest _ _).bind fun _ => .refl _
    · split
      · exact (rdBytes_grows mem rest _ _).bind fun _ => .refl _
      · exact .refl _

theorem ndntlvNonNegInt_grows (pos len : Nat) :
    Grows (ndntlvNonNegInt mem pos len) (ndntlvNonNegInt (mem ++ rest) pos len) :=
  (rdBytes_grows mem rest pos len).bind fun _ => .refl _

theorem ndntlvDehead_grows (c : Cursor) :
    Grows (ndntlvDehead mem c) (ndntlvDehead (mem ++ rest) c) := by
  refine (ndntlvVarlenint_grows mem rest c).bind fun x => ?_
  match x with
  | none => exact .refl _
  | some (typ, c₁) =>
    refine (ndntlvVarlenint_grows mem rest c₁).bind fun y => ?_
    match y with
    | none => exact .refl _
    | some (len, c₂) => exact .refl _

theorem ndnMarked_grows (pos i bound : Nat) :
    Grows (ndnMarked mem pos i bound) (ndnMarked (mem ++ rest) pos i bound) :=
  (Grows.refl (afterMarker i)).bind fun _ => (ndntlvNonNegInt_grows mem rest _ _).bind fun _ => .refl _

theorem ndnNameElem_grows (hd typ i : Nat) (cp : Cursor) (p : Prefix) :
    Grows (ndnNameElem mem hd typ i cp p) (ndnNameElem (mem ++ rest) hd typ i cp p) := by
  unfold ndnNameElem
  split
  · refine (rd_grows mem rest cp.pos).bind fun b => ?_
    dsimp only
    split
    · exact (ndnMarked_grows mem rest _ _ _).bind fun _ => .refl _
    · exact .refl _
  · exact .refl _

theorem ndnSelectorsElem_grows (hd typ i : Nat) (cp : Cursor) (d : NdntlvDetail) :
    Grows (ndnSelectorsElem mem hd typ i cp d) (ndnSelectorsElem (mem ++ rest) hd typ i cp d) := by
  unfold ndnSelectorsElem
  split
  · exact (ndntlvNonNegInt_grows mem rest _ _).bind fun _ => .refl _
  · split
    · exact (ndntlvNonNegInt_grows mem rest _ _).bind fun _ => .refl _
    · exact .refl _

theorem ndnMetaInfoElem_grows (hd typ i : Nat) (cp : Cursor) (a : NdntlvDetail × Nat) :
    Grows (ndnMetaInfoElem mem hd typ i cp a) (ndnMetaInfoElem (mem ++ rest) hd typ i cp a) := by
  unfold ndnMetaInfoElem
  split
  · exact (ndntlvNonNegInt_grows mem rest _ _).bind fun _ => .refl _
  · split
    · refine (ndntlvDehead_grows mem rest cp).bind fun x => ?_
      match x with
      | (none, _) => exact .refl _
      | (some (typ, i), c) =>
        dsimp only
        split
        · exact (ndnMarked_grows mem rest _ _ _).bind fun _ => .refl _
        · exact .refl _
    · exact .refl _

theorem ndnSignatureInfoElem_grows (hd typ i : Nat) (cp : Cursor) (hmac : Bool) :
    Grows (ndnSignatureInfoElem mem hd typ i cp hmac)
      (ndnSignatureInfoElem (mem ++ rest) hd typ i cp hmac) := by
  unfold ndnSignatureInfoElem
  split
  · exact (rd_grows mem rest cp.pos).bind fun _ => .refl _
  · exact .refl _

theorem ndnElem_grows (start hd typ len : Nat) (cur : Cursor) (s : NdnState) :
    Grows (ndnElem mem start hd typ len cur s) (ndnElem (mem ++ rest) start hd typ len cur s) := by
  have hhead := ndntlvDehead_grows mem rest
  have hnum := ndntlvNonNegInt_grows mem rest cur.pos len
  unfold ndnElem
  cases ndnTlv typ with
  | name =>
    dsimp only
    split
    · exact .refl _
    · exact (nested_grows hhead (ndnNameElem_grows mem rest) _ _).bind fun _ => .refl _
  | selectors => exact (nested_grows hhead (ndnSelectorsElem_grows mem rest) _ _).bind fun _ => .refl _
  | nonce => exact (rdBytes_grows mem rest _ _).bind fun _ => .refl _
  | scope => exact hnum.bind fun _ => .refl _
  | content => exact .refl _
  | metaInfo => exact (nested_grows hhead (ndnMetaInfoElem_grows mem rest) _ _).bind fun _ => .refl _
  | interestLifetime => exact hnum.bind fun _ => .refl _
  | fragBeginEndFields => exact hnum.bind fun _ => .refl _
  | signatureInfo =>
    exact (nested_grows hhead (ndnSignatureInfoElem_grows mem rest) _ _).bind fun _ => .refl _
  | signatureValue => exact .refl _
  | other => exact .refl _

/-- What the NDN parser returns does not depend on what lies behind. -/
theorem ndntlvParse_grows (c : Cursor) : Grows (ndntlvParse mem c) (ndntlvParse (mem ++ rest) c) := by
  have hhead := ndntlvDehead_grows mem rest
  refine (hhead c).bind fun x => ?_
  match x with
  | (none, _) => exact .refl _
  | (some (typ, len), c₁) =>
    dsimp only
    split
    · exact .refl _
    · refine Grows.bind ?_ fun _ => .refl _
      unfold ndntlvBytes2pkt
      split
      · exact .refl _
      · refine (top_grows hhead (ndnElem_grows mem rest c.pos) _ _).bind fun y => ?_
        dsimp only
        split
        · exact .refl _
        · exact (rdBytes_grows mem rest _ _).bind fun _ => .refl _

/-! ## CCNx -/

theorem ccntlvDehead_grows (c : Cursor) :
    Grows (ccntlvDehead mem c) (ccntlvDehead (mem ++ rest) c) := by
  unfold ccntlvDehead
  split
  · exact .refl _
  · exact (rdBytes_grows mem rest _ _).bind fun _ => .refl _

theorem extractNetworkVarInt_grows (pos len : Nat) :
    Grows (extractNetworkVarInt mem pos len) (extractNetworkVarInt (mem ++ rest) pos len) := by
  unfold extractNetworkVarInt
  split
  · exact .refl _
  · exact (rdBytes_grows mem rest _ _).bind fun _ => .refl _

theorem ccntlvNameElem_grows (cp2 typ len3 : Nat) (cp : Cursor) (p : Prefix) :
    Grows (ccntlvNameElem mem cp2 typ len3 cp p) (ccntlvNameElem (mem ++ rest) cp2 typ len3 cp p) := by
  unfold ccntlvNameElem
  cases ccnxTlvN typ with
  | chunk => exact (extractNetworkVarInt_grows mem rest _ _).bind fun _ => .refl _
  | nameSegment => exact .refl _
  | metaData => exact (ccntlvDehead_grows mem rest cp).bind fun _ => .refl _
  | other => exact .refl _

theorem ccntlvElem_grows (start hmacStart hd typ len : Nat) (cur : Cursor) (s : CcntlvState) :
    Grows (ccntlvElem mem start hmacStart hd typ len cur s)
      (ccntlvElem (mem ++ rest) start hmacStart hd typ len cur s) := by
  unfold ccntlvElem
  by_cases hlen : cur.len < len
  · simp only [if_pos hlen]
    exact .refl _
  simp only [if_neg hlen]
  cases ccnxTlvM typ with
  | name =>
    exact (nested_grows (ccntlvDehead_grows mem rest) (ccntlvNameElem_grows mem rest) _ _).bind
      fun _ => .refl _
  | endChunk => exact (extractNetworkVarInt_grows mem rest _ _).bind fun _ => .refl _
  | payload => exact .refl _
  | validationAlgo => exact (ccntlvDehead_grows mem rest _).bind fun _ => .refl _
  | validationPayload => exact .refl _
  | other => exact .refl _

/-- What the CCNx parser returns does not depend on what lies behind. -/
theorem ccntlvBytes2pkt_grows (start : Nat) (c : Cursor) :
    Grows (ccntlvBytes2pkt mem start c) (ccntlvBytes2pkt (mem ++ rest) start c) := by
  have hhead := ccntlvDehead_grows mem rest
  refine (hhead c).bind fun x => ?_
  match x with
  | (none, _) => exact .refl _
  | (some (typ, len), c₁) =>
    dsimp only
    split
    · exact .refl _
    · refine (top_grows hhead (ccntlvElem_grows mem rest start c.pos) _ _).bind fun y => ?_
      split
      · exact .refl _
      · exact (rdBytes_grows mem rest _ _).bind fun _ => .refl _

/-- The memory that a forwarder of CCNx packets goes on with. -/
def CcntlvHeader.behind (rest : List UInt8) : CcntlvHeader → CcntlvHeader
  | drop mem c => .drop (mem ++ rest) c
  | pass pkttype mem c => .pass pkttype (mem ++ rest) c

/-- The fixed header is looked at and written to, whatever lies behind. -/
theorem ccntlvHeader_behind {c : Cursor} {x : CcntlvHeader} (h : ccntlvHeader mem c = .ok x) :
    ccntlvHeader (mem ++ rest) c = .ok (x.behind rest) := by
  unfold ccntlvHeader at h ⊢
  by_cases hnine : c.len < 9
  · simp [hnine] at h
  simp only [if_neg hnine] at h ⊢
  obtain ⟨version, hv, h⟩ := (bind_eq_ok _ _ _).mp h
  rw [rd_grows mem rest c.pos version hv, ok_bind]
  by_cases hone : version ≠ ccnxTlvV1
  · simp [hone] at h
  simp only [if_neg hone] at h ⊢
  obtain ⟨hp, hbytes, h⟩ := (bind_eq_ok _ _ _).mp h
  rw [rdBytes_grows mem rest _ _ hp hbytes, ok_bind]
  have hset : ∀ v, (mem ++ rest).set (c.pos + 4) v = mem.set (c.pos + 4) v ++ rest := by
    intro v
    have hin := (rdBytes_eq_ok.mp hbytes).1.resolve_left (by decide)
    exact List.set_append_left _ _ (by omega)
  simp only [hset]
  split
  · rename_i hshort
    simp [hshort] at h
  rename_i hhdr
  simp only [if_neg hhdr] at h
  split
  · rename_i hpay
    simp [hpay] at h
  rename_i hpay
  simp only [if_neg hpay] at h
  split
  · rename_i htype
    rw [if_pos htype] at h
    split
    · rename_i hzero
      rw [if_pos hzero] at h
      cases h
      rfl
    · rename_i hzero
      rw [if_neg hzero] at h
      cases h
      rfl
  · rename_i htype
    rw [if_neg htype] at h
    cases h
    rfl

end Ccnl
