import CcnLite.Pkt.CcntlvConfined
import CcnLite.Pkt.CcntlvDecode
import CcnLite.Pkt.Signed

/-!
# Where the CCNx-TLV parser looks

An element of a message is parsed alike wherever its bytes are (`ccntlvElem_follows`). Two messages
need not be at the same place, since the fixed headers in front of them may have two lengths, so the
states are compared by the bytes that their slices have (`SameDelivered`).

* `ccntlvElem_effect`: which elements change what is delivered, and what is signed.
* `CcnxDigestAt.same`: two runs over the same signed bytes have delivered the same at the digest.
-/

namespace Ccnl

open CRun Tlv

variable {mem mem' : List UInt8} {p p' n : Nat}

/-! ## Headers and names -/

/-- A header among the common bytes. -/
theorem ccntlv_local (h : Agree mem mem' p p' n) :
    Local (ccntlvHeaders mem) (ccntlvHeaders mem') p p' n where
  len_le := by
    rintro lim q typ len v ⟨-, -, -, -, -, hlen⟩
    exact hlen
  head lim' lim q q' typ len v hh hle hv hq hlim hlen := by
    obtain ⟨rfl, -, -, rfl, rfl, -⟩ := hh
    have hs := h.slice hle hq (k := 4) (by omega)
    have hle' := hs.le'
    exact ⟨q' + 4, by omega, rfl, by omega, by omega, by rw [hs.take], by rw [hs.take], hlen⟩

/-- Two names with the same components and the same chunk number. -/
def TwinName (mem mem' : List UInt8) (P P' : Prefix) : Prop :=
  (P.comp.map (·.bytes mem), P.chunknum) = (P'.comp.map (·.bytes mem'), P'.chunknum)

theorem TwinName.addComp {P P' : Prefix} (h : TwinName mem mem' P P') {s s' : Span}
    (hs : s.bytes mem = s'.bytes mem') : TwinName mem mem' (P.addComp s) (P'.addComp s') := by
  obtain ⟨hc, hk⟩ := Prod.mk.inj h
  have hcnt : P.compcnt = P'.compcnt := by
    have := congrArg List.length hc
    rwa [List.length_map, List.length_map] at this
  unfold Prefix.addComp
  rw [hcnt]
  split
  · exact Prod.ext (by simp only [List.map_append, hc, List.map_cons, hs, List.map_nil]) hk
  · exact h

section NameElem

variable {lim lim' hd hd' q q' typ i v i' : Nat} {P P' : Prefix}

/-- What is stepped over. -/
theorem nameValue_agree (h : Agree mem mem' p p' n)
    (hv : (ccntlvNameSpec mem).Value lim typ i q () v i' ()) (hle : p ≤ q) (hq : q + p' = q' + p)
    (hlim : lim ≤ p + n) (hlim' : lim + p' = lim' + p) (hi : v + i' ≤ lim) :
    ∃ v', v + p' = v' + p ∧ (ccntlvNameSpec mem').Value lim' typ i q' () v' i' () := by
  unfold ccntlvNameSpec at hv ⊢
  simp only at hv ⊢
  cases ht : ccnxTlvN typ <;> simp only [ht] at hv ⊢
  case chunk =>
    obtain ⟨⟨h4, -⟩, rfl, rfl⟩ := hv
    exact ⟨q', hq, ⟨h4, (h.slice hle hq (by omega)).inBuf⟩, rfl, rfl⟩
  case metaData =>
    obtain ⟨typ', hh⟩ := hv
    have hlt := (ccntlvDehead_decodes mem).lt _ _ _ _ _ hh
    have hlen := (ccntlv_local h).len_le hh
    obtain ⟨v', hv', hh'⟩ := (ccntlv_local h).head lim' hh hle (by omega) hq (by omega) (by omega)
    exact ⟨v', hv', typ', hh'⟩
  case nameSegment | other =>
    obtain ⟨rfl, rfl⟩ := hv
    exact ⟨q', hq, rfl, rfl⟩

/-- What is taken in. -/
theorem TwinName.withElem (h : Agree mem mem' p p' n) (hP : TwinName mem mem' P P')
    (hv : (ccntlvNameSpec mem).Value lim typ i q () v i' ()) (hle : p ≤ hd) (hlt : hd < q)
    (hhd : hd + p' = hd' + p) (hq : q + p' = q' + p) (hi : v + i' ≤ p + n) :
    TwinName mem mem' (withElem mem hd typ i q P) (withElem mem' hd' typ i q' P') := by
  have hcomp : ccnxTlvN typ = .chunk ∨ ccnxTlvN typ = .nameSegment →
      (⟨hd, q - hd + i⟩ : Span).bytes mem = (⟨hd', q' - hd' + i⟩ : Span).bytes mem' := fun ht => by
    obtain ⟨rfl, rfl⟩ := ccntlvNameSpec_component hv ht
    rw [show q' - hd' + i = q - hd + i by omega]
    exact (h.slice hle hhd (by omega)).bytes
  unfold Ccnl.withElem
  cases ht : ccnxTlvN typ <;> simp only
  case chunk =>
    obtain ⟨rfl, rfl⟩ := ccntlvNameSpec_component hv (.inl ht)
    rw [(h.slice (Nat.le_trans hle (Nat.le_of_lt hlt)) hq (k := i) (by omega)).take]
    exact Prod.ext (Prod.mk.inj (hP.addComp (hcomp (.inl ht)))).1 rfl
  case nameSegment => exact hP.addComp (hcomp (.inr ht))
  all_goals exact hP

end NameElem

theorem nameElem_same (h : Agree mem mem' p p' n) :
    ElemFollows p p' n (TwinName mem mem') (ccntlvNameElem mem) (ccntlvNameElem mem') := by
  rintro hd hd' typ i ⟨q, l⟩ ⟨q', l'⟩ P P' hle hlt hhd ⟨hleq, hpos, hlen, hlim⟩ hP x hx
  obtain ⟨e, he, hx⟩ := (bind_eq_ok _ _ _).mp hx
  obtain ⟨⟨v, k⟩, i', rfl, hcur, hv⟩ := ccntlvNameElem_eq_ok.mp he
  obtain ⟨hi, rfl⟩ := stepOver_next_eq_ok.mp hx
  simp only at hlt hleq hpos hlen hlim hcur hi hv
  obtain rfl := hlen
  have hvq := ccntlvNameSpec_le hv
  have hlim' : q + l' + p' = q' + l' + p := by omega
  obtain ⟨v', hv', hval⟩ := nameValue_agree h hv hleq hpos hlim hlim' (by omega)
  refine ⟨.inl (⟨v' + i', k - i'⟩, withElem mem' hd' typ i q' P'), ?_, .inl ⟨?_, ?_⟩⟩
  · refine (bind_eq_ok _ _ _).mpr ⟨.next ⟨v', k⟩ i' _, ?_, stepOver_next_eq_ok.mpr ⟨hi, rfl⟩⟩
    exact ccntlvNameElem_eq_ok.mpr ⟨⟨v', k⟩, i', rfl, by simp only; omega, hval⟩
  · exact ⟨by simp only; omega, by simp only; omega, rfl, by simp only; omega⟩
  · exact hP.withElem h hv hle hlt hhd hpos (by omega)

/-! ## The elements of a message -/

/-- Two messages with the same name, content, number of the last chunk, and signature algorithm. -/
structure SameDelivered (mem mem' : List UInt8) (s s' : CcntlvState) : Prop where
  name : TwinName mem mem' s.p s'.p
  content : s.pkt.content.map (·.bytes mem) = s'.pkt.content.map (·.bytes mem')
  val : s.pkt.val = s'.pkt.val
  algo : s.validAlgoIsHmac256 = s'.validAlgoIsHmac256

/-- An element among the common bytes. -/
theorem ccntlvElem_follows (h : Agree mem mem' p p' n) (start start' hmacStart hmacStart' : Nat) :
    TakesFollow p p' n (SameDelivered mem mem') (ccntlvElem mem start hmacStart)
      (ccntlvElem mem' start' hmacStart') := by
  rintro hd hd' typ len ⟨q, l⟩ ⟨q', l'⟩ s s' hle hlt hhd hpos hn hfit hs
  simp only at hlt hpos hn hfit
  have hq : p ≤ q := Nat.le_trans hle (Nat.le_of_lt hlt)
  have hslice := h.slice hq hpos (k := len) hn
  obtain ⟨hname, hcontent, hval, halgo⟩ := hs
  unfold ccntlvElem
  by_cases hlen : l < len
  · simp only [hlen, ↓reduceIte]
    exact .error _ _
  simp only [hlen, ↓reduceIte, Nat.not_lt.mpr hfit]
  cases ht : ccnxTlvM typ <;> simp only
  case name =>
    have htwin : Twin p p' n ⟨q, len⟩ ⟨q', len⟩ := ⟨hq, hpos, rfl, hn⟩
    have hstart : ∀ a a', TwinName mem mem' { s.p with nameptr := a } { s'.p with nameptr := a' } :=
      fun _ _ => hname
    refine (nested_follows (ccntlvDehead_decodes mem) (ccntlvDehead_decodes mem') (ccntlv_local h)
      (nameElem_same h) htwin (hstart _ _)).bind fun P P' _ hP => ?_
    exact .ok ⟨hP, hcontent, hval, halgo⟩
  case endChunk =>
    have hx : extractNetworkVarInt mem q len = extractNetworkVarInt mem' q' len := by
      rw [extractNetworkVarInt, extractNetworkVarInt, hslice.rdBytes]
    rw [hx]
    refine (Mimics.refl _).bind fun x _ _ hx => ?_
    subst hx
    cases x with
    | none => exact .error _ _
    | some v => exact .ok ⟨hname, hcontent, rfl, halgo⟩
  case payload => exact .ok ⟨hname, congrArg some hslice.bytes, hval, halgo⟩
  case validationAlgo =>
    intro r hr
    obtain ⟨⟨x, c⟩, hx, hr⟩ := (bind_eq_ok _ _ _).mp hr
    cases x with
    | none => simp at hr
    | some x =>
      obtain ⟨typ', i⟩ := x
      cases hr
      obtain ⟨hh, -⟩ := ccntlvDehead_eq_ok.mp hx
      have hv := (ccntlvDehead_decodes mem).lt _ _ _ _ _ hh
      have hi := (ccntlv_local h).len_le hh
      simp only at hv hi
      obtain ⟨v', hv', hh'⟩ := (ccntlv_local h).head (q' + len) hh hq (by omega) hpos (by omega)
        (by omega)
      refine ⟨{ s' with validAlgoIsHmac256 := s'.validAlgoIsHmac256 || typ' == ccnxValidalgoHmacSha256 },
        ?_, hname, hcontent, hval, by rw [halgo]⟩
      rw [(ccntlvDehead_decodes mem').of_head (c := ⟨q', len⟩) hh']
      rfl
  case validationPayload =>
    rw [halgo]
    split <;> exact .ok ⟨hname, hcontent, hval, by simp only [halgo]⟩
  case other => exact .ok ⟨hname, hcontent, hval, halgo⟩

/-! ## What an element does -/

/-- The elements that set a field of what is delivered. -/
def CcnxTlvM.Delivers : CcnxTlvM → Prop
  | .name | .endChunk | .payload => True
  | _ => False

/-- The state after the digest: the bytes before its header have been signed. -/
def CcntlvState.signed (s : CcntlvState) (len sig : Nat) : CcntlvState :=
  { s with pkt := { s.pkt with hmacLen := len, hmacSignature := some sig } }

/-- An element of the kind `k`. -/
structure CcnxEffect (k : CcnxTlvM) (hmacStart len : Nat) (cur : Cursor) (s s' : CcntlvState) :
    Prop where
  kind : (s'.pkt.type, s'.pkt.hmacStart, s'.pkt.suite) = (s.pkt.type, s.pkt.hmacStart, s.pkt.suite)
  hmac : (s'.pkt.hmacLen, s'.pkt.hmacSignature) = (s.pkt.hmacLen, s.pkt.hmacSignature) ∨
    (k = .validationPayload ∧ s.validAlgoIsHmac256 = true ∧ len = 32) ∧
      (s'.pkt.hmacLen, s'.pkt.hmacSignature) = (cur.pos - hmacStart - 4, some cur.pos)
  out : k.Delivers ∨ (s'.p, s'.pkt.content, s'.pkt.val) = (s.p, s.pkt.content, s.pkt.val)

theorem ccntlvElem_effect {start hmacStart hd typ len : Nat} {cur : Cursor} {s s' : CcntlvState}
    (h : ccntlvElem mem start hmacStart hd typ len cur s = .ok s') :
    CcnxEffect (ccnxTlvM typ) hmacStart len cur s s' := by
  cases ccntlvElem_taken h with
  | name ht | endChunk ht | payload ht => exact ⟨rfl, .inl rfl, .inl (by rw [ht]; trivial)⟩
  | algo | noDigest | other => exact ⟨rfl, .inl rfl, .inr rfl⟩
  | digest ht hs => exact ⟨rfl, .inr ⟨⟨ht, hs.1, hs.2⟩, rfl⟩, .inr rfl⟩

theorem ccntlvElem_signedLoop (mem : List UInt8) (start hmacStart : Nat) :
    SignedLoop (ccntlvHeaders mem) (ccntlvElem mem start hmacStart) CcntlvState.pkt
      (fun s => (s.p, s.pkt.content, s.pkt.val)) CcntlvState.validAlgoIsHmac256
      (fun typ => ccnxTlvM typ = .validationPayload) (fun typ => (ccnxTlvM typ).Delivers)
      hmacStart where
  kind h := (ccntlvElem_effect h).kind
  hmac {lim hd typ len cur s s'} hh h := by
    obtain ⟨hpos, -⟩ := hh
    rw [show hd - hmacStart = cur.pos - hmacStart - 4 by omega]
    exact (ccntlvElem_effect h).hmac
  out h := (ccntlvElem_effect h).out

/-- `DigestAt` for this parser. -/
abbrev CcnxDigestAt (mem : List UInt8) (start hmacStart : Nat) :
    Cursor → CcntlvState → CcntlvState → Cursor → Cursor → CcntlvState → Prop :=
  DigestAt (ccntlvDehead mem) (ccntlvElem mem start hmacStart) CcntlvState.pkt
    CcntlvState.validAlgoIsHmac256 (fun typ => ccnxTlvM typ = .validationPayload) hmacStart

/-- Two runs over the same signed bytes have delivered the same at the digest. -/
theorem CcnxDigestAt.same {start start' a a' : Nat} {c c' t t' q q' : Cursor}
    {s s₀ s' s'' u u' : CcntlvState} (h : CcnxDigestAt mem start a c s s' t q u)
    (h' : CcnxDigestAt mem' start' a' c' s₀ s'' t' q' u')
    (hlen : s'.pkt.hmacLen = s''.pkt.hmacLen) (hle : a ≤ c.pos) (hpos : c.pos + a' = c'.pos + a)
    (h0 : SameDelivered mem mem' s s₀) (hagree : Agree mem mem' a a' s'.pkt.hmacLen) :
    SameDelivered mem mem' u u' := by
  have ht := h.pos
  have ht' := h'.pos
  have hlim' := h'.lim (ccntlvDehead_decodes mem')
  obtain ⟨t₂, u₂, hr₂, hpos₂, -, hu⟩ := top_follows (ccntlvDehead_decodes mem)
    (ccntlvDehead_decodes mem') (ccntlv_local hagree)
    (ccntlvElem_follows hagree start start' a a') hle hpos (by omega) h0 h.reached (by omega)
  obtain ⟨-, rfl⟩ := Prod.mk.inj
    (top_unique (ccntlvDehead_decodes mem') hr₂ h'.reached (by simp only; omega))
  exact hu

end Ccnl
