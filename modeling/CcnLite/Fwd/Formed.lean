import CcnLite.Core.Tables
import CcnLite.Fwd.System

/-!
# The packets that the parsers make

The packets that get to the handlers come from the three parsers. Each makes packets of its own format,
and a name of that format: a packet with a name is well formed (`ndntlvParse_formed`,
`ccntlvBytes2pkt_formed`, `ccnbBytes2pkt_formed`).
-/

namespace Ccnl

open CRun

theorem Pkt.rebase_formed {pkt : Pkt} {start : Nat} {buf : List UInt8} (h : pkt.Formed) :
    (pkt.rebase start buf).Formed := by
  obtain ⟨p, hp, hs⟩ := h
  simp [Pkt.Formed, Pkt.rebase, hp, hs]

/-! ## NDN-TLV -/

theorem ndnNameElem_suite {mem : List UInt8} {cp2 typ i : Nat} {cp : Cursor} {p : Prefix}
    {e : Tlv.Elem Prefix} (h : ndnNameElem mem cp2 typ i cp p = .ok e) :
    match e with
    | .next _ _ p' => p'.suite = p.suite
    | .stop p' => p'.suite = p.suite := by
  unfold ndnNameElem at h
  split at h
  · obtain ⟨b, -, h⟩ := (bind_eq_ok _ _ _).mp h
    simp only at h
    split at h
    · obtain ⟨v, -, h⟩ := (bind_eq_ok _ _ _).mp h
      cases h
      rfl
    · cases h
      rfl
  · cases h
    rfl

/-- The packet loop keeps the suite, and makes a name of it. -/
theorem ndnElem_pfx_suite {mem : List UInt8} {start hd typ len : Nat} {cur : Cursor}
    {s s' : NdnState} (h : ndnElem mem start hd typ len cur s = .ok s')
    (hs : ∀ p, s.pkt.pfx = some p → p.suite = .ndntlv) :
    ∀ p, s'.pkt.pfx = some p → p.suite = .ndntlv := by
  cases ndnElem_taken h with
  | @name p _ _ hn =>
    intro q hq
    cases hq
    have hsuite : p.suite = .ndntlv := by
      refine Tlv.nested_keeps (I := fun p : Prefix => p.suite = .ndntlv) hn rfl ?_
      intro hd typ i cp p e hp he
      have := ndnNameElem_suite he
      cases e <;> exact this.trans hp
    exact hsuite
  | selectors | nonce | scope | content | metaInfo | interestLifetime | fragFields | signatureInfo
  | digest | noDigest | other => exact hs

theorem ndntlvParse_formed {mem : List UInt8} {c c' : Cursor} {pkt : Pkt}
    (h : ndntlvParse mem c = .ok (pkt, c')) (hp : pkt.pfx ≠ none) : pkt.Formed := by
  obtain ⟨p, hp⟩ := Option.ne_none_iff_exists'.mp hp
  refine ⟨p, hp, ?_⟩
  rw [ndntlvParse_suite h]
  obtain ⟨typ, len, c₁, pkt', -, -, hb, rfl⟩ := ndntlvParse_eq_ok.mp h
  obtain ⟨-, s, hl, -, buf, -, rfl⟩ := ndntlvBytes2pkt_eq_ok.mp hb
  obtain ⟨q, hq, rfl⟩ := Option.map_eq_some_iff.mp hp
  exact Tlv.top_keeps (I := fun s : NdnState => ∀ p, s.pkt.pfx = some p → p.suite = .ndntlv) hl
    nofun (fun _ _ _ _ _ _ hs he => ndnElem_pfx_suite he hs) q hq

/-! ## CCNx-TLV -/

theorem Prefix.addComp_suite (p : Prefix) (s : Span) : (p.addComp s).suite = p.suite := by
  unfold Prefix.addComp
  split <;> rfl

theorem ccntlvNameElem_suite {mem : List UInt8} {cp2 typ i : Nat} {cp : Cursor} {p : Prefix}
    {e : Tlv.Elem Prefix} (h : ccntlvNameElem mem cp2 typ i cp p = .ok e) :
    match e with
    | .next _ _ p' => p'.suite = p.suite
    | .stop p' => p'.suite = p.suite := by
  unfold ccntlvNameElem at h
  cases ht : ccnxTlvN typ <;> simp only [ht, bind_eq_ok, pure_eq_ok] at h
  case chunk =>
    obtain ⟨v, -, h⟩ := h
    cases v <;> cases h
    exact p.addComp_suite _
  case nameSegment => cases h; exact p.addComp_suite _
  case metaData =>
    obtain ⟨v, -, h⟩ := h
    split at h <;> cases h
    rfl
  case other => cases h; rfl

theorem ccntlvElem_suite {mem : List UInt8} {start hmacStart hd typ len : Nat} {cur : Cursor}
    {s s' : CcntlvState} (h : ccntlvElem mem start hmacStart hd typ len cur s = .ok s')
    (hs : s.pkt.suite = .ccntlv ∧ s.p.suite = .ccntlv) :
    s'.pkt.suite = .ccntlv ∧ s'.p.suite = .ccntlv := by
  cases ccntlvElem_taken h with
  | @name p _ hn =>
    have hsuite : p.suite = .ccntlv := by
      refine Tlv.nested_keeps (I := fun p : Prefix => p.suite = .ccntlv) hn hs.2 ?_
      intro hd typ i cp p e hp he
      have := ccntlvNameElem_suite he
      cases e <;> exact this.trans hp
    exact ⟨hs.1, hsuite⟩
  | endChunk | payload | algo | digest | noDigest | other => exact hs

theorem ccntlvBytes2pkt_formed {mem : List UInt8} {start : Nat} {c c' : Cursor} {pkt : Pkt}
    (h : ccntlvBytes2pkt mem start c = .ok (pkt, c')) : pkt.Formed := by
  obtain ⟨typ, len, c₁, s, -, -, hl, -, buf, -, rfl⟩ := ccntlvBytes2pkt_eq_ok.mp h
  have := Tlv.top_keeps
    (I := fun s : CcntlvState => s.pkt.suite = .ccntlv ∧ s.p.suite = .ccntlv) hl ⟨rfl, rfl⟩
    fun _ _ _ _ _ _ hs he => ccntlvElem_suite he hs
  exact Pkt.rebase_formed ⟨s.p, rfl, this.2.trans this.1.symm⟩

/-! ## CCNB -/

theorem ccnbElem_suite {mem : List UInt8} {start hd num : Nat} {c c' : Cursor} {s s' : CcnbState}
    (h : ccnbElem mem start hd num c s = .ok (c', s')) : s'.pkt.suite = s.pkt.suite := by
  unfold ccnbElem at h
  cases ht : ccnDtag num <;> simp only [ht, bind_eq_ok, pure_eq_ok, Prod.exists] at h
  case scope =>
    obtain ⟨v, c₁, -, h⟩ := h
    split at h
    · obtain ⟨b, -, h⟩ := (bind_eq_ok _ _ _).mp h
      cases h
      rfl
    · cases h
      rfl
  all_goals
    obtain ⟨v, c₁, -, h⟩ := h
    cases h
    rfl

theorem ccnbBytes2pkt_formed {mem : List UInt8} {start : Nat} {c c' : Cursor} {pkt : Pkt}
    (h : ccnbBytes2pkt mem start c = .ok (pkt, c')) : pkt.Formed := by
  obtain ⟨⟨c₁, s⟩, hl, h⟩ := (bind_eq_ok _ _ _).mp h
  obtain ⟨buf, -, h⟩ := (bind_eq_ok _ _ _).mp h
  obtain ⟨comp, -, h⟩ := (bind_eq_ok _ _ _).mp h
  cases h
  have hs : s.pkt.suite = .ccnb := by
    let I : Cursor × CcnbState → Prop := fun s => s.2.pkt.suite = .ccnb
    have hstep : ∀ s x, I s → ccnbStep mem start s = .ok x → x.elim I I := by
      intro s x hs h
      obtain ⟨y, -, h⟩ := (bind_eq_ok _ _ _).mp h
      match y with
      | none => cases h; exact hs
      | some ((num, typ), c) =>
        simp only at h
        split at h
        · cases h
          exact hs
        split at h
        · obtain ⟨⟨c₂, s₂⟩, he, h⟩ := (bind_eq_ok _ _ _).mp h
          cases h
          exact (ccnbElem_suite he).trans hs
        · obtain ⟨⟨c₂, v⟩, -, h⟩ := (bind_eq_ok _ _ _).mp h
          cases h
          exact hs
    exact loop_inv (I := I) (Q := I) hl rfl (fun s s' hs ha => hstep s _ hs ha)
      fun s b hs hb => hstep s _ hs hb
  exact Pkt.rebase_formed ⟨_, rfl, hs.symm⟩

end Ccnl
