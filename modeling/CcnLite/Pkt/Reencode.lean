import CcnLite.Core.Edit
import CcnLite.Core.Prefix
import CcnLite.Pkt.CcntlvConfined
import CcnLite.Pkt.CcntlvRoundtrip
import CcnLite.Pkt.NdntlvConfined
import CcnLite.Pkt.NdntlvName

/-!
# Encoding a name again

A name that a program has from the parser, or that it gave a chunk number (`Obtained`), goes into a
packet through the encoder and comes out of the parser again. The number of a chunk is one of the
components as well as a field of the name. The parsers and `prefixAddChunkNum` set both, and the
encoders write both: the components, and behind them the number as one component more.

* `ndn_reencode_iff`, `ccnx_reencode_iff`: when the name that comes back is the same for `CMP_EXACT`.
-/

namespace Ccnl

open CRun Tlv Back

/-! ## Where names come from -/

/-- A name of the suite that was parsed, or that was given a chunk number where it had none. -/
inductive Obtained : Suite → Prefix → Prop where
  | ndntlv {mem : List UInt8} {type start : Nat} {c e : Cursor} {pkt : Pkt} {p : Prefix}
      (hs : start ≤ c.pos) (h : ndntlvBytes2pkt mem type start c = .ok (pkt, e))
      (hp : pkt.pfx = some p) : Obtained .ndntlv p
  | ccntlv {mem : List UInt8} {start : Nat} {c e : Cursor} {pkt : Pkt} {p : Prefix}
      (hs : start ≤ c.pos) (h : ccntlvBytes2pkt mem start c = .ok (pkt, e))
      (hp : pkt.pfx = some p) : Obtained .ccntlv p
  | chunk {suite : Suite} {q p : Prefix} {k : UInt32} (hq : q.chunknum = none)
      (hs : q.suite = suite) (h : prefixAddChunkNum q k = .ok p) : Obtained suite p

/-! ## NDN -/

section Ndn

variable {mem : List UInt8} {p q P Q : Prefix}

/-- What the parser makes of the components of a Name in `mem`. -/
structure NdnParsed (mem : List UInt8) (P : Prefix) : Prop where
  le : P.compcnt ≤ maxNameComp
  chunknum : P.chunknum = (P.comp.map (·.bytes mem)).foldl chunkOf none

theorem nameElem_parsed {hd typ i : Nat} {cp : Cursor} {e : Elem Prefix} (hP : NdnParsed mem P)
    (h : ndnNameElem mem hd typ i cp P = .ok e) :
    e = .next cp i (withComponent mem typ i cp.pos P) ∧
      NdnParsed mem (withComponent mem typ i cp.pos P) := by
  obtain ⟨hin, rfl⟩ := nameElem_eq_ok.mp h
  refine ⟨rfl, ?_⟩
  unfold withComponent
  split
  · rename_i hc
    obtain ⟨hlt, hmark⟩ := hin hc
    have hcomps : (P.comp ++ [(⟨cp.pos, i⟩ : Span)]).map (·.bytes mem) =
        P.comp.map (·.bytes mem) ++ [(mem.drop cp.pos).take i] := List.map_append
    refine ⟨?_, ?_⟩
    · rw [Prefix.compcnt, List.length_append, List.length_singleton]
      exact hc.2
    · rw [hcomps, List.foldl_append, ← hP.chunknum, List.foldl_cons, List.foldl_nil, chunkOf]
      dsimp only
      cases i with
      | zero =>
        -- behind an empty component there is no marker
        have hno : mem[cp.pos]? ≠ some ndnMarkerSegmentNumber := fun hm =>
          Nat.not_succ_le_zero _ (hmark hm).1.1
        rw [if_neg hno]
        rfl
      | succ i =>
        have hhead : ((mem.drop cp.pos).take (i + 1)).head? = mem[cp.pos]? := by
          rw [List.head?_take, if_neg (Nat.succ_ne_zero i), List.head?_drop]
        have htail : ((mem.drop cp.pos).take (i + 1)).tail = (mem.drop (cp.pos + 1)).take i := by
          rw [← List.tail_drop]
          cases mem.drop cp.pos <;> simp
        rw [hhead, htail]
        rfl
  · exact hP

theorem ndnElem_parsed {start hd typ len : Nat} {cur : Cursor} {s t : NdnState}
    (hs : ∀ p, s.pkt.pfx = some p → NdnParsed mem p)
    (h : ndnElem mem start hd typ len cur s = .ok t) :
    ∀ p, t.pkt.pfx = some p → NdnParsed mem p := by
  cases ndnElem_taken h with
  | @name P _ _ hn =>
    have hP : NdnParsed mem P := nested_keeps (I := NdnParsed mem) hn ⟨Nat.zero_le _, rfl⟩
      fun hd typ i cp Q e hQ he => by
        obtain ⟨rfl, hQ'⟩ := nameElem_parsed hQ he
        exact hQ'
    rintro p ⟨⟩
    exact ⟨hP.le, hP.chunknum⟩
  | selectors | nonce | scope | content | metaInfo | interestLifetime | fragFields | signatureInfo
  | digest | noDigest | other => exact hs

/-- A parsed name has room for 64 components, and its chunk number is the last one among them. -/
theorem ndnBytes2pkt_parsed {type start : Nat} {c e : Cursor} {pkt : Pkt} (hs : start ≤ c.pos)
    (h : ndntlvBytes2pkt mem type start c = .ok (pkt, e)) (hp : pkt.pfx = some p) :
    p.compcnt ≤ maxNameComp ∧ p.chunknum = p.comps.foldl chunkOf none := by
  obtain ⟨-, t, htop, -, buf, hbuf, rfl⟩ := ndntlvBytes2pkt_eq_ok.mp h
  obtain ⟨-, rfl⟩ := rdBytes_eq_ok.mp hbuf
  obtain ⟨Q, hQ, rfl⟩ := Option.map_eq_some_iff.mp hp
  obtain ⟨hin, -⟩ := packetLoop_inside htop hs ⟨by simp [ndnPkt], by simp [ndnPkt]⟩
  obtain ⟨hle, hchunk⟩ : NdnParsed mem Q :=
    top_keeps (I := fun s => ∀ p, s.pkt.pfx = some p → NdnParsed mem p) htop (by simp [ndnPkt])
      (fun _ _ _ _ _ _ => ndnElem_parsed) Q hQ
  refine ⟨?_, ?_⟩
  · rw [Prefix.compcnt, List.length_map]
    exact hle
  · rw [Prefix.comps, map_bytes_rebase (hin.pfx Q hQ).comp]
    exact hchunk

theorem Obtained.ndn (h : Obtained .ndntlv p) :
    p.compcnt ≤ maxNameComp ∧ p.chunknum = p.comps.foldl chunkOf none := by
  cases h with
  | ndntlv hs h hp => exact ndnBytes2pkt_parsed hs h hp
  | @chunk _ _ _ k hq hs h =>
    obtain ⟨hk, hcnt, -, hnum, cmp, vs, hcmp, hvs, hcomps⟩ := prefixAddChunkNum_eq_ok h
    rw [hs] at hcmp
    cases hcmp
    have hnum' : nonNeg [UInt8.ofNat k.toNat] = k.toNat := by
      have hlt : k.toNat < 255 := UInt32.lt_iff_toNat_lt.mp hk
      rw [nonNeg_eq_beNat (by simp)]
      show 0 * 2 ^ 8 + (UInt8.ofNat k.toNat).toNat = k.toNat
      rw [UInt8.toNat_ofNat']
      omega
    refine ⟨?_, ?_⟩
    · rw [← Prefix.length_comps, hcomps, List.length_append, hvs]
      exact hcnt
    · rw [hnum, hcomps, List.foldl_append, List.foldl_cons, List.foldl_nil, chunkOf, List.head?_cons,
        if_pos rfl, List.tail_cons, hnum']

/-- A number from the parser has 64 bits. -/
theorem nonNeg_lt (bs : List UInt8) : nonNeg bs < 2 ^ 64 := by
  induction bs using List.reverseRecOn with
  | nil => decide
  | append_singleton bs b _ =>
    have hb := b.toNat_lt
    rw [nonNeg_concat, u64]
    omega

theorem foldl_chunkOf_lt (vs : List (List UInt8)) : ∀ k ∈ vs.foldl chunkOf none, k < 2 ^ 64 := by
  induction vs using List.reverseRecOn with
  | nil => nofun
  | append_singleton vs v ih =>
    rw [List.foldl_append, List.foldl_cons, List.foldl_nil, chunkOf]
    split
    · rintro k ⟨⟩
      exact nonNeg_lt _
    · exact ih

/-- The parser leaves the chunk number out only if it has no room for it. -/
theorem take_wireComps (h : p.compcnt ≤ maxNameComp) :
    (wireComps p).take maxNameComp = p.comps ↔ p.chunknum = none ∨ p.compcnt = maxNameComp := by
  rw [← Prefix.length_comps] at h ⊢
  unfold wireComps
  cases p.chunknum with
  | none => simp [chunkComp, List.take_of_length_le h]
  | some k =>
    simp only [chunkComp, reduceCtorEq, false_or]
    constructor
    · intro heq
      have hlen := congrArg List.length heq
      rw [List.length_take, List.length_append, List.length_singleton] at hlen
      omega
    · intro heq
      rw [← heq, List.take_left]

theorem compsTaken_wireComps {b : UInt8} (h : p.compcnt ≤ maxNameComp)
    (hc : p.chunknum = none ∨ p.compcnt = maxNameComp) : CompsTaken b maxNameComp (wireComps p) ↔
      (∀ v ∈ p.comps, v.head? = some ndnMarkerSegmentNumber → nonNeg v.tail ≤ uint32Max) ∧
        (p.chunknum = none → p.comps.getLast? = some [] → b ≠ ndnMarkerSegmentNumber) := by
  rw [CompsTaken, (take_wireComps h).mpr hc]
  refine and_congr_right fun _ => ?_
  unfold wireComps
  cases hk : p.chunknum with
  | none => simp [chunkComp, h]
  | some k =>
    rw [hk] at hc
    simp only [reduceCtorEq, false_or] at hc
    simp [chunkComp, hc]

/-- The parser takes a name that was written, as far as it has room, so the chunk number that is
written behind the components does no harm only if there are 64 of them. -/
theorem ndn_reencode_iff {o o₁ : Back} {type start k n : Nat} {c : Cursor} {s : NdnState}
    (hp : Obtained .ndntlv p) (hw : ndntlvPrependName p o = .ok o₁)
    (h : NdnAround mem type start c k n s ((o₁.buf.drop o₁.offset).take (o.offset - o₁.offset))) :
    (∃ pkt e q, ndntlvBytes2pkt mem type start c = .ok (pkt, e) ∧ pkt.pfx = some q ∧
      prefixCmp q none p .exact = 0) ↔
    (p.chunknum = none ∨ p.compcnt = maxNameComp) ∧ (ndnComps (wireComps p)).length < 2 ^ 32 ∧
      (∀ v ∈ p.comps, v.head? = some ndnMarkerSegmentNumber → nonNeg v.tail ≤ uint32Max) ∧
      (p.chunknum = none → p.comps.getLast? = some [] →
        mem[k + (o.offset - o₁.offset)]? ≠ some ndnMarkerSegmentNumber) := by
  obtain ⟨hcnt, hchunk⟩ := hp.ndn
  rw [prependName_eq (hchunk ▸ foldl_chunkOf_lt _)] at hw
  have hlen : o.offset - o₁.offset = (ndnNameOf (wireComps p)).length := by
    have := offset_pre hw
    rw [show ndnName p = ndnNameOf (wireComps p) from rfl] at this
    omega
  rw [hlen, show (ndnNameOf (wireComps p)).length = (ndnName p).length from rfl, (at_pre hw).take] at h
  obtain ⟨P, e, t, hafter⟩ := h.after
  obtain ⟨b, hb⟩ : ∃ b, mem[k + (ndnName p).length]? = some b :=
    ⟨_, List.getElem?_eq_getElem (ndnTop_end hafter).1⟩
  obtain ⟨hok, hname⟩ := @bytes2pkt_name_iff mem start c s type n k (wireComps p) b h hb
  have hbehind : mem[k + (ndnName p).length]? ≠ some ndnMarkerSegmentNumber ↔
      b ≠ ndnMarkerSegmentNumber := by
    rw [hb]
    simp
  rw [hlen, show (ndnNameOf (wireComps p)).length = (ndnName p).length from rfl, hbehind]
  constructor
  · rintro ⟨pkt, e, q, hpkt, hq, hsame⟩
    obtain ⟨q', hq', hcomps, -⟩ := hname pkt e hpkt
    obtain rfl := Option.some.inj (hq.symm.trans hq')
    obtain ⟨hsame, -⟩ := prefixCmp_exact_eq_zero.mp hsame
    have hc := (take_wireComps hcnt).mp (hcomps.symm.trans hsame)
    obtain ⟨hl, ht⟩ := hok.mp ⟨_, hpkt⟩
    exact ⟨hc, hl, (compsTaken_wireComps hcnt hc).mp ht⟩
  · rintro ⟨hc, hl, ht⟩
    obtain ⟨⟨pkt, e⟩, hpkt⟩ := hok.mpr ⟨hl, (compsTaken_wireComps hcnt hc).mpr ht⟩
    obtain ⟨q, hq, hcomps, hnum⟩ := hname pkt e hpkt
    rw [(take_wireComps hcnt).mpr hc] at hcomps hnum
    exact ⟨pkt, e, q, hpkt, hq, prefixCmp_exact_eq_zero.mpr ⟨hcomps, hnum.trans hchunk.symm⟩⟩

end Ndn

/-! ## CCNx -/

section Ccnx

variable {mem : List UInt8} {p q P Q : Prefix}

/-- An element that is there as a whole, from its header on. -/
theorem ccntlvHead_bytes {lim hd typ i v : Nat} (h : CcntlvHead mem lim hd typ i v)
    (hin : v + i ≤ mem.length) :
    (⟨hd, v - hd + i⟩ : Span).bytes mem = wireTLV typ ((mem.drop v).take i) ∧
      ((mem.drop v).take i).length = i ∧ i < 2 ^ 16 := by
  obtain ⟨rfl, -, -, rfl, hi, -⟩ := h
  have hhdr : ((mem.drop hd).take 4).length = 4 := by
    rw [List.length_take, List.length_drop]
    omega
  have htwo : (((mem.drop hd).take 4).take 2).length = 2 := by
    rw [List.length_take, hhdr]
    rfl
  have htwo' : (((mem.drop hd).take 4).drop 2).length = 2 := by rw [List.length_drop, hhdr]
  have hlen : ((mem.drop (hd + 4)).take i).length = i := by
    rw [List.length_take, List.length_drop]
    omega
  have hlt := beNat_lt (((mem.drop hd).take 4).drop 2)
  have hlo := beBytes_beNat (((mem.drop hd).take 4).take 2)
  have hhi := beBytes_beNat (((mem.drop hd).take 4).drop 2)
  rw [htwo] at hlo
  rw [htwo'] at hhi hlt
  refine ⟨?_, hlen, by rw [hi]; exact hlt⟩
  rw [Span.bytes, wireTLV, wireTL, hlen, hi, hlo, hhi, List.take_append_drop, ← hi,
    Nat.add_sub_cancel_left, List.take_add, List.drop_drop]

/-- What the parser makes of the elements of a Name in `mem`. -/
structure CcnxParsed (mem : List UInt8) (P : Prefix) : Prop where
  elem : ∀ w ∈ P.comp.map (·.bytes mem), NameElem w
  segment : P.chunknum = none → ∀ w ∈ P.comp.map (·.bytes mem),
    ∃ v : List UInt8, v.length < 2 ^ 16 ∧ w = wireTLV ccnxTlvNNameSegment v

theorem mem_map_addComp {sp : Span} {w : List UInt8} (h : w ∈ (P.addComp sp).comp.map (·.bytes mem)) :
    w ∈ P.comp.map (·.bytes mem) ∨ w = sp.bytes mem := by
  obtain ⟨t, ht, rfl⟩ := List.mem_map.mp h
  rcases mem_addComp ht with ht | rfl
  · exact .inl (List.mem_map_of_mem ht)
  · exact .inr rfl

theorem ccnxTlvN_type {typ : Nat} :
    (ccnxTlvN typ = .chunk → typ = ccnxTlvNChunk) ∧
      (ccnxTlvN typ = .nameSegment → typ = ccnxTlvNNameSegment) := by
  unfold ccnxTlvN
  refine ⟨?_, ?_⟩ <;> split <;> simp [ccnxTlvNChunk, ccnxTlvNNameSegment]

/-- The loop over a Name. -/
theorem ccnxName_parsed {cp : Cursor}
    (h : nested (ccntlvDehead mem) (ccntlvNameElem mem) cp P = .ok Q)
    (hin : cp.pos + cp.len ≤ mem.length) (hP : CcnxParsed mem P) : CcnxParsed mem Q := by
  refine nested_inv (ccntlvDehead_decodes mem) (ccntlvNameSpec_models mem)
    (I := fun _ => CcnxParsed mem) (Q := CcnxParsed mem) h hP ?_ (fun _ _ h _ => h) ?_
  · rintro k typ i c₁ c₂ i' P P' hP hh he hc hle
    obtain ⟨_, _, he, -, hv⟩ := ccntlvNameElem_eq_ok.mp he
    cases he
    have hcomp : ccnxTlvN typ = .chunk ∨ ccnxTlvN typ = .nameSegment → ∃ v : List UInt8,
        (⟨k, c₁.pos - k + i⟩ : Span).bytes mem = wireTLV typ v ∧ v.length = i ∧ v.length < 2 ^ 16 :=
      fun ht => by
        obtain ⟨hpos, rfl⟩ := ccntlvNameSpec_component hv ht
        obtain ⟨hb, hl, hlt⟩ := ccntlvHead_bytes hh (by omega)
        exact ⟨_, hb, hl, by rw [hl]; exact hlt⟩
    unfold withElem
    cases ht : ccnxTlvN typ <;> simp only
    case chunk =>
      obtain ⟨v, hb, hl, -⟩ := hcomp (.inl ht)
      have h4 : i ≤ 4 := by
        unfold ccntlvNameSpec at hv
        simp only [ht] at hv
        exact hv.1.1
      refine ⟨fun w hw => ?_, nofun⟩
      rcases mem_map_addComp hw with hw | rfl
      · exact hP.elem w hw
      · rw [hb, ccnxTlvN_type.1 ht]
        exact .chunk v (by omega)
    case nameSegment =>
      obtain ⟨v, hb, -, hlt⟩ := hcomp (.inr ht)
      have hnum : ∀ sp, (P.addComp sp).chunknum = P.chunknum := fun sp => by
        unfold Prefix.addComp
        split <;> rfl
      rw [ccnxTlvN_type.2 ht] at hb
      refine ⟨fun w hw => ?_, fun hnone w hw => ?_⟩
      · rcases mem_map_addComp hw with hw | rfl
        · exact hP.elem w hw
        · rw [hb]
          exact .segment v hlt
      · rcases mem_map_addComp hw with hw | rfl
        · exact hP.segment (hnum _ ▸ hnone) w hw
        · exact ⟨v, hlt, hb⟩
    all_goals exact hP
  · intro k typ i c₁ P P' _ he
    obtain ⟨_, _, he, -⟩ := ccntlvNameElem_eq_ok.mp he
    cases he

theorem ccntlvElem_parsed {start hmacStart hd typ len : Nat} {cur : Cursor} {s t : CcntlvState}
    (hs : CcnxParsed mem s.p) (hin : cur.pos + len ≤ mem.length)
    (h : ccntlvElem mem start hmacStart hd typ len cur s = .ok t) : CcnxParsed mem t.p := by
  cases ccntlvElem_taken h with
  | name _ hn =>
    have := ccnxName_parsed hn hin ⟨hs.elem, hs.segment⟩
    exact ⟨this.elem, this.segment⟩
  | endChunk | payload | algo | digest | noDigest | other => exact hs

/-- The components of a parsed name are elements of a Name, and segments if it has no chunk number. -/
theorem ccnxBytes2pkt_parsed {start : Nat} {c e : Cursor} {pkt : Pkt} (hs : start ≤ c.pos)
    (h : ccntlvBytes2pkt mem start c = .ok (pkt, e)) (hp : pkt.pfx = some p) :
    (∀ w ∈ p.comps, NameElem w) ∧ (p.chunknum = none → ∀ w ∈ p.comps,
      ∃ v : List UInt8, v.length < 2 ^ 16 ∧ w = wireTLV ccnxTlvNNameSegment v) := by
  obtain ⟨typ, len, c₁, s, hx, -, htop, h0, buf, hbuf, rfl⟩ := ccntlvBytes2pkt_eq_ok.mp h
  obtain ⟨hb, rfl⟩ := rdBytes_eq_ok.mp hbuf
  obtain rfl := Option.some.inj hp
  have hcur := ccntlvDehead_cursor hx
  obtain ⟨hin, hlim, hle⟩ := messageLoop_inside htop (by omega) (CcntlvState.init_inside _ _ _)
  have hlt := ccntlvDehead_eq_ok.mp hx
  have hmem : e.pos ≤ mem.length := by
    have := hlt.1.1
    unfold InBuf at hb
    omega
  have hparsed : CcnxParsed mem s.p := by
    obtain ⟨⟨-, -, -, hs⟩, -⟩ := top_inv (ccntlvDehead_decodes mem)
      (I := fun _ s => CcnxParsed mem s.p) htop ⟨by simp [CcntlvState.init], by simp [CcntlvState.init]⟩
      fun p typ len cur a a' ha _ _ he hle => ccntlvElem_parsed ha (by omega) he
    exact hs
  have hcomps : (s.p.comp.map (·.rebase start)).map (·.bytes ((mem.drop start).take (e.pos - start))) =
      s.p.comp.map (·.bytes mem) := map_bytes_rebase hin.p.comp
  obtain ⟨helem, hseg⟩ := hparsed
  rw [← hcomps] at helem hseg
  exact ⟨helem, hseg⟩

/-- A message in which nothing but its Name, the bytes `w` at `k` with `n` bytes behind, is in question:
the Name comes first, and what is behind is gone through, whatever came before, and has no other
Name. -/
structure CcnxAround (mem : List UInt8) (start : Nat) (c : Cursor) (k n : Nat) (w : List UInt8) :
    Prop where
  le : start ≤ c.pos
  head : ∃ type len, ccntlvDehead mem c = .ok (some (type, len), ⟨k, w.length + n⟩) ∧
    len ≤ w.length + n
  name : At mem k w
  inBuf : k + w.length + n ≤ mem.length
  after : ∀ s, ∃ e t, ccntlvTop mem start c.pos ⟨k + w.length, n⟩ s = .ok (⟨e, 0⟩, t) ∧ t.p = s.p

theorem length_ccnxVar_pos (k : Nat) : 0 < (ccnxVar k).length := by
  rw [ccnxVar, length_beBytes, varCount]
  split <;> omega

theorem ccnxWireComps_elems (h : ∀ w ∈ p.comps, NameElem w) : ∀ w ∈ ccnxWireComps p, NameElem w := by
  intro w hw
  rcases List.mem_append.mp hw with hw | hw
  · exact h w hw
  · cases hk : p.chunknum with
    | none => simp [hk] at hw
    | some k =>
      have hlen := length_ccnxVar k
      rw [hk] at hw
      rw [List.mem_singleton.mp hw, ccnxTLV_eq (by decide) (by omega)]
      exact .chunk _ hlen

/-- The components that are left of a Name whose length was cut are those of the name only if nothing
was cut and there is no chunk number behind them. -/
theorem ccnxWireComps_cut {us vs : List (List UInt8)} (hus : ccnxWireComps p = us ++ vs)
    (hcut : us.flatten.length = (ccnxWireComps p).flatten.length % 2 ^ 8) (h : us = p.comps) :
    p.chunknum = none ∧ p.comps.flatten.length < 2 ^ 8 := by
  subst h
  have hlen := congrArg (fun l : List (List UInt8) => l.flatten.length) hus
  unfold ccnxWireComps at hcut hlen
  cases hk : p.chunknum with
  | none =>
    rw [hk] at hcut
    simp only [List.append_nil] at hcut
    exact ⟨rfl, by omega⟩
  | some k =>
    have h₁ := length_ccnxVar k
    have h₀ := length_ccnxVar_pos k
    have hchunk : (ccnxTLV ccnxTlvNChunk (ccnxVar k)).length = 4 + (ccnxVar k).length :=
      List.length_append
    rw [hk] at hcut
    simp only [List.flatten_append, List.flatten_singleton, List.length_append, hchunk] at hcut
    omega

theorem ccntlvTop_limit {start hmacStart : Nat} {c e : Cursor} {s t : CcntlvState}
    (h : ccntlvTop mem start hmacStart c s = .ok (e, t)) : e.pos + e.len = c.pos + c.len :=
  (top_inv (ccntlvDehead_decodes mem) (I := fun _ _ => True) h trivial
    fun _ _ _ _ _ _ _ _ _ _ _ => trivial).2

/-- The components that come back are elements of a Name, so those that were written are, if they are
the same, and the parser has seen the Name up to the end of one of them. -/
theorem ccnx_reencode_iff {o o₁ : Back} {start k n : Nat} {c : Cursor} {last : Option UInt32}
    (hp : Obtained .ccntlv p) (hw : ccntlvPrependName p last o = .ok o₁)
    (h : CcnxAround mem start c k n ((o₁.buf.drop o₁.offset).take (o.offset - o₁.offset))) :
    (∃ pkt e q, ccntlvBytes2pkt mem start c = .ok (pkt, e) ∧ pkt.pfx = some q ∧
      prefixCmp q none p .exact = 0) ↔
    p.chunknum = none ∧ p.comps.flatten.length < 2 ^ 8 := by
  obtain ⟨-, hw⟩ := ccntlvPrependName_eq_ok.mp hw
  have hwritten := offset_pre hw
  rw [show o.offset - o₁.offset = (ccnxName p ++
    ccnxOptional ccnxTlvMEndChunk (last.map UInt32.toNat)).length by omega, (at_pre hw).take,
    ccnxName, ← flatten_ccnxWireComps] at h
  obtain ⟨hle, ⟨type, len, hhead, hlen⟩, hname, hin, hafter⟩ := h
  obtain ⟨hname, hopt⟩ := at_append.mp hname
  have hN : (ccnxTLV ccnxTlvMName (ccnxWireComps p).flatten).length =
      4 + (ccnxWireComps p).flatten.length := List.length_append
  have hlast : ∀ k ∈ last.map UInt32.toNat, k ≤ uint32Max := by
    intro k hk
    obtain ⟨l, -, rfl⟩ := Option.map_eq_some_iff.mp hk
    exact Nat.le_of_lt_succ l.toNat_lt
  rw [List.length_append, Nat.add_assoc] at hhead hlen
  rw [List.length_append, hN] at hin hafter
  rw [hN, ← Nat.add_assoc] at hopt
  have hstart : start ≤ k + 4 := by
    have := (ccntlvDehead_cursor hhead).1
    simp only at this
    omega
  -- what is behind the components
  have hrest : ∀ s, ∃ e t, ccntlvTop mem start c.pos ⟨k + 4 + (ccnxWireComps p).flatten.length,
      (ccnxOptional ccnxTlvMEndChunk (last.map UInt32.toNat)).length + n⟩ s = .ok (⟨e, 0⟩, t) ∧
        t.p = s.p := by
    intro s
    rw [top_endChunk hlast hopt]
    obtain ⟨e, t, htop, ht⟩ := hafter { s with pkt := { s.pkt with
      val := (last.map UInt32.toNat).getD s.pkt.val } }
    refine ⟨e, t, ?_, ht⟩
    rw [← htop]
    simp only [Nat.add_assoc]
  constructor
  · rintro ⟨pkt, e, q, hpkt, hq, hsame⟩
    obtain ⟨hcomps, -⟩ := prefixCmp_exact_eq_zero.mp hsame
    have hws := ccnxWireComps_elems (p := p) (hcomps ▸ (ccnxBytes2pkt_parsed hle hpkt hq).1)
    obtain ⟨type', len', c₁, s, hx, -, htop, -, buf, hbuf, rfl⟩ := ccntlvBytes2pkt_eq_ok.mp hpkt
    obtain ⟨-, rfl⟩ := Prod.mk.inj (Except.ok.inj (hx.symm.trans hhead))
    obtain ⟨us, vs, P, c', hus, hcut, hcomp, -, htop⟩ := top_ccnxName hws hname rfl rfl htop
    obtain ⟨e', t, htop', ht⟩ : ∃ e t, ccntlvTop mem start c.pos _ _ = .ok (⟨e, 0⟩, t) ∧ t.p = P :=
      hrest { CcntlvState.init type' c.pos with
        p := P, pkt := { (CcntlvState.init type' c.pos).pkt with content := c' } }
    obtain ⟨rfl, rfl⟩ := Prod.mk.inj (Except.ok.inj (htop.symm.trans htop'))
    have hend := ccntlvTop_limit htop'
    have hval := (at_ccnxTLV.mp hname).2
    have hmod := Nat.mod_le (ccnxWireComps p).flatten.length (2 ^ 8)
    rw [hus, List.flatten_append] at hval
    rw [← ht] at hcomp
    simp only at hend
    obtain ⟨q', hq', hcomps', -⟩ := finish_comps hcomp (at_append.mp hval).1 hstart
      (by simp only; omega) hbuf
    obtain rfl := Option.some.inj (hq.symm.trans hq')
    exact ccnxWireComps_cut hus hcut (hcomps'.symm.trans hcomps)
  · rintro ⟨hnone, hlt⟩
    have hcode : CcnxEncodable p := by
      refine ⟨?_, by simp [hnone]⟩
      cases hp with
      | ccntlv hs h hp =>
        intro w hw
        exact (ccnxBytes2pkt_parsed hs h hp).2 hnone w hw
      | chunk hq hs h =>
        obtain ⟨-, -, -, hnum, -⟩ := prefixAddChunkNum_eq_ok h
        rw [hnum] at hnone
        cases hnone
    have hplain : ccnxWireComps p = p.comps := by rw [ccnxWireComps, hnone, List.append_nil]
    rw [← hplain] at hlt
    obtain ⟨P, hcomp, hnum, htop⟩ := @top_ccnxName_short mem start c.pos k
      ((ccnxOptional ccnxTlvMEndChunk (last.map UInt32.toNat)).length + n)
      (.init type c.pos) _ hcode.elems hname hlt rfl rfl
    obtain ⟨e, t, htop', ht⟩ : ∃ e t, ccntlvTop mem start c.pos _ _ = .ok (⟨e, 0⟩, t) ∧ t.p = P :=
      hrest { CcntlvState.init type c.pos with p := P }
    have hend := ccntlvTop_limit htop'
    simp only at hend
    have hbuf := @rdBytes_packet mem start e (by omega) (by omega)
    rw [← ht] at hcomp
    obtain ⟨q, hq, hcomps, hnum'⟩ := finish_comps hcomp (at_ccnxTLV.mp hname).2 hstart (by omega) hbuf
    refine ⟨_, ⟨e, 0⟩, q, ccntlvBytes2pkt_eq_ok.mpr ⟨type, len, _, t, hhead, hlen, htop.trans htop', rfl,
      _, hbuf, rfl⟩, hq, prefixCmp_exact_eq_zero.mpr ⟨hcomps.trans hplain, ?_⟩⟩
    rw [hnum', ht, hnum, hcode.withChunk]

end Ccnx

/-! ## Both suites -/

/-- A name that was written into a packet by the suite's encoder comes back from the parser as the
same name exactly when it has no chunk number, or in NDN 64 components without it, and the parser
takes what was written: in NDN the Name is shorter than 2^32 bytes, the number behind each marker is
below 2^32, and an empty last component is not followed by a zero byte; in CCNx the components have
less than 256 bytes. -/
theorem reencode_iff {p : Prefix} {o o₁ : Back} {mem : List UInt8} {start k n : Nat} {c : Cursor} :
    (∀ type s, Obtained .ndntlv p → ndntlvPrependName p o = .ok o₁ →
      NdnAround mem type start c k n s ((o₁.buf.drop o₁.offset).take (o.offset - o₁.offset)) →
      ((∃ pkt e q, ndntlvBytes2pkt mem type start c = .ok (pkt, e) ∧ pkt.pfx = some q ∧
        prefixCmp q none p .exact = 0) ↔
      (p.chunknum = none ∨ p.compcnt = maxNameComp) ∧ (ndnComps (wireComps p)).length < 2 ^ 32 ∧
        (∀ v ∈ p.comps, v.head? = some ndnMarkerSegmentNumber → nonNeg v.tail ≤ uint32Max) ∧
        (p.chunknum = none → p.comps.getLast? = some [] →
          mem[k + (o.offset - o₁.offset)]? ≠ some ndnMarkerSegmentNumber))) ∧
    (∀ last, Obtained .ccntlv p → ccntlvPrependName p last o = .ok o₁ →
      CcnxAround mem start c k n ((o₁.buf.drop o₁.offset).take (o.offset - o₁.offset)) →
      ((∃ pkt e q, ccntlvBytes2pkt mem start c = .ok (pkt, e) ∧ pkt.pfx = some q ∧
        prefixCmp q none p .exact = 0) ↔
      p.chunknum = none ∧ p.comps.flatten.length < 2 ^ 8)) :=
  ⟨fun _ _ hp hw h => ndn_reencode_iff hp hw h, fun _ hp hw h => ccnx_reencode_iff hp hw h⟩

/-- The name /a, parsed. -/
def parsedNdnA : Prefix where
  mem := [5, 5, 7, 3, 8, 1, 97]
  comp := [⟨6, 1⟩]
  suite := .ndntlv
  nameptr := some 2
  namelen := 2

/-- The name /a, parsed. -/
def parsedCcnxA : Prefix where
  mem := [0, 1, 0, 9, 0, 0, 0, 5, 0, 1, 0, 1, 97]
  comp := [⟨8, 5⟩]
  suite := .ccntlv
  nameptr := some 4
  namelen := 4

/-- The name /a comes back in an Interest of both suites. -/
theorem reencode_a :
    (∃ pkt e q, ndntlvBytes2pkt [5, 5, 7, 3, 8, 1, 97, 9] ndnTlvInterest 0 ⟨2, 5⟩ = .ok (pkt, e) ∧
      pkt.pfx = some q ∧ prefixCmp q none parsedNdnA .exact = 0) ∧
    ∃ pkt e q, ccntlvBytes2pkt [0, 1, 0, 9, 0, 0, 0, 5, 0, 1, 0, 1, 97] 0 ⟨0, 13⟩ = .ok (pkt, e) ∧
      pkt.pfx = some q ∧ prefixCmp q none parsedCcnxA .exact = 0 := by
  constructor
  · obtain ⟨⟨pkt, e⟩, hpkt, hp⟩ : ∃ r, ndntlvBytes2pkt [5, 5, 7, 3, 8, 1, 97, 9] ndnTlvInterest 0
        ⟨2, 5⟩ = .ok r ∧ r.1.pfx = some parsedNdnA := exists_ok (by decide +kernel)
    refine (@reencode_iff _ (room 8) ⟨[0, 0, 0, 7, 3, 8, 1, 97], 3, by decide⟩ _ _ _ _ _).1 _ _
      (.ndntlv (Nat.zero_le _) hpkt hp) (by rfl) (@around_interest _ [[97]] 9 (by decide)) |>.mpr
      ⟨.inl rfl, by decide, by decide, by decide⟩
  · obtain ⟨⟨pkt, e⟩, hpkt, hp⟩ : ∃ r, ccntlvBytes2pkt [0, 1, 0, 9, 0, 0, 0, 5, 0, 1, 0, 1, 97] 0
        ⟨0, 13⟩ = .ok r ∧ r.1.pfx = some parsedCcnxA := exists_ok (by decide +kernel)
    refine (@reencode_iff _ (room 9) ⟨[0, 0, 0, 5, 0, 1, 0, 1, 97], 0, by decide⟩ _ _ 4 0 _).2 none
      (.ccntlv (Nat.zero_le _) hpkt hp) (by rfl) ?_ |>.mpr ⟨rfl, by decide⟩
    exact ⟨Nat.zero_le _, ⟨1, 9, by decide +kernel, by decide⟩, ⟨[], by decide⟩, by decide,
      fun s => ⟨_, _, ccntlvTop_end _, rfl⟩⟩

/-- The name /a, chunk 1. -/
def chunkedNdnA : Prefix where
  mem := [97, 0, 1]
  comp := [⟨0, 1⟩, ⟨1, 2⟩]
  suite := .ndntlv
  chunknum := some 1

/-- The name /a, chunk 1 comes back as /a/%00%01, chunk 1. -/
theorem reencode_chunk_twice : ¬ ∀ p o o₁ mem type start c k n s, Obtained .ndntlv p →
    ndntlvPrependName p o = .ok o₁ →
    NdnAround mem type start c k n s ((o₁.buf.drop o₁.offset).take (o.offset - o₁.offset)) →
    ∃ pkt e q, ndntlvBytes2pkt mem type start c = .ok (pkt, e) ∧ pkt.pfx = some q ∧
      prefixCmp q none p .exact = 0 := by
  intro h
  have hp : Obtained .ndntlv chunkedNdnA :=
    .chunk (q := { mem := [97], comp := [⟨0, 1⟩], suite := .ndntlv }) (k := 1) rfl rfl (by rfl)
  have hw : ndntlvPrependName chunkedNdnA (room 13) = .ok ⟨[7, 11, 8, 1, 97, 8, 2, 0, 1, 8, 2, 0, 1], 0,
    by decide⟩ := by rfl
  have ha := @around_interest [5, 13, 7, 11, 8, 1, 97, 8, 2, 0, 1, 8, 2, 0, 1, 9]
    [[97], [0, 1], [0, 1]] 9 (by decide)
  obtain ⟨hc, -⟩ := (ndn_reencode_iff hp hw ha).mp (h _ _ _ _ _ _ _ _ _ _ hp hw ha)
  exact absurd hc (by decide)

end Ccnl
