import CcnLite.Pkt.CcntlvGrammar

/-!
# Confinement of the CCNx-TLV parser

The message loop compares every length with what is left, the loop over a Name does not: there the
count is compared before the header is taken off, and `len > *datalen` is about the message's
counters. `ccntlvBytes2pkt_confined_iff` says that this is the only way out of the buffer: the
parser is confined exactly when the walk over each Name is.
-/

namespace Ccnl

open CRun Tlv

/-! ## Slices -/

section Inside

variable {mem : List UInt8} {start hmacStart : Nat}

theorem mem_addComp {p : Prefix} {s t : Span} (h : t ∈ (p.addComp s).comp) :
    t ∈ p.comp ∨ t = s := by
  unfold Prefix.addComp at h
  split at h
  · simpa using h
  · exact .inl h

/-- An element adds itself to the components, with its header, or nothing. -/
theorem mem_withElem {hd typ i q : Nat} {p : Prefix} {t : Span}
    (h : t ∈ (withElem mem hd typ i q p).comp) :
    t ∈ p.comp ∨ (t = ⟨hd, q - hd + i⟩ ∧ (ccnxTlvN typ = .chunk ∨ ccnxTlvN typ = .nameSegment)) := by
  unfold withElem at h
  cases ht : ccnxTlvN typ <;> simp only [ht] at h
  case chunk => exact (mem_addComp h).imp_right fun h => ⟨h, .inl rfl⟩
  case nameSegment => exact (mem_addComp h).imp_right fun h => ⟨h, .inr rfl⟩
  all_goals exact .inl h

@[simp] theorem nameptr_withElem {hd typ i q : Nat} {p : Prefix} :
    (withElem mem hd typ i q p).nameptr = p.nameptr := by
  unfold withElem Prefix.addComp
  cases ccnxTlvN typ <;> simp only <;> split <;> rfl

/-- A component steps over its whole value. -/
theorem ccntlvNameSpec_component {lim typ i q q' i' : Nat}
    (h : (ccntlvNameSpec mem).Value lim typ i q () q' i' ())
    (ht : ccnxTlvN typ = .chunk ∨ ccnxTlvN typ = .nameSegment) : q = q' ∧ i = i' := by
  simp only [ccntlvNameSpec] at h
  rcases ht with ht | ht <;> simp only [ht] at h
  · exact h.2
  · exact h

/-- The loop over a Name keeps the components, with their headers, between `lo` and its end. -/
theorem ccntlvName_inside {lo : Nat} {cp : Cursor} {p p' : Prefix}
    (h : nested (ccntlvDehead mem) (ccntlvNameElem mem) cp p = .ok p') (hlo : lo ≤ cp.pos)
    (h0 : ∀ s ∈ p.comp, s.Within lo cp.pos) :
    p'.nameptr = p.nameptr ∧ ∀ s ∈ p'.comp, s.Within lo (cp.pos + cp.len) := by
  let I : Nat → Prefix → Prop := fun k q =>
    cp.pos ≤ k ∧ q.nameptr = p.nameptr ∧ ∀ t ∈ q.comp, t.Within lo k
  let Q : Prefix → Prop := fun q =>
    q.nameptr = p.nameptr ∧ ∀ t ∈ q.comp, t.Within lo (cp.pos + cp.len)
  refine nested_inv (ccntlvDehead_decodes mem) (ccntlvNameSpec_models mem) (I := I) (Q := Q) h
    ⟨Nat.le_refl _, rfl, h0⟩ ?_ ?_ ?_
  · rintro k typ i c₁ c₂ i' q q' ⟨hk, hn, hq⟩ hh he hc hle
    have hlt := (ccntlvDehead_decodes mem).lt _ _ _ _ _ hh
    obtain ⟨_, _, he, -, hv⟩ := ccntlvNameElem_eq_ok.mp he
    cases he
    refine ⟨by omega, by rw [nameptr_withElem, hn], fun t ht => ?_⟩
    rcases mem_withElem ht with ht | ⟨rfl, htyp⟩
    · exact (hq t ht).mono (Nat.le_refl _) (by omega)
    · obtain ⟨hpos, rfl⟩ := ccntlvNameSpec_component hv htyp
      exact ⟨by simp only; omega, by simp only; omega⟩
  · rintro k q ⟨-, hn, hq⟩ hk
    exact ⟨hn, fun t ht => (hq t ht).mono (Nat.le_refl _) hk⟩
  · intro k typ i c₁ q q' _ he
    obtain ⟨_, _, he, -⟩ := ccntlvNameElem_eq_ok.mp he
    cases he

/-- The slices of a packet under construction lie between `lo` and `hi`. -/
structure CcntlvState.Inside (s : CcntlvState) (lo hi : Nat) : Prop where
  content : ∀ t, s.pkt.content = some t → t.Within lo hi
  p : s.p.Inside lo hi

/-- The body of the message loop keeps the slices between the start of the packet and the end of
the element. -/
theorem ccntlvElem_inside {hd typ len : Nat} {cur : Cursor} {s s' : CcntlvState}
    (h : ccntlvElem mem start hmacStart hd typ len cur s = .ok s') (hp : s.Inside start hd)
    (hlt : hd < cur.pos) (hs : start ≤ hd) : s'.Inside start (cur.pos + len) := by
  have hmono : s.Inside start (cur.pos + len) :=
    ⟨fun t ht => (hp.content t ht).mono (Nat.le_refl _) (by omega), hp.p.mono (by omega)⟩
  cases ccntlvElem_taken h with
  | @name p _ hn =>
    obtain ⟨hptr, hcomp⟩ := ccntlvName_inside hn (show start ≤ cur.pos by omega) fun t ht =>
      (hp.p.comp t ht).mono (Nat.le_refl _) (by simp only; omega)
    refine ⟨hmono.content, hcomp, ?_⟩
    intro a ha
    simp only [hptr, Option.some.injEq] at ha
    simp only
    omega
  | payload =>
    refine ⟨?_, hmono.p⟩
    rintro t ⟨⟩
    exact ⟨by simp only; omega, Nat.le_refl _⟩
  | endChunk | algo | digest => exact ⟨hmono.content, hmono.p⟩
  | noDigest | other => exact hmono

/-- The message loop ends with the slices between the start of the packet and the cursor. -/
theorem messageLoop_inside {c c' : Cursor} {s s' : CcntlvState}
    (h : top (ccntlvDehead mem) (ccntlvElem mem start hmacStart) c s = .ok (c', s'))
    (hs : start ≤ c.pos) (h0 : s.Inside start c.pos) :
    s'.Inside start c'.pos ∧ c'.pos + c'.len = c.pos + c.len ∧ c.pos ≤ c'.pos := by
  obtain ⟨⟨p, hp, hp', hin⟩, hlim⟩ := top_inv (ccntlvDehead_decodes mem)
    (I := fun p s => s.Inside start p) h h0
    fun p typ len cur a a' ha hle hlt he _ => ccntlvElem_inside he ha hlt (by omega)
  exact ⟨⟨fun t ht => (hin.content t ht).mono (Nat.le_refl _) hp', hin.p.mono hp'⟩, hlim,
    by omega⟩

/-- The state before the message loop has no slices. -/
theorem CcntlvState.init_inside (typ lo hi : Nat) : (init typ hmacStart).Inside lo hi :=
  ⟨by simp [init, ccntlvPkt], by simp [init], by simp [init]⟩

/-- What `ccntlvBytes2pkt` returns: the packet's bytes, with its slices among them. -/
theorem ccntlvBytes2pkt_inside {c c' : Cursor} {pkt : Pkt}
    (h : ccntlvBytes2pkt mem start c = .ok (pkt, c')) (hs : start ≤ c.pos) :
    c.pos ≤ c'.pos ∧ c'.pos + c'.len = c.pos + c.len ∧
      pkt.buf = (mem.drop start).take (c'.pos - start) ∧ pkt.Inside 0 (c'.pos - start) := by
  obtain ⟨typ, len, c₁, s, hx, -, hl, -, buf, hbuf, rfl⟩ := ccntlvBytes2pkt_eq_ok.mp h
  have hc := ccntlvDehead_cursor hx
  obtain ⟨hin, hlim, hle⟩ := messageLoop_inside hl (by omega) (CcntlvState.init_inside _ _ _)
  refine ⟨by omega, by omega, (rdBytes_eq_ok.mp hbuf).2.symm, Pkt.Inside.rebase ?_ _⟩
  exact ⟨hin.content, by rintro q ⟨⟩; exact hin.p⟩

end Inside

/-! ## The parser as a whole -/

/-- Every Name that the walk over a message comes to, from index `p` on, is confined: the elements
inside of it end below its own end. -/
def NamesConfined (mem : List UInt8) (lim p : Nat) : Prop :=
  ∀ t, Visits (ccntlvHeaders mem) (ccntlvMessageSpec mem) lim (p, ()) t →
    ∀ typ len q, CcntlvHead mem lim t.1 typ len q → ccnxTlvM typ = .name → q + len ≤ lim →
      Confined (ccntlvHeaders mem) (ccntlvNameSpec mem) (q + len) (q, ())

/-- The walk over a message inside the buffer is confined exactly when its Names are. -/
theorem topConfined_iff {mem : List UInt8} {lim p : Nat} (hl : lim ≤ mem.length) :
    TopConfined (ccntlvHeaders mem) (ccntlvMessageSpec mem) lim (p, ()) ↔
      NamesConfined mem lim p := by
  refine forall_congr' fun t => forall_congr' fun _ => ?_
  simp only [ConfAt, ccntlvHeaders, ccntlvMessageSpec]
  constructor
  · rintro ⟨-, h⟩ typ len q hh ht hle
    have := (h typ len q hh).1 hle
    simpa only [ht] using this
  · refine fun h => ⟨fun _ => by omega, fun typ len q hh => ⟨fun hle => ?_, ?_⟩⟩
    · cases ht : ccnxTlvM typ <;> simp only
      case name => exact h typ len q hh ht hle
      case endChunk => exact fun _ => .inr (by omega)
      case validationAlgo => exact fun _ => by omega
    · rintro q' i' b' ⟨⟨hle, -⟩, rfl, rfl⟩
      exact hle

/-- `ccntlvBytes2pkt` is confined exactly when the Names of its message are. -/
theorem safe_ccntlvBytes2pkt {mem : List UInt8} {start : Nat} {c : Cursor} (hs : start ≤ c.pos)
    (hc : c.pos + c.len ≤ mem.length) :
    Safe (ccntlvBytes2pkt mem start c) ↔
      ∀ typ len q, CcntlvHead mem (c.pos + c.len) c.pos typ len q → q + len ≤ c.pos + c.len →
        NamesConfined mem (c.pos + c.len) q := by
  unfold ccntlvBytes2pkt
  rw [safe_bind, and_iff_right (safe_ccntlvDehead.mpr fun _ => by omega)]
  constructor
  · intro hx typ len q hh hle
    have hq : q = c.pos + 4 ∧ q ≤ c.pos + c.len := ⟨hh.1, hh.2.1⟩
    have hlim : q + (c.pos + c.len - q) = c.pos + c.len := by omega
    have := hx _ ((ccntlvDehead_decodes mem).of_head hh)
    simp only at this
    rw [if_neg (by omega), safe_bind,
      safe_top (ccntlvDehead_decodes mem) (ccntlvElem_takes mem start c.pos), hlim,
      topConfined_iff hc] at this
    exact this.1
  · rintro hx ⟨_ | x, c₁⟩ hok
    · simp
    · obtain ⟨hh, hlim⟩ := ccntlvDehead_eq_ok.mp hok
      simp only
      split
      · simp
      · have hpos : c₁.pos = c.pos + 4 := hh.1
        rw [safe_bind, safe_top (ccntlvDehead_decodes mem) (ccntlvElem_takes mem start c.pos),
          hlim, topConfined_iff hc]
        refine ⟨hx _ _ _ hh (by omega), ?_⟩
        rintro ⟨c₂, s⟩ hl
        obtain ⟨-, hlim', -⟩ := messageLoop_inside hl (by omega) (CcntlvState.init_inside _ _ _)
        have : InBuf mem start (c₂.pos - start) := by
          unfold InBuf
          omega
        simp [this]

/-- The claim of confinement for the received bytes `mem`: if the fixed header passes, the parser
commits no fault, and its name and content slices lie among the bytes that were consumed. -/
def CcntlvConfined (mem : List UInt8) : Prop :=
  ∀ pkttype mem' c, ccntlvHeader mem ⟨0, mem.length⟩ = .ok (.pass pkttype mem' c) →
    Safe (ccntlvBytes2pkt mem' 0 c) ∧
      ∀ pkt c', ccntlvBytes2pkt mem' 0 c = .ok (pkt, c') →
        pkt.buf = mem'.take c'.pos ∧ pkt.Inside 0 c'.pos

/-- If the fixed header passes and the header of the message does, then inside of every Name that
the walk over the message comes to, the elements end below the end of the Name. -/
def CcntlvWireConfined (mem : List UInt8) : Prop :=
  ∀ pkttype mem' c, ccntlvHeader mem ⟨0, mem.length⟩ = .ok (.pass pkttype mem' c) →
    ∀ typ len q, CcntlvHead mem' mem.length c.pos typ len q → q + len ≤ mem.length →
      NamesConfined mem' mem.length q

/-- A fixed header that passes keeps the size of the buffer and the limit. -/
theorem ccntlvHeader_pass {mem mem' : List UInt8} {pkttype : UInt8} {c c' : Cursor}
    (h : ccntlvHeader mem c = .ok (.pass pkttype mem' c')) :
    mem'.length = mem.length ∧ c.pos ≤ c'.pos ∧ c'.pos + c'.len = c.pos + c.len := by
  unfold ccntlvHeader at h
  split at h
  · simp at h
  obtain ⟨version, -, h⟩ := (bind_eq_ok _ _ _).mp h
  split at h
  · simp at h
  obtain ⟨hp, -, h⟩ := (bind_eq_ok _ _ _).mp h
  simp only at h
  split at h
  · simp at h
  split at h
  · simp at h
  split at h
  · split at h
    · simp at h
    · cases h
      exact ⟨List.length_set .., by simp only; omega, by simp only; omega⟩
  · cases h
    exact ⟨rfl, by simp only; omega, by simp only; omega⟩

/-- The CCNx-TLV parser is confined to its buffer exactly on the byte strings with
`CcntlvWireConfined`. -/
theorem ccntlvBytes2pkt_confined_iff (mem : List UInt8) :
    CcntlvConfined mem ↔ CcntlvWireConfined mem := by
  refine forall_congr' fun pkttype => forall_congr' fun mem' => forall_congr' fun c =>
    forall_congr' fun h => ?_
  obtain ⟨hmem, -, hlim⟩ := ccntlvHeader_pass h
  simp only [Nat.zero_add] at hlim
  rw [and_iff_left, safe_ccntlvBytes2pkt (Nat.zero_le _) (by omega), hlim]
  intro pkt c' hp
  obtain ⟨-, -, hbuf, hin⟩ := ccntlvBytes2pkt_inside hp (Nat.zero_le _)
  exact ⟨by simpa using hbuf, hin⟩

/-- An Interest with a Name of four bytes, in which the header of a name segment says that one
more byte follows. The loop over the Name takes its counter below zero. -/
theorem ccntlvBytes2pkt_long_segment :
    ¬ CcntlvConfined [1, 0, 0, 21, 10, 0, 0, 9, 0, 0, 1, 0, 8, 0, 0, 0, 4, 0, 1, 0, 1] := by
  intro h
  have hpass : ccntlvHeader [1, 0, 0, 21, 10, 0, 0, 9, 0, 0, 1, 0, 8, 0, 0, 0, 4, 0, 1, 0, 1] ⟨0, 21⟩ =
      .ok (.pass 0 [1, 0, 0, 21, 9, 0, 0, 9, 0, 0, 1, 0, 8, 0, 0, 0, 4, 0, 1, 0, 1] ⟨9, 12⟩) := by
    decide +kernel
  cases (h _ _ _ hpass).1 .wrap (by decide +kernel)

end Ccnl
