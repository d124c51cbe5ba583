import CcnLite.Pkt.CcnbElems

/-!
# CCNB packets

The packet loop on the wire: `PacketPass` is one element of a packet. `safe_ccnbBytes2pkt` and
`ccnbBytes2pkt_returns` say when the parser of a packet is confined and when it returns,
`ccnbBytes2pkt_inside` where the slices of what it returns lie.
-/

namespace Ccnl

open CRun Relation

/-! ## Elements of a packet -/

/-- What the walk over a packet remembers: the components so far, with their blobs, and whether
there was a nonce and a publisher key digest. -/
structure CcnbMemo where
  comp : List (Option Span) := []
  nonce : Bool := false
  ppkd : Bool := false

/-- What the walk remembers of the parser's variables. -/
def CcnbState.memo (s : CcnbState) : CcnbMemo :=
  ⟨s.comp, s.pkt.ccnb.nonce.isSome, s.pkt.ccnb.ppkd.isSome⟩

section Elem

variable (mem : List UInt8) (lim : Nat)

/-- The DTAG element `num`, with its header before `q`, is taken; it ends at `q'`. -/
def ElemTaken (num q : Nat) (m : CcnbMemo) (q' : Nat) (m' : CcnbMemo) : Prop :=
  match ccnDtag num with
  | .name => ∃ comp, NameEnds mem lim (q, m.comp) (q', comp) ∧ m' = { m with comp := comp }
  | .content | .other => (∃ r, Hunts mem lim q q' r) ∧ m' = m
  | .scope => (∃ s, Hunts mem lim q q' (some s)) ∧ m' = m
  | .answerOrigKind => UintEnds mem lim uint16Max q q' ∧ m' = m
  | .minSuffComp | .maxSuffComp => UintEnds mem lim uint32Max q q' ∧ m' = m
  | .nonce => BufEnds mem lim m.nonce q q' ∧ m' = { m with nonce := true }
  | .pubPubKDigest => BufEnds mem lim m.ppkd q q' ∧ m' = { m with ppkd := true }

/-- The DTAG element `num`, with its header before `q`, is confined. -/
def ElemFine (num q : Nat) (m : CcnbMemo) : Prop :=
  match ccnDtag num with
  | .name => NameConfined mem lim (q, m.comp)
  | .content | .other => ¬ Overruns mem lim q
  | .scope | .answerOrigKind | .minSuffComp | .maxSuffComp => FieldFine mem lim q
  | .nonce => BufFine mem lim m.nonce q
  | .pubPubKDigest => BufFine mem lim m.ppkd q

variable {mem lim} {c c' : Cursor} {start hd num : Nat} {s s' : CcnbState}

/-- The body of the packet loop is confined exactly when the element is. -/
theorem safe_ccnbElem (hl : c.pos + c.len ≤ mem.length) :
    Safe (ccnbElem mem start hd num c s) ↔ ElemFine mem (c.pos + c.len) num c.pos s.memo := by
  unfold ccnbElem ElemFine CcnbState.memo
  cases ht : ccnDtag num <;>
    simp only [safe_bind, safe_ccnbName hl, safe_ccnbField hl, safe_ccnbUint hl, safe_ccnbBuf hl,
      safe_hunt hl, safe_consume hl, safe_pure, implies_true, and_true]
  case content => simp [SkipOverruns, IsBlob, IsOpen, ccnTtDtag, ccnTtBlob, ccnTtUdata]
  case scope =>
    rw [and_iff_left]
    rintro ⟨v, c₁⟩ hv
    have hin := (inBuf_of_field hl hv).2
    simp only
    split
    · simp only [safe_bind, safe_rd, safe_pure, implies_true, and_true]
      unfold InBuf at hin
      omega
    · simp

theorem consume_dtag_eq_ok {v w : Option Span} (hl : c.pos + c.len ≤ mem.length) :
    ccnbConsume mem ccnTtDtag num c v = .ok (c', w) ↔
      ∃ r, Hunts mem (c.pos + c.len) c.pos c'.pos r ∧ w = r.or v ∧
        c'.pos + c'.len = c.pos + c.len := by
  rw [consume_returns hl]
  simp [Skips, IsBlob, IsOpen, ccnTtDtag, ccnTtBlob, ccnTtUdata]

/-- What the body of the packet loop returns. -/
theorem ccnbElem_eq_ok (hl : c.pos + c.len ≤ mem.length)
    (h : ccnbElem mem start hd num c s = .ok (c', s')) :
    ElemTaken mem (c.pos + c.len) num c.pos s.memo c'.pos s'.memo ∧
      c'.pos + c'.len = c.pos + c.len := by
  unfold ccnbElem at h
  unfold ElemTaken CcnbState.memo
  cases ht : ccnDtag num <;> simp only [ht, bind_eq_ok] at h ⊢
  case name =>
    obtain ⟨⟨c₁, comp⟩, hn, h⟩ := h
    cases h
    obtain ⟨he, hlim⟩ := (ccnbName_eq_ok hl).mp hn
    exact ⟨⟨comp, he, rfl⟩, hlim⟩
  case content =>
    obtain ⟨⟨c₁, v⟩, hn, h⟩ := h
    cases h
    obtain ⟨r, hr, -, hlim⟩ := (consume_dtag_eq_ok hl).mp hn
    exact ⟨⟨⟨r, hr⟩, rfl⟩, hlim⟩
  case scope =>
    obtain ⟨⟨v, c₁⟩, hn, h⟩ := h
    obtain ⟨hr, hlim⟩ := (ccnbField_eq_ok hl).mp hn
    simp only at h
    split at h
    · obtain ⟨b, -, h⟩ := (bind_eq_ok _ _ _).mp h
      cases h
      exact ⟨⟨⟨v, hr⟩, rfl⟩, hlim⟩
    · cases h
      exact ⟨⟨⟨v, hr⟩, rfl⟩, hlim⟩
  case nonce =>
    obtain ⟨⟨v, c₁⟩, hn, h⟩ := h
    cases h
    obtain ⟨he, hv, hlim⟩ := ccnbBuf_ends hl hn
    exact ⟨⟨he, congrArg (CcnbMemo.mk _ · _) hv⟩, hlim⟩
  case pubPubKDigest =>
    obtain ⟨⟨v, c₁⟩, hn, h⟩ := h
    cases h
    obtain ⟨he, hv, hlim⟩ := ccnbBuf_ends hl hn
    exact ⟨⟨he, congrArg (CcnbMemo.mk _ _) hv⟩, hlim⟩
  case other =>
    obtain ⟨⟨c₁, v⟩, hn, h⟩ := h
    cases h
    obtain ⟨hr, hlim⟩ := (hunt_eq_ok hl).mp hn
    exact ⟨⟨⟨v, hr⟩, rfl⟩, hlim⟩
  all_goals
    obtain ⟨⟨v, c₁⟩, hn, h⟩ := h
    cases h
    obtain ⟨⟨t, hr, hv, hle⟩, hlim⟩ := (ccnbUint_eq_ok hl).mp hn
    exact ⟨⟨⟨t, v, hr, hv, hle⟩, rfl⟩, hlim⟩

/-- An element that is taken on the wire is one that the body of the packet loop takes. -/
theorem ElemTaken.ccnbElem {q' : Nat} {m' : CcnbMemo} (hl : c.pos + c.len ≤ mem.length)
    (h : ElemTaken mem (c.pos + c.len) num c.pos s.memo q' m') :
    ∃ s', ccnbElem mem start hd num c s = .ok (⟨q', c.pos + c.len - q'⟩, s') ∧ s'.memo = m' := by
  unfold ElemTaken at h
  unfold Ccnl.ccnbElem
  cases ht : ccnDtag num <;> simp only [ht] at h ⊢
  case name =>
    obtain ⟨comp, he, rfl⟩ := h
    have := he.le
    have hn := (@ccnbName_eq_ok mem c ⟨q', c.pos + c.len - q'⟩ s.comp comp hl).mpr
      ⟨he, by simp only at this ⊢; omega⟩
    change ccnbName mem c s.comp = _ at hn
    rw [hn]
    exact ⟨_, rfl, rfl⟩
  case content =>
    obtain ⟨⟨r, hr⟩, rfl⟩ := h
    have := hr.lt
    rw [(@consume_dtag_eq_ok mem c ⟨q', c.pos + c.len - q'⟩ num _ _ hl).mpr
      ⟨r, hr, rfl, by simp only; omega⟩]
    exact ⟨_, rfl, rfl⟩
  case scope =>
    obtain ⟨⟨v, hr⟩, rfl⟩ := h
    have := hr.lt
    have hf := (@ccnbField_eq_ok mem c ⟨q', c.pos + c.len - q'⟩ v hl).mpr
      ⟨hr, by simp only; omega⟩
    rw [hf]
    simp only [ok_bind]
    split
    · have hin := (inBuf_of_field hl hf).2
      unfold InBuf at hin
      obtain ⟨b, hb⟩ : ∃ b, mem[v.off]? = some b := ⟨_, List.getElem?_eq_getElem (by omega)⟩
      rw [rd_eq_ok.mpr hb]
      exact ⟨_, rfl, rfl⟩
    · exact ⟨_, rfl, rfl⟩
  case nonce =>
    obtain ⟨he, rfl⟩ := h
    obtain ⟨new, hn, hv⟩ := BufEnds.ccnbBuf hl he
    rw [hn]
    exact ⟨_, rfl, congrArg (CcnbMemo.mk _ · _) hv⟩
  case pubPubKDigest =>
    obtain ⟨he, rfl⟩ := h
    obtain ⟨new, hn, hv⟩ := BufEnds.ccnbBuf hl he
    rw [hn]
    exact ⟨_, rfl, congrArg (CcnbMemo.mk _ _) hv⟩
  case other =>
    obtain ⟨⟨r, hr⟩, rfl⟩ := h
    rw [hr.hunt hl]
    exact ⟨_, rfl, rfl⟩
  all_goals
    obtain ⟨hu, rfl⟩ := h
    obtain ⟨v, hv⟩ := hu.ccnbUint hl
    rw [hv]
    exact ⟨_, rfl, rfl⟩

end Elem

/-! ## Packets -/

section Packet

variable (mem : List UInt8) (lim : Nat)

/-- One element of a packet. -/
def PacketPass (s t : Nat × CcnbMemo) : Prop :=
  ∃ num typ q, CcnbAt mem lim s.1 num typ q ∧ ¬ IsEnd num typ ∧
    if typ = ccnTtDtag then ElemTaken mem lim num q s.2 t.1 t.2
    else (∃ r, Skips mem lim typ num q t.1 r) ∧ t.2 = s.2

/-- The element at a place of a packet is confined. -/
def PacketFine (s : Nat × CcnbMemo) : Prop :=
  ∀ num typ q, CcnbAt mem lim s.1 num typ q → ¬ IsEnd num typ →
    if typ = ccnTtDtag then ElemFine mem lim num q s.2 else ¬ SkipOverruns mem lim typ num q

/-- The packet ends at a place, before `p'`: there is an end marker, or no header. -/
def PacketEndAt (p p' : Nat) : Prop :=
  CcnbAt mem lim p 0 0 p' ∨ (∀ num typ q, ¬ CcnbAt mem lim p num typ q) ∧ p' = p

/-- Every component that was counted has a blob. -/
def CcnbMemo.Full (m : CcnbMemo) : Prop := ∀ v ∈ m.comp, v.isSome

/-- The walk over a packet from `p` on is confined, and where the packet ends its components are
there. -/
def PacketConfined (p : Nat) : Prop :=
  ∀ t, ReflTransGen (PacketPass mem lim) (p, {}) t →
    PacketFine mem lim t ∧ ∀ p', PacketEndAt mem lim t.1 p' → t.2.Full

/-- The packet from `p` on ends before `p'`. -/
def PacketEnds (p p' : Nat) : Prop :=
  ∃ t, ReflTransGen (PacketPass mem lim) (p, {}) t ∧ PacketEndAt mem lim t.1 p' ∧ t.2.Full

variable {mem lim}

theorem ElemTaken.le {num q q' : Nat} {m m' : CcnbMemo} (h : ElemTaken mem lim num q m q' m') :
    q ≤ q' ∧ q' ≤ lim := by
  have hunt : ∀ r, Hunts mem lim q q' r → q ≤ q' ∧ q' ≤ lim := fun r hr => by
    have := hr.lt
    omega
  unfold ElemTaken at h
  cases ht : ccnDtag num <;> simp only [ht] at h
  case name =>
    obtain ⟨comp, he, -⟩ := h
    have := he.le
    simp only at this
    omega
  case scope =>
    obtain ⟨⟨s, hr⟩, -⟩ := h
    exact hunt _ hr
  case content =>
    obtain ⟨⟨r, hr⟩, -⟩ := h
    exact hunt _ hr
  case other =>
    obtain ⟨⟨r, hr⟩, -⟩ := h
    exact hunt _ hr
  case nonce =>
    obtain ⟨⟨r, hr, -⟩, -⟩ := h
    exact hunt _ hr
  case pubPubKDigest =>
    obtain ⟨⟨r, hr, -⟩, -⟩ := h
    exact hunt _ hr
  all_goals
    obtain ⟨⟨s, v, hr, -⟩, -⟩ := h
    exact hunt _ hr

theorem PacketPass.le {s t : Nat × CcnbMemo} (h : PacketPass mem lim s t) :
    s.1 < t.1 ∧ t.1 ≤ lim := by
  obtain ⟨num, typ, q, hat, -, h⟩ := h
  have := hat.lt
  split at h
  · have := h.le
    omega
  · obtain ⟨⟨r, hr⟩, -⟩ := h
    have := hr.le
    omega

variable {c c' : Cursor} {start : Nat} {s s' : CcnbState}

theorem ccnbStep_again (hlim : c.pos + c.len = lim) (hl : lim ≤ mem.length)
    (hs : Again (ccnbStep mem start) (c, s) (c', s')) :
    PacketPass mem lim (c.pos, s.memo) (c'.pos, s'.memo) ∧ c'.pos + c'.len = lim := by
  subst hlim
  unfold Again ccnbStep at hs
  unfold PacketPass
  simp only at hs ⊢
  rcases ccnbDehead_cases hl with ⟨hx, hno⟩ | ⟨num, typ, c₁, hx, hat, hc₁⟩ <;>
    rw [hx, ok_bind] at hs
  · simp at hs
  · rw [hat.exists_iff]
    change (if IsEnd num typ then _ else if typ = ccnTtDtag then _ else _) = _ at hs
    by_cases he : IsEnd num typ
    · simp [he] at hs
    have hlt := hat.lt
    by_cases htyp : typ = ccnTtDtag
    · subst htyp
      simp only [he, ↓reduceIte, bind_eq_ok, pure_eq_ok, Sum.inl.injEq] at hs
      obtain ⟨⟨c₂, s₂⟩, hel, hs⟩ := hs
      cases hs
      obtain ⟨ht, hlim'⟩ := ccnbElem_eq_ok (by omega) hel
      rw [hc₁] at ht hlim'
      exact ⟨⟨he, by rwa [if_pos rfl]⟩, hlim'⟩
    · simp only [he, htyp, ↓reduceIte, bind_eq_ok, pure_eq_ok, Sum.inl.injEq] at hs
      obtain ⟨⟨c₂, v⟩, hel, hs⟩ := hs
      cases hs
      obtain ⟨r, hr, -, hlim'⟩ := (consume_returns (by omega) _ _).mp hel
      rw [hc₁] at hr hlim'
      exact ⟨⟨he, by rw [if_neg htyp]; exact ⟨⟨r, hr⟩, rfl⟩⟩, hlim'⟩

theorem ccnbStep_of_pass (hlim : c.pos + c.len = lim) (hl : lim ≤ mem.length)
    {t : Nat × CcnbMemo} (hp : PacketPass mem lim (c.pos, s.memo) t) :
    ∃ s', Again (ccnbStep mem start) (c, s) (⟨t.1, lim - t.1⟩, s') ∧ s'.memo = t.2 := by
  subst hlim
  obtain ⟨num, typ, q, hat, he, hp⟩ := hp
  have hlt := hat.lt
  unfold Again ccnbStep
  simp only [hat.dehead hl, ok_bind]
  have he' : ¬ (num = 0 ∧ typ = 0) := he
  simp only [he', ↓reduceIte]
  simp only at hp
  by_cases htyp : typ = ccnTtDtag
  · simp only [htyp, ↓reduceIte] at hp ⊢
    have hq : q + (c.pos + c.len - q) = c.pos + c.len := by omega
    rw [← hq] at hp
    obtain ⟨s', hs', hm⟩ := ElemTaken.ccnbElem (c := ⟨q, c.pos + c.len - q⟩) (s := s)
      (by simp only; omega) hp
    simp only [hq] at hs'
    exact ⟨s', by rw [hs']; rfl, hm⟩
  · simp only [htyp, ↓reduceIte] at hp ⊢
    obtain ⟨⟨r, hr⟩, hm⟩ := hp
    have hle := hr.le
    have hq : q + (c.pos + c.len - q) = c.pos + c.len := by omega
    rw [← hq] at hr
    have hc := (consume_returns (c := ⟨q, c.pos + c.len - q⟩) (v := none) (by simp only; omega)
      ⟨t.1, c.pos + c.len - t.1⟩ (r.or none)).mpr ⟨r, hr, rfl, by simp only; omega⟩
    exact ⟨s, by rw [hc]; rfl, hm.symm⟩

theorem safe_ccnbStep (hlim : c.pos + c.len = lim) (hl : lim ≤ mem.length) :
    Safe (ccnbStep mem start (c, s)) ↔ PacketFine mem lim (c.pos, s.memo) := by
  subst hlim
  unfold ccnbStep PacketFine
  simp only
  rcases ccnbDehead_cases hl with ⟨hx, hno⟩ | ⟨num, typ, c₁, hx, hat, hc₁⟩ <;> rw [hx, ok_bind]
  · simp only [safe_pure, true_iff]
    exact fun num typ q hat => absurd hat (hno _ _ _)
  · rw [hat.forall_iff]
    change Safe (if IsEnd num typ then _ else if typ = ccnTtDtag then _ else _) ↔ _
    have hlt := hat.lt
    by_cases he : IsEnd num typ
    · simp [he]
    by_cases htyp : typ = ccnTtDtag
    · simp [htyp, @safe_ccnbElem mem c₁ start c.pos num s (by omega), hc₁]
    · simp [he, htyp, @safe_consume mem typ num c₁ none (by omega), hc₁]

theorem ccnbStep_leaves (hlim : c.pos + c.len = lim) (hl : lim ≤ mem.length) :
    ccnbStep mem start (c, s) = .ok (.inr (c', s')) ↔
      PacketEndAt mem lim c.pos c'.pos ∧ s' = s ∧ c'.pos + c'.len = lim := by
  subst hlim
  unfold ccnbStep PacketEndAt
  simp only
  rcases ccnbDehead_cases hl with ⟨hx, hno⟩ | ⟨num, typ, c₁, hx, hat, hc₁⟩ <;> rw [hx, ok_bind]
  · simp only [pure_eq_ok, Sum.inr.injEq, Prod.mk.injEq, hno, false_or, not_false_eq_true,
      implies_true, true_and]
    constructor
    · rintro ⟨rfl, rfl⟩
      exact ⟨rfl, rfl, rfl⟩
    · rintro ⟨hp, rfl, hl'⟩
      exact ⟨Cursor.ext hp.symm (by omega), rfl⟩
  · simp only
    change (if IsEnd num typ then _ else if typ = ccnTtDtag then _ else _) = _ ↔ _
    by_cases he : IsEnd num typ
    · obtain ⟨rfl, rfl⟩ := id he
      simp only [he, ↓reduceIte, pure_eq_ok, Sum.inr.injEq, Prod.mk.injEq]
      constructor
      · rintro ⟨rfl, rfl⟩
        exact ⟨.inl hat, rfl, hc₁⟩
      · rintro ⟨hat' | ⟨hno, -⟩, rfl, hl'⟩
        · exact ⟨Cursor.ext (hat.unique hat').2.2 (by have := (hat.unique hat').2.2; omega), rfl⟩
        · exact absurd hat (hno _ _ _)
    · have hne : ¬ CcnbAt mem (c.pos + c.len) c.pos 0 0 c'.pos := fun hat' =>
        he ⟨(hat.unique hat').1, (hat.unique hat').2.1⟩
      have hno : ¬ ∀ num typ q, ¬ CcnbAt mem (c.pos + c.len) c.pos num typ q := fun h =>
        h _ _ _ hat
      simp only [he, hne, hno, ↓reduceIte, false_and, or_self, iff_false]
      split <;> simp

theorem ccnbStep_lt (hlim : c.pos + c.len = lim) (hl : lim ≤ mem.length)
    (hs : Again (ccnbStep mem start) (c, s) (c', s')) : c'.len < c.len := by
  obtain ⟨hp, hlim'⟩ := ccnbStep_again hlim hl hs
  have := hp.le.1
  simp only at this
  omega

/-- A place on the wire is visited exactly when the packet loop starts a pass there. -/
theorem packet_reaches {t : Nat × CcnbMemo} (hl : c.pos + c.len ≤ mem.length) :
    (∃ u, Reached (ccnbStep mem start) (c, s) u ∧ (u.1.pos, u.2.memo) = t) ↔
      ReflTransGen (PacketPass mem (c.pos + c.len)) (c.pos, s.memo) t :=
  reached_map (fun u : Cursor × CcnbState => (u.1.pos, u.2.memo))
    (I := fun u => u.1.pos + u.1.len = c.pos + c.len)
    (fun _ _ hi hs => (ccnbStep_again hi hl hs).2)
    (fun _ _ hi hs => (ccnbStep_again hi hl hs).1)
    (fun _ t hi hp => by
      obtain ⟨s', hs', hm⟩ := ccnbStep_of_pass hi hl hp
      exact ⟨_, hs', Prod.ext rfl hm⟩) rfl

/-- The limit stays. -/
theorem packet_limit {u : Cursor × CcnbState} (hl : c.pos + c.len ≤ mem.length)
    (hr : Reached (ccnbStep mem start) (c, s) u) : u.1.pos + u.1.len = c.pos + c.len :=
  hr.invariant (I := fun u => u.1.pos + u.1.len = c.pos + c.len) rfl
    fun _ _ hi hs => (ccnbStep_again hi hl hs).2

/-- The packet loop returns from a place where the packet ends. -/
theorem packetLoop_eq_ok (hl : c.pos + c.len ≤ mem.length) :
    loop (ccnbStep mem start) (c.len + 1) (c, s) = .ok (c', s') ↔
      ∃ u, Reached (ccnbStep mem start) (c, s) (u, s') ∧
        PacketEndAt mem (c.pos + c.len) u.pos c'.pos ∧ c'.pos + c'.len = c.pos + c.len := by
  constructor
  · intro h
    obtain ⟨⟨u, t⟩, hu, hstep⟩ := loop_eq_ok h
    obtain ⟨hp, rfl, hlim⟩ := (ccnbStep_leaves (packet_limit hl hu) hl).mp hstep
    exact ⟨u, hu, hp, hlim⟩
  · rintro ⟨u, hu, hp, hlim⟩
    exact loop_of_reached (I := fun u => u.1.pos + u.1.len = c.pos + c.len)
      (fun _ _ hi hs => (ccnbStep_again hi hl hs).2) (m := fun u => u.1.len)
      (fun _ _ hi hs => ccnbStep_lt hi hl hs) rfl hu
      ((ccnbStep_leaves (packet_limit hl hu) hl).mpr ⟨hp, rfl, hlim⟩) (Nat.lt_succ_self _)

theorem PacketEndAt.le {p p' : Nat} (h : PacketEndAt mem lim p p') (hp : p ≤ lim) :
    p ≤ p' ∧ p' ≤ lim := by
  rcases h with hat | ⟨-, rfl⟩
  · have := hat.lt
    omega
  · omega

/-- `ccnl_ccnb_bytes2pkt` is confined exactly when the walk over the packet is. -/
theorem safe_ccnbBytes2pkt (hl : c.pos + c.len ≤ mem.length) :
    Safe (ccnbBytes2pkt mem start c) ↔ PacketConfined mem (c.pos + c.len) c.pos := by
  unfold ccnbBytes2pkt
  have hloop := @loop_safe_iff _ _ (ccnbStep mem start)
    (fun u => u.1.pos + u.1.len = c.pos + c.len) (fun u => u.1.len)
    (fun _ _ hi hs => (ccnbStep_again hi hl hs).2) (fun _ _ hi hs => ccnbStep_lt hi hl hs) _
    (c, { pkt := ccnbPkt }) rfl (Nat.lt_succ_self _)
  have hin : ∀ u p', u + p' = c.pos + c.len → InBuf mem start (u - start) := fun u p' h => by
    unfold InBuf
    omega
  simp only [safe_bind, hloop, safe_rdBytes, safe_mapM_handedOut, safe_pure, implies_true,
    and_true]
  constructor
  · rintro ⟨hpass, hend⟩ t ht
    obtain ⟨⟨u, s'⟩, hu, rfl⟩ :=
      (@packet_reaches mem c start { pkt := ccnbPkt } _ hl).mpr ht
    have hlim := packet_limit hl hu
    refine ⟨(safe_ccnbStep hlim hl).mp (hpass _ hu), fun p' hp' => ?_⟩
    have hle := hp'.le (by simp only at hlim ⊢; omega)
    have hret := (@packetLoop_eq_ok mem c ⟨p', c.pos + c.len - p'⟩ _ _ _ hl).mpr
      ⟨u, hu, hp', by simp only; omega⟩
    exact (hend _ hret).2 _
      (rdBytes_eq_ok.mpr ⟨hin p' (c.pos + c.len - p') (by omega), rfl⟩)
  · intro h
    refine ⟨fun u hu => (safe_ccnbStep (packet_limit hl hu) hl).mpr
      (h _ ((packet_reaches hl).mp ⟨u, hu, rfl⟩)).1, fun x hret => ?_⟩
    obtain ⟨u, hu, hp', hlim'⟩ := (packetLoop_eq_ok hl).mp hret
    exact ⟨hin _ _ hlim', fun _ _ => (h _ ((packet_reaches hl).mp ⟨_, hu, rfl⟩)).2 _ hp'⟩

/-- `ccnl_ccnb_bytes2pkt` returns where the packet on the wire ends. -/
theorem ccnbBytes2pkt_returns (hl : c.pos + c.len ≤ mem.length) :
    (∃ pkt, ccnbBytes2pkt mem start c = .ok (pkt, c')) ↔
      PacketEnds mem (c.pos + c.len) c.pos c'.pos ∧ c'.pos + c'.len = c.pos + c.len := by
  unfold ccnbBytes2pkt
  constructor
  · rintro ⟨pkt, h⟩
    obtain ⟨⟨c₁, s'⟩, hret, h⟩ := (bind_eq_ok _ _ _).mp h
    obtain ⟨buf, -, h⟩ := (bind_eq_ok _ _ _).mp h
    obtain ⟨comp, hcomp, h⟩ := (bind_eq_ok _ _ _).mp h
    cases h
    obtain ⟨u, hu, hp, hlim⟩ := (packetLoop_eq_ok hl).mp hret
    refine ⟨⟨_, (packet_reaches hl).mp ⟨_, hu, rfl⟩, hp, ?_⟩, hlim⟩
    have hall := mapM_handedOut.mp hcomp
    intro v hv
    change v ∈ s'.comp at hv
    rw [hall] at hv
    obtain ⟨x, -, rfl⟩ := List.mem_map.mp hv
    rfl
  · rintro ⟨⟨t, ht, hp, hfull⟩, hlim⟩
    obtain ⟨⟨u, s'⟩, hu, rfl⟩ :=
      (@packet_reaches mem c start { pkt := ccnbPkt } _ hl).mpr ht
    have hret := (packetLoop_eq_ok hl).mpr ⟨u, hu, hp, hlim⟩
    have hin : InBuf mem start (c'.pos - start) := by
      unfold InBuf
      omega
    obtain ⟨comp, hcomp⟩ := exists_mapM_handedOut hfull
    change s'.comp.mapM handedOut = _ at hcomp
    rw [hret]
    simp only [ok_bind, rdBytes_eq_ok.mpr ⟨hin, rfl⟩, hcomp]
    exact ⟨_, rfl⟩

/-! ### Slices -/

/-- The slices of a packet under construction lie between `lo` and `hi`, and the nonce is the bytes
of one that does. -/
structure CcnbState.Inside (s : CcnbState) (mem : List UInt8) (lo hi : Nat) : Prop where
  comp : ∀ t, some t ∈ s.comp → t.Within lo hi
  name : ∀ a, s.nameptr = some a → lo ≤ a ∧ a + s.namelen ≤ hi
  content : ∀ t, s.pkt.content = some t → t.Within lo hi
  nonce : ∀ b, s.pkt.ccnb.nonce = some b → ∃ t : Span, t.Within lo hi ∧ b = t.bytes mem

theorem CcnbState.Inside.mono {lo hi hi' : Nat} (h : s.Inside mem lo hi) (hh : hi ≤ hi') :
    s.Inside mem lo hi' where
  comp t ht := (h.comp t ht).mono (Nat.le_refl _) hh
  name a ha := ⟨(h.name a ha).1, Nat.le_trans (h.name a ha).2 hh⟩
  content t ht := (h.content t ht).mono (Nat.le_refl _) hh
  nonce b hb := by
    obtain ⟨t, ht, hbytes⟩ := h.nonce b hb
    exact ⟨t, ht.mono (Nat.le_refl _) hh, hbytes⟩

/-- The body of the packet loop keeps the slices between the start of the packet and the end of the
element. -/
theorem ccnbElem_inside {hd num : Nat} (hl : c.pos + c.len ≤ mem.length)
    (h : ccnbElem mem start hd num c s = .ok (c', s')) (hp : s.Inside mem start hd)
    (hlt : hd < c.pos) (hs : start ≤ hd) : s'.Inside mem start c'.pos := by
  obtain ⟨htaken, hlim⟩ := ccnbElem_eq_ok hl h
  have hle := htaken.le
  have hmono := hp.mono (show hd ≤ c'.pos by omega)
  unfold ccnbElem at h
  cases ht : ccnDtag num <;> simp only [ht, bind_eq_ok] at h
  case name =>
    obtain ⟨⟨c₁, comp⟩, hn, h⟩ := h
    cases h
    obtain ⟨he, -⟩ := (ccnbName_eq_ok hl).mp hn
    refine ⟨he.within (show start ≤ c.pos by omega) fun x hx =>
      (hp.comp x hx).mono (Nat.le_refl _) (by simp only; omega), ?_, hmono.content, hmono.nonce⟩
    intro a ha
    simp only [Option.some.injEq] at ha
    simp only at hle ⊢
    omega
  case content =>
    obtain ⟨⟨c₁, v⟩, hn, h⟩ := h
    cases h
    obtain ⟨r, hr, rfl, -⟩ := (consume_dtag_eq_ok hl).mp hn
    refine ⟨hmono.comp, hmono.name, fun t ht => ?_, hmono.nonce⟩
    cases r with
    | none => exact hmono.content t ht
    | some x => exact (hr.within ht).mono (by omega) (Nat.le_refl _)
  case scope =>
    obtain ⟨⟨v, c₁⟩, hn, h⟩ := h
    simp only at h
    split at h
    · obtain ⟨b, -, h⟩ := (bind_eq_ok _ _ _).mp h
      cases h
      exact ⟨hmono.comp, hmono.name, hmono.content, hmono.nonce⟩
    · cases h
      exact hmono
  case nonce =>
    obtain ⟨⟨v, c₁⟩, hn, h⟩ := h
    cases h
    obtain ⟨⟨r, hr, hv⟩, -⟩ := (ccnbBuf_eq_ok hl).mp hn
    refine ⟨hmono.comp, hmono.name, hmono.content, fun b hb => ?_⟩
    simp only [Pkt.setCcnb, Pkt.ccnb] at hb
    cases ho : s.pkt.ccnb.nonce with
    | some o =>
      rw [ho] at hv
      subst hv
      exact hmono.nonce b (ho.trans hb)
    | none =>
      rw [ho] at hv
      obtain ⟨t, rfl, rfl⟩ := hv
      exact ⟨t, (hr.within rfl).mono (by omega) (Nat.le_refl _), (Option.some.inj hb).symm⟩
  case other =>
    obtain ⟨⟨c₁, v⟩, hn, h⟩ := h
    cases h
    exact hmono
  all_goals
    obtain ⟨⟨v, c₁⟩, hn, h⟩ := h
    cases h
    exact ⟨hmono.comp, hmono.name, hmono.content, hmono.nonce⟩

/-- A pass of the packet loop keeps the slices between the start of the packet and the cursor. -/
theorem ccnbStep_inside (hlim : c.pos + c.len = lim) (hl : lim ≤ mem.length)
    (hs : Again (ccnbStep mem start) (c, s) (c', s')) (hstart : start ≤ c.pos)
    (hp : s.Inside mem start c.pos) : s'.Inside mem start c'.pos := by
  subst hlim
  have hle := (ccnbStep_again rfl hl hs).1.le
  unfold Again ccnbStep at hs
  simp only at hs hle
  rcases ccnbDehead_cases hl with ⟨hx, hno⟩ | ⟨num, typ, c₁, hx, hat, hc₁⟩ <;>
    rw [hx, ok_bind] at hs
  · simp at hs
  · simp only at hs
    split at hs
    · simp at hs
    split at hs
    · obtain ⟨⟨c₂, s₂⟩, hel, hs⟩ := (bind_eq_ok _ _ _).mp hs
      cases hs
      exact ccnbElem_inside (by omega) hel hp hat.lt.1 hstart
    · obtain ⟨⟨c₂, v⟩, hel, hs⟩ := (bind_eq_ok _ _ _).mp hs
      cases hs
      exact hp.mono (by omega)

/-- The packet's bytes are those from `start` to `stop`, its slices are among them, and its nonce is
the bytes of one. -/
structure CcnbInside (mem : List UInt8) (start stop : Nat) (pkt : Pkt) : Prop where
  buf : pkt.buf = (mem.drop start).take (stop - start)
  inside : pkt.Inside 0 (stop - start)
  nonce : ∀ b, pkt.ccnb.nonce = some b →
    ∃ t : Span, t.Within 0 (stop - start) ∧ b = t.bytes pkt.buf

/-- What `ccnl_ccnb_bytes2pkt` returns. -/
theorem ccnbBytes2pkt_inside {pkt : Pkt} (hl : c.pos + c.len ≤ mem.length) (hs : start ≤ c.pos)
    (h : ccnbBytes2pkt mem start c = .ok (pkt, c')) : CcnbInside mem start c'.pos pkt := by
  unfold ccnbBytes2pkt at h
  obtain ⟨⟨c₁, s'⟩, hret, h⟩ := (bind_eq_ok _ _ _).mp h
  obtain ⟨buf, hbuf, h⟩ := (bind_eq_ok _ _ _).mp h
  obtain ⟨comp, hcomp, h⟩ := (bind_eq_ok _ _ _).mp h
  cases h
  have hbuf := (rdBytes_eq_ok.mp hbuf).2.symm
  subst hbuf
  have hin : s'.Inside mem start c'.pos := by
    let I : Cursor × CcnbState → Prop := fun u =>
      u.1.pos + u.1.len = c.pos + c.len ∧ start ≤ u.1.pos ∧ u.2.Inside mem start u.1.pos
    let Q : Cursor × CcnbState → Prop := fun u => u.2.Inside mem start u.1.pos
    refine loop_inv (I := I) (Q := Q) hret ⟨rfl, hs, ?_⟩ ?_ ?_
    · exact ⟨by simp, by simp, by simp [ccnbPkt], by simp [ccnbPkt, Pkt.ccnb]⟩
    · rintro ⟨u, t⟩ ⟨u', t'⟩ ⟨hlim, hsu, hi⟩ hstep
      obtain ⟨hp, hlim'⟩ := ccnbStep_again hlim hl hstep
      have hle := hp.le
      simp only at hle hsu
      exact ⟨hlim', by simp only; omega, ccnbStep_inside hlim hl hstep hsu hi⟩
    · rintro ⟨u, t⟩ ⟨u', t'⟩ ⟨hlim, -, hi⟩ hstep
      obtain ⟨hp, rfl, -⟩ := (ccnbStep_leaves hlim hl).mp hstep
      exact hi.mono (hp.le (by simp only at hlim ⊢; omega)).1
  have hmem := mapM_handedOut.mp hcomp
  have hcomps : ∀ t ∈ comp, t.Within start c'.pos := fun t ht => hin.comp t (by
    rw [hmem]
    exact List.mem_map_of_mem ht)
  have hpkt : (s'.finish comp).Inside start c'.pos :=
    ⟨hin.content, by rintro p ⟨⟩; exact ⟨hcomps, hin.name⟩⟩
  refine ⟨rfl, hpkt.rebase _, fun b hb => ?_⟩
  obtain ⟨t, ht, rfl⟩ := hin.nonce b hb
  exact ⟨t.rebase start, within_rebase ht, (bytes_rebase ht).symm⟩

end Packet

end Ccnl
