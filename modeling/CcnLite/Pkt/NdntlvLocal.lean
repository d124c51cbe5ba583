import CcnLite.Pkt.NdntlvConfined
import CcnLite.Pkt.NdntlvDecode
import CcnLite.Pkt.Signed

/-!
# Where the NDN-TLV parser looks

An element that ends at the index `n` or before it is parsed alike in two memories that have the
first `n` bytes in common (`ndnElem_follows`), up to one byte: a nested loop may look at the byte at
its end, at the place of an empty component or of a signature type that is cut off. That byte
matters only if it marks a number or stands for HMAC (`Fence`).

* `ndnElem_effect`: which elements change what is delivered, and what is signed.
* `NdnDigestAt.same`: two runs over the same signed bytes are in the same state at the digest.
-/

namespace Ccnl

open CRun Tlv

variable {mem mem' : List UInt8} {n : Nat}

/-! ## Numbers and headers -/

/-- A number among the common bytes. -/
theorem numAt_agree (h : Agree mem mem' 0 0 n) {q v m : Nat} (hx : numAt mem q = some (v, m))
    (hm : m ≤ n) : numAt mem' q = some (v, m) := by
  have hq := (numAt_lt hx).1
  unfold numAt at hx ⊢
  rw [← h.get (Nat.zero_le q) rfl (by omega)]
  cases hb : mem[q]? with
  | none => simp [hb] at hx
  | some b =>
    simp only [hb] at hx ⊢
    split at hx
    · cases hx
    rename_i hsize
    obtain ⟨hv, rfl⟩ := Prod.mk.inj (Option.some.inj hx)
    have hle := h.le'
    rw [if_neg (by omega), ← hv]
    congr 4
    exact (h.slice (Nat.zero_le (q + 1)) rfl (k := numSize b - 1) (by omega)).take.symm

/-- A header among the common bytes. -/
theorem ndn_local (h : Agree mem mem' 0 0 n) : Local (ndnHeader mem) (ndnHeader mem') 0 0 n where
  len_le := by
    rintro lim q typ len v ⟨-, -, -, -, -, hlen⟩
    exact hlen
  head lim' lim q q' typ len v hh _ hv hq hlim hlen := by
    obtain ⟨m, hm, -, hm₂, -⟩ := hh
    have hlt := numAt_lt hm₂
    obtain rfl : q = q' := hq
    exact ⟨v, rfl, m, numAt_agree h hm (by omega), by omega, numAt_agree h hm₂ (by omega), by omega,
      hlen⟩

/-- A byte that neither marks a number nor stands for HMAC. -/
def Fence (mem : List UInt8) (q : Nat) : Prop :=
  ∃ b, mem[q]? = some b ∧ b ≠ ndnMarkerSegmentNumber ∧ b ≠ ndnValSigtypeHmac256

/-- The first byte of the type of the digest is such a byte. -/
theorem fence_of_digest {q typ m : Nat} (h : numAt mem q = some (typ, m))
    (ht : ndnTlv typ = .signatureValue) : Fence mem q := by
  have htyp : ∀ {b : UInt8}, b < 253 → b.toNat = typ → b ≠ 0 ∧ b ≠ 4 := fun {b} _ hb => by
    refine ⟨?_, ?_⟩
    all_goals
      rintro rfl
      subst hb
      cases ht
  unfold numAt at h
  cases hb : mem[q]? with
  | none => simp [hb] at h
  | some b =>
    simp only [hb] at h
    split at h
    · cases h
    obtain ⟨hv, -⟩ := Prod.mk.inj (Option.some.inj h)
    by_cases hlt : b < 253
    · rw [if_pos hlt] at hv
      exact ⟨b, hb, htyp hlt hv⟩
    · refine ⟨b, hb, ?_, ?_⟩
      all_goals
        rintro rfl
        exact hlt (by decide)

/-- The first `n` bytes are common, and the next one does not matter. -/
structure Fenced (mem mem' : List UInt8) (n : Nat) : Prop where
  agree : Agree mem mem' 0 0 n
  fence : Fence mem n
  fence' : Fence mem' n

theorem Fenced.symm (h : Fenced mem mem' n) : Fenced mem' mem n := ⟨h.agree.symm, h.fence', h.fence⟩

/-- Whether a byte is a marker. -/
theorem Fenced.marker (h : Fenced mem mem' n) {q : Nat} (hq : q ≤ n)
    (hm : mem[q]? = some ndnMarkerSegmentNumber) :
    q < n ∧ mem'[q]? = some ndnMarkerSegmentNumber := by
  rcases Nat.lt_or_eq_of_le hq with hlt | rfl
  · exact ⟨hlt, by rw [← h.agree.get (Nat.zero_le q) rfl (by omega), hm]⟩
  · obtain ⟨b, hb, hne, -⟩ := h.fence
    exact absurd (Option.some.inj (hb.symm.trans hm)) hne

theorem Fenced.hmac (h : Fenced mem mem' n) {q : Nat} (hq : q ≤ n)
    (hm : mem[q]? = some ndnValSigtypeHmac256) : mem'[q]? = some ndnValSigtypeHmac256 := by
  rcases Nat.lt_or_eq_of_le hq with hlt | rfl
  · rw [← h.agree.get (Nat.zero_le q) rfl (by omega), hm]
  · obtain ⟨b, hb, -, hne⟩ := h.fence
    exact absurd (Option.some.inj (hb.symm.trans hm)) hne

theorem Fenced.lt_length (h : Fenced mem mem' n) {q : Nat} (hq : q ≤ n) : q < mem'.length := by
  obtain ⟨b, hb, -⟩ := h.fence'
  have := (List.getElem?_eq_some_iff.mp hb).1
  omega

/-! ## Elements inside an element -/

theorem uintAt_agree (h : Agree mem mem' 0 0 n) {q k : Nat} (hk : q + k ≤ n) :
    uintAt mem q k = uintAt mem' q k :=
  congrArg nonNeg (h.slice (Nat.zero_le q) rfl (by omega)).take

theorem nonNegInt_agree (h : Agree mem mem' 0 0 n) {q k : Nat} (hk : q + k ≤ n) :
    ndntlvNonNegInt mem q k = ndntlvNonNegInt mem' q k := by
  rw [ndntlvNonNegInt, ndntlvNonNegInt, (h.slice (Nat.zero_le q) rfl (by omega)).rdBytes]

theorem marked_agree (h : Agree mem mem' 0 0 n) {q i bound : Nat} (hk : q + i ≤ n) :
    ndnMarked mem q i bound = ndnMarked mem' q i bound := by
  unfold ndnMarked afterMarker
  split
  · rw [ok_bind, ok_bind, nonNegInt_agree h (by omega)]
  · rfl

/-- With the same place in both memories, the one body does what the other does. -/
theorem elemFollows_same {α : Type} {elem elem' : Nat → Nat → Nat → Cursor → α → Run (Elem α)}
    (h : ∀ hd typ i c a e, c.pos + c.len ≤ n → elem hd typ i c a = .ok e →
      (∀ c' i' a', e = .next c' i' a' → i' ≤ c'.len) →
        elem' hd typ i c a = .ok e ∧ ∀ c' i' a', e = .next c' i' a' →
          c'.pos + c'.len = c.pos + c.len) : ElemFollows 0 0 n Eq elem elem' := by
  rintro hd hd' typ i c c' a _ - - rfl ⟨-, hpos, hlen, hlim⟩ rfl x hx
  obtain rfl : c = c' := Cursor.ext hpos hlen.symm
  obtain ⟨e, he, hx⟩ := (bind_eq_ok _ _ _).mp hx
  have hfits : ∀ c' i' a', e = .next c' i' a' → i' ≤ c'.len := by
    rintro c' i' a' rfl
    exact (stepOver_next_eq_ok.mp hx).1
  obtain ⟨he', hcur⟩ := h hd typ i c a e (by omega) he hfits
  refine ⟨x, (bind_eq_ok _ _ _).mpr ⟨e, he', hx⟩, ?_⟩
  cases e with
  | next c' i' a' =>
    obtain ⟨hi, rfl⟩ := stepOver_next_eq_ok.mp hx
    have := hcur _ _ _ rfl
    exact .inl ⟨⟨Nat.zero_le _, rfl, rfl, by simp only; omega⟩, rfl⟩
  | stop a' =>
    obtain rfl := stepOver_stop_eq_ok.mp hx
    exact .inr rfl

theorem nameElem_follows (h : Fenced mem mem' n) :
    ElemFollows 0 0 n Eq (ndnNameElem mem) (ndnNameElem mem') := by
  refine elemFollows_same fun hd typ i c p e hlim he hfits => ?_
  obtain ⟨hcomp, rfl⟩ := nameElem_eq_ok.mp he
  have hi := hfits _ _ _ rfl
  have huint : c.pos < n → uintAt mem (c.pos + 1) (i - 1) = uintAt mem' (c.pos + 1) (i - 1) :=
    fun _ => uintAt_agree h.agree (by omega)
  refine ⟨nameElem_eq_ok.mpr ⟨fun hc => ⟨h.lt_length (by omega), fun hm' => ?_⟩, ?_⟩, ?_⟩
  · obtain ⟨hlt, hm⟩ := h.symm.marker (by omega) hm'
    obtain ⟨⟨hone, -⟩, hv⟩ := (hcomp hc).2 hm
    have hle := h.agree.le'
    exact ⟨⟨hone, .inr (by omega)⟩, huint hlt ▸ hv⟩
  · unfold withComponent
    by_cases hm : mem[c.pos]? = some ndnMarkerSegmentNumber
    · obtain ⟨hlt, hm'⟩ := h.marker (by omega) hm
      rw [if_pos hm, if_pos hm', huint hlt]
    · have hm' : mem'[c.pos]? ≠ some ndnMarkerSegmentNumber := fun hm' =>
        hm (h.symm.marker (by omega) hm').2
      rw [if_neg hm, if_neg hm']
  · rintro _ _ _ ⟨⟩
    rfl

theorem selectorsElem_follows (h : Fenced mem mem' n) :
    ElemFollows 0 0 n Eq (ndnSelectorsElem mem) (ndnSelectorsElem mem') := by
  refine elemFollows_same fun hd typ i c d e hlim he hfits => ?_
  obtain ⟨-, d', rfl⟩ := selectorsElem_eq_ok he
  have hi := hfits _ _ _ rfl
  refine ⟨?_, ?_⟩
  · rw [← he]
    unfold ndnSelectorsElem
    rw [nonNegInt_agree h.agree (by omega)]
  · rintro _ _ _ ⟨⟩
    rfl

theorem signatureInfoElem_follows (h : Fenced mem mem' n) :
    ElemFollows 0 0 n Eq (ndnSignatureInfoElem mem) (ndnSignatureInfoElem mem') := by
  refine elemFollows_same fun hd typ i c hmac e hlim he hfits => ?_
  rcases signatureInfoElem_eq_ok.mp he with ⟨⟨ht, hb⟩, rfl⟩ | ⟨hb, rfl⟩
  · exact ⟨signatureInfoElem_eq_ok.mpr (.inl ⟨⟨ht, h.hmac (by omega) hb⟩, rfl⟩), nofun⟩
  · refine ⟨signatureInfoElem_eq_ok.mpr (.inr ⟨fun ht => ?_, rfl⟩), ?_⟩
    · exact ⟨h.lt_length (by omega), fun hm => (hb ht).2 (h.symm.hmac (by omega) hm)⟩
    · rintro _ _ _ ⟨⟩
      rfl

theorem metaInfoElem_follows (h : Fenced mem mem' n) :
    ElemFollows 0 0 n Eq (ndnMetaInfoElem mem) (ndnMetaInfoElem mem') := by
  refine elemFollows_same fun hd typ i c a e hlim he hfits => ?_
  obtain ⟨c', i', a', rfl, hle, hlim', hv⟩ := metaInfoElem_eq_ok he
  have hi := hfits _ _ _ rfl
  refine ⟨?_, ?_⟩
  · rw [← he]
    unfold ndnMetaInfoElem
    by_cases ht : typ = ndnTlvFinalBlockId
    · obtain ⟨typ', hh, -⟩ := (metaInfo_value_final ht).mp hv
      have hlt := hh.lt
      obtain ⟨v', hv', hh'⟩ := (ndn_local h.agree).head (c.pos + c.len) hh (Nat.zero_le _)
        (by omega) rfl (by omega) ((ndn_local h.agree).len_le hh)
      obtain rfl : c'.pos = v' := hv'
      have hne : ¬ typ = ndnTlvFreshnessPeriod := by
        rw [ht]
        decide
      rw [if_neg hne, if_neg hne, if_pos ht, if_pos ht, dehead_of_head hh, dehead_of_head hh',
        ok_bind, ok_bind]
      simp only [marked_agree h.agree (show c'.pos + i' ≤ n by omega)]
    · obtain ⟨-, hq, rfl⟩ := (metaInfo_value_other ht).mp hv
      rw [if_neg ht, if_neg ht, nonNegInt_agree h.agree (by omega)]
  · rintro _ _ _ ⟨⟩
    exact hlim'

/-! ## The elements of a packet -/

/-- An element among the common bytes. -/
theorem ndnElem_follows (h : Fenced mem mem' n) (start : Nat) :
    TakesFollow 0 0 n Eq (ndnElem mem start) (ndnElem mem' start) := by
  rintro hd hd' typ len ⟨q, l⟩ ⟨q', l'⟩ s _ - - hhd hpos hle - rfl
  obtain rfl : hd = hd' := hhd
  obtain rfl : q = q' := hpos
  have hle : q + len ≤ n := by simpa using hle
  have hnested : ∀ {α : Type} {elem elem' : Nat → Nat → Nat → Cursor → α → Run (Elem α)} (a : α),
      ElemFollows 0 0 n Eq elem elem' → Mimics Eq (nested (ndntlvDehead mem) elem ⟨q, len⟩ a)
        (nested (ndntlvDehead mem') elem' ⟨q, len⟩ a) := fun a he =>
    nested_follows (dehead_decodes mem) (dehead_decodes mem') (ndn_local h.agree) he
      ⟨Nat.zero_le _, rfl, rfl, by simpa using hle⟩ rfl
  unfold ndnElem
  cases ht : ndnTlv typ <;> simp only
  case name =>
    split
    · exact .error _ _
    · exact (hnested _ (nameElem_follows h)).bind fun _ _ _ hp => hp ▸ .refl _
  case selectors =>
    exact (hnested _ (selectorsElem_follows h)).bind fun _ _ _ hp => hp ▸ .refl _
  case metaInfo =>
    exact (hnested _ (metaInfoElem_follows h)).bind fun _ _ _ hp => hp ▸ .refl _
  case signatureInfo =>
    exact (hnested _ (signatureInfoElem_follows h)).bind fun _ _ _ hp => hp ▸ .refl _
  case nonce =>
    rw [(h.agree.slice (Nat.zero_le q) rfl (by omega)).rdBytes]
    exact .refl _
  case scope | interestLifetime | fragBeginEndFields =>
    rw [nonNegInt_agree h.agree hle]
    exact .refl _
  all_goals exact .refl _

/-- As far as the packet loop gets among the common bytes. -/
theorem ndnTop_follows (h : Fenced mem mem' n) {start : Nat} {c c' t : Cursor} {s u : NdnState}
    (hpos : c.pos = c'.pos) (hlim : n ≤ c'.pos + c'.len)
    (hr : Reached (topStep (ndntlvDehead mem) (ndnElem mem start)) (c, s) (t, u)) (ht : t.pos ≤ n) :
    ∃ t', Reached (topStep (ndntlvDehead mem') (ndnElem mem' start)) (c', s) (t', u) ∧
      t.pos = t'.pos ∧ t'.pos + t'.len = c'.pos + c'.len := by
  obtain ⟨t', _, hr', hpos', hlim', rfl⟩ := top_follows (dehead_decodes mem) (dehead_decodes mem')
    (ndn_local h.agree) (ndnElem_follows h start) (Nat.zero_le _) hpos (by omega) rfl hr (by omega)
  exact ⟨t', hr', hpos', hlim'⟩

/-! ## What an element does -/

/-- The elements that set a field of what is delivered. -/
def NdnTlv.Delivers : NdnTlv → Prop
  | .name | .content | .metaInfo | .fragBeginEndFields => True
  | _ => False

/-- The state after the digest: the bytes before its header have been signed. -/
def NdnState.signed (s : NdnState) (len sig : Nat) : NdnState :=
  { s with pkt := { s.pkt with hmacLen := len, hmacSignature := some sig } }

/-- An element of the kind `k` with its header at `hd`. -/
structure NdnEffect (k : NdnTlv) (start hd len : Nat) (cur : Cursor) (s s' : NdnState) : Prop where
  kind : (s'.pkt.type, s'.pkt.hmacStart, s'.pkt.suite) = (s.pkt.type, s.pkt.hmacStart, s.pkt.suite)
  hmac : (s'.pkt.hmacLen, s'.pkt.hmacSignature) = (s.pkt.hmacLen, s.pkt.hmacSignature) ∨
    (k = .signatureValue ∧ s.validAlgoIsHmac256 = true ∧ len = 32) ∧
      (s'.pkt.hmacLen, s'.pkt.hmacSignature) = (hd - start, some cur.pos)
  out : k.Delivers ∨ (s'.pkt.pfx, s'.pkt.content, s'.pkt.val) = (s.pkt.pfx, s.pkt.content, s.pkt.val)

section Signed

variable {start hd typ len : Nat} {cur c c₂ : Cursor} {s s' : NdnState}

theorem ndnElem_effect (h : ndnElem mem start hd typ len cur s = .ok s') :
    NdnEffect (ndnTlv typ) start hd len cur s s' := by
  cases ndnElem_taken h with
  | name ht | content ht | metaInfo ht | fragFields ht =>
    exact ⟨rfl, .inl rfl, .inl (by rw [ht]; trivial)⟩
  | selectors | nonce | scope | interestLifetime | signatureInfo | noDigest | other =>
    exact ⟨rfl, .inl rfl, .inr rfl⟩
  | digest ht hs => exact ⟨rfl, .inr ⟨⟨ht, hs.1, hs.2⟩, rfl⟩, .inr rfl⟩

theorem ndnElem_signedLoop (mem : List UInt8) (start : Nat) :
    SignedLoop (ndnHeader mem) (ndnElem mem start) NdnState.pkt
      (fun s => (s.pkt.pfx, s.pkt.content, s.pkt.val)) NdnState.validAlgoIsHmac256
      (fun typ => ndnTlv typ = .signatureValue) (fun typ => (ndnTlv typ).Delivers) start where
  kind h := (ndnElem_effect h).kind
  hmac _ h := (ndnElem_effect h).hmac
  out h := (ndnElem_effect h).out

/-- `DigestAt` for this parser. -/
abbrev NdnDigestAt (mem : List UInt8) (start : Nat) :
    Cursor → NdnState → NdnState → Cursor → Cursor → NdnState → Prop :=
  DigestAt (ndntlvDehead mem) (ndnElem mem start) NdnState.pkt NdnState.validAlgoIsHmac256
    (fun typ => ndnTlv typ = .signatureValue) start

namespace NdnDigestAt

variable {t q : Cursor} {u : NdnState}

/-- What is delivered so far is part of what is signed. -/
theorem inside (h : NdnDigestAt mem start c s s' t q u) (hle : start ≤ c.pos)
    (h0 : s.pkt.Inside start c.pos) : u.pkt.Inside start (start + s'.pkt.hmacLen) := by
  have hr := h.reached.invariant (I := fun w => c.pos ≤ w.1.pos ∧ w.2.pkt.Inside start w.1.pos)
    ⟨Nat.le_refl _, h0⟩ ?_
  · exact h.pos ▸ hr.2
  rintro ⟨c₁, s₁⟩ ⟨c₂, s₂⟩ ⟨hle₁, hin⟩ ha
  obtain ⟨typ, len, v, hx, he, -, rfl⟩ := topStep_again.mp ha
  have hlt := (dehead_decodes mem).lt _ _ _ _ _ (dehead_eq_ok.mp hx).1
  simp only at hle₁ hin
  exact ⟨by simp only; omega, ndnElem_inside he hin hlt.1 (by omega)⟩

/-- The byte behind what is signed. -/
theorem fence (h : NdnDigestAt mem start c s s' t q u) : Fence mem (start + s'.pkt.hmacLen) := by
  obtain ⟨typ, hx, ht⟩ := h.head
  obtain ⟨⟨m, hm, -⟩, -⟩ := dehead_eq_ok.mp hx
  exact h.pos ▸ fence_of_digest hm ht

/-- Two runs over the same signed bytes are in the same state at the digest. -/
theorem same {c' t' q' : Cursor} {u' s'' : NdnState} (h : NdnDigestAt mem start c s s' t q u)
    (h' : NdnDigestAt mem' start c' s s'' t' q' u') (hlen : s'.pkt.hmacLen = s''.pkt.hmacLen)
    (hpos : c.pos = c'.pos) (hagree : Agree mem mem' 0 0 (start + s'.pkt.hmacLen)) : u = u' := by
  have hfenced : Fenced mem mem' (start + s'.pkt.hmacLen) :=
    ⟨hagree, NdnDigestAt.fence h, hlen ▸ NdnDigestAt.fence h'⟩
  have ht := h.pos
  have ht' := h'.pos
  have hlim' := h'.lim (dehead_decodes mem')
  obtain ⟨t₂, hr₂, hpos₂, -⟩ := ndnTop_follows hfenced hpos (by omega) h.reached (Nat.le_of_eq ht)
  exact congrArg Prod.snd (top_unique (dehead_decodes mem') hr₂ h'.reached (by simp only; omega))

end NdnDigestAt

end Signed

end Ccnl
