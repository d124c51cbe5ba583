import CcnLite.Fwd.System

/-!
# What becomes of a Data

`handleContent_spec` says what `ccnl_fwd_handleContent` does with a Data that has a name, in a relay
with the invariant: nothing when the name is cached; otherwise it answers the PIT entries that the
Data matches, and it may cache the Data if there is one.

The look at the cache comes first, so a pending Interest is answered exactly when no cached content
has the name of the Data (`handleContent_serves_iff`). A content that is too old for an Interest with
MustBeFresh is still cached: it keeps the Data away from that Interest.
-/

namespace Ccnl

open CRun

/-! ## The cache -/

/-- Some content has the name `p`. -/
def Cached (p : Prefix) (contents : List Content) : Prop :=
  ∃ c ∈ contents, ∃ q, c.pkt.pfx = some q ∧ q.Same p

/-- The scan of the cache, when everything in it has a name. -/
theorem isCached_eq {p : Prefix} {contents : List Content}
    (h : ∀ c ∈ contents, c.pkt.pfx ≠ none) :
    ∃ b, isCached (some p) contents = .ok b ∧ (b = true ↔ Cached p contents) := by
  induction contents with
  | nil => exact ⟨false, rfl, by simp [Cached]⟩
  | cons c cs ih =>
    obtain ⟨q, hq⟩ := Option.ne_none_iff_exists'.mp (h c (by simp))
    obtain ⟨b, hb, hiff⟩ := ih fun d hd => h d (by simp [hd])
    rw [isCached, hq]
    simp only [deref_some, ok_bind, prefixCmp_exact_eq_zero]
    by_cases hs : q.Same p
    · exact ⟨true, by simp [hs, pure, Except.pure], by simp [Cached, hq, hs]⟩
    · refine ⟨b, by simp [hs, hb], hiff.trans ?_⟩
      simp [Cached, hq, hs]

section Spec

variable {E : Env} {now : Nat} {σ : Relay} {pkt : Pkt} {p : Prefix}

/-- The Data satisfies the PIT entry. -/
abbrev Answers (E : Env) (now : Nat) (pkt : Pkt) (i : Interest) : Prop :=
  Matches E.digest i (contentNew now pkt)

/-- What the relay is after it has served a Data that was not cached. -/
structure Served (E : Env) (now : Nat) (σ : Relay) (pkt : Pkt) (τ : Relay) : Prop where
  pit : τ.pit = σ.pit.filter fun i => ¬ Answers E now pkt i
  out : ∃ sent : List FaceId, sent.Nodup ∧
    (∀ f, f ∈ sent ↔ ∃ i ∈ σ.pit, Answers E now pkt i ∧ ∃ pi ∈ i.pending, pi.face = f) ∧
    τ.out = σ.out ++ sent.map (.send · pkt.buf)
  contents : σ.maxCacheEntries ≤ 0 → τ.contents.map (·.pkt) =
    if σ.maxCacheEntries ≠ 0 ∧ ∃ i ∈ σ.pit, Answers E now pkt i
    then pkt :: σ.contents.map (·.pkt) else σ.contents.map (·.pkt)

/-- A content that comes into the cache, when there is no limit on it. -/
theorem contentAdd2cache_new {τ : Relay} {c : Content} (h : isCached c.pkt.pfx τ.contents = .ok false)
    (hmax : τ.maxCacheEntries ≤ 0) :
    contentAdd2cache τ c =
      .ok { τ with contents := c :: τ.contents, contentcnt := τ.contentcnt + 1 } := by
  have he : evict τ = τ := by
    unfold evict
    rw [if_neg (by omega)]
  unfold contentAdd2cache
  simp [h, he, hmax, pure, Except.pure]

/-- Adding to the cache leaves the PIT and what was handed out alone, and returns when everything
has a name. -/
theorem contentAdd2cache_returns {τ : Relay} {c : Content} (h : τ.Ok) (hc : c.pkt.pfx ≠ none) :
    ∃ τ', contentAdd2cache τ c = .ok τ' ∧ τ'.pit = τ.pit ∧ τ'.out = τ.out := by
  obtain ⟨q, hq⟩ := Option.ne_none_iff_exists'.mp hc
  obtain ⟨b, hb, -⟩ := isCached_eq (p := q) h.contents
  have he : (evict τ).pit = τ.pit ∧ (evict τ).out = τ.out := by
    unfold evict
    split
    · split <;> exact ⟨rfl, rfl⟩
    · exact ⟨rfl, rfl⟩
  unfold contentAdd2cache
  rw [hq, hb, ok_bind]
  cases b with
  | true => exact ⟨τ, rfl, rfl, rfl⟩
  | false =>
    simp only [Bool.false_eq_true, ↓reduceIte]
    split
    · exact ⟨_, rfl, he⟩
    · exact ⟨_, rfl, he⟩

/-- A Data whose name is cached is dropped. -/
theorem handleContent_cached (h : σ.Ok) (hp : pkt.pfx = some p) (hc : Cached p σ.contents) :
    handleContent E now σ pkt = .ok σ := by
  obtain ⟨b, hb, hiff⟩ := isCached_eq (p := p) h.contents
  unfold handleContent
  simp [hp, hb, hiff.mpr hc, pure, Except.pure]

/-- A Data whose name is not cached is served. -/
theorem handleContent_new (h : σ.Ok) (hp : pkt.pfx = some p) (hc : ¬ Cached p σ.contents) :
    ∃ τ, handleContent E now σ pkt = .ok τ ∧ Served E now σ pkt τ := by
  obtain ⟨b, hb, hiff⟩ := isCached_eq (p := p) h.contents
  have hb : isCached pkt.pfx σ.contents = .ok false := by
    rw [hp, hb, Bool.eq_false_iff.mpr fun ht => hc (hiff.mp ht)]
  obtain ⟨s, -, hs, -⟩ := servePending_spec (c := contentNew now pkt)
    (servePending_defined (fun i hi => (h.pit i hi).named) (by simp [contentNew, hp]))
    fun i hi => (h.pit i hi).pending
  obtain ⟨sent, hnd, hmem, hrel, hpkt, hcnt⟩ := servePending_relay h hs
  have hok := servePending_ok h hs
  have hout : ∃ sent : List FaceId, sent.Nodup ∧
      (∀ f, f ∈ sent ↔ ∃ i ∈ σ.pit, Answers E now pkt i ∧ ∃ pi ∈ i.pending, pi.face = f) ∧
      s.relay.out = σ.out ++ sent.map (.send · pkt.buf) := ⟨sent, hnd, hmem, by rw [hrel]; rfl⟩
  have hpit : s.relay.pit = σ.pit.filter fun i => ¬ Answers E now pkt i := by rw [hrel]
  have hcs : s.relay.contents = σ.contents := by rw [hrel]
  have hmax : s.relay.maxCacheEntries = σ.maxCacheEntries := by rw [hrel]
  unfold handleContent
  simp only [hb, hs, ok_bind, Bool.false_eq_true, ↓reduceIte]
  by_cases h0 : s.cnt = 0
  · rw [if_pos h0]
    refine ⟨_, rfl, hpit, hout, fun _ => ?_⟩
    rw [if_neg, hcs]
    rintro ⟨-, i, hi, hm⟩
    exact hcnt.mp h0 i hi hm
  · rw [if_neg h0]
    have hex : ∃ i ∈ σ.pit, Answers E now pkt i := by
      rw [hcnt] at h0
      push Not at h0
      exact h0
    rw [hmax]
    by_cases hm0 : σ.maxCacheEntries ≠ 0
    · rw [if_pos hm0]
      obtain ⟨τ, hτ, hτpit, hτout⟩ := contentAdd2cache_returns (c := s.c) hok
        (by rw [hpkt]; simp [contentNew, hp])
      refine ⟨τ, hτ, hτpit.trans hpit, by rw [hτout]; exact hout, fun hle => ?_⟩
      have hnew : isCached s.c.pkt.pfx s.relay.contents = .ok false := by
        rw [hpkt, hcs]
        exact hb
      rw [contentAdd2cache_new hnew (by rw [hmax]; exact hle)] at hτ
      cases hτ
      rw [if_pos ⟨hm0, hex⟩, List.map_cons, hpkt, hcs]
      rfl
    · rw [if_neg hm0]
      refine ⟨_, rfl, hpit, hout, fun _ => ?_⟩
      rw [if_neg (fun hx => hm0 hx.1), hcs]

end Spec

/-! ## No Interest is starved -/

/-- The Data goes to every face that is pending on the PIT entry, and the entry is removed. -/
def Delivers (E : Env) (now : Nat) (σ : Relay) (pkt : Pkt) (i : Interest) : Prop :=
  ∃ τ new, handleContent E now σ pkt = .ok τ ∧ τ.out = σ.out ++ new ∧
    (∀ pi ∈ i.pending, .send pi.face pkt.buf ∈ new) ∧ i ∉ τ.pit

/-- In every state that the relay gets into, a PIT entry that a Data matches is served with it and
removed exactly when no cached content has the name of the Data. -/
theorem handleContent_delivers_iff {E : Env} {now : Nat} {σ : Relay} {pkt : Pkt} {i : Interest}
    (hr : (system E).Reachable σ) (hi : i ∈ σ.pit) (hm : Answers E now pkt i) :
    Delivers E now σ pkt i ↔ ∀ p, pkt.pfx = some p → ¬ Cached p σ.contents := by
  have h := (system_ok E).reachable hr
  obtain ⟨p, hp⟩ := Option.ne_none_iff_exists'.mp hm.named
  have hp : pkt.pfx = some p := hp
  simp only [hp, Option.some.injEq, forall_eq']
  constructor
  · rintro ⟨τ, new, hτ, -, -, hn⟩ hc
    rw [handleContent_cached h hp hc] at hτ
    cases hτ
    exact hn hi
  · intro hc
    obtain ⟨τ, hτ, hs⟩ := @handleContent_new E now σ pkt p h hp hc
    obtain ⟨sent, -, hmem, hout⟩ := hs.out
    refine ⟨τ, _, hτ, hout, fun pi hpi => ?_, ?_⟩
    · exact List.mem_map_of_mem ((hmem _).mpr ⟨i, hi, hm, pi, hpi, rfl⟩)
    · rw [hs.pit]
      simp [hm]

/-- An NDN Interest for `/a`, one that must be fresh, and a Data `/a` without a freshness period. -/
def ndnInterestA : List UInt8 := [0x05, 0x05, 0x07, 0x03, 0x08, 0x01, 0x61]
def ndnFreshInterestA : List UInt8 :=
  [0x05, 0x09, 0x07, 0x03, 0x08, 0x01, 0x61, 0x09, 0x02, 0x12, 0x00]
def ndnDataA : List UInt8 := [0x06, 0x08, 0x07, 0x03, 0x08, 0x01, 0x61, 0x15, 0x01, 0x78]

/-- The relay after some events, and the packet that the parser makes of `ndnDataA`. -/
def withDataA (es : List Event) : Run (Relay × Pkt) := do
  let σ ← Relay.after es
  let (pkt, _) ← ndntlvParse (ndnDataA ++ [0]) ⟨0, ndnDataA.length⟩
  return (σ, pkt)

theorem withDataA_ok {es : List Event} {σ : Relay} {pkt : Pkt} (h : withDataA es = .ok (σ, pkt)) :
    (system .still).Reachable σ ∧
      ∃ c, ndntlvParse (ndnDataA ++ [0]) ⟨0, ndnDataA.length⟩ = .ok (pkt, c) := by
  obtain ⟨σ', hσ, h⟩ := (bind_eq_ok _ _ _).mp h
  obtain ⟨⟨pkt', c⟩, hp, h⟩ := (bind_eq_ok _ _ _).mp h
  cases h
  exact ⟨Relay.after_reachable hσ, c, hp⟩

/-- After an Interest for `/a` the Data `/a` is delivered. -/
theorem handleContent_delivers_iff_first :
    ∃ σ pkt, (system .still).Reachable σ ∧ ∃ i ∈ σ.pit, Delivers .still 0 σ pkt i := by
  obtain ⟨⟨σ, pkt⟩, hrun, ⟨i, hi, hm⟩, hc⟩ := exists_ok (x := withDataA [.udp 1 0 ndnInterestA])
    (p := fun r => (∃ i ∈ r.1.pit, Answers .still 0 r.2 i) ∧ r.1.contents = [])
    (by decide +kernel)
  obtain ⟨hr, -⟩ := withDataA_ok hrun
  refine ⟨σ, pkt, hr, i, hi, (handleContent_delivers_iff hr hi hm).mpr fun p _ => ?_⟩
  simp only at hc
  simp [hc, Cached]

/-- An Interest for `/a` brings the Data `/a` into the cache, where it gets stale. An Interest that
must be fresh comes, and then the Data `/a` once more: it is dropped, and the Interest stays. -/
theorem handleContent_starves :
    ∃ σ pkt, (system .still).Reachable σ ∧
      (∃ c, ndntlvParse (ndnDataA ++ [0]) ⟨0, ndnDataA.length⟩ = .ok (pkt, c)) ∧
      ∃ i ∈ σ.pit, Answers .still 0 pkt i ∧ ¬ Delivers .still 0 σ pkt i := by
  obtain ⟨⟨σ, pkt⟩, hrun, ⟨i, hi, hm⟩, hd⟩ := exists_ok
    (x := withDataA [.udp 1 0 ndnInterestA, .udp 2 0 ndnDataA, .ageing 0,
      .udp 3 0 ndnFreshInterestA])
    (p := fun r => (∃ i ∈ r.1.pit, Answers .still 0 r.2 i) ∧
      handleContent .still 0 r.1 r.2 = .ok r.1)
    (by decide +kernel)
  obtain ⟨hr, hp⟩ := withDataA_ok hrun
  refine ⟨σ, pkt, hr, hp, i, hi, hm, ?_⟩
  rintro ⟨τ, new, hτ, -, -, hn⟩
  rw [hd] at hτ
  cases hτ
  exact hn hi

end Ccnl
