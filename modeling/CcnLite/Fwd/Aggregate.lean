import CcnLite.Fwd.Agree
import CcnLite.Fwd.Unique

/-!
# Aggregation of Interests

An Interest that `ccnl_interest_isSame` finds in the PIT is not forwarded: its face waits for the
answer to the entry. This is sound when the two are interchangeable for every content. They have the
same name, suffix bounds and publisher key, so `cMatch` tells them apart in one way only
(`aggregation_sound_iff`): one NDN Interest demands a fresh content (`MustBeFresh`), which
`ccnl_interest_isSame` does not look at, the other does not, and the content is stale.
-/

namespace Ccnl

open CRun

section Aggregate

variable {digest : List UInt8 → Digest} {i : Interest} {pkt : Pkt} {c : Content}

/-- What two Interests that are the same for `ccnl_interest_isSame` have in common. -/
structure Aggregates (i : Interest) (pkt : Pkt) (q p : Prefix) : Prop where
  name : i.pkt.pfx = some q
  name' : pkt.pfx = some p
  suite : q.suite = pkt.suite
  same : q.Same p
  ccnb : pkt.suite = .ccnb → i.pkt.ccnb.minsuffix = pkt.ccnb.minsuffix ∧
    i.pkt.ccnb.maxsuffix = pkt.ccnb.maxsuffix ∧ i.pkt.ccnb.ppkd = pkt.ccnb.ppkd
  ndntlv : pkt.suite = .ndntlv → i.pkt.ndntlv.minsuffix = pkt.ndntlv.minsuffix ∧
    i.pkt.ndntlv.maxsuffix = pkt.ndntlv.maxsuffix ∧ i.pkt.ndntlv.ppkl = pkt.ndntlv.ppkl

theorem interestIsSame_aggregates (h : interestIsSame i pkt = .ok true) :
    ∃ q p, Aggregates i pkt q p := by
  unfold interestIsSame at h
  obtain ⟨q, hq, h⟩ := (bind_eq_ok _ _ _).mp h
  by_cases hsuite : q.suite = pkt.suite
  · rw [if_neg (not_not_intro hsuite)] at h
    obtain ⟨p, hp, h⟩ := (bind_eq_ok _ _ _).mp h
    by_cases hsame : prefixCmp q none p .exact = 0
    · rw [if_neg (not_not_intro hsame), hsuite] at h
      refine ⟨q, p, deref_eq_ok.mp hq, deref_eq_ok.mp hp, hsuite,
        prefixCmp_exact_eq_zero.mp hsame, ?_, ?_⟩
      · intro hs
        simpa [hs, bothNone_or_bufEqual, and_assoc] using h
      · intro hs
        simpa [hs, bothNone_or_bufEqual, and_assoc] using h
    · rw [if_pos hsame] at h
      cases h
  · rw [if_pos hsuite] at h
    cases h

/-- A name enters the comparison with a content by its components and its chunk number. -/
theorem iPrefixofC_congr {q p : Prefix} (h : q.Same p) (lo hi : Nat) :
    iPrefixofC digest q lo hi c = iPrefixofC digest p lo hi c := by
  have hcnt : q.compcnt = p.compcnt := by rw [← Prefix.length_comps, h.1, Prefix.length_comps]
  unfold iPrefixofC
  simp only [hcnt, prefixCmp_exact, h.1, h.2]

/-- `ccnl_ccntlv_cMatch` accepts a content of the same name. -/
theorem ccntlvCMatch_iff {p : Prefix} (hp : pkt.pfx = some p) :
    ccntlvCMatch pkt c = .ok true ↔ ∃ cp, c.pkt.pfx = some cp ∧ cp.Same p := by
  unfold ccntlvCMatch
  cases hc : c.pkt.pfx with
  | none => simp [deref]
  | some cp => simp [hp, prefixCmp_exact_eq_zero]

end Aggregate

/-- Two Interests that are the same for `ccnl_interest_isSame` are interchangeable for a content
exactly when it is not the case that they are NDN Interests, one of them with `MustBeFresh` and the
other without, and the content is a stale one that answers their name. -/
theorem aggregation_sound_iff {digest : List UInt8 → Digest} {i : Interest} {pkt : Pkt}
    {c : Content} (h : interestIsSame i pkt = .ok true) :
    (cMatch digest pkt.suite i.pkt c = .ok true ↔ cMatch digest pkt.suite pkt c = .ok true) ↔
      ¬ (pkt.suite = .ndntlv ∧ i.pkt.ndntlv.mbf ≠ pkt.ndntlv.mbf ∧ c.stale = true ∧
        ∃ p, pkt.pfx = some p ∧
          Accepts (iPrefixofC digest p pkt.ndntlv.minsuffix pkt.ndntlv.maxsuffix c)) := by
  obtain ⟨q, p, ha⟩ := interestIsSame_aggregates h
  cases hs : pkt.suite with
  | ccnb =>
    obtain ⟨hmin, hmax, hkey⟩ := ha.ccnb hs
    simp only [cMatch, ccnbCMatch_iff ha.name, ccnbCMatch_iff ha.name', hmin, hmax, hkey,
      iPrefixofC_congr ha.same, reduceCtorEq, false_and, not_false_eq_true]
  | ccntlv =>
    have hname : ∀ cp : Prefix, cp.Same q ↔ cp.Same p := fun cp => by
      simp only [Prefix.Same, ha.same.1, ha.same.2]
    simp only [cMatch, ccntlvCMatch_iff ha.name, ccntlvCMatch_iff ha.name', hname, reduceCtorEq,
      false_and, not_false_eq_true]
  | localrpc => simp [cMatch]
  | ndntlv =>
    obtain ⟨hmin, hmax, -⟩ := ha.ndntlv hs
    simp only [cMatch, ndntlvCMatch_iff ha.name, ndntlvCMatch_iff ha.name', hmin, hmax,
      iPrefixofC_congr ha.same, ha.name', Option.some.injEq, exists_eq_left', true_and]
    by_cases hacc : Accepts (iPrefixofC digest p pkt.ndntlv.minsuffix pkt.ndntlv.maxsuffix c)
    · -- the name answers, so the two differ in what they ask of a stale content
      cases i.pkt.ndntlv.mbf <;> cases pkt.ndntlv.mbf <;> cases c.stale <;> simp [hacc]
    · simp [hacc]

/-- The same name with and without `MustBeFresh`, and a content that is not stale. -/
theorem aggregation_sound_fresh :
    let name := Prefix.ofComps .ndntlv [[97]]
    let i : Interest :=
      { pkt := { pfx := some name, s := .ndntlv { maxsuffix := 64 }, suite := .ndntlv } }
    let pkt : Pkt :=
      { pfx := some name, s := .ndntlv { maxsuffix := 64, mbf := true }, suite := .ndntlv }
    let c : Content := { pkt := { pfx := some name, s := .ndntlv {}, suite := .ndntlv } }
    cMatch (fun _ => ⟨List.replicate 32 0, rfl⟩) .ndntlv i.pkt c = .ok true ↔
      cMatch (fun _ => ⟨List.replicate 32 0, rfl⟩) .ndntlv pkt c = .ok true := by
  intro name i pkt c
  have hsame : interestIsSame i pkt = .ok true := by decide
  exact (aggregation_sound_iff (c := c) hsame).mpr (by decide)

/-- An NDN Interest for `/a` is in the PIT, one with `MustBeFresh` is aggregated into it, and the
answer is a stale content `/a`: the first Interest accepts it, the second does not. -/
theorem aggregation_ignores_mustBeFresh :
    let name := Prefix.ofComps .ndntlv [[97]]
    let i : Interest :=
      { pkt := { pfx := some name, s := .ndntlv { maxsuffix := 64 }, suite := .ndntlv } }
    let pkt : Pkt :=
      { pfx := some name, s := .ndntlv { maxsuffix := 64, mbf := true }, suite := .ndntlv }
    let c : Content :=
      { pkt := { pfx := some name, s := .ndntlv {}, suite := .ndntlv }, stale := true }
    interestIsSame i pkt = .ok true ∧
    ¬ (cMatch (fun _ => ⟨List.replicate 32 0, rfl⟩) .ndntlv i.pkt c = .ok true ↔
      cMatch (fun _ => ⟨List.replicate 32 0, rfl⟩) .ndntlv pkt c = .ok true) := by
  decide

end Ccnl
