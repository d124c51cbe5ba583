import CcnLite.Fwd.Forward

/-!
# The two matches

Whether a content answers an Interest is decided twice: by the `cMatch` function of the suite, when
the Interest finds the content in the store, and by `pitMatch`, when the content finds the Interest
in the PIT. For the same Interest and a fresh content the two agree, with one exception: `cMatch`
compares the publisher key digest of a CCNB Interest and `pitMatch` does not
(`matches_iff_cMatch`).
-/

namespace Ccnl

open CRun

section Agree

variable {digest : List UInt8 → Digest} {i : Interest} {p : Prefix} {c : Content}

theorem matches_ccnb (hi : i.pkt.pfx = some p) (hp : p.suite = .ccnb) :
    Matches digest i c ↔
      Accepts (iPrefixofC digest p i.pkt.ccnb.minsuffix i.pkt.ccnb.maxsuffix c) := by
  simp [matches_of_name hi, pitMatch, hp, Accepts]

theorem matches_ndntlv (hi : i.pkt.pfx = some p) (hp : p.suite = .ndntlv) :
    Matches digest i c ↔
      Accepts (iPrefixofC digest p i.pkt.ndntlv.minsuffix i.pkt.ndntlv.maxsuffix c) := by
  simp [matches_of_name hi, pitMatch, hp, Accepts]

theorem matches_ccntlv (hi : i.pkt.pfx = some p) (hp : p.suite = .ccntlv) :
    Matches digest i c ↔ ccntlvCMatch i.pkt c = .ok true := by
  simp [matches_of_name hi, pitMatch, hp, ccntlvCMatch, hi]

/-- `ccnl_ccnb_cMatch` accepts what `iPrefixofC` accepts, when the publisher key digest of the
Interest, if there is one, is the content's. -/
theorem ccnbCMatch_iff {pkt : Pkt} (hi : pkt.pfx = some p) :
    ccnbCMatch digest pkt c = .ok true ↔
      Accepts (iPrefixofC digest p pkt.ccnb.minsuffix pkt.ccnb.maxsuffix c) ∧
      (pkt.ccnb.ppkd = none ∨ bufEqual pkt.ccnb.ppkd c.pkt.ccnb.ppkd = true) := by
  unfold ccnbCMatch
  simp only [hi, deref_some, ok_bind]
  generalize iPrefixofC digest p pkt.ccnb.minsuffix pkt.ccnb.maxsuffix c = r
  cases r with
  | error e => simp
  | ok v =>
    simp only [ok_bind, accepts_ok]
    by_cases hv : v < 0
    · have : ¬ 0 ≤ v := by omega
      simp [hv, this]
    · have : 0 ≤ v := by omega
      simp only [hv, this, ↓reduceIte, true_and]
      cases h : pkt.ccnb.ppkd with
      | none => simp
      | some d => cases hb : bufEqual (some d) c.pkt.ccnb.ppkd <;> simp

/-- `ccnl_ndntlv_cMatch` accepts what `iPrefixofC` accepts, unless the Interest asks for a fresh
content and this one is stale. -/
theorem ndntlvCMatch_iff {pkt : Pkt} (hi : pkt.pfx = some p) :
    ndntlvCMatch digest pkt c = .ok true ↔
      Accepts (iPrefixofC digest p pkt.ndntlv.minsuffix pkt.ndntlv.maxsuffix c) ∧
      ¬ (pkt.ndntlv.mbf = true ∧ c.stale = true) := by
  unfold ndntlvCMatch
  simp only [hi, deref_some, ok_bind]
  generalize iPrefixofC digest p pkt.ndntlv.minsuffix pkt.ndntlv.maxsuffix c = r
  cases r with
  | error e => simp
  | ok v =>
    simp only [ok_bind, accepts_ok]
    by_cases hv : v < 0
    · have : ¬ 0 ≤ v := by omega
      simp [hv, this]
    · have : 0 ≤ v := by omega
      simp only [hv, this, ↓reduceIte, true_and]
      cases pkt.ndntlv.mbf <;> cases c.stale <;> simp

end Agree

/-- For an Interest in the PIT and a fresh content, the PIT and the content store agree exactly
when it is not the case that the names match, the Interest is a CCNB one with a publisher key
digest, and the content does not have that digest. -/
theorem matches_iff_cMatch {digest : List UInt8 → Digest} {suite : Suite} {i : Interest}
    {p : Prefix} {c : Content} (hs : suite ≠ .localrpc) (hi : i.pkt.pfx = some p)
    (hp : p.suite = suite) (hc : c.stale = false) :
    (Matches digest i c ↔ cMatch digest suite i.pkt c = .ok true) ↔
      ¬ (suite = .ccnb ∧ i.pkt.ccnb.ppkd ≠ none ∧
          bufEqual i.pkt.ccnb.ppkd c.pkt.ccnb.ppkd = false ∧
          Accepts (iPrefixofC digest p i.pkt.ccnb.minsuffix i.pkt.ccnb.maxsuffix c)) := by
  cases suite with
  | ccnb =>
    rw [matches_ccnb hi hp, cMatch, ccnbCMatch_iff hi, ← Bool.not_eq_true]
    tauto
  | ccntlv => simp [matches_ccntlv hi hp, cMatch]
  | localrpc => exact absurd rfl hs
  | ndntlv => simp [matches_ndntlv hi hp, cMatch, ndntlvCMatch_iff hi, hc]

/-- A CCNB Interest for `/a` without a publisher key digest, and a content of that name. -/
theorem matches_iff_cMatch_plain :
    let name := Prefix.ofComps .ccnb [[97]]
    let i : Interest := { pkt := { pfx := some name, s := .ccnb {}, suite := .ccnb } }
    let c : Content := { pkt := { pfx := some name, s := .ccnb {}, suite := .ccnb } }
    Matches (fun _ => ⟨List.replicate 32 0, rfl⟩) i c ↔
      cMatch (fun _ => ⟨List.replicate 32 0, rfl⟩) .ccnb i.pkt c = .ok true := by
  intro name i c
  exact (matches_iff_cMatch (p := name) (by decide) rfl rfl rfl).mpr (by decide)

/-- A CCNB Interest for `/a` signed by the key `01`, and a content `/a` with the key `02`: the PIT
entry is satisfied, and the content store does not answer. -/
theorem matches_without_cMatch :
    let name := Prefix.ofComps .ccnb [[97]]
    let i : Interest :=
      { pkt := { pfx := some name, s := .ccnb { maxsuffix := 64, ppkd := some [1] },
                 suite := .ccnb } }
    let c : Content :=
      { pkt := { pfx := some name, s := .ccnb { ppkd := some [2] }, suite := .ccnb } }
    ¬ (Matches (fun _ => ⟨List.replicate 32 0, rfl⟩) i c ↔
      cMatch (fun _ => ⟨List.replicate 32 0, rfl⟩) .ccnb i.pkt c = .ok true) := by
  decide

end Ccnl
