import CcnLite.Fwd.Lifetime

/-!
# The deadlines of the timer

`Honoured t σ` is what the timer is to promise at the second `t`: it removes an entry for its age,
and marks a content as stale, only when the whole period has passed since `last_used`, as integers.

The code adds the period to `last_used` in 32 bits, and `ccnl_interest_new` keeps 32 bits of the
lifetime, so a deadline from 2^32 on comes early. `Sound t last period` says when the test of the
code is right all the same: the deadline fits, or the clock is still before what is left of it. The
freshness period alone is added in 64 bits. `ageing_deadlines`: the promise is kept exactly when
each of the deadlines in the tables is sound.
-/

namespace Ccnl

open CRun

/-- What the types of the fields say, and what `ccnl_interest_new` makes of a lifetime. -/
structure Relay.Timed (σ : Relay) : Prop where
  pit : ∀ i ∈ σ.pit, i.lifetime = u32 (pktInterestLifetime i.pkt) ∧ i.lastUsed < 2 ^ 32
  contents : ∀ c ∈ σ.contents,
    c.lastUsed < 2 ^ 32 ∧ c.pkt.ndntlv.freshnessperiod < 2 ^ 64
  faces : ∀ f ∈ σ.faces, f.lastUsed < 2 ^ 32

/-- The content goes from fresh to stale. -/
def BecomesStale (t : Nat) (c : Content) : Prop :=
  c.stale = false ∧ ∃ d ∈ ageContent t c, d.stale = true

instance (t : Nat) (c : Content) : Decidable (BecomesStale t c) :=
  inferInstanceAs (Decidable (_ ∧ ∃ d ∈ ageContent t c, d.stale = true))

/-- Nothing is removed for its age, or marked as stale, before its period has passed. An entry that
has used up its retransmissions goes in any case. -/
structure Honoured (t : Nat) (σ : Relay) : Prop where
  pit : ∀ i ∈ σ.pit, i.retries < maxInterestRetransmit → ageInterest t i = none →
    i.lastUsed + pktInterestLifetime i.pkt ≤ t
  contents : ∀ c ∈ σ.contents, ageContent t c = none → c.lastUsed + contentTimeout ≤ t
  faces : ∀ f ∈ σ.faces, f.expired t = true → f.lastUsed + faceTimeout ≤ t
  fresh : ∀ c ∈ σ.contents, BecomesStale t c →
    c.lastUsed + c.pkt.ndntlv.freshnessperiod / 1000 ≤ t

/-- The deadline fits into 32 bits, or the clock is before what is left of it there. -/
def Sound (t last period : Nat) : Prop := last + period < 2 ^ 32 ∨ t < u32 (last + period)

instance (t last period : Nat) : Decidable (Sound t last period) :=
  inferInstanceAs (Decidable (_ ∨ _))

/-- The deadlines in the tables are sound. -/
structure DeadlinesFit (t : Nat) (σ : Relay) : Prop where
  pit : ∀ i ∈ σ.pit, i.retries < maxInterestRetransmit →
    Sound t i.lastUsed (pktInterestLifetime i.pkt)
  contents : ∀ c ∈ σ.contents, c.static = false → Sound t c.lastUsed contentTimeout
  faces : ∀ f ∈ σ.faces, f.static = false → Sound t f.lastUsed faceTimeout

section Tests

variable {t : Nat}

/-- The test of the code is right exactly when the deadline is sound. -/
theorem sound_iff {last period : Nat} (ht : t < 2 ^ 32) :
    Sound t last period ↔ (u32 (last + period) ≤ t → last + period ≤ t) := by
  unfold Sound u32
  constructor
  · rintro (hfit | hlate) hdue
    · rwa [Nat.mod_eq_of_lt hfit] at hdue
    · omega
  · intro h
    by_cases hdue : (last + period) % 2 ^ 32 ≤ t
    · exact .inl (Nat.lt_of_le_of_lt (h hdue) ht)
    · exact .inr (Nat.lt_of_not_le hdue)

/-- The deadline that the code computes from the narrowed lifetime. -/
theorem u32_add_u32 (a b : Nat) : u32 (a + u32 b) = u32 (a + b) := Nat.add_mod_mod a b _

theorem interest_honoured (ht : t < 2 ^ 32) {i : Interest}
    (hi : i.lifetime = u32 (pktInterestLifetime i.pkt)) :
    (i.retries < maxInterestRetransmit → ageInterest t i = none →
      i.lastUsed + pktInterestLifetime i.pkt ≤ t) ↔
    (i.retries < maxInterestRetransmit → Sound t i.lastUsed (pktInterestLifetime i.pkt)) := by
  refine forall_congr' fun hlt => ?_
  rw [sound_iff ht, ageInterest_eq_none, Interest.timedOut, hi, u32_add_u32,
    or_iff_left (Nat.not_le.mpr hlt)]

theorem ageContent_eq_none {c : Content} :
    ageContent t c = none ↔ u32 (c.lastUsed + contentTimeout) ≤ t ∧ c.static = false := by
  unfold ageContent
  split
  · rename_i h
    simpa using h
  · rename_i h
    split <;> simpa using h

theorem content_honoured (ht : t < 2 ^ 32) {c : Content} :
    (ageContent t c = none → c.lastUsed + contentTimeout ≤ t) ↔
      (c.static = false → Sound t c.lastUsed contentTimeout) := by
  rw [ageContent_eq_none, sound_iff ht]
  tauto

theorem face_honoured (ht : t < 2 ^ 32) {f : Face} :
    (f.expired t = true → f.lastUsed + faceTimeout ≤ t) ↔
      (f.static = false → Sound t f.lastUsed faceTimeout) := by
  rw [sound_iff ht]
  simp only [Face.expired, Bool.and_eq_true, Bool.not_eq_true', decide_eq_true_eq]
  tauto

/-- A freshness period of 64 bits in milliseconds leaves room for the clock. -/
theorem fresh_honoured {c : Content} (hlast : c.lastUsed < 2 ^ 32)
    (hfresh : c.pkt.ndntlv.freshnessperiod < 2 ^ 64) (h : BecomesStale t c) :
    c.lastUsed + c.pkt.ndntlv.freshnessperiod / 1000 ≤ t := by
  obtain ⟨hold, d, hd, hstale⟩ := h
  have hfit : u64 (c.lastUsed + c.pkt.ndntlv.freshnessperiod / 1000) =
      c.lastUsed + c.pkt.ndntlv.freshnessperiod / 1000 := by
    refine Nat.mod_eq_of_lt ?_
    omega
  unfold ageContent at hd
  split at hd
  · cases hd
  · split at hd
    · rename_i hdue
      exact hfit ▸ hdue.2.1
    · cases hd
      rw [hold] at hstale
      cases hstale

end Tests

/-- Whatever calls a program makes, the PIT entries are as `Relay.Timed` says. -/
theorem calls_timed {E : Env} {σ : Relay} (hr : (calls E).Reachable σ) :
    ∀ i ∈ σ.pit, i.lifetime = u32 (pktInterestLifetime i.pkt) ∧ i.lastUsed < 2 ^ 32 := by
  induction hr with
  | @start σ hs =>
    change σ.pit = [] at hs
    simp [hs]
  | @next s _ _ c hs ih =>
    rw [Call.pit hs]
    have hsame : ∀ i j : Interest, i.Same j →
        i.lifetime = u32 (pktInterestLifetime i.pkt) ∧ i.lastUsed < 2 ^ 32 →
        j.lifetime = u32 (pktInterestLifetime j.pkt) ∧ j.lastUsed < 2 ^ 32 := by
      rintro i j ⟨hpkt, hlife, hlast, -⟩ hi
      rwa [hpkt, hlife, hlast]
    by_cases hc : ∃ now, c = .ageing now
    · obtain ⟨now, rfl⟩ := hc
      refine ListEdit.run_all ih (fun e he i j hij hi => ?_) fun i hi => ?_
      · rcases List.mem_cons.mp he with rfl | he
        · obtain ⟨-, -, rfl⟩ := ageInterest_eq_some hij
          exact hi
        · obtain ⟨f, -, rfl⟩ := List.mem_map.mp he
          exact hsame i j ((faceCleanEdit_quiet f.faceid).turns i j hij) hi
      · rcases List.mem_cons.mp hi with hi | hi
        · cases hi
        · obtain ⟨f, -, hf⟩ := List.mem_map.mp hi
          cases hf
    · have hquiet := Call.pitEdits_quiet (E := E) (σ := s) fun now e => hc ⟨now, e⟩
      refine ListEdit.run_all ih (fun e he i j hij => hsame i j ((hquiet e he).turns i j hij))
        fun i hi => ?_
      have hnew := (hquiet _ hi).new i rfl
      exact ⟨hnew.lifetime, hnew.lastUsed⟩

/-- What `ccnl_do_ageing` removes and marks is what `ageInterest`, `ageContent` and `Face.expired`
say, and it keeps the promise exactly when the deadlines in the tables are sound. -/
theorem ageing_deadlines {σ τ : Relay} {now : Nat} (hσ : σ.Timed) (h : doAgeing now σ = .ok τ) :
    τ = faceRemoves (σ.faces.filter (·.expired (u32 now))) (agedTables (u32 now) σ) ∧
    (Honoured (u32 now) σ ↔ DeadlinesFit (u32 now) σ) := by
  have ht : u32 now < 2 ^ 32 := Nat.mod_lt _ (by decide)
  refine ⟨doAgeing_eq h, ?_⟩
  constructor
  · intro hon
    exact
      { pit := fun i hi => (interest_honoured ht (hσ.pit i hi).1).mp (hon.pit i hi)
        contents := fun c hc => (content_honoured ht).mp (hon.contents c hc)
        faces := fun f hf => (face_honoured ht).mp (hon.faces f hf) }
  · intro hfit
    exact
      { pit := fun i hi => (interest_honoured ht (hσ.pit i hi).1).mpr (hfit.pit i hi)
        contents := fun c hc => (content_honoured ht).mpr (hfit.contents c hc)
        faces := fun f hf => (face_honoured ht).mpr (hfit.faces f hf)
        fresh := fun c hc => fresh_honoured (hσ.contents c hc).1 (hσ.contents c hc).2 }

/-- A peer asks for `/a` at the second 100 and names a lifetime of 2^32 seconds. -/
def Event.patient : Event := .udp 7 100
  [0x05, 21, 0x07, 3, 0x08, 1, 97, 0x0a, 4, 1, 2, 3, 4, 0x0c, 8, 0, 0, 3, 232, 0, 0, 0, 0]

theorem patient_run : ∃ σ τ, (system .still).Reachable σ ∧ doAgeing 100 σ = .ok τ ∧ σ.Timed ∧
    τ.pit = [] ∧ ∃ i ∈ σ.pit, i.retries < maxInterestRetransmit ∧ ageInterest 100 i = none ∧
      100 < i.lastUsed + pktInterestLifetime i.pkt := by
  obtain ⟨⟨σ, τ⟩, hrun, hpit, hcont, hfaces, hgone, hearly⟩ := exists_ok
    (x := do
      let σ ← Relay.after [.patient]
      return (σ, ← doAgeing 100 σ))
    (p := fun r =>
      (∀ i ∈ r.1.pit, i.lifetime = u32 (pktInterestLifetime i.pkt) ∧ i.lastUsed < 2 ^ 32) ∧
      (∀ c ∈ r.1.contents, c.lastUsed < 2 ^ 32 ∧ c.pkt.ndntlv.freshnessperiod < 2 ^ 64) ∧
      (∀ f ∈ r.1.faces, f.lastUsed < 2 ^ 32) ∧ r.2.pit = [] ∧
      ∃ i ∈ r.1.pit, i.retries < maxInterestRetransmit ∧ ageInterest 100 i = none ∧
        100 < i.lastUsed + pktInterestLifetime i.pkt) (by decide +kernel)
  obtain ⟨σ₁, hσ, hrun⟩ := (bind_eq_ok _ _ _).mp hrun
  obtain ⟨τ₁, hτ, hrun⟩ := (bind_eq_ok _ _ _).mp hrun
  cases hrun
  exact ⟨σ, τ, Relay.after_reachable hσ, hτ, ⟨hpit, hcont, hfaces⟩, hgone, hearly⟩

/-- The timer removes the entry in the same second: 32 bits of the lifetime are 0. -/
theorem deadlines_wrap : ¬ ∀ (E : Env) (σ τ : Relay) (now : Nat), (system E).Reachable σ →
    doAgeing now σ = .ok τ → Honoured (u32 now) σ := by
  intro h
  obtain ⟨σ, τ, hσ, hτ, -, -, i, hi, hlt, hgone, hearly⟩ := patient_run
  exact absurd ((h .still σ τ 100 hσ hτ).pit i hi hlt hgone) (Nat.not_le.mpr hearly)

/-- The condition says so: the deadline does not fit. -/
theorem ageing_deadlines_patient : ∃ σ τ, doAgeing 100 σ = .ok τ ∧ τ.pit = [] ∧
    ¬ DeadlinesFit 100 σ ∧ (Honoured (u32 100) σ ↔ DeadlinesFit (u32 100) σ) := by
  obtain ⟨σ, τ, -, hτ, hσ, hgone, i, hi, hlt, hage, hearly⟩ := patient_run
  have h := (ageing_deadlines hσ hτ).2
  refine ⟨σ, τ, hτ, hgone, fun hfit => ?_, h⟩
  exact absurd ((h.mpr hfit).pit i hi hlt hage) (Nat.not_le.mpr hearly)

end Ccnl
