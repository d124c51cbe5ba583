import CcnLite.Core.Propagate

/-!
# What the timer does (`ccnl_do_ageing`)

The three walks of `ccnl_do_ageing` as one equation (`doAgeing_eq`): `ageContent` for each content,
`ageInterest` for each PIT entry, and then the removal of the faces that are `Face.expired`. An
entry that stays in the PIT is forwarded once more, before its retries are counted
(`agePit_eq`).
-/

namespace Ccnl

open CRun

/-- The deadline of the entry has passed, as the code computes it. -/
def Interest.timedOut (t : Nat) (i : Interest) : Prop := u32 (i.lastUsed + i.lifetime) ≤ t

instance (t : Nat) (i : Interest) : Decidable (i.timedOut t) := inferInstanceAs (Decidable (_ ≤ _))

/-- What `ccnl_do_ageing` makes of a PIT entry. -/
def ageInterest (t : Nat) (i : Interest) : Option Interest :=
  if i.timedOut t ∨ maxInterestRetransmit ≤ i.retries then none
  else some { i with retries := i.retries + 1 }

/-- What `ccnl_interest_propagate` hands out. -/
def propagated (σ : Relay) (i : Interest) : List Out :=
  (σ.fib.filter fun fwd => fwd.serves σ i).flatMap (handed i)

/-- The entries of the PIT that `ccnl_do_ageing` forwards again. -/
def resends (t : Nat) (pit : List Interest) : List Interest :=
  pit.filter fun i => (ageInterest t i).isSome

section Walk

variable {σ τ : Relay} {t : Nat}

theorem ageInterest_eq_some {i j : Interest} (h : ageInterest t i = some j) :
    ¬ i.timedOut t ∧ i.retries < maxInterestRetransmit ∧
      j = { i with retries := i.retries + 1 } := by
  unfold ageInterest at h
  split at h
  · cases h
  · rename_i hstay
    rw [not_or] at hstay
    cases h
    exact ⟨hstay.1, Nat.lt_of_not_le hstay.2, rfl⟩

theorem ageInterest_eq_none {i : Interest} :
    ageInterest t i = none ↔ i.timedOut t ∨ maxInterestRetransmit ≤ i.retries := by
  unfold ageInterest
  split <;> rename_i h <;> simp only [h, reduceCtorEq]

theorem interestPropagate_eq {i : Interest} (h : interestPropagate σ i = .ok τ) :
    τ = { σ with out := σ.out ++ propagated σ i } :=
  (interestPropagate_follows σ i).1 τ h

/-- The walk over the PIT. -/
theorem agePit_eq {pit kept : List Interest} (h : agePit t pit σ = .ok (kept, τ)) :
    kept = pit.filterMap (ageInterest t) ∧
      τ = { σ with
        pitcnt := σ.pitcnt - (pit.length - kept.length : Nat)
        out := σ.out ++ (resends t pit).flatMap (propagated σ) } := by
  induction pit generalizing σ kept with
  | nil =>
    cases h
    simp [resends]
  | cons i pit ih =>
    rw [agePit] at h
    split at h
    · rename_i hgone
      have hnone : ageInterest t i = none := ageInterest_eq_none.mpr hgone
      obtain ⟨rfl, rfl⟩ := ih h
      have hle := List.length_filterMap_le (ageInterest t) pit
      refine ⟨by rw [List.filterMap_cons, hnone], ?_⟩
      simp only [resends, List.length_cons, List.filter_cons, hnone, Option.isSome_none,
        Bool.false_eq_true, ↓reduceIte]
      congr 1
      omega
    · rename_i hstay
      obtain ⟨σ₁, h₁, h⟩ := (bind_eq_ok _ _ _).mp h
      obtain ⟨⟨rest, σ₂⟩, h₂, h⟩ := (bind_eq_ok _ _ _).mp h
      cases h
      obtain rfl := interestPropagate_eq h₁
      obtain ⟨rfl, rfl⟩ := ih h₂
      have hsome : ageInterest t i = some { i with retries := i.retries + 1 } := if_neg hstay
      refine ⟨by rw [List.filterMap_cons, hsome], ?_⟩
      simp only [resends, List.length_cons, List.filter_cons, hsome, Option.isSome_some, ↓reduceIte,
        List.flatMap_cons, List.append_assoc]
      congr 1
      omega

/-- The relay after the walk over the contents and the walk over the PIT. -/
def agedTables (t : Nat) (σ : Relay) : Relay :=
  { σ with
    contents := σ.contents.filterMap (ageContent t)
    contentcnt := σ.contentcnt -
      (σ.contents.length - (σ.contents.filterMap (ageContent t)).length : Nat)
    pit := σ.pit.filterMap (ageInterest t)
    pitcnt := σ.pitcnt - (σ.pit.length - (σ.pit.filterMap (ageInterest t)).length : Nat)
    out := σ.out ++ (resends t σ.pit).flatMap (propagated σ) }

/-- The removal of some faces. -/
def faceRemoves (fs : List Face) (σ : Relay) : Relay :=
  fs.foldl (fun σ f => faceRemove σ f.faceid) σ

/-- The three walks. -/
theorem doAgeing_eq {now : Nat} (h : doAgeing now σ = .ok τ) :
    τ = faceRemoves (σ.faces.filter (·.expired (u32 now))) (agedTables (u32 now) σ) := by
  obtain ⟨⟨pit, σ₂⟩, h₂, h⟩ := (bind_eq_ok _ _ _).mp h
  cases h
  obtain ⟨rfl, rfl⟩ := agePit_eq h₂
  rfl

theorem faceRemoves_out (fs : List Face) (σ : Relay) : (faceRemoves fs σ).out = σ.out := by
  induction fs generalizing σ with
  | nil => rfl
  | cons f fs ih => exact ih (faceRemove σ f.faceid)

end Walk

end Ccnl
