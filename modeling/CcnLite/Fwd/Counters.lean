import CcnLite.Fwd.System
import CcnLite.Fwd.Tables

/-!
# The counts of the tables

`pitcnt` and `contentcnt` are adjusted apart from the lists that they count. `Counted` says that they
agree with the lists and that the PIT is within its limit; every `Edit` keeps it, so it holds in every
state (`tables_counted`).
-/

namespace Ccnl

open CRun List Relation

/-- The counts are those of the lists, and the PIT is within its limit, if it has one. -/
structure Counted (σ : Relay) : Prop where
  pitcnt : σ.pitcnt = σ.pit.length
  contentcnt : σ.contentcnt = σ.contents.length
  limit : σ.maxPitEntries ≠ -1 → σ.pitcnt ≤ σ.maxPitEntries

/-- The PIT is full. -/
def PitFull (σ : Relay) : Prop := σ.maxPitEntries ≠ -1 ∧ σ.maxPitEntries ≤ σ.pitcnt

instance (σ : Relay) : Decidable (PitFull σ) := inferInstanceAs (Decidable (_ ∧ _))

section Counted

variable {σ τ : Relay} {F G : Prop}

theorem Relay.Empty.counted (h : σ.Empty) : Counted σ where
  pitcnt := by rw [h.pitcnt, h.pit]; rfl
  contentcnt := by rw [h.contentcnt, h.contents]; rfl
  limit hne := by
    have := h.maxPitEntries
    rw [h.pitcnt]
    omega

theorem Shrinks.counted (h : Shrinks σ τ) (hσ : Counted σ) : Counted τ := by
  have hp := h.pitcnt
  have hc := h.contentcnt
  have hle := thin_length_le h.pit
  rw [hσ.pitcnt] at hp
  rw [hσ.contentcnt] at hc
  refine ⟨by omega, by omega, fun hne => ?_⟩
  rw [h.maxPitEntries] at hne ⊢
  have := hσ.limit hne
  rw [hσ.pitcnt] at this
  omega

theorem Edit.counted (h : Edit F G σ τ) (hσ : Counted σ) : Counted τ := by
  cases h with
  | shrink h => exact h.counted hσ
  | interest hfull =>
    refine ⟨?_, hσ.contentcnt, fun hne => ?_⟩
    · simp only [hσ.pitcnt, length_cons]
      omega
    · rcases hfull with h | h
      · exact absurd h hne
      · exact h
  | pending now k f =>
    refine ⟨?_, hσ.contentcnt, hσ.limit⟩
    rw [length_modify]
    exact hσ.pitcnt
  | content =>
    have := (evict_shrinks σ).counted hσ
    refine ⟨this.pitcnt, ?_, this.limit⟩
    simp only [this.contentcnt, length_cons]
    omega

theorem Edits.counted (h : Edits F G σ τ) (hσ : Counted σ) : Counted τ := by
  induction h with
  | refl => exact hσ
  | tail _ h ih => exact h.counted ih

end Counted

theorem tables_keeps_counted (E : Env) : (tables E).Keeps Counted where
  start _ h := h.counted
  step _ _ _ hσ h := (TableEvent.edits (F := False) (G := False) nofun nofun h).counted hσ

/-- An Interest that is not for management and not in the PIT yet, when the PIT is full. -/
theorem handleInterest_full {E : Env} {now : Nat} {cMatch : Pkt → Content → Run Bool}
    {σ τ : Relay} {f : FaceId} {pkt : Pkt} {b : Bool} (hfull : PitFull σ)
    (hnew : pitFind pkt σ.pit = .ok none) (hm : isMgmt pkt = .ok false)
    (h : handleInterest E now cMatch σ f pkt = .ok (τ, b)) :
    τ.tables = σ.tables ∧ τ.fib = σ.fib := by
  cases handleInterest_handled h with
  | dup => exact ⟨rfl, rfl⟩
  | mgmt _ _ htrue => cases hm.symm.trans htrue
  | hit _ hn _ _ h₂ =>
    obtain ⟨ns, rfl⟩ := nonceIsDup_eq hn
    obtain ⟨o, rfl⟩ := deliver_eq h₂
    exact ⟨rfl, rfl⟩
  | drop _ hn =>
    obtain ⟨ns, rfl⟩ := nonceIsDup_eq hn
    exact ⟨rfl, rfl⟩
  | insert _ hn _ _ hr =>
    obtain ⟨ns, rfl⟩ := nonceIsDup_eq hn
    cases pitInsert_inserted hr with
    | pending _ hk => cases hnew.symm.trans hk
    | full => exact ⟨rfl, rfl⟩
    | new _ _ hn =>
      have hnone : interestNew now { σ with nonces := ns } (some f) pkt = none := if_pos hfull
      cases hnone.symm.trans hn

/-- In every state the counts are right and the PIT is within its limit, and an Interest that finds the
PIT full changes neither the PIT nor the content store nor the FIB. -/
theorem tables_counted {E : Env} {σ : Relay} (hr : (tables E).Reachable σ) :
    (σ.pitcnt = σ.pit.length ∧ σ.contentcnt = σ.contents.length ∧
      (σ.maxPitEntries ≠ -1 → σ.pitcnt ≤ σ.maxPitEntries)) ∧
    ∀ now cMatch f pkt τ b, PitFull σ → pitFind pkt σ.pit = .ok none → isMgmt pkt = .ok false →
      handleInterest E now cMatch σ f pkt = .ok (τ, b) →
      τ.pit = σ.pit ∧ τ.contents = σ.contents ∧ τ.fib = σ.fib := by
  have hc := (tables_keeps_counted E).reachable hr
  refine ⟨⟨hc.pitcnt, hc.contentcnt, hc.limit⟩, fun now cMatch f pkt τ b hfull hnew hm h => ?_⟩
  obtain ⟨ht, hfib⟩ := handleInterest_full hfull hnew hm h
  exact ⟨congrArg Tables.pit ht, congrArg Tables.contents ht, hfib⟩

/-- A CCNx Interest for a name, and what a program does first: it makes a face, which has the
identity 1. -/
def interestFor (name : List (List UInt8)) : Pkt where
  pfx := some (.ofComps .ccntlv name)
  s := .ccntlv none
  suite := .ccntlv

def TableEvent.peer : TableEvent := .face 0 0 (some (.inet 1 9695))

/-- The PIT has one place, which the Interest `/a` takes; then `/b` comes. -/
theorem tables_counted_full :
    ∃ σ τ b, PitFull σ ∧ σ.pitcnt = σ.pit.length ∧
      handleInterest .still 0 ccntlvCMatch σ 1 (interestFor [[98]]) = .ok (τ, b) ∧
      τ.pit = σ.pit := by
  obtain ⟨⟨σ, τ, b⟩, hrun, hfull, hnew⟩ := exists_ok
    (x := do
      let σ ← [.peer, .interest 0 ccntlvCMatch 1 (interestFor [[97]])].foldlM
        (fun σ e => (tables .still).step e σ) { Relay.plain with maxPitEntries := 1 }
      let r ← handleInterest .still 0 ccntlvCMatch σ 1 (interestFor [[98]])
      return (σ, r))
    (p := fun r => PitFull r.1 ∧ pitFind (interestFor [[98]]) r.1.pit = .ok none)
    (by decide +kernel)
  obtain ⟨σ', hσ, hrun⟩ := (bind_eq_ok _ _ _).mp hrun
  obtain ⟨r, hi, hrun⟩ := (bind_eq_ok _ _ _).mp hrun
  cases hrun
  have hr : (tables .still).Reachable σ :=
    (Relay.Empty.reachable ⟨rfl, rfl, rfl, rfl, by decide⟩).run hσ
  have h := tables_counted hr
  exact ⟨σ, τ, b, hfull, h.1.1, hi, (h.2 0 ccntlvCMatch 1 _ τ b hfull hnew rfl hi).1⟩

end Ccnl
