import CcnLite.Core.Relay
import Mathlib.Data.List.Basic

/-!
# The nonce window (`ccnl_nonce_find_or_append`)

The relay remembers the nonces of the Interests that it has seen, to drop an Interest that comes
back. The list is bounded: when a nonce comes in, the oldest one goes. `NonceRun` is a run of the
function together with the record of the nonces that it did not report, which the code does not
keep. `nonce_window`: the list is the newest part of that record, so a nonce is reported exactly when
it is one of the last `maxNonces` that were recorded.
-/

namespace Ccnl

open CRun

/-- The list of nonces, and the nonces recorded so far, newest first. -/
structure NonceRun where
  nonces : List (List UInt8) := []
  recorded : List (List UInt8) := []

namespace NonceRun

/-- One call. A nonce is recorded when it is not reported as a duplicate. -/
def present (s : NonceRun) (nonce : List UInt8) : NonceRun :=
  match nonceFindOrAppend s.nonces nonce with
  | none => s
  | some ns => { nonces := ns, recorded := nonce :: s.recorded }

/-- The calls for a sequence of nonces, from an empty list on. -/
def presents (ns : List (List UInt8)) : NonceRun := ns.foldl present {}

/-- The list is the newest part of the record, and no nonce is in it twice. -/
structure Window (s : NonceRun) : Prop where
  newest : s.nonces = s.recorded.take maxNonces
  nodup : s.nonces.Nodup

end NonceRun

theorem any_bufEqual_iff {nonces : List (List UInt8)} {nonce : List UInt8} :
    (nonces.any fun n => bufEqual (some n) (some nonce)) = true ↔ nonce ∈ nonces := by
  simp only [List.any_eq_true, bufEqual_iff, Option.some.injEq, exists_eq_left', exists_eq_right']

/-- A nonce is reported exactly when it is in the list. -/
theorem nonceFindOrAppend_eq_none {nonces : List (List UInt8)} {nonce : List UInt8} :
    nonceFindOrAppend nonces nonce = none ↔ nonce ∈ nonces := by
  unfold nonceFindOrAppend
  by_cases h : nonce ∈ nonces
  · rw [if_pos (any_bufEqual_iff.mpr h)]
    simp [h]
  · rw [if_neg (mt any_bufEqual_iff.mp h)]
    split <;> simp [h]

/-- A new nonce pushes the oldest one out of a full list. -/
theorem nonceFindOrAppend_new {nonces : List (List UInt8)} {nonce : List UInt8}
    (h : nonce ∉ nonces) (hlen : nonces.length ≤ maxNonces) :
    nonceFindOrAppend nonces nonce = some ((nonce :: nonces).take maxNonces) := by
  have hany : ¬ (nonces.any fun n => bufEqual (some n) (some nonce)) = true := by
    rw [any_bufEqual_iff]
    exact h
  unfold nonceFindOrAppend
  rw [if_neg hany]
  by_cases hfull : maxNonces ≤ nonces.length
  · have heq : nonces.length = maxNonces := Nat.le_antisymm hlen hfull
    have hcond : maxNonces ≤ nonces.length ∧ 2 ≤ nonces.length := by
      rw [heq]
      decide
    rw [if_pos hcond, show maxNonces = (maxNonces - 1) + 1 from rfl, List.take_succ_cons,
      List.dropLast_eq_take, heq]
  · rw [if_neg fun hc => hfull hc.1, List.take_of_length_le]
    rw [List.length_cons]
    omega

/-- One call keeps the list the newest part of the record. -/
theorem NonceRun.Window.present {s : NonceRun} (h : s.Window) (nonce : List UInt8) :
    (s.present nonce).Window := by
  by_cases hmem : nonce ∈ s.nonces
  · rw [NonceRun.present, nonceFindOrAppend_eq_none.mpr hmem]
    exact h
  · have hlen : s.nonces.length ≤ maxNonces := by
      rw [h.newest]
      exact List.length_take_le _ _
    rw [NonceRun.present, nonceFindOrAppend_new hmem hlen]
    constructor
    · show (nonce :: s.nonces).take maxNonces = (nonce :: s.recorded).take maxNonces
      rw [h.newest, show maxNonces = (maxNonces - 1) + 1 from rfl, List.take_succ_cons,
        List.take_succ_cons, List.take_take, Nat.min_eq_left (Nat.le_succ _)]
    · exact (List.nodup_cons.mpr ⟨hmem, h.nodup⟩).sublist (List.take_sublist _ _)

theorem NonceRun.presents_window (ns : List (List UInt8)) : (NonceRun.presents ns).Window := by
  have hrun : ∀ s : NonceRun, s.Window → (ns.foldl NonceRun.present s).Window := by
    induction ns with
    | nil => exact fun _ h => h
    | cons n ns ih => exact fun s h => ih _ (h.present n)
  exact hrun {} ⟨rfl, .nil⟩

/-- After any sequence of nonces, a nonce is reported as a duplicate exactly when it is one of the
`maxNonces` nonces recorded last; and the list holds those, newest first and each once. -/
theorem nonce_window (ns : List (List UInt8)) (nonce : List UInt8) :
    let s := NonceRun.presents ns
    (nonceFindOrAppend s.nonces nonce = none ↔ nonce ∈ s.recorded.take maxNonces) ∧
    s.nonces = s.recorded.take maxNonces ∧ s.nonces.Nodup ∧ s.nonces.length ≤ maxNonces := by
  intro s
  have h : s.Window := NonceRun.presents_window ns
  refine ⟨?_, h.newest, h.nodup, ?_⟩
  · rw [← h.newest]
    exact nonceFindOrAppend_eq_none
  · rw [h.newest]
    exact List.length_take_le _ _

/-- An Interest without a nonce is no duplicate; one with a nonce is when the relay knows the
nonce. -/
theorem nonceIsDup_eq_none {σ : Relay} {pkt : Pkt} :
    nonceIsDup σ pkt = none ↔ ∃ n ∈ σ.nonces, pkt.nonce = some n := by
  unfold nonceIsDup
  cases h : pkt.nonce with
  | none => simp
  | some n => simp [nonceFindOrAppend_eq_none]

end Ccnl
