import CcnLite.Lib.Sys
import Mathlib.Logic.Function.Basic

/-!
# Programs on a wire

Programs, each with a state of its own, that send messages to one another. A message that was sent
once stays on the wire, and any program may take it at any time: it may come late, more than once, in
another order, to another program, or never. Others put messages on the wire as well.

`Wired.sys` is the whole as one `Sys`, whose steps are `Legal`. What each program keeps as long as it
takes good messages, and good messages only are sent and put on the wire: this holds in every run
(`Wired.keeps`).
-/

namespace CRun

/-- The programs `ι`, and the messages that were ever sent. -/
structure Wired (ι σ μ : Type) where
  node : ι → σ
  wire : List μ

namespace Wired

/-- What happens next. -/
inductive Event (ι ε μ : Type)
  /-- A program handles an event. -/
  | node (i : ι) (e : ε)
  /-- A message comes from elsewhere. -/
  | put (m : μ)

variable {ι σ ε μ : Type} [DecidableEq ι]

/-- What a program has sent in a step from `s` to `s'` goes on the wire. -/
def step (S : ι → Sys σ ε) (sent : σ → σ → List μ) : Event ι ε μ → Wired ι σ μ → Run (Wired ι σ μ)
  | .node i e, N => do
    let s ← (S i).step e (N.node i)
    return ⟨Function.update N.node i s, N.wire ++ sent (N.node i) s⟩
  | .put m, N => return { N with wire := N.wire ++ [m] }

/-- Each program starts by itself, with nothing on the wire. -/
def sys (S : ι → Sys σ ε) (sent : σ → σ → List μ) : Sys (Wired ι σ μ) (Event ι ε μ) where
  Start N := (∀ i, (S i).Start (N.node i)) ∧ N.wire = []
  step := step S sent

/-- The messages that a program takes are on the wire, and those from elsewhere are `Allowed`. -/
def Legal (takes : ε → Option μ) (Allowed : μ → Prop) : Event ι ε μ → Wired ι σ μ → Prop
  | .node _ e, N => ∀ m, takes e = some m → m ∈ N.wire
  | .put m, _ => Allowed m

instance {takes : ε → Option μ} {Allowed : μ → Prop} [DecidableEq μ] [DecidablePred Allowed] :
    ∀ (e : Event ι ε μ) (N : Wired ι σ μ), Decidable (Legal takes Allowed e N)
  | .node _ e, N => decidable_of_iff (∀ m ∈ takes e, m ∈ N.wire) Iff.rfl
  | .put m, _ => inferInstanceAs (Decidable (Allowed m))

omit [DecidableEq ι] in
theorem Legal.mono {takes : ε → Option μ} {P Q : μ → Prop} (h : ∀ m, P m → Q m) (e : Event ι ε μ)
    (N : Wired ι σ μ) (hl : Legal takes P e N) : Legal takes Q e N := by
  cases e with
  | node i e => exact hl
  | put m => exact h m hl

/-- The states of the programs, and the messages on the wire. -/
structure All (I : ι → σ → Prop) (Good : μ → Prop) (N : Wired ι σ μ) : Prop where
  node : ∀ i, I i (N.node i)
  wire : ∀ m ∈ N.wire, Good m

section Keeps

variable {S : ι → Sys σ ε} {sent : σ → σ → List μ} {takes : ε → Option μ} {Allowed Good : μ → Prop}
  {I : ι → σ → Prop}

/-- The rule for an invariant: it is enough to look at one program at a time. -/
theorem keeps (hstart : ∀ i s, (S i).Start s → I i s)
    (hstep : ∀ i e s s', I i s → (∀ m, takes e = some m → Good m) → (S i).step e s = .ok s' →
      I i s' ∧ ∀ m ∈ sent s s', Good m)
    (hput : ∀ m, Allowed m → Good m) :
    (sys S sent).KeepsBy (Legal takes Allowed) (All I Good) where
  start N h :=
    { node := fun i => hstart i _ (h.1 i)
      wire := fun m hm => by
        rw [h.2] at hm
        cases hm }
  step e N N' h hlegal hs := by
    cases e with
    | node i e =>
      obtain ⟨s, hi, hN⟩ := (bind_eq_ok _ _ _).mp hs
      cases hN
      obtain ⟨hI, hsent⟩ := hstep i e _ s (h.node i) (fun m hm => h.wire m (hlegal m hm)) hi
      refine ⟨fun j => ?_, fun m hm => ?_⟩
      · by_cases hj : j = i
        · subst hj
          simpa using hI
        · simpa [hj] using h.node j
      · rcases List.mem_append.mp hm with hm | hm
        · exact h.wire m hm
        · exact hsent m hm
    | put m =>
      cases hs
      refine ⟨h.node, fun m' hm => ?_⟩
      rcases List.mem_append.mp hm with hm | hm
      · exact h.wire m' hm
      · exact List.mem_singleton.mp hm ▸ hput m hlegal

end Keeps

end Wired

end CRun
