import Mathlib.Data.List.Induction

/-!
# Machines that answer

A machine with a state that answers each input with outputs. `out_inv` is the rule for what a run
hands out: an invariant ties the state to the inputs so far, and says of every output what inputs
have led to it.
-/

namespace CRun

/-- The next state, and the outputs, for a state and an input. -/
abbrev Trans (σ ε ω : Type) := σ → ε → σ × List ω

namespace Trans

variable {σ ε ω : Type} (t : Trans σ ε ω)

/-- The state after a list of inputs. -/
def after (s : σ) (es : List ε) : σ := es.foldl (fun s e => (t s e).1) s

/-- The outputs for a list of inputs. -/
def out (s : σ) : List ε → List ω
  | [] => []
  | e :: es => (t s e).2 ++ out (t s e).1 es

@[simp] theorem after_nil (s : σ) : t.after s [] = s := rfl

@[simp] theorem after_cons (s : σ) (e : ε) (es : List ε) :
    t.after s (e :: es) = t.after (t s e).1 es := rfl

@[simp] theorem out_nil (s : σ) : t.out s [] = [] := rfl

@[simp] theorem out_cons (s : σ) (e : ε) (es : List ε) :
    t.out s (e :: es) = (t s e).2 ++ t.out (t s e).1 es := rfl

theorem after_append (s : σ) (es es' : List ε) :
    t.after s (es ++ es') = t.after (t.after s es) es' := List.foldl_append

theorem out_append (s : σ) (es es' : List ε) :
    t.out s (es ++ es') = t.out s es ++ t.out (t.after s es) es' := by
  induction es generalizing s with
  | nil => rfl
  | cons e es ih => simp [ih]

variable {t}

/-- An invariant of the inputs so far and the state, with which each input gives outputs that `P`
holds of. -/
theorem out_inv {I : List ε → σ → Prop} {P : List ε → ω → Prop} {s : σ} (h0 : I [] s)
    (hI : ∀ es s e, I es s → I (es ++ [e]) (t s e).1)
    (hP : ∀ es s e, I es s → ∀ o ∈ (t s e).2, P (es ++ [e]) o) (es : List ε) :
    I es (t.after s es) ∧ ∀ o ∈ t.out s es, ∃ pre post, es = pre ++ post ∧ P pre o := by
  induction es using List.reverseRecOn with
  | nil => exact ⟨h0, by simp⟩
  | append_singleton es e ih =>
    obtain ⟨hs, hout⟩ := ih
    rw [after_append, out_append]
    refine ⟨hI _ _ _ hs, fun o ho => ?_⟩
    rcases List.mem_append.mp ho with ho | ho
    · obtain ⟨pre, post, rfl, h⟩ := hout o ho
      exact ⟨pre, post ++ [e], by simp, h⟩
    · have hlast : o ∈ (t (t.after s es) e).2 := by simpa using ho
      exact ⟨es ++ [e], [], by simp, hP _ _ _ hs o hlast⟩

/-- Two machines that go through related states with the same outputs, up to `g`. -/
theorem out_map {σ' ε' ω' : Type} {t' : Trans σ' ε' ω'} {R : σ → σ' → Prop} {f : ε → ε'}
    {g : ω' → ω} (h : ∀ s s' e, R s s' → R (t s e).1 (t' s' (f e)).1 ∧
      (t s e).2 = (t' s' (f e)).2.map g) {s : σ} {s' : σ'} (hs : R s s') (es : List ε) :
    t.out s es = (t'.out s' (es.map f)).map g := by
  induction es generalizing s s' with
  | nil => rfl
  | cons e es ih =>
    obtain ⟨hR, ho⟩ := h s s' e hs
    simp [ho, ih hR]

end Trans

end CRun
