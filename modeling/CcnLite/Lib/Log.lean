import CcnLite.Lib.Sys

/-!
# What a run writes down

`written f w l b` is what the steps of the fold of `f` over `l` write down, one step after another,
when a step for `a` in the state `b` writes `w b a`.

* `written_mem`: what a run has written, one of its steps has.
* `written_budget`: what is written stays within a budget, when each step writes no more than it
  takes out of a balance or gets from outside.
* `foldlM_history`: an invariant that speaks of the steps so far.
* `until_step`: a condition holds to the end of the run, or up to a step that ends it.
-/

namespace CRun

open List

variable {α β γ : Type} {f : β → α → Run β} {w : β → α → List γ}

/-- What the steps of a fold write down. -/
def written (f : β → α → Run β) (w : β → α → List γ) : List α → β → List γ
  | [], _ => []
  | a :: l, b => w b a ++
    match f b a with
    | .ok b' => written f w l b'
    | .error _ => []

theorem written_cons {a : α} {l : List α} {b b' : β} (h : f b a = .ok b') :
    written f w (a :: l) b = w b a ++ written f w l b' := by
  rw [written, h]

/-- A fold over a list and one more element. -/
theorem foldlM_cons_eq_ok {a : α} {l : List α} {b c : β} (h : (a :: l).foldlM f b = .ok c) :
    ∃ b', f b a = .ok b' ∧ l.foldlM f b' = .ok c := by
  rw [foldlM_cons] at h
  exact (bind_eq_ok _ _ _).mp h

/-- A run up to a step, the step, and the rest. -/
structure Comes (f : β → α → Run β) (l : List α) (b : β) (before : List α) (a : α) (b₁ b₂ : β) :
    Prop where
  isPrefix : before ++ [a] <+: l
  run : before.foldlM f b = .ok b₁
  step : f b₁ a = .ok b₂

theorem Comes.cons {x a : α} {l before : List α} {b b' b₁ b₂ : β} (hx : f b x = .ok b')
    (h : Comes f l b' before a b₁ b₂) : Comes f (x :: l) b (x :: before) a b₁ b₂ where
  isPrefix := by
    rw [cons_append]
    exact (prefix_cons_inj x).mpr h.isPrefix
  run := by rw [foldlM_cons, hx, ok_bind, h.run]
  step := h.step

theorem Comes.head {a : α} {l : List α} {b b' : β} (h : f b a = .ok b') :
    Comes f (a :: l) b [] a b b' where
  isPrefix := by simp
  run := rfl
  step := h

/-- What a run has written, one of its steps has. -/
theorem written_mem {l : List α} {b c : β} {x : γ} (h : l.foldlM f b = .ok c)
    (hx : x ∈ written f w l b) :
    ∃ before a b₁ b₂, Comes f l b before a b₁ b₂ ∧ x ∈ w b₁ a := by
  induction l generalizing b with
  | nil => cases hx
  | cons a l ih =>
    obtain ⟨b', hb, h⟩ := foldlM_cons_eq_ok h
    rw [written_cons hb] at hx
    rcases mem_append.mp hx with hx | hx
    · exact ⟨[], a, b, b', .head hb, hx⟩
    · obtain ⟨before, a₁, b₁, b₂, hcome, hx⟩ := ih h hx
      exact ⟨a :: before, a₁, b₁, b₂, hcome.cons hb, hx⟩

/-- What a part of the state collects, when each step adds what it writes. -/
theorem written_collects {δ : Type} {out : β → List δ} {e : γ → δ}
    (hstep : ∀ b a b', f b a = .ok b' → out b' = out b ++ (w b a).map e) {l : List α} {b c : β}
    (h : l.foldlM f b = .ok c) : out c = out b ++ (written f w l b).map e := by
  induction l generalizing b with
  | nil =>
    cases h
    simp [written]
  | cons a l ih =>
    obtain ⟨b', hb, h⟩ := foldlM_cons_eq_ok h
    rw [ih h, hstep b a b' hb, written_cons hb, map_append, append_assoc]

/-- What a run writes stays within a balance and `n` for each step of the kind `q`, when it does in
each step. -/
theorem written_budget {P : β → α → Prop} {p : γ → Bool} {q : α → Bool} {n : Nat} {m : β → Nat}
    (hstep : ∀ b a b', P b a → f b a = .ok b' →
      (w b a).countP p + m b' ≤ m b + if q a then n else 0) {l : List α} {b c : β}
    (hP : Along f P l b) (h : l.foldlM f b = .ok c) :
    (written f w l b).countP p + m c ≤ m b + n * l.countP q := by
  induction l generalizing b with
  | nil =>
    cases h
    simp [written]
  | cons a l ih =>
    obtain ⟨b', hb, h⟩ := foldlM_cons_eq_ok h
    have hfirst := hstep b a b' hP.1 hb
    have hrest := ih (hP.2 b' hb) h
    have hkind : n * (a :: l).countP q = n * l.countP q + if q a then n else 0 := by
      rw [countP_cons, Nat.mul_add]
      split <;> simp
    rw [written_cons hb, countP_append, hkind]
    omega

/-- A condition that each step keeps or ends holds after the run, or one of its steps has ended
it. -/
theorem until_step {P : β → Prop} {Q : β → α → β → Prop}
    (hstep : ∀ b a b', P b → f b a = .ok b' → P b' ∨ Q b a b') {l : List α} {b c : β}
    (h₀ : P b) (h : l.foldlM f b = .ok c) :
    P c ∨ ∃ before a b₁ b₂, Comes f l b before a b₁ b₂ ∧ P b₁ ∧ Q b₁ a b₂ := by
  induction l generalizing b with
  | nil =>
    cases h
    exact .inl h₀
  | cons a l ih =>
    obtain ⟨b', hb, h⟩ := foldlM_cons_eq_ok h
    rcases hstep b a b' h₀ hb with h₁ | hends
    · rcases ih h₁ h with hc | ⟨before, a₁, b₁, b₂, hcome, hp, he⟩
      · exact .inl hc
      · exact .inr ⟨a :: before, a₁, b₁, b₂, hcome.cons hb, hp, he⟩
    · exact .inr ⟨[], a, b, b', .head hb, h₀, hends⟩

/-- What a run keeps, together with the steps that it has taken. -/
theorem foldlM_history {I : List α → β → Prop}
    (hstep : ∀ before a b b', I before b → f b a = .ok b' → I (before ++ [a]) b') {l : List α}
    {b c : β} (h₀ : I [] b) (h : l.foldlM f b = .ok c) : I l c := by
  suffices hgen : ∀ before, I before b → I (before ++ l) c by simpa using hgen [] h₀
  clear h₀
  induction l generalizing b with
  | nil =>
    cases h
    simp
  | cons a l ih =>
    intro before hb
    obtain ⟨b', hb', h⟩ := foldlM_cons_eq_ok h
    simpa using ih h (before ++ [a]) (hstep before a b b' hb hb')

end CRun
