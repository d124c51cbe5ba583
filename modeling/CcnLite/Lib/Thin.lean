import Mathlib.Data.List.Forall2

/-!
# Lists that lose elements

`SublistForall₂ R l' l` says that `l'` is what is left of `l` when elements are taken out of it and
the others are changed along `R`. This is what a walk does that removes nodes from the list that it
goes through.
-/

namespace CRun

open List

variable {α : Type} {R : α → α → Prop} {l l' : List α}

theorem thin_refl (hR : ∀ a, R a a) (l : List α) : SublistForall₂ R l l := by
  induction l with
  | nil => exact .nil
  | cons a l ih => exact .cons (hR a) ih

theorem thin_trans (hR : ∀ a b c, R a b → R b c → R a c) {l'' : List α}
    (h' : SublistForall₂ R l'' l') (h : SublistForall₂ R l' l) : SublistForall₂ R l'' l := by
  induction h generalizing l'' with
  | nil =>
    cases h'
    exact .nil
  | cons hab _ ih =>
    cases h' with
    | nil => exact .nil
    | cons h₁ h₂ => exact .cons (hR _ _ _ h₁ hab) (ih h₂)
    | cons_right h₂ => exact .cons_right (ih h₂)
  | cons_right _ ih => exact .cons_right (ih h')

theorem thin_length_le (h : SublistForall₂ R l' l) : l'.length ≤ l.length := by
  induction h with
  | nil => exact Nat.zero_le _
  | cons _ _ ih => exact Nat.succ_le_succ ih
  | cons_right _ ih => exact Nat.le_succ_of_le ih

theorem thin_mem (h : SublistForall₂ R l' l) : ∀ b ∈ l', ∃ a ∈ l, R b a := by
  induction h with
  | nil => simp
  | cons hab _ ih =>
    rintro b (_ | ⟨_, hb⟩)
    · exact ⟨_, mem_cons_self, hab⟩
    · obtain ⟨a, ha, hR⟩ := ih b hb
      exact ⟨a, mem_cons_of_mem _ ha, hR⟩
  | cons_right _ ih =>
    intro b hb
    obtain ⟨a, ha, hR⟩ := ih b hb
    exact ⟨a, mem_cons_of_mem _ ha, hR⟩

/-- A relation between any two elements holds between any two that are left. -/
theorem thin_pairwise {S : α → α → Prop} (hS : ∀ a b a' b', R a' a → R b' b → S a b → S a' b')
    (h : SublistForall₂ R l' l) (hl : l.Pairwise S) : l'.Pairwise S := by
  induction h with
  | nil => exact .nil
  | cons hab hsub ih =>
    rw [pairwise_cons] at hl ⊢
    refine ⟨fun b hb => ?_, ih hl.2⟩
    obtain ⟨a, ha, hR⟩ := thin_mem hsub b hb
    exact hS _ _ _ _ hab hR (hl.1 a ha)
  | cons_right _ ih => exact ih (pairwise_cons.mp hl).2

theorem thin_filterMap {f : α → Option α} (hf : ∀ a b, f a = some b → R b a) (l : List α) :
    SublistForall₂ R (l.filterMap f) l := by
  induction l with
  | nil => exact .nil
  | cons a l ih =>
    rw [filterMap_cons]
    split
    · exact .cons_right ih
    · rename_i b hb
      exact .cons (hf a b hb) ih

theorem thin_eraseIdx (hR : ∀ a, R a a) (l : List α) (k : Nat) :
    SublistForall₂ R (l.eraseIdx k) l := by
  induction l generalizing k with
  | nil => exact .nil
  | cons a l ih =>
    cases k with
    | zero => exact .cons_right (thin_refl hR l)
    | succ k => exact .cons (hR a) (ih k)

theorem thin_modify {f : α → α} (hR : ∀ a, R a a) (hf : ∀ a, R (f a) a) (l : List α) (k : Nat) :
    SublistForall₂ R (l.modify k f) l := by
  induction l generalizing k with
  | nil => simpa using SublistForall₂.nil
  | cons a l ih =>
    cases k with
    | zero => exact .cons (hf a) (thin_refl hR l)
    | succ k => exact .cons (hR a) (ih k)

end CRun
