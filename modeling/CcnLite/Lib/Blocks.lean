import Mathlib.Data.List.Basic

/-!
# Functions of blocks

A function that takes a state and a block of `n` elements, and makes the next state. `absorb f n s xs`
feeds it `xs`, block after block; what is left at the end is shorter than a block.

To feed it a list in parts, what is left of one part goes in front of the next (`absorb_append`).
-/

namespace CRun

open List

variable {α σ : Type}

/-- The state after the whole blocks of `xs`, and what is left of `xs`. -/
def absorb (f : σ → List α → σ) (n : Nat) (s : σ) (xs : List α) : σ × List α :=
  ((range (xs.length / n)).foldl (fun s k => f s ((xs.drop (n * k)).take n)) s,
    xs.drop (n * (xs.length / n)))

section Absorb

variable {f : σ → List α → σ} {n : Nat} {s : σ} {xs ys : List α}

theorem absorb_short (h : xs.length < n) : absorb f n s xs = (s, xs) := by
  simp [absorb, Nat.div_eq_of_lt h]

@[simp] theorem absorb_nil (hn : 0 < n) : absorb f n s [] = (s, []) := absorb_short hn

/-- The first block. -/
theorem absorb_block (hn : 0 < n) (h : n ≤ xs.length) :
    absorb f n s xs = absorb f n (f s (xs.take n)) (xs.drop n) := by
  have hcount : xs.length / n = (xs.length - n) / n + 1 := by
    rw [← Nat.add_div_right _ hn, Nat.sub_add_cancel h]
  have hdrop : ∀ k, xs.drop (n * (k + 1)) = (xs.drop n).drop (n * k) := fun k => by
    rw [drop_drop, Nat.mul_succ, Nat.add_comm]
  unfold absorb
  rw [hcount, range_succ_eq_map, foldl_cons, foldl_map, length_drop, hdrop]
  simp only [Nat.mul_zero, drop_zero, Nat.succ_eq_add_one, hdrop]

/-- Induction on the blocks of a list. -/
theorem blocks_induction {P : List α → Prop} (hn : 0 < n) (short : ∀ xs, xs.length < n → P xs)
    (block : ∀ xs, n ≤ xs.length → P (xs.drop n) → P xs) (xs : List α) : P xs := by
  induction hl : xs.length using Nat.strongRecOn generalizing xs with
  | _ l ih =>
    by_cases h : xs.length < n
    · exact short xs h
    · refine block xs (Nat.le_of_not_lt h) (ih (xs.drop n).length ?_ _ rfl)
      rw [length_drop]
      omega

theorem absorb_rest (f : σ → List α → σ) (n : Nat) (s : σ) (xs : List α) :
    (absorb f n s xs).2 = xs.drop (n * (xs.length / n)) := rfl

theorem length_absorb_rest (f : σ → List α → σ) (n : Nat) (s : σ) (xs : List α) :
    (absorb f n s xs).2.length = xs.length % n := by
  rw [absorb_rest, length_drop, Nat.mod_def]

/-- A list in two parts. -/
theorem absorb_append (hn : 0 < n) (s : σ) (xs ys : List α) :
    absorb f n s (xs ++ ys) = absorb f n (absorb f n s xs).1 ((absorb f n s xs).2 ++ ys) := by
  induction xs using blocks_induction hn generalizing s with
  | short xs h => rw [absorb_short h]
  | block xs h ih =>
    have hlen : n ≤ (xs ++ ys).length := by
      rw [length_append]
      omega
    rw [absorb_block hn hlen, take_append_of_le_length h, drop_append_of_le_length h, ih,
      absorb_block hn h]

/-- A part that ends with a block. -/
theorem absorb_append_whole (hn : 0 < n) (hxs : xs.length % n = 0) (s : σ) (ys : List α) :
    absorb f n s (xs ++ ys) = absorb f n (absorb f n s xs).1 ys := by
  have hrest : (absorb f n s xs).2 = [] := by
    rw [← length_eq_zero_iff, length_absorb_rest, hxs]
  rw [absorb_append hn, hrest, nil_append]

/-- One block. -/
theorem absorb_one (hn : 0 < n) (h : xs.length = n) : absorb f n s xs = (f s xs, []) := by
  rw [absorb_block hn (Nat.le_of_eq h.symm), ← h, take_length, drop_length, h, absorb_nil hn]

end Absorb

end CRun
