import CcnLite.Lib.Run
import Mathlib.Data.List.TakeWhile

/-!
# Strings that end with a NUL byte

A string `s` lies at the start of the memory `s ++ [0]`. `Points s p r` says that the index `p` is
the place of the suffix `r`. `skipWhile` is the loop `while (f(*p)) p++`. Where `f` is false of the
NUL byte it stays in the string (`skipWhile_cstr`).
-/

namespace CRun

/-- `while (f(*p)) p++`. -/
def skipWhile (mem : List UInt8) (f : UInt8 → Bool) : Nat → Nat → Run Nat
  | 0, _ => .error .fuel
  | k + 1, p => do
    if f (← rd mem p) then skipWhile mem f k (p + 1) else return p

/-- The suffix `r` of `s` begins at `p`. -/
structure Points (s : List UInt8) (p : Nat) (r : List UInt8) : Prop where
  drop : s.drop p = r
  le : p ≤ s.length

namespace Points

variable {s r : List UInt8} {p : Nat} {c : UInt8} {f : UInt8 → Bool}

theorem start (s : List UInt8) : Points s 0 s := ⟨rfl, Nat.zero_le _⟩

theorem length (h : Points s p r) : p + r.length = s.length := by
  obtain ⟨rfl, hle⟩ := h
  rw [List.length_drop]
  omega

theorem add (h : Points s p r) {n : Nat} (hn : n ≤ r.length) : Points s (p + n) (r.drop n) := by
  have := h.length
  exact ⟨by rw [← h.drop, List.drop_drop], by omega⟩

theorem next (h : Points s p (c :: r)) : Points s (p + 1) r :=
  h.add (Nat.succ_le_succ (Nat.zero_le _))

theorem subset (h : Points s p r) : r ⊆ s := h.drop ▸ List.drop_subset p s

theorem rd_cons (h : Points s p (c :: r)) : rd (s ++ [0]) p = .ok c := by
  have hlen := h.length
  rw [List.length_cons] at hlen
  rw [rd_eq_ok, List.getElem?_append_left (by omega), ← Nat.add_zero p, ← List.getElem?_drop, h.drop]
  rfl

theorem rd_nil (h : Points s p []) : rd (s ++ [0]) p = .ok 0 := by
  obtain rfl : p = s.length := h.length
  rw [rd_eq_ok, List.getElem?_concat_length]

theorem skipWhile (h : Points s p r) (hf : f 0 = false) {k : Nat} (hk : r.length < k) :
    skipWhile (s ++ [0]) f k p = .ok (p + (r.takeWhile f).length) ∧
      Points s (p + (r.takeWhile f).length) (r.dropWhile f) := by
  induction r generalizing p k with
  | nil =>
    obtain ⟨k, rfl⟩ : ∃ j, k = j + 1 := ⟨k - 1, by omega⟩
    rw [CRun.skipWhile, h.rd_nil, ok_bind, if_neg (by simp [hf])]
    exact ⟨rfl, h⟩
  | cons c r ih =>
    rw [List.length_cons] at hk
    obtain ⟨k, rfl⟩ : ∃ j, k = j + 1 := ⟨k - 1, by omega⟩
    rw [CRun.skipWhile, h.rd_cons, ok_bind]
    by_cases hc : f c
    · obtain ⟨hrun, hpts⟩ := ih h.next (k := k) (by omega)
      have hend : p + 1 + (r.takeWhile f).length = p + ((r.takeWhile f).length + 1) := by omega
      rw [hend] at hrun hpts
      rw [if_pos hc, hrun, List.takeWhile_cons_of_pos hc, List.dropWhile_cons_of_pos hc]
      exact ⟨rfl, hpts⟩
    · rw [if_neg hc, List.takeWhile_cons_of_neg hc, List.dropWhile_cons_of_neg hc]
      exact ⟨rfl, h⟩

end Points

end CRun
