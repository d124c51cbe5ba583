import Mathlib.Data.Nat.Init
import Mathlib.Data.List.Basic

/-!
# A list cut into pieces

A program that sends or stores a long buffer cuts it into pieces of `d` elements, of which the last
may be shorter. `piece d l k` is the piece with the number `k`.

* `flatMap_piece`: the first pieces, one after another, are the front of the list.
* `pieceCount d n`: how many pieces `n` elements have (`lt_pieceCount`).
-/

namespace CRun

variable {α : Type}

/-- The piece with the number `k`. -/
def piece (d : Nat) (l : List α) (k : Nat) : List α := (l.drop (k * d)).take d

/-- The number of pieces of `n` elements. -/
def pieceCount (d n : Nat) : Nat := (n + d - 1) / d

section Pieces

variable {d n k : Nat} {l : List α}

theorem lt_pieceCount (hd : 0 < d) : k < pieceCount d n ↔ k * d < n := by
  rw [pieceCount, Nat.lt_div_iff_mul_lt hd, Nat.mul_comm]
  omega

theorem pieceCount_pos (hd : 0 < d) : 0 < pieceCount d n ↔ 0 < n := by
  rw [lt_pieceCount hd, Nat.zero_mul]

theorem le_pieceCount_mul (hd : 0 < d) (n : Nat) : n ≤ pieceCount d n * d :=
  Nat.le_of_not_lt fun h => Nat.lt_irrefl _ ((lt_pieceCount hd).mpr h)

theorem pieceCount_le (hd : 0 < d) (n : Nat) : pieceCount d n ≤ n := by
  rw [← Nat.not_lt, lt_pieceCount hd, Nat.not_lt]
  exact Nat.le_mul_of_pos_right n hd

/-- The number of pieces, from a quotient and a remainder. -/
theorem pieceCount_eq (hd : 0 < d) (n : Nat) :
    pieceCount d n = if n % d = 0 then n / d else n / d + 1 := by
  have hn := Nat.div_add_mod' n d
  have hr := Nat.mod_lt n hd
  have hsucc := Nat.add_one_mul (n / d) d
  rw [pieceCount, Nat.div_eq_iff hd]
  split <;> omega

theorem length_piece : (piece d l k).length = min d (l.length - k * d) := by
  rw [piece, List.length_take, List.length_drop]

/-- A piece that is not the last has its full length. -/
theorem length_piece_of_lt (h : k + 1 < pieceCount d l.length) (hd : 0 < d) :
    (piece d l k).length = d := by
  rw [lt_pieceCount hd, Nat.succ_mul] at h
  rw [length_piece]
  omega

/-- The first pieces are the front of the list. -/
theorem flatMap_piece (d : Nat) (l : List α) (k : Nat) :
    (List.range k).flatMap (piece d l) = l.take (k * d) := by
  induction k with
  | zero => simp
  | succ k ih =>
    rw [List.range_succ, List.flatMap_append, ih, List.flatMap_singleton, Nat.succ_mul,
      List.take_add]
    rfl

/-- All pieces are the list. -/
theorem flatMap_pieces (hd : 0 < d) (l : List α) :
    (List.range (pieceCount d l.length)).flatMap (piece d l) = l := by
  rw [flatMap_piece, List.take_of_length_le (le_pieceCount_mul hd l.length)]

end Pieces

end CRun
