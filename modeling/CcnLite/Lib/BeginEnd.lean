import CcnLite.Lib.Trans
import Mathlib.Data.List.Chain

/-!
# Begin/End fragmentation

A message is sent as one piece, or as a series that begins with a `first` piece and ends with a
`last` one. Every piece has a number, and `next` says which number comes after which. The receiver
`assemble` keeps the pieces of the series that is open (`part`), and the number that it expects; a
piece with another number closes the series.

- **What is handed out** (`assemble_sound`) is a complete series of pieces that came one right after
  the other, with successive numbers, whatever else has come.
- **What is lost** (`out_flatten`): of complete series that come one after the other, those whose
  numbers are not successive.
-/

namespace CRun.BeginEnd

inductive Flag where
  | single
  | first
  | mid
  | last
  deriving DecidableEq, Repr

/-- A piece of a message, with its number. -/
structure Piece (ν α : Type) where
  flag : Flag
  seq : ν
  data : α
  deriving DecidableEq, Repr

/-- The receiver: the number that it expects, and the pieces of the open series. -/
structure Rcv (ν α : Type) where
  expected : ν
  part : List (Piece ν α) := []
  deriving DecidableEq, Repr

variable {ν α : Type} (next : ν → ν)

/-- `y` has the number after that of `x`. -/
def Follows (x y : Piece ν α) : Prop := y.seq = next x.seq

instance [DecidableEq ν] : DecidableRel (Follows next (α := α)) :=
  fun x y => inferInstanceAs (Decidable (y.seq = next x.seq))

/-- The flags of a series: one piece, or a first piece, pieces in the middle and a last one. -/
inductive Shaped : List (Piece ν α) → Prop
  | single (x : Piece ν α) (h : x.flag = .single) : Shaped [x]
  | series (x : Piece ν α) (mids : List (Piece ν α)) (z : Piece ν α) (hx : x.flag = .first)
      (hm : ∀ y ∈ mids, y.flag = .mid) (hz : z.flag = .last) : Shaped (x :: mids ++ [z])

/-- The pieces of an open series, of which `n` is the next number. -/
structure Opened (part : List (Piece ν α)) (n : ν) : Prop where
  flags : ∃ x mids, part = x :: mids ∧ x.flag = .first ∧ ∀ y ∈ mids, y.flag = .mid
  chain : ∀ y : Piece ν α, y.seq = n → (part ++ [y]).IsChain (Follows next)

/-- A piece comes. -/
def assemble [DecidableEq ν] : Trans (Rcv ν α) (Piece ν α) (List (Piece ν α)) := fun s x =>
  let part := if s.expected = x.seq then s.part else []
  let expected := next x.seq
  match x.flag with
  | .single => ({ expected }, [[x]])
  | .first => ({ expected, part := [x] }, [])
  | .mid => ({ expected, part := if part = [] then [] else part ++ [x] }, [])
  | .last => ({ expected }, if part = [] then [] else [part ++ [x]])

variable {next}

/-! ## What is handed out -/

theorem Opened.first {x : Piece ν α} (h : x.flag = .first) : Opened next [x] (next x.seq) where
  flags := ⟨x, [], rfl, h, by simp⟩
  chain y hy := List.isChain_pair.mpr hy

theorem Opened.mid {part : List (Piece ν α)} {y : Piece ν α} (h : Opened next part y.seq)
    (hy : y.flag = .mid) : Opened next (part ++ [y]) (next y.seq) where
  flags := by
    obtain ⟨x, mids, rfl, hx, hm⟩ := h.flags
    refine ⟨x, mids ++ [y], rfl, hx, ?_⟩
    simpa [or_imp, forall_and, hy] using hm
  chain z hz := by
    rw [List.append_assoc, List.singleton_append, List.isChain_append_cons_cons]
    exact ⟨h.chain y rfl, hz, List.isChain_singleton _⟩

theorem Opened.last {part : List (Piece ν α)} {z : Piece ν α} (h : Opened next part z.seq)
    (hz : z.flag = .last) : Shaped (part ++ [z]) ∧ (part ++ [z]).IsChain (Follows next) := by
  obtain ⟨x, mids, rfl, hx, hm⟩ := h.flags
  exact ⟨.series x mids z hx hm hz, h.chain z rfl⟩

variable [DecidableEq ν]

/-- The open series is the end of what has come. -/
def Inv (next : ν → ν) (xs : List (Piece ν α)) (s : Rcv ν α) : Prop :=
  s.part = [] ∨ (∃ pre, xs = pre ++ s.part) ∧ Opened next s.part s.expected

/-- What is left of the open series when `x` comes. -/
theorem Inv.part {xs : List (Piece ν α)} {s : Rcv ν α} (h : Inv next xs s) (x : Piece ν α)
    (hne : (if s.expected = x.seq then s.part else []) ≠ []) :
    (if s.expected = x.seq then s.part else []) = s.part ∧ (∃ pre, xs = pre ++ s.part) ∧
      Opened next s.part x.seq := by
  by_cases hseq : s.expected = x.seq
  · rw [if_pos hseq] at hne ⊢
    obtain ⟨hpre, hopen⟩ := h.resolve_left hne
    exact ⟨rfl, hpre, hseq ▸ hopen⟩
  · rw [if_neg hseq] at hne
    exact absurd rfl hne

theorem Inv.step {xs : List (Piece ν α)} {s : Rcv ν α} {x : Piece ν α} (h : Inv next xs s) :
    Inv next (xs ++ [x]) (assemble next s x).1 := by
  unfold assemble
  cases hx : x.flag with
  | single => exact .inl rfl
  | first => exact .inr ⟨⟨xs, rfl⟩, .first hx⟩
  | mid =>
    by_cases hne : (if s.expected = x.seq then s.part else []) = []
    · exact .inl (by simp [hne])
    · obtain ⟨hp, ⟨pre, hpre⟩, hopen⟩ := h.part x hne
      rw [hp] at hne
      refine .inr ?_
      simp only [hp, if_neg hne]
      exact ⟨⟨pre, by rw [hpre, List.append_assoc]⟩, hopen.mid hx⟩
  | last => exact .inl rfl

/-- A step hands out the series that the piece completes. -/
theorem Inv.out {xs : List (Piece ν α)} {s : Rcv ν α} {x : Piece ν α} (h : Inv next xs s) :
    ∀ l ∈ (assemble next s x).2, (∃ pre, xs ++ [x] = pre ++ l) ∧ Shaped l ∧
      l.IsChain (Follows next) := by
  unfold assemble
  intro l hl
  cases hx : x.flag with
  | single =>
    obtain rfl : l = [x] := by simpa [hx] using hl
    exact ⟨⟨xs, rfl⟩, .single x hx, List.isChain_singleton _⟩
  | first => simp [hx] at hl
  | mid => simp [hx] at hl
  | last =>
    by_cases hne : (if s.expected = x.seq then s.part else []) = []
    · simp [hx, hne] at hl
    · obtain ⟨hp, ⟨pre, hpre⟩, hopen⟩ := h.part x hne
      rw [hp] at hne
      obtain rfl : l = s.part ++ [x] := by simpa [hx, hp, hne] using hl
      exact ⟨⟨pre, by rw [hpre, List.append_assoc]⟩, hopen.last hx⟩

/-- What is handed out is a complete series, of successive pieces of what has come. -/
theorem assemble_sound (n : ν) (xs : List (Piece ν α)) :
    ∀ l ∈ (assemble next).out { expected := n } xs, ∃ pre post, xs = pre ++ l ++ post ∧ Shaped l ∧
      l.IsChain (Follows next) := by
  intro l hl
  obtain ⟨-, hout⟩ := Trans.out_inv (t := assemble next)
    (P := fun xs l => (∃ pre, xs = pre ++ l) ∧ Shaped l ∧ l.IsChain (Follows next))
    (.inl rfl : Inv next [] { expected := n }) (fun _ _ _ => Inv.step) (fun _ _ _ => Inv.out) xs
  obtain ⟨_, post, rfl, ⟨pre, rfl⟩, h⟩ := hout l hl
  exact ⟨pre, post, rfl, h⟩

/-! ## What is lost -/

/-- The rest of a series, after the pieces in `part`. -/
theorem assemble_rest (next : ν → ν) {x z : Piece ν α} {mids : List (Piece ν α)}
    (hm : ∀ y ∈ mids, y.flag = .mid) (hz : z.flag = .last) (part : List (Piece ν α)) :
    ((assemble next).after { expected := next x.seq, part } (mids ++ [z])).part = [] ∧
    (assemble next).out { expected := next x.seq, part } (mids ++ [z]) =
      if part ≠ [] ∧ (x :: mids ++ [z]).IsChain (Follows next) then [part ++ mids ++ [z]]
      else [] := by
  induction mids generalizing x part with
  | nil =>
    by_cases hseq : next x.seq = z.seq
    · cases part <;> simp [assemble, hz, hseq, Follows]
    · simp [assemble, hz, hseq, Follows, eq_comm (a := z.seq)]
  | cons y mids ih =>
    have hy : y.flag = .mid := hm y List.mem_cons_self
    have hm' : ∀ y ∈ mids, y.flag = .mid := fun y' h => hm y' (List.mem_cons_of_mem _ h)
    by_cases hseq : next x.seq = y.seq
    · -- the series is still open, or was not before
      have hstep : assemble next { expected := next x.seq, part } y =
          ({ expected := next y.seq, part := if part = [] then [] else part ++ [y] }, []) := by
        simp [assemble, hy, hseq]
      have hchain : (x :: y :: mids ++ [z]).IsChain (Follows next) ↔
          (y :: mids ++ [z]).IsChain (Follows next) := by
        simp [List.isChain_cons_cons, Follows, hseq]
      have h := ih (x := y) hm' (if part = [] then [] else part ++ [y])
      rw [List.cons_append, Trans.after_cons, Trans.out_cons, hstep]
      refine ⟨h.1, ?_⟩
      rw [List.nil_append, h.2]
      by_cases hp : part = []
      · simp [hp]
      · simp [hp, List.isChain_cons_cons, Follows, hseq]
    · have hstep : assemble next { expected := next x.seq, part } y =
          ({ expected := next y.seq, part := [] }, []) := by simp [assemble, hy, hseq]
      have hchain : ¬ (x :: y :: mids ++ [z]).IsChain (Follows next) := by
        simp [List.isChain_cons_cons, Follows, eq_comm (a := y.seq), hseq]
      have h := ih (x := y) hm' []
      rw [List.cons_append, Trans.after_cons, Trans.out_cons, hstep]
      refine ⟨h.1, ?_⟩
      rw [List.nil_append, h.2, if_neg (by simp), if_neg (fun h => hchain h.2)]

/-- A complete series is handed out when its numbers are successive. -/
theorem assemble_shaped (next : ν → ν) {l : List (Piece ν α)} (h : Shaped l) (s : Rcv ν α) :
    ((assemble next).after s l).part = [] ∧
    (assemble next).out s l = if l.IsChain (Follows next) then [l] else [] := by
  cases h with
  | single x hx => simp [assemble, hx]
  | series x mids z hx hm hz =>
    have hstep : assemble next s x = ({ expected := next x.seq, part := [x] }, []) := by
      simp [assemble, hx]
    have h := assemble_rest next (x := x) hm hz [x]
    rw [List.cons_append, Trans.after_cons, Trans.out_cons, hstep]
    refine ⟨h.1, ?_⟩
    rw [List.nil_append, h.2]
    simp

/-- Of the series that come one after the other, those with successive numbers are handed out. -/
theorem out_flatten {ls : List (List (Piece ν α))} (h : ∀ l ∈ ls, Shaped l) (s : Rcv ν α) :
    (assemble next).out s ls.flatten = ls.filter (fun l => l.IsChain (Follows next)) := by
  induction ls generalizing s with
  | nil => rfl
  | cons l ls ih =>
    obtain ⟨-, hout⟩ := assemble_shaped next (h l List.mem_cons_self) s
    rw [List.flatten_cons, Trans.out_append, hout,
      ih (fun l' hl => h l' (List.mem_cons_of_mem _ hl)), List.filter_cons]
    by_cases hc : l.IsChain (Follows next) <;> simp [hc]

end CRun.BeginEnd
