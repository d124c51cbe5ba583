import Mathlib.Data.List.Basic
import Mathlib.Data.Nat.ModEq
import Mathlib.Logic.Function.Basic

/-!
# Circular buffers

A `Ring` keeps a queue in an array: `len` elements from the index `front` on, round the end of the
array. `Ring.queue` is the queue. An element is added behind the last one and taken from the front,
and both do to the queue what they should (`queue_push`, `queue_pop`).

`QueueRun n` are the traces of a queue that has room for `n` elements and refuses what comes when it is
full. What it has and gets is what it gives and still has, in this order (`QueueRun.conserves`), and
what it refuses finds `n` elements in front of it (`QueueRun.refused_iff`).
-/

namespace CRun

open List Function

/-- A circular buffer of `n` places. -/
structure Ring (α : Type) (n : Nat) where
  slots : Fin n → α
  front : Nat
  len : Nat

namespace Ring

variable {α : Type} {n : Nat} [NeZero n] {r : Ring α n}

/-- The element with `k` elements in front of it. -/
def get (r : Ring α n) (k : Nat) : α := r.slots (Fin.ofNat n (r.front + k))

/-- The queue. -/
def queue (r : Ring α n) : List α := (range r.len).map r.get

@[simp] theorem length_queue : r.queue.length = r.len := by
  simp [queue]

/-- An element behind the last one. -/
def push (r : Ring α n) (x : α) : Ring α n where
  slots := update r.slots (Fin.ofNat n (r.front + r.len)) x
  front := r.front
  len := r.len + 1

/-- The first element is gone. -/
def pop (r : Ring α n) : Ring α n where
  slots := r.slots
  front := (r.front + 1) % n
  len := r.len - 1

/-- Two places less than `n` apart are not the same. -/
theorem ofNat_add_ne {f j k : Nat} (hjk : j < k) (hk : k < n) :
    Fin.ofNat n (f + j) ≠ Fin.ofNat n (f + k) := by
  intro h
  have hmod : f + j ≡ f + k [MOD n] := congrArg Fin.val h
  have hsame : j ≡ k [MOD n] := Nat.ModEq.add_left_cancel' f hmod
  have hj : j = k := by
    rw [Nat.ModEq, Nat.mod_eq_of_lt (Nat.lt_trans hjk hk), Nat.mod_eq_of_lt hk] at hsame
    exact hsame
  omega

theorem queue_push (h : r.len < n) (x : α) : (r.push x).queue = r.queue ++ [x] := by
  have hlast : (r.push x).get r.len = x := update_self ..
  have hbefore : ∀ k ∈ range r.len, (r.push x).get k = r.get k := fun k hk =>
    update_of_ne (ofNat_add_ne (mem_range.mp hk) h) ..
  calc (r.push x).queue = (range (r.len + 1)).map (r.push x).get := rfl
    _ = (range r.len).map (r.push x).get ++ [(r.push x).get r.len] := by
      rw [range_succ, map_append, map_singleton]
    _ = r.queue ++ [x] := by rw [hlast, map_congr_left hbefore, queue]

theorem queue_pop (h : 0 < r.len) : r.queue = r.get 0 :: r.pop.queue := by
  have hnext : ∀ k, r.pop.get k = r.get (k + 1) := fun k => by
    have hmod : (r.front + 1) % n + k ≡ r.front + (k + 1) [MOD n] := by
      rw [Nat.add_comm k 1, ← Nat.add_assoc]
      exact (Nat.mod_modEq _ _).add_right k
    exact congrArg r.slots (Fin.ext hmod)
  obtain ⟨l, hl⟩ : ∃ l, r.len = l + 1 := ⟨r.len - 1, by omega⟩
  have hpop : r.pop.len = l := by
    rw [pop, hl, Nat.add_sub_cancel]
  rw [queue, queue, hl, hpop, range_succ_eq_map, map_cons, map_map]
  exact congrArg _ (map_congr_left fun k _ => (hnext k).symm)

end Ring

/-! ## Bounded queues -/

/-- What happens at a queue. -/
inductive QueueEvent (α : Type) where
  | taken (x : α)
  | refused (x : α)
  | given (x : α)
  deriving DecidableEq, Repr

namespace QueueEvent

variable {α : Type}

/-- What comes into the queue. -/
def taken? : QueueEvent α → Option α
  | taken x => some x
  | _ => none

/-- What the queue gives. -/
def given? : QueueEvent α → Option α
  | given x => some x
  | _ => none

end QueueEvent

open QueueEvent

/-- A queue with room for `n` elements comes from `q` to `q'`. -/
inductive QueueRun {α : Type} (n : Nat) : List α → List (QueueEvent α) → List α → Prop
  | nil (q : List α) : QueueRun n q [] q
  | take {q q' : List α} {es : List (QueueEvent α)} {x : α} (hlt : q.length < n)
      (h : QueueRun n (q ++ [x]) es q') : QueueRun n q (taken x :: es) q'
  | refuse {q q' : List α} {es : List (QueueEvent α)} {x : α} (hfull : q.length = n)
      (h : QueueRun n q es q') : QueueRun n q (refused x :: es) q'
  | give {q q' : List α} {es : List (QueueEvent α)} {x : α} (h : QueueRun n q es q') :
      QueueRun n (x :: q) (given x :: es) q'

namespace QueueRun

variable {α : Type} {n : Nat} {q q' q'' : List α} {es es' : List (QueueEvent α)}

theorem append (h : QueueRun n q es q') (h' : QueueRun n q' es' q'') :
    QueueRun n q (es ++ es') q'' := by
  induction h with
  | nil => exact h'
  | take hlt _ ih => exact .take hlt (ih h')
  | refuse hfull _ ih => exact .refuse hfull (ih h')
  | give _ ih => exact .give (ih h')

theorem split (h : QueueRun n q (es ++ es') q'') : ∃ q', QueueRun n q es q' ∧ QueueRun n q' es' q'' := by
  induction es generalizing q with
  | nil => exact ⟨q, .nil q, h⟩
  | cons e es ih =>
    cases h with
    | take hlt h =>
      obtain ⟨q', h₁, h₂⟩ := ih h
      exact ⟨q', .take hlt h₁, h₂⟩
    | refuse hfull h =>
      obtain ⟨q', h₁, h₂⟩ := ih h
      exact ⟨q', .refuse hfull h₁, h₂⟩
    | give h =>
      obtain ⟨q', h₁, h₂⟩ := ih h
      exact ⟨q', .give h₁, h₂⟩

/-- What was there and what was taken is what was given and what is there. -/
theorem conserves (h : QueueRun n q es q') :
    q ++ es.filterMap taken? = es.filterMap given? ++ q' := by
  induction h with
  | nil q => simp
  | take _ _ ih =>
    rw [append_assoc] at ih
    exact ih
  | refuse _ _ ih => exact ih
  | give _ ih => exact congrArg _ ih

/-- An element that comes is refused exactly when `n` elements are waiting: as many as were there
and were taken, less the ones that were given. -/
theorem refused_iff {e : QueueEvent α} {x : α} (h : QueueRun n q (es ++ e :: es') q')
    (he : e = taken x ∨ e = refused x) :
    e = refused x ↔ q.length + (es.filterMap taken?).length = (es.filterMap given?).length + n := by
  obtain ⟨w, hes, hrest⟩ := h.split
  have hlen := congrArg length hes.conserves
  rw [length_append, length_append] at hlen
  cases hrest with
  | take hlt => exact iff_of_false nofun (by omega)
  | refuse hfull =>
    refine iff_of_true ?_ (by omega)
    rcases he with he | he
    · cases he
    · exact he
  | give =>
    rcases he with he | he <;> cases he

end QueueRun

end CRun
