import CcnLite.Lib.Run
import Mathlib.Logic.Function.Basic

/-!
# A heap of blocks

`Heap β` is a heap whose blocks have contents of type `β`. An allocation may fail: `mem n` says whether
the call number `n` gives memory. No address is given out twice, so a pointer to a freed block stays
one, and following or freeing it is a fault.
-/

namespace CRun

open Function

/-- The blocks that are there. -/
structure Heap (β : Type) where
  blocks : Nat → Option β
  /-- The next address. -/
  next : Nat
  /-- How often memory has been asked for. -/
  calls : Nat
  fresh : ∀ a, next ≤ a → blocks a = none

namespace Heap

variable {β : Type}

/-- Nothing is there. -/
def empty : Heap β := ⟨fun _ => none, 0, 0, fun _ _ => rfl⟩

/-- The call that has given no memory. -/
def failed (h : Heap β) : Heap β := { h with calls := h.calls + 1 }

/-- A new block. -/
def add (h : Heap β) (b : β) : Heap β where
  blocks := update h.blocks h.next (some b)
  next := h.next + 1
  calls := h.calls + 1
  fresh a ha := by
    rw [update_of_ne (by omega)]
    exact h.fresh a (by omega)

/-- Another content for a block that is there. -/
def put (h : Heap β) (a : Nat) (b : β) (ha : (h.blocks a).isSome) : Heap β where
  blocks := update h.blocks a (some b)
  next := h.next
  calls := h.calls
  fresh c hc := by
    have hne : c ≠ a := fun heq => by
      rw [← heq, h.fresh c hc] at ha
      cases ha
    rw [update_of_ne hne]
    exact h.fresh c hc

/-- A block is gone. -/
def drop (h : Heap β) (a : Nat) : Heap β where
  blocks := update h.blocks a none
  next := h.next
  calls := h.calls
  fresh c hc := by
    rw [update_apply]
    split
    · rfl
    · exact h.fresh c hc

/-- An allocation: the address of the new block, or NULL. -/
def malloc (mem : Nat → Bool) (h : Heap β) (b : β) : Option Nat × Heap β :=
  if mem h.calls then (some h.next, h.add b) else (none, h.failed)

/-- The content of a block. -/
def get (h : Heap β) : Option Nat → Run β
  | none => .error .null
  | some a =>
    match h.blocks a with
    | none => .error .dangling
    | some b => .ok b

/-- A block is overwritten. -/
def set (h : Heap β) (p : Option Nat) (b : β) : Run (Heap β) :=
  match p with
  | none => .error .null
  | some a => if ha : (h.blocks a).isSome then .ok (h.put a b ha) else .error .dangling

/-- A block is freed; for NULL nothing happens. -/
def free (h : Heap β) : Option Nat → Run (Heap β)
  | none => .ok h
  | some a => if (h.blocks a).isSome then .ok (h.drop a) else .error .dangling

section Rules

variable {h : Heap β} {mem : Nat → Bool} {a : Nat} {b c : β}

theorem malloc_some (hm : mem h.calls = true) : h.malloc mem b = (some h.next, h.add b) := if_pos hm

theorem malloc_none (hm : mem h.calls = false) : h.malloc mem b = (none, h.failed) := by
  rw [malloc, hm, if_neg Bool.false_ne_true]

theorem lt_next (ha : h.blocks a = some b) : a < h.next := by
  rcases Nat.lt_or_ge a h.next with hlt | hge
  · exact hlt
  · rw [h.fresh a hge] at ha
    cases ha

theorem get_eq (ha : h.blocks a = some b) : h.get (some a) = .ok b := by
  rw [get, ha]

theorem get_eq_ok {p : Option Nat} : h.get p = .ok b ↔ ∃ a, p = some a ∧ h.blocks a = some b := by
  cases p with
  | none => simp [get]
  | some a =>
    rw [get]
    cases hb : h.blocks a <;> simp [hb]

theorem set_eq (ha : h.blocks a = some b) : h.set (some a) c = .ok (h.put a c (by rw [ha]; rfl)) :=
  dif_pos _

theorem free_eq (ha : h.blocks a = some b) : h.free (some a) = .ok (h.drop a) := by
  rw [free, ha]
  rfl

@[simp] theorem calls_failed : h.failed.calls = h.calls + 1 := rfl
@[simp] theorem calls_add : (h.add b).calls = h.calls + 1 := rfl
@[simp] theorem calls_drop : (h.drop a).calls = h.calls := rfl
@[simp] theorem calls_put {ha : (h.blocks a).isSome} : (h.put a b ha).calls = h.calls := rfl
@[simp] theorem next_failed : h.failed.next = h.next := rfl
@[simp] theorem next_add : (h.add b).next = h.next + 1 := rfl
@[simp] theorem next_drop : (h.drop a).next = h.next := rfl
@[simp] theorem next_put {ha : (h.blocks a).isSome} : (h.put a b ha).next = h.next := rfl
@[simp] theorem blocks_failed : h.failed.blocks = h.blocks := rfl

/-- What is in the heap after an operation. -/
theorem blocks_add (x : Nat) : (h.add b).blocks x = if x = h.next then some b else h.blocks x :=
  update_apply ..

theorem blocks_put {ha : (h.blocks a).isSome} (x : Nat) :
    (h.put a b ha).blocks x = if x = a then some b else h.blocks x :=
  update_apply ..

theorem blocks_drop (x : Nat) : (h.drop a).blocks x = if x = a then none else h.blocks x :=
  update_apply ..

/-- What an operation does to the heap, block by block. -/
theorem malloc_ok (hm : mem h.calls = true) (b : β) : ∃ h', h.malloc mem b = (some h.next, h') ∧
    h'.calls = h.calls + 1 ∧ h'.next = h.next + 1 ∧
    ∀ x, h'.blocks x = if x = h.next then some b else h.blocks x :=
  ⟨_, malloc_some hm, rfl, rfl, fun x => blocks_add x⟩

theorem set_ok (ha : h.blocks a = some b) (c : β) : ∃ h', h.set (some a) c = .ok h' ∧
    h'.calls = h.calls ∧ h'.next = h.next ∧ ∀ x, h'.blocks x = if x = a then some c else h.blocks x :=
  ⟨_, set_eq ha, rfl, rfl, fun x => blocks_put x⟩

theorem free_ok {p : Option Nat} (hp : ∀ a ∈ p, ∃ b, h.blocks a = some b) : ∃ h', h.free p = .ok h' ∧
    h'.calls = h.calls ∧ h'.next = h.next ∧
    ∀ x, h'.blocks x = if p = some x then none else h.blocks x := by
  cases p with
  | none => exact ⟨h, rfl, rfl, rfl, fun x => (if_neg (by simp)).symm⟩
  | some a =>
    obtain ⟨b, hb⟩ := hp a rfl
    refine ⟨_, free_eq hb, rfl, rfl, fun x => ?_⟩
    rw [blocks_drop]
    simp only [Option.some.injEq, eq_comm]

/-- What was in the heap is still there. -/
def Keeps (h h' : Heap β) : Prop := ∀ a b, h.blocks a = some b → h'.blocks a = some b

theorem Keeps.refl (h : Heap β) : h.Keeps h := fun _ _ => id

variable {h' : Heap β}

theorem Keeps.failed (hk : h.Keeps h') : h.Keeps h'.failed := hk

theorem Keeps.add (hk : h.Keeps h') : h.Keeps (h'.add b) := fun x c hx => by
  have hx' := hk x c hx
  rw [blocks_add, if_neg (Nat.ne_of_lt (lt_next hx'))]
  exact hx'

theorem Keeps.drop (hk : h.Keeps h') (hnew : h.blocks a = none) : h.Keeps (h'.drop a) := fun x c hx => by
  have hne : x ≠ a := fun heq => by
    rw [heq, hnew] at hx
    cases hx
  rw [blocks_drop, if_neg hne]
  exact hk x c hx

theorem Keeps.trans {h'' : Heap β} (hk : h.Keeps h') (hk' : h'.Keeps h'') : h.Keeps h'' :=
  fun a b ha => hk' a b (hk a b ha)

/-- The blocks that were there are not freed. -/
theorem Keeps.free {p : Option Nat} {k : Heap β} (hk : h.Keeps h') (hnew : ∀ a ∈ p, h.blocks a = none)
    (hf : h'.free p = .ok k) : h.Keeps k := by
  cases p with
  | none =>
    cases hf
    exact hk
  | some a =>
    rw [Heap.free] at hf
    split at hf
    · cases hf
      exact hk.drop (hnew a rfl)
    · cases hf

/-- What is gone stays so. -/
theorem free_none {p : Option Nat} (hf : h.free p = .ok h') {x : Nat} (hx : p = some x ∨ h.blocks x = none) :
    h'.blocks x = none := by
  cases p with
  | none =>
    cases hf
    exact hx.resolve_left fun hp => by cases hp
  | some a =>
    rw [Heap.free] at hf
    split at hf
    · cases hf
      rw [blocks_drop]
      split
      · rfl
      · rename_i hne
        exact hx.resolve_left fun heq => hne (Option.some.inj heq).symm
    · cases hf

theorem Keeps.get {p : Option Nat} (hk : h.Keeps h') (hp : h.get p = .ok b) : h'.get p = .ok b := by
  obtain ⟨a, rfl, ha⟩ := get_eq_ok.mp hp
  exact get_eq (hk a b ha)

/-- An allocation that may have failed. -/
theorem malloc_cases (mem : Nat → Bool) (h : Heap β) (b : β) : ∃ r k, h.malloc mem b = (r, k) ∧
    k.calls = h.calls + 1 ∧ h.next ≤ k.next ∧ h.Keeps k ∧ r.isSome = mem h.calls ∧
    ∀ x ∈ r, x = h.next ∧ k.blocks x = some b := by
  cases hm : mem h.calls with
  | false =>
    exact ⟨none, _, malloc_none hm, rfl, Nat.le_refl _, (Keeps.refl h).failed, rfl, fun x hx => by cases hx⟩
  | true =>
    refine ⟨some h.next, _, malloc_some hm, rfl, Nat.le_succ _, (Keeps.refl h).add, rfl, fun x hx => ?_⟩
    obtain rfl := Option.some.inj hx
    exact ⟨rfl, by rw [blocks_add, if_pos rfl]⟩

end Rules

end Heap

end CRun
