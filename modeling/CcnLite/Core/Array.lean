import CcnLite.Lib.Sys
import Mathlib.Logic.Function.Basic

/-!
# Growing arrays (`ccnl-array.c`)

`ccnl_array_insert` makes the array larger when the index is not below the capacity. So a full array
stays as it is when an item goes anywhere but to its end, and so does one with capacity 1, and then
the item that is moved, or the new one, is written behind the last cell. Where neither happens the
array is the list that its operations say (`array_isList_iff`).
-/

namespace Ccnl

open CRun Function

/-! ## The operations -/

/-- `struct ccnl_array_s`, with the cells that `items` points to. -/
structure PtrArray (α : Type) where
  count : Nat
  capacity : Int
  items : Nat → α

namespace PtrArray

variable {α : Type}

/-- A read of `items[i]`. -/
def get (a : PtrArray α) (i : Nat) : Run α := if i < a.capacity then .ok (a.items i) else .error (.oob i)

/-- `items[i] = x`. -/
def set (a : PtrArray α) (i : Nat) (x : α) : Run (PtrArray α) :=
  if i < a.capacity then .ok { a with items := update a.items i x } else .error (.oob i)

/-- `CCNL_ARRAY_DEFAULT_CAPACITY`. -/
def defaultCapacity : Int := 4

/-- `ccnl_array_new`. -/
def new (null : α) (capacity : Int) : PtrArray α where
  count := 0
  capacity := if capacity ≠ 0 then capacity else defaultCapacity
  items _ := null

/-- `array->capacity * 3 / 2`, in an `int`. -/
def moreCapacity (capacity : Int) : Int := ((capacity * 3).bmod (2 ^ 32)).tdiv 2

/-- The larger array that `ccnl_realloc` returns. `raw` is what lies in new cells. -/
def grow (raw : Int → Nat → α) (a : PtrArray α) : PtrArray α where
  count := a.count
  capacity := moreCapacity a.capacity
  items i := if i < a.capacity then a.items i else raw (moreCapacity a.capacity) i

/-- The loop of `ccnl_array_insert`, with `k` passes to go: `i` is `index + k - 1`. -/
def moveUp (index : Nat) : Nat → PtrArray α → Run (PtrArray α)
  | 0, a => return a
  | k + 1, a => do
    let x ← a.get (index + k)
    let a ← a.set (index + k + 1) x
    moveUp index k a

/-- `ccnl_array_insert`. -/
def insert (raw : Int → Nat → α) (a : PtrArray α) (item : α) (index : Nat) : Run (PtrArray α) := do
  if a.count < index then return a
  let a := if a.capacity ≤ index then a.grow raw else a
  let a ← moveUp index (a.count - index) a
  let a ← a.set index item
  return { a with count := a.count + 1 }

/-- `ccnl_array_push`. -/
def push (raw : Int → Nat → α) (a : PtrArray α) (item : α) : Run (PtrArray α) :=
  a.insert raw item a.count

/-- `ccnl_array_pop`. -/
def pop (null : α) (a : PtrArray α) : Run (PtrArray α × α) := do
  if a.count < 1 then return (a, null)
  let a := { a with count := a.count - 1 }
  let x ← a.get a.count
  return (a, x)

/-- The loop of `ccnl_array_remove`, with `k` passes to go: each makes `i` or `offset` larger. It
returns `offset`. -/
def removeFrom [DecidableEq α] (item : α) : Nat → Nat → Nat → PtrArray α → Run (PtrArray α × Nat)
  | 0, _, offset, a => return (a, offset)
  | k + 1, i, offset, a => do
    let x ← a.get (i + offset)
    if x = item then removeFrom item k i (offset + 1) a
    else
      let a ← a.set i x
      removeFrom item k (i + 1) offset a

/-- `ccnl_array_remove`. -/
def remove [DecidableEq α] (a : PtrArray α) (item : α) : Run (PtrArray α) := do
  let (a, offset) ← removeFrom item a.count 0 0 a
  return { a with count := a.count - offset }

/-- The loop of `ccnl_array_remove_index`, with `k` passes to go. -/
def moveDown : Nat → Nat → PtrArray α → Run (PtrArray α)
  | 0, _, a => return a
  | k + 1, i, a => do
    let x ← a.get (i + 1)
    let a ← a.set i x
    moveDown k (i + 1) a

/-- `ccnl_array_remove_index`. -/
def removeIndex (a : PtrArray α) (index : Nat) : Run (PtrArray α) := do
  if a.count ≤ index then return a
  let a ← moveDown (a.count - 1 - index) index a
  return { a with count := a.count - 1 }

/-- `CCNL_ARRAY_NOT_FOUND`. -/
def notFound : Int := -1

/-- The loop of `ccnl_array_find`, with `k` passes to go. -/
def findFrom [DecidableEq α] (item : α) (a : PtrArray α) : Nat → Nat → Run Int
  | 0, _ => return notFound
  | k + 1, i => do
    let x ← a.get i
    if x = item then return i else findFrom item a k (i + 1)

/-- `ccnl_array_find`. -/
def find [DecidableEq α] (a : PtrArray α) (item : α) : Run Int := findFrom item a a.count 0

/-- `ccnl_array_contains`. -/
def contains [DecidableEq α] (a : PtrArray α) (item : α) : Run Int := do
  let i ← a.find item
  return if i ≠ notFound then 1 else 0

/-! ## What the loops do -/

section Loops

variable {a b : PtrArray α} {x item : α} {i j k index offset : Nat} {raw : Int → Nat → α}

/-- The items as a list. -/
def toList (a : PtrArray α) : List α := (List.range a.count).map a.items

@[simp] theorem length_toList : a.toList.length = a.count := by rw [toList, List.length_map, List.length_range]

theorem getElem?_toList : a.toList[i]? = if i < a.count then some (a.items i) else none := by
  rw [toList, List.getElem?_map]
  split
  · rename_i h
    rw [List.getElem?_range h]
    rfl
  · rename_i h
    rw [List.getElem?_eq_none (by rw [List.length_range]; omega)]
    rfl

theorem get_ok (h : (i : Int) < a.capacity) : a.get i = .ok (a.items i) := if_pos h

theorem set_ok (h : (i : Int) < a.capacity) : a.set i x = .ok { a with items := update a.items i x } :=
  if_pos h

theorem set_fails (h : a.capacity ≤ i) : a.set i x = .error (.oob i) := if_neg (by omega)

/-- The loop of `ccnl_array_insert` moves the items from `index` on, when the place behind them is a
cell. -/
theorem moveUp_eq (h : ((index + k : Nat) : Int) < a.capacity) :
    moveUp index k a = .ok { a with
      items := fun j => if index < j ∧ j ≤ index + k then a.items (j - 1) else a.items j } := by
  induction k generalizing a with
  | zero =>
    refine congrArg Except.ok ?_
    have hnone : ∀ j, ¬ (index < j ∧ j ≤ index + 0) := fun j => by omega
    simp only [if_neg (hnone _)]
  | succ k ih =>
    rw [moveUp, get_ok (by omega), ok_bind, set_ok (by omega), ok_bind, ih (by simp only; omega)]
    refine congrArg Except.ok ?_
    congr 1
    funext j
    simp only [update_apply]
    grind

/-- And it writes behind the last cell when it is not. -/
theorem moveUp_fails (h : a.capacity = ((index + k + 1 : Nat) : Int)) :
    moveUp index (k + 1) a = .error (.oob (index + k + 1)) := by
  rw [moveUp, get_ok (by omega), ok_bind, set_fails (by omega)]
  rfl

theorem moveDown_eq (h : ((i + k : Nat) : Int) < a.capacity) :
    moveDown k i a = .ok { a with
      items := fun j => if i ≤ j ∧ j < i + k then a.items (j + 1) else a.items j } := by
  induction k generalizing a i with
  | zero =>
    refine congrArg Except.ok ?_
    have hnone : ∀ j, ¬ (i ≤ j ∧ j < i + 0) := fun j => by omega
    simp only [if_neg (hnone _)]
  | succ k ih =>
    rw [moveDown, get_ok (by omega), ok_bind, set_ok (by omega), ok_bind, ih (by simp only; omega)]
    refine congrArg Except.ok ?_
    congr 1
    funext j
    simp only [update_apply]
    grind

/-- The `k` items from the place `i` on. -/
def slice (a : PtrArray α) (i k : Nat) : List α := (List.range k).map fun j => a.items (i + j)

theorem slice_succ : a.slice i (k + 1) = a.items i :: a.slice (i + 1) k := by
  rw [slice, List.range_succ_eq_map, List.map_cons, List.map_map, slice]
  refine congrArg₂ List.cons rfl (List.map_congr_left fun j _ => ?_)
  exact congrArg a.items (by omega)

theorem slice_update (h : j < i) : ({ a with items := update a.items j x } : PtrArray α).slice i k =
    a.slice i k :=
  List.map_congr_left fun n _ => update_of_ne (by omega) _ _

variable [DecidableEq α]

/-- The loop of `ccnl_array_remove` keeps the items in front of `i` and moves the others there that
are not removed. -/
theorem removeFrom_eq (h : ((i + offset + k : Nat) : Int) ≤ a.capacity) :
    ∃ b offset', removeFrom item k i offset a = .ok (b, offset') ∧ b.count = a.count ∧
      b.capacity = a.capacity ∧ offset' ≤ offset + k ∧
      (List.range (i + offset + k - offset')).map b.items =
        (List.range i).map a.items ++ (a.slice (i + offset) k).filter (· ≠ item) := by
  induction k generalizing a i offset with
  | zero => exact ⟨a, offset, rfl, rfl, rfl, Nat.le_refl _, by simp [slice]⟩
  | succ k ih =>
    rw [removeFrom, get_ok (by omega), ok_bind, slice_succ]
    split
    · rename_i heq
      obtain ⟨b, offset', hrun, hcount, hcap, hle, hlist⟩ := @ih a i (offset + 1) (by omega)
      refine ⟨b, offset', hrun, hcount, hcap, by omega, ?_⟩
      rw [List.filter_cons_of_neg (by simp [heq]), show i + offset + (k + 1) = i + (offset + 1) + k by omega]
      exact hlist
    · rename_i hne
      rw [set_ok (by omega), ok_bind]
      obtain ⟨b, offset', hrun, hcount, hcap, hle, hlist⟩ :=
        @ih { a with items := update a.items i (a.items (i + offset)) } (i + 1) offset
          (by simp only; omega)
      refine ⟨b, offset', hrun, hcount, hcap, by omega, ?_⟩
      rw [List.filter_cons_of_pos (by simpa using hne), show i + offset + (k + 1) = i + 1 + offset + k by omega,
        hlist, slice_update (by omega), List.range_succ, List.map_append, List.append_assoc]
      refine congrArg₂ (· ++ ·) (List.map_congr_left fun j hj => ?_) ?_
      · have := List.mem_range.mp hj
        exact update_of_ne (by omega) _ _
      · simp only [List.map_singleton, update_self, List.singleton_append]
        rw [show i + 1 + offset = i + offset + 1 by omega]

/-- The loop of `ccnl_array_find` returns the place of the first such item. -/
theorem findFrom_eq (h : ((i + k : Nat) : Int) ≤ a.capacity) :
    findFrom item a k i = .ok (if item ∈ a.slice i k then i + (a.slice i k).idxOf item else notFound) := by
  induction k generalizing i with
  | zero => rfl
  | succ k ih =>
    rw [findFrom, get_ok (by omega), ok_bind, slice_succ]
    split
    · rename_i heq
      rw [heq, if_pos List.mem_cons_self, List.idxOf_cons_self]
      rfl
    · rename_i hne
      rw [ih (by omega)]
      have hne' : item ≠ a.items i := fun heq => hne heq.symm
      simp only [List.mem_cons, hne', false_or, List.idxOf_cons, beq_eq_false_iff_ne.mpr hne, cond_false]
      split
      · push_cast
        exact congrArg Except.ok (by omega)
      · rfl

end Loops

/-! ## Growing -/

/-- The capacity lets the array grow: half of it is not zero, and three times it is an `int`. -/
def Extensible (capacity : Int) : Prop := 2 ≤ capacity ∧ capacity * 3 < 2 ^ 31

instance (capacity : Int) : Decidable (Extensible capacity) := inferInstanceAs (Decidable (_ ∧ _))

theorem moreCapacity_of_extensible {c : Int} (h : Extensible c) :
    moreCapacity c = c * 3 / 2 := by
  obtain ⟨hlow, hhigh⟩ := h
  rw [moreCapacity, Int.bmod_eq_of_le (by omega) (by omega), Int.tdiv_eq_ediv_of_nonneg (by omega)]

/-- Otherwise the new capacity is no larger. -/
theorem moreCapacity_le {c : Int} (hpos : 0 < c) (hint : c < 2 ^ 31) (h : ¬ Extensible c) :
    moreCapacity c ≤ c := by
  rw [Extensible, not_and] at h
  by_cases hone : c = 1
  · rw [hone]
    decide
  · have hwrap : (c * 3).bmod (2 ^ 32) = c * 3 - 2 ^ 32 := by
      rw [← Int.sub_bmod_right]
      exact Int.bmod_eq_of_le (by omega) (by omega)
    rw [moreCapacity, hwrap, Int.tdiv_eq_ediv]
    have hsign : Int.sign 2 = 1 := rfl
    split <;> omega

/-! ## One operation -/

section Operations

variable {a : PtrArray α} {item : α} {index : Nat} {raw : Int → Nat → α} {null : α}

/-- The items lie in cells, and the capacity is a positive `int`. -/
structure Fits (a : PtrArray α) : Prop where
  count : (a.count : Int) ≤ a.capacity
  pos : 0 < a.capacity
  int : a.capacity < 2 ^ 31

/-- There is room for one more item at `index`. -/
def RoomAt (a : PtrArray α) (index : Nat) : Prop :=
  a.count < a.capacity ∨ index = a.count ∧ Extensible a.capacity

instance : Decidable (a.RoomAt index) := inferInstanceAs (Decidable (_ ∨ _))

theorem new_fits {capacity : Int} (hpos : 0 ≤ capacity) (hint : capacity < 2 ^ 31) :
    (new null capacity).Fits := by
  have hcap : (new null capacity).capacity = if capacity ≠ 0 then capacity else 4 := rfl
  have hcount : (new null capacity).count = 0 := rfl
  split at hcap
  · exact ⟨by omega, by omega, by omega⟩
  · exact ⟨by omega, by omega, by omega⟩

theorem insert_moved {b : PtrArray α} (hindex : index ≤ a.count) (hcount : b.count = a.count)
    (hitems : ∀ i < a.count, b.items i = a.items i) (hroom : (a.count : Int) < b.capacity) :
    ∃ c, (moveUp index (b.count - index) b >>= fun b => b.set index item >>= fun b =>
        pure { b with count := b.count + 1 }) = .ok c ∧
      c.capacity = b.capacity ∧ c.toList = a.toList.insertIdx index item := by
  have hk : index + (b.count - index) = a.count := by omega
  rw [moveUp_eq (by rw [hk]; exact hroom), ok_bind, set_ok (by simp only; omega), ok_bind]
  refine ⟨_, rfl, rfl, List.ext_getElem? fun j => ?_⟩
  rw [List.getElem?_insertIdx]
  simp only [getElem?_toList, length_toList, update_apply, hcount]
  grind

theorem insert_ok (raw : Int → Nat → α) (item : α) (h : a.Fits) (hindex : index ≤ a.count)
    (hroom : a.RoomAt index) :
    ∃ b, a.insert raw item index = .ok b ∧ b.Fits ∧ b.toList = a.toList.insertIdx index item := by
  obtain ⟨hcount, hpos, hint⟩ := h
  unfold insert
  rw [if_neg (by omega)]
  dsimp only [bind_pure_comp]
  by_cases hfull : a.capacity ≤ index
  · -- the array is full, and the item goes to its end
    obtain ⟨rfl, hext⟩ : index = a.count ∧ Extensible a.capacity := hroom.resolve_left (by omega)
    have hmore := moreCapacity_of_extensible hext
    obtain ⟨hlow, hhigh⟩ := hext
    have hitems : ∀ i < a.count, (a.grow raw).items i = a.items i := fun i hi => if_pos (by omega)
    have hcap : (a.grow raw).capacity = a.capacity * 3 / 2 := hmore
    obtain ⟨c, hc, hccap, hlist⟩ := insert_moved (b := a.grow raw) hindex rfl hitems (by omega)
    have hlen := congrArg List.length hlist
    rw [List.length_insertIdx_of_le_length (by rw [length_toList]), length_toList, length_toList] at hlen
    rw [if_pos hfull]
    exact ⟨c, hc, ⟨by omega, by omega, by omega⟩, hlist⟩
  · have hlt : (a.count : Int) < a.capacity := by
      rcases hroom with hlt | ⟨rfl, -⟩
      · exact hlt
      · omega
    obtain ⟨c, hc, hccap, hlist⟩ := insert_moved hindex rfl (fun _ _ => rfl) hlt
    have hlen := congrArg List.length hlist
    rw [List.length_insertIdx_of_le_length (by rw [length_toList]; exact hindex), length_toList,
      length_toList] at hlen
    rw [if_neg hfull]
    exact ⟨c, hc, ⟨by omega, by omega, by omega⟩, hlist⟩

/-- Without room something is written behind the last cell. -/
theorem insert_fails (raw : Int → Nat → α) (item : α) (h : a.Fits) (hindex : index ≤ a.count)
    (hroom : ¬ a.RoomAt index) :
    a.insert raw item index = .error (.oob a.count) := by
  obtain ⟨hcount, hpos, hint⟩ := h
  rw [RoomAt, not_or, not_and] at hroom
  obtain ⟨hfull, hext⟩ := hroom
  have hcap : a.capacity = a.count := by omega
  unfold insert
  rw [if_neg (by omega)]
  dsimp only
  by_cases hend : index = a.count
  · have hmore := moreCapacity_le hpos hint (hext hend)
    have hset : (a.grow raw).set a.count item = .error (.oob a.count) := set_fails (by
      rw [← hcap]
      exact hmore)
    rw [hend, if_pos (by omega), show (a.grow raw).count - a.count = 0 from Nat.sub_self _, moveUp]
    simp only [pure_bind, hset, error_bind]
  · obtain ⟨k, hk⟩ : ∃ k, a.count - index = k + 1 := ⟨a.count - index - 1, by omega⟩
    rw [if_neg (by omega), hk, moveUp_fails (by omega), show index + k + 1 = a.count by omega]
    rfl

theorem Fits.shrink {b : PtrArray α} (h : a.Fits) (hcount : b.count ≤ a.count)
    (hcap : b.capacity = a.capacity) : b.Fits := by
  obtain ⟨hc, hpos, hint⟩ := h
  exact ⟨by omega, by omega, by omega⟩

theorem pop_ok (null : α) (h : a.Fits) (hne : a.toList ≠ []) :
    ∃ b, a.pop null = .ok (b, a.toList.getLastD null) ∧ b.Fits ∧ b.toList = a.toList.dropLast := by
  have hcount := h.count
  obtain ⟨n, hn⟩ : ∃ n, a.count = n + 1 := by
    refine ⟨a.count - 1, ?_⟩
    have := List.length_pos_iff.mpr hne
    rw [length_toList] at this
    omega
  have hlist : a.toList = (List.range n).map a.items ++ [a.items n] := by
    rw [toList, hn, List.range_succ, List.map_append]
    rfl
  refine ⟨{ a with count := n }, ?_, h.shrink (by simp only; omega) rfl, ?_⟩
  · unfold pop
    rw [if_neg (by omega), hlist, List.getLastD_concat, hn, Nat.add_sub_cancel]
    dsimp only
    rw [get_ok (by simp only; omega)]
    rfl
  · rw [hlist, List.dropLast_concat, toList]

theorem removeIndex_ok (h : a.Fits) (hindex : index < a.count) :
    ∃ b, a.removeIndex index = .ok b ∧ b.Fits ∧ b.toList = a.toList.eraseIdx index := by
  have hcount := h.count
  have hk : index + (a.count - 1 - index) = a.count - 1 := by omega
  unfold removeIndex
  rw [if_neg (by omega), moveDown_eq (by omega), ok_bind]
  refine ⟨_, rfl, h.shrink (by simp only; omega) rfl, List.ext_getElem? fun j => ?_⟩
  rw [List.getElem?_eraseIdx]
  simp only [getElem?_toList]
  grind

variable [DecidableEq α]

theorem remove_ok (item : α) (h : a.Fits) :
    ∃ b, a.remove item = .ok b ∧ b.Fits ∧ b.toList = a.toList.filter (· ≠ item) := by
  have hcount := h.count
  obtain ⟨b, offset, hrun, hbcount, hcap, -, hlist⟩ :=
    @removeFrom_eq _ a item 0 a.count 0 _ (by omega)
  refine ⟨{ b with count := b.count - offset }, ?_, h.shrink (by simp only; omega) hcap, ?_⟩
  · rw [remove, hrun]
    rfl
  · simpa [toList, slice, hbcount] using hlist

theorem find_ok (h : a.Fits) :
    a.find item = .ok (if item ∈ a.toList then a.toList.idxOf item else notFound) := by
  have hcount := h.count
  have hslice : a.slice 0 a.count = a.toList := List.map_congr_left fun j _ => by rw [Nat.zero_add]
  rw [find, findFrom_eq (by omega), hslice]
  simp

theorem contains_ok (h : a.Fits) :
    a.contains item = .ok (if item ∈ a.toList then 1 else 0) := by
  rw [contains, find_ok h, ok_bind]
  split
  · rw [if_pos (by unfold notFound; omega)]
    rfl
  · rfl

end Operations

/-! ## Runs -/

/-- A call on an array. -/
inductive Op (α : Type) where
  | push (item : α)
  | pop
  | insert (item : α) (index : Nat)
  | remove (item : α)
  | removeIndex (index : Nat)
  | find (item : α)
  | contains (item : α)
  deriving DecidableEq, Repr

/-- What a call returns. -/
inductive Ret (α : Type) where
  | void
  | item (x : α)
  | int (i : Int)
  deriving DecidableEq, Repr

section Runs

variable [DecidableEq α] (null : α) (raw : Int → Nat → α)

def Op.run (a : PtrArray α) : Op α → Run (PtrArray α × Ret α)
  | push item => return (← a.push raw item, .void)
  | pop => do
    let (a, x) ← a.pop null
    return (a, .item x)
  | insert item index => return (← a.insert raw item index, .void)
  | remove item => return (← a.remove item, .void)
  | removeIndex index => return (← a.removeIndex index, .void)
  | find item => return (a, .int (← a.find item))
  | contains item => return (a, .int (← a.contains item))

/-- What the call does on a list. -/
def Op.onList (l : List α) : Op α → List α × Ret α
  | push item => (l ++ [item], .void)
  | pop => (l.dropLast, .item (l.getLastD null))
  | insert item index => (l.insertIdx index item, .void)
  | remove item => (l.filter (· ≠ item), .void)
  | removeIndex index => (l.eraseIdx index, .void)
  | find item => (l, .int (if item ∈ l then l.idxOf item else notFound))
  | contains item => (l, .int (if item ∈ l then 1 else 0))

/-- The call can be made on a list. -/
def Op.Legal (l : List α) : Op α → Prop
  | pop => l ≠ []
  | insert _ index => index ≤ l.length
  | removeIndex index => index < l.length
  | _ => True

/-- There is room for the item that the call adds. -/
def Op.Room (a : PtrArray α) : Op α → Prop
  | push _ => a.RoomAt a.count
  | insert _ index => a.RoomAt index
  | _ => True

/-- A call, with the values that have been returned so far. -/
def step (s : PtrArray α × List (Ret α)) (op : Op α) : Run (PtrArray α × List (Ret α)) := do
  let (a, r) ← op.run null raw s.1
  return (a, s.2 ++ [r])

def listStep (s : List α × List (Ret α)) (op : Op α) : List α × List (Ret α) :=
  ((op.onList null s.1).1, s.2 ++ [(op.onList null s.1).2])

def LegalFrom : List α → List (Op α) → Prop
  | _, [] => True
  | l, op :: ops => op.Legal l ∧ LegalFrom (op.onList null l).1 ops

variable {null raw} {a : PtrArray α} {op : Op α} {ops : List (Op α)} {rets : List (Ret α)}

theorem Op.run_ok (raw : Int → Nat → α) (h : a.Fits) (hlegal : op.Legal a.toList) (hroom : op.Room a) :
    ∃ b, op.run null raw a = .ok (b, (op.onList null a.toList).2) ∧ b.Fits ∧
      b.toList = (op.onList null a.toList).1 := by
  cases op with
  | push item =>
    obtain ⟨b, hrun, hfits, hlist⟩ := insert_ok raw item h (Nat.le_refl _) hroom
    have hend : a.toList.insertIdx a.count item = a.toList ++ [item] := by
      rw [← length_toList, List.insertIdx_length_self]
    refine ⟨b, ?_, hfits, hlist.trans hend⟩
    rw [run, PtrArray.push, hrun]
    rfl
  | pop =>
    obtain ⟨b, hrun, hfits, hlist⟩ := pop_ok null h hlegal
    refine ⟨b, ?_, hfits, hlist⟩
    rw [run, hrun]
    rfl
  | insert item index =>
    have hindex : index ≤ a.count := by
      rw [← length_toList]
      exact hlegal
    obtain ⟨b, hrun, hfits, hlist⟩ := insert_ok raw item h hindex hroom
    refine ⟨b, ?_, hfits, hlist⟩
    rw [run, hrun]
    rfl
  | remove item =>
    obtain ⟨b, hrun, hfits, hlist⟩ := remove_ok item h
    refine ⟨b, ?_, hfits, hlist⟩
    rw [run, hrun]
    rfl
  | removeIndex index =>
    have hindex : index < a.count := by
      rw [← length_toList]
      exact hlegal
    obtain ⟨b, hrun, hfits, hlist⟩ := removeIndex_ok h hindex
    refine ⟨b, ?_, hfits, hlist⟩
    rw [run, hrun]
    rfl
  | find item =>
    refine ⟨a, ?_, h, rfl⟩
    rw [run, find_ok h]
    rfl
  | contains item =>
    refine ⟨a, ?_, h, rfl⟩
    rw [run, contains_ok h]
    rfl

theorem Op.run_fails (h : a.Fits) (hlegal : op.Legal a.toList) (hroom : ¬ op.Room a) :
    op.run null raw a = .error (.oob a.count) := by
  cases op with
  | push item =>
    rw [run, PtrArray.push, insert_fails raw item h (Nat.le_refl _) hroom]
    rfl
  | insert item index =>
    have hindex : index ≤ a.count := by
      rw [← length_toList]
      exact hlegal
    rw [run, insert_fails raw item h hindex hroom]
    rfl
  | pop | remove | removeIndex | find | contains => exact absurd trivial hroom

/-- The array is the list that the calls make. -/
def IsList (null : α) (raw : Int → Nat → α) (s : PtrArray α × List (Ret α)) (ops : List (Op α)) :
    Prop :=
  ∃ a rets, ops.foldlM (step null raw) s = .ok (a, rets) ∧
    (a.toList, rets) = ops.foldl (listStep null) (s.1.toList, s.2) ∧ (a.count : Int) ≤ a.capacity

theorem isList_iff (rets : List (Ret α)) (h : a.Fits) (hlegal : LegalFrom null a.toList ops) :
    IsList null raw (a, rets) ops ↔
      Along (step null raw) (fun s op => op.Room s.1) ops (a, rets) := by
  induction ops generalizing a rets with
  | nil => exact iff_of_true ⟨a, rets, rfl, rfl, h.count⟩ trivial
  | cons op ops ih =>
    obtain ⟨hop, hops⟩ := hlegal
    rw [IsList, Along, List.foldlM_cons]
    by_cases hroom : op.Room a
    · obtain ⟨b, hrun, hfits, hlist⟩ := Op.run_ok raw h hop hroom
      have hstep : step null raw (a, rets) op =
          .ok (b, rets ++ [(op.onList null a.toList).2]) := by
        rw [step, hrun]
        rfl
      have hnext := ih (rets ++ [(op.onList null a.toList).2]) hfits (hlist ▸ hops)
      rw [hstep, ok_bind, List.foldl_cons, listStep, ← hlist]
      refine hnext.trans ⟨fun hrest => ⟨hroom, fun s hs => ?_⟩, fun hrest => hrest.2 _ rfl⟩
      cases hs
      exact hrest
    · have hstep : step null raw (a, rets) op = .error (.oob a.count) := by
        rw [step, Op.run_fails h hop hroom]
        rfl
      rw [hstep, error_bind]
      exact iff_of_false (fun ⟨_, _, hrun, _⟩ => nomatch hrun) fun hrest => hroom hrest.1

/-- From any capacity an array is the list that its calls make, and no item is outside the capacity,
exactly when each item that is added finds room: there is a free cell, or the item goes to the end
and the capacity lets the array grow. -/
theorem array_isList_iff (null : α) (raw : Int → Nat → α) {capacity : Int} (hpos : 0 ≤ capacity)
    (hint : capacity < 2 ^ 31) {ops : List (Op α)} (hlegal : LegalFrom null [] ops) :
    IsList null raw (new null capacity, []) ops ↔
      Along (step null raw) (fun s op => op.Room s.1) ops (new null capacity, []) :=
  isList_iff [] (new_fits hpos hint) hlegal

/-- Three items in an array for two: the third one goes to the end. -/
theorem array_isList_grows :
    IsList (0 : Nat) (fun _ _ => 9) (new 0 2, []) [.push 5, .push 6, .push 7, .find 7] ↔
      Along (step 0 fun _ _ => 9) (fun s op => op.Room s.1) [.push 5, .push 6, .push 7, .find 7]
        (new 0 2, []) :=
  array_isList_iff 0 (fun _ _ => 9) (by decide) (by decide)
    ⟨trivial, trivial, trivial, trivial, trivial⟩

/-- The third item goes to the front of an array for two, or the second one to the end of an array
for one. -/
theorem array_overruns :
    LegalFrom (0 : Nat) [] [.push 5, .push 6, .insert 7 0] ∧
      ¬ IsList (0 : Nat) (fun _ _ => 9) (new 0 2, []) [.push 5, .push 6, .insert 7 0] ∧
      LegalFrom (0 : Nat) [] [.push 5, .push 6] ∧
      ¬ IsList (0 : Nat) (fun _ _ => 9) (new 0 1, []) [.push 5, .push 6] := by
  refine ⟨⟨trivial, trivial, Nat.zero_le _, trivial⟩, ?_, ⟨trivial, trivial, trivial⟩, ?_⟩
  · rintro ⟨a, rets, hrun, -⟩
    have hfails : ([.push 5, .push 6, .insert 7 0].foldlM (step (0 : Nat) fun _ _ => 9)
        (new 0 2, [])).toOption.isNone = true := by decide
    rw [hrun] at hfails
    cases hfails
  · rintro ⟨a, rets, hrun, -⟩
    have hfails : ([.push 5, .push 6].foldlM (step (0 : Nat) fun _ _ => 9)
        (new 0 1, [])).toOption.isNone = true := by decide
    rw [hrun] at hfails
    cases hfails

end Runs

end PtrArray

end Ccnl
