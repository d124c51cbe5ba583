import CcnLite.Lib.Run
import Mathlib.Data.List.Nodup

/-!
# Linked lists whose nodes are told apart

Two nodes of a linked list may hold the same value, so the list of the values does not say whether
a node has stayed. A `Roster` is the list of the nodes: each has a number that no other node has or
has had.

* `ListEdit`: what a program does to a list. `vals_edits`: the nodes go with the values.
* `edits_all`: what every node has, when the edits keep it and the new nodes have it.
* `edits_sublist`: edits without a new node leave some of the nodes.
-/

namespace CRun

open List

variable {α : Type}

/-- One change of a list. -/
inductive ListEdit (α : Type) where
  /-- A new node in front. -/
  | cons (a : α)
  /-- A write to the node at an index. -/
  | modify (k : Nat) (g : α → α)
  /-- A walk that unlinks some of the nodes and writes to the others. -/
  | filterMap (g : α → Option α)

namespace ListEdit

def run : ListEdit α → List α → List α
  | cons a, l => a :: l
  | modify k g, l => l.modify k g
  | filterMap g, l => l.filterMap g

/-- The edit may make `b` of the value `a` of a node. -/
def Turns (a b : α) : ListEdit α → Prop
  | cons _ => b = a
  | modify _ g => b = a ∨ b = g a
  | filterMap g => g a = some b

/-- The edit makes no node. -/
def Shrinks : ListEdit α → Prop
  | cons _ => False
  | _ => True

/-- After an edit a value is new, or it was there before. -/
theorem mem_run {e : ListEdit α} {l : List α} {b : α} (h : b ∈ e.run l) :
    e = .cons b ∨ ∃ a ∈ l, e.Turns a b := by
  cases e with
  | cons a =>
    rcases mem_cons.mp h with rfl | h
    · exact .inl rfl
    · exact .inr ⟨b, h, rfl⟩
  | modify k g =>
    obtain ⟨a, ha, hb⟩ := mem_modify h
    exact .inr ⟨a, ha, hb⟩
  | filterMap g =>
    obtain ⟨a, ha, hb⟩ := mem_filterMap.mp h
    exact .inr ⟨a, ha, hb⟩

/-- What every value has, when the edits keep it and the new values have it. -/
theorem run_all {I : α → Prop} {es : List (ListEdit α)} {l : List α} (h : ∀ a ∈ l, I a)
    (hold : ∀ e ∈ es, ∀ a b, e.Turns a b → I a → I b) (hnew : ∀ a, .cons a ∈ es → I a) :
    ∀ b ∈ es.foldl (fun l e => e.run l) l, I b := by
  induction es generalizing l with
  | nil => exact h
  | cons e es ih =>
    refine ih (fun b hb => ?_) (fun e he => hold e (mem_cons_of_mem _ he))
      fun a ha => hnew a (mem_cons_of_mem _ ha)
    rcases mem_run hb with rfl | ⟨a, ha, hab⟩
    · exact hnew b mem_cons_self
    · exact hold e mem_cons_self a b hab (h a ha)

end ListEdit

structure Node (α : Type) where
  id : Nat
  val : α

def Node.map (g : α → α) (x : Node α) : Node α := { x with val := g x.val }

def Node.filterMap (g : α → Option α) (x : Node α) : Option (Node α) :=
  (g x.val).map fun a => { x with val := a }

theorem Node.filterMap_eq_some {g : α → Option α} {x y : Node α} (h : x.filterMap g = some y) :
    y.id = x.id ∧ g x.val = some y.val := by
  obtain ⟨a, ha, rfl⟩ := Option.map_eq_some_iff.mp h
  exact ⟨rfl, ha⟩

/-- The nodes of a list. -/
structure Roster (α : Type) where
  nodes : List (Node α)
  /-- The number of the next node. -/
  next : Nat
  ids : (nodes.map (·.id)).Nodup
  below : ∀ x ∈ nodes, x.id < next

namespace Roster

def empty : Roster α := ⟨[], 0, by simp, by simp⟩

def vals (r : Roster α) : List α := r.nodes.map (·.val)

theorem map_modify {β γ : Type} {f : β → γ} {g : β → β} {g' : γ → γ}
    (h : ∀ b, f (g b) = g' (f b)) (l : List β) (k : Nat) :
    (l.modify k g).map f = (l.map f).modify k g' := by
  induction l generalizing k with
  | nil => simp
  | cons b l ih =>
    cases k with
    | zero => simp [h]
    | succ k => simp [ih]

theorem modify_ids (l : List (Node α)) (k : Nat) (g : α → α) :
    (l.modify k (Node.map g)).map (·.id) = l.map (·.id) := by
  have hid : (l.modify k (Node.map g)).map Node.id = (l.map Node.id).modify k id :=
    map_modify (f := Node.id) (g := Node.map g) (fun _ => rfl) l k
  rwa [modify_id] at hid

theorem filterMap_ids (l : List (Node α)) (g : α → Option α) :
    (l.filterMap (Node.filterMap g)).map (·.id) <+ l.map (·.id) := by
  induction l with
  | nil => exact .slnil
  | cons x l ih =>
    rw [filterMap_cons]
    split
    · exact ih.cons _
    · rename_i y hy
      rw [map_cons, map_cons, (Node.filterMap_eq_some hy).1]
      exact ih.cons_cons _

/-- The nodes after an edit. -/
def edit (r : Roster α) : ListEdit α → Roster α
  | .cons a =>
    { nodes := ⟨r.next, a⟩ :: r.nodes
      next := r.next + 1
      ids := nodup_cons.mpr ⟨fun h => by
        obtain ⟨x, hx, hid⟩ := mem_map.mp h
        exact absurd hid (Nat.ne_of_lt (r.below x hx)), r.ids⟩
      below := fun x hx => by
        rcases mem_cons.mp hx with rfl | hx
        · exact Nat.lt_succ_self _
        · exact Nat.lt_succ_of_lt (r.below x hx) }
  | .modify k g =>
    { nodes := r.nodes.modify k (Node.map g)
      next := r.next
      ids := by rw [modify_ids]; exact r.ids
      below := fun x hx => by
        have hid : x.id ∈ r.nodes.map (·.id) := by
          rw [← modify_ids r.nodes k g]
          exact mem_map_of_mem hx
        obtain ⟨y, hy, hyx⟩ := mem_map.mp hid
        exact hyx ▸ r.below y hy }
  | .filterMap g =>
    { nodes := r.nodes.filterMap (Node.filterMap g)
      next := r.next
      ids := (filterMap_ids r.nodes g).nodup r.ids
      below := fun x hx => by
        obtain ⟨y, hy, hyx⟩ := mem_filterMap.mp hx
        rw [(Node.filterMap_eq_some hyx).1]
        exact r.below y hy }

/-- The nodes after some edits. -/
def edits (r : Roster α) (es : List (ListEdit α)) : Roster α := es.foldl edit r

section Edits

variable {r : Roster α} {e : ListEdit α} {es : List (ListEdit α)}

theorem vals_edit (r : Roster α) (e : ListEdit α) : (r.edit e).vals = e.run r.vals := by
  cases e with
  | cons a => rfl
  | modify k g =>
    exact map_modify (f := Node.val) (g := Node.map g) (fun _ => rfl) r.nodes k
  | filterMap g =>
    show (r.nodes.filterMap (Node.filterMap g)).map (·.val) = (r.nodes.map (·.val)).filterMap g
    rw [map_filterMap, filterMap_map]
    refine filterMap_congr fun x _ => ?_
    cases h : g x.val <;> simp [Node.filterMap, h]

/-- The values after some edits are what the edits make of the values. -/
theorem vals_edits (r : Roster α) (es : List (ListEdit α)) :
    (r.edits es).vals = es.foldl (fun l e => e.run l) r.vals := by
  induction es generalizing r with
  | nil => rfl
  | cons e es ih =>
    rw [foldl_cons, ← vals_edit]
    exact ih (r.edit e)

theorem next_le_edit (r : Roster α) (e : ListEdit α) : r.next ≤ (r.edit e).next := by
  cases e with
  | cons a => exact Nat.le_succ _
  | modify k g => exact Nat.le_refl _
  | filterMap g => exact Nat.le_refl _

theorem next_le_edits (r : Roster α) (es : List (ListEdit α)) : r.next ≤ (r.edits es).next := by
  induction es generalizing r with
  | nil => exact Nat.le_refl _
  | cons e es ih => exact Nat.le_trans (next_le_edit r e) (ih (r.edit e))

/-- After an edit a node is new, or it was there before. -/
theorem mem_edit {x : Node α} (hx : x ∈ (r.edit e).nodes) :
    (x.id = r.next ∧ e = .cons x.val) ∨ ∃ y ∈ r.nodes, y.id = x.id ∧ e.Turns y.val x.val := by
  cases e with
  | cons a =>
    rcases mem_cons.mp hx with rfl | hx
    · exact .inl ⟨rfl, rfl⟩
    · exact .inr ⟨x, hx, rfl, rfl⟩
  | modify k g =>
    obtain ⟨y, hy, rfl | rfl⟩ := mem_modify hx
    · exact .inr ⟨_, hy, rfl, .inl rfl⟩
    · exact .inr ⟨y, hy, rfl, .inr rfl⟩
  | filterMap g =>
    obtain ⟨y, hy, hyx⟩ := mem_filterMap.mp hx
    obtain ⟨hid, hval⟩ := Node.filterMap_eq_some hyx
    exact .inr ⟨y, hy, hid.symm, hval⟩

/-- What every node has, when the edits keep it and the new nodes have it. -/
theorem edits_all {I : Nat → α → Prop} (h : ∀ x ∈ r.nodes, I x.id x.val)
    (hold : ∀ e ∈ es, ∀ n a b, e.Turns a b → I n a → I n b)
    (hnew : ∀ a, .cons a ∈ es → ∀ n, r.next ≤ n → I n a) :
    ∀ x ∈ (r.edits es).nodes, I x.id x.val := by
  induction es generalizing r with
  | nil => exact h
  | cons e es ih =>
    refine ih (r := r.edit e) (fun x hx => ?_) (fun e he => hold e (mem_cons_of_mem _ he))
      fun a ha n hn => hnew a (mem_cons_of_mem _ ha) n (Nat.le_trans (next_le_edit r e) hn)
    rcases mem_edit hx with ⟨hid, rfl⟩ | ⟨y, hy, hid, hturn⟩
    · exact hnew x.val mem_cons_self x.id (Nat.le_of_eq hid.symm)
    · exact hold e mem_cons_self x.id _ _ hturn (hid ▸ h y hy)

/-- Edits without a new node leave some of the nodes. -/
theorem edits_sublist (h : ∀ e ∈ es, e.Shrinks) :
    (r.edits es).nodes.map (·.id) <+ r.nodes.map (·.id) ∧ (r.edits es).next = r.next := by
  induction es generalizing r with
  | nil => exact ⟨.refl _, rfl⟩
  | cons e es ih =>
    have hedit : (r.edit e).nodes.map (·.id) <+ r.nodes.map (·.id) ∧ (r.edit e).next = r.next := by
      cases e with
      | cons a => exact absurd (h _ mem_cons_self) id
      | modify k g => exact ⟨modify_ids r.nodes k g ▸ .refl _, rfl⟩
      | filterMap g => exact ⟨filterMap_ids r.nodes g, rfl⟩
    obtain ⟨hsub, hnext⟩ := ih (r := r.edit e) fun e he => h e (mem_cons_of_mem _ he)
    exact ⟨hsub.trans hedit.1, hnext.trans hedit.2⟩

end Edits

end Roster

end CRun
