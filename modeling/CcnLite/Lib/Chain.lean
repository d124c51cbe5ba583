import CcnLite.Lib.Heap
import Mathlib.Data.Finset.Card

/-!
# Lists that are linked through their blocks

`link b` is the pointer in the block `b`. `Seg h link p xs q` says that the pointers lead from `p`
over the blocks `xs` to `q`, with the address and the content of each. Segments are put together with
`seg_append`, and they stay when the heap changes elsewhere (`Seg.put`, `Seg.drop`, `Seg.add`). A segment that ends with
NULL comes to no block twice (`Seg.nodup`), and is no longer than the heap (`Seg.length_le`).
-/

namespace CRun

variable {β : Type} {h h' : Heap β} {link : β → Option Nat} {p q : Option Nat}
  {xs ys : List (Nat × β)} {a : Nat} {b : β}

def Seg (h : Heap β) (link : β → Option Nat) : Option Nat → List (Nat × β) → Option Nat → Prop
  | p, [], q => p = q
  | p, (a, b) :: xs, q => p = some a ∧ h.blocks a = some b ∧ Seg h link (link b) xs q

theorem seg_append :
    Seg h link p (xs ++ ys) q ↔ ∃ r, Seg h link p xs r ∧ Seg h link r ys q := by
  induction xs generalizing p with
  | nil => exact ⟨fun hs => ⟨p, rfl, hs⟩, fun ⟨r, hr, hs⟩ => hr ▸ hs⟩
  | cons x xs ih =>
    obtain ⟨a, b⟩ := x
    simp only [List.cons_append, Seg, ih]
    constructor
    · rintro ⟨hp, hb, r, hxs, hys⟩
      exact ⟨r, ⟨hp, hb, hxs⟩, hys⟩
    · rintro ⟨r, ⟨hp, hb, hxs⟩, hys⟩
      exact ⟨hp, hb, r, hxs, hys⟩

theorem Seg.block (hs : Seg h link p xs q) (hx : (a, b) ∈ xs) : h.blocks a = some b := by
  induction xs generalizing p with
  | nil => cases hx
  | cons x xs ih =>
    obtain ⟨-, hb, hs⟩ := hs
    rcases List.mem_cons.mp hx with rfl | hx
    · exact hb
    · exact ih hs hx

/-- A segment stays when its blocks do. -/
theorem Seg.congr (hs : Seg h link p xs q) (hb : ∀ x ∈ xs, h'.blocks x.1 = h.blocks x.1) :
    Seg h' link p xs q := by
  induction xs generalizing p with
  | nil => exact hs
  | cons x xs ih =>
    obtain ⟨hp, hx, hs⟩ := hs
    exact ⟨hp, (hb _ List.mem_cons_self).trans hx, ih hs fun y hy => hb y (List.mem_cons_of_mem _ hy)⟩

theorem ne_of_mem {x : Nat × β} (hx : x ∈ xs) (hnew : a ∉ xs.map Prod.fst) : x.1 ≠ a := fun heq =>
  hnew (heq ▸ List.mem_map_of_mem hx)

/-- Other blocks may be overwritten, freed and allocated. -/
theorem Seg.put (hs : Seg h link p xs q) (hnew : a ∉ xs.map Prod.fst)
    (ha : (h.blocks a).isSome) : Seg (h.put a b ha) link p xs q :=
  hs.congr fun _ hx => by rw [Heap.blocks_put, if_neg (ne_of_mem hx hnew)]

theorem Seg.drop (hs : Seg h link p xs q) (hnew : a ∉ xs.map Prod.fst) :
    Seg (h.drop a) link p xs q :=
  hs.congr fun _ hx => by rw [Heap.blocks_drop, if_neg (ne_of_mem hx hnew)]

theorem Seg.add (hs : Seg h link p xs q) : Seg (h.add b) link p xs q :=
  hs.congr fun _ hx => by rw [Heap.blocks_add, if_neg (Nat.ne_of_lt (Heap.lt_next (hs.block hx)))]

/-- The pointers decide the segment up to NULL. -/
theorem Seg.unique (hs : Seg h link p xs none) (hs' : Seg h link p ys none) : xs = ys := by
  induction xs generalizing p ys with
  | nil =>
    obtain rfl : p = none := hs
    cases ys with
    | nil => rfl
    | cons y ys => cases hs'.1
  | cons x xs ih =>
    obtain ⟨rfl, hb, hs⟩ := hs
    cases ys with
    | nil => cases hs'
    | cons y ys =>
      obtain ⟨hp, hb', hs'⟩ := hs'
      obtain ⟨a, b⟩ := x
      obtain ⟨a', b'⟩ := y
      obtain rfl := Option.some.inj hp
      obtain rfl := Option.some.inj (hb.symm.trans hb')
      rw [ih hs hs']

/-- The pointers come to no block twice: what follows the second time would be what followed the
first time. -/
theorem Seg.nodup (hs : Seg h link p xs none) : (xs.map Prod.fst).Nodup := by
  induction xs generalizing p with
  | nil => exact List.nodup_nil
  | cons x xs ih =>
    obtain ⟨rfl, hb, hs⟩ := hs
    refine List.nodup_cons.mpr ⟨fun hmem => ?_, ih hs⟩
    obtain ⟨y, hy, hyx⟩ := List.mem_map.mp hmem
    obtain ⟨zs, ws, rfl⟩ := List.mem_iff_append.mp hy
    obtain ⟨r, -, hrest⟩ := seg_append.mp hs
    have hsame : Seg h link (some x.1) (x :: (zs ++ y :: ws)) none := ⟨rfl, hb, hs⟩
    obtain ⟨rfl, -, -⟩ := id hrest
    rw [hyx] at hrest
    have hlen := congrArg List.length (hsame.unique hrest)
    simp only [List.length_cons, List.length_append] at hlen
    omega

theorem Seg.length_le (hs : Seg h link p xs none) : xs.length ≤ h.next := by
  have hsub : (xs.map Prod.fst).toFinset ⊆ Finset.range h.next := fun a ha => by
    obtain ⟨x, hx, rfl⟩ := List.mem_map.mp (List.mem_toFinset.mp ha)
    exact Finset.mem_range.mpr (Heap.lt_next (hs.block hx))
  have hcard := Finset.card_le_card hsub
  rw [List.toFinset_card_of_nodup hs.nodup, List.length_map, Finset.card_range] at hcard
  exact hcard

end CRun
