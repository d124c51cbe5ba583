import Mathlib.Data.List.Basic
import Mathlib.Data.List.Nodup

/-!
# Lists kept as finite maps

A linked list whose elements carry a key, and hold it at most once (`Distinct`), is a finite map.
`upsert` searches the list for a key and overwrites the element in place, or puts a new one at the
end. `eraseFirst` unlinks the first element with a property.

* `lookup`: the element with a key. `others`: the elements with another key, in order.
* `upsert_split`, `eraseFirst_split`: what one operation does to the list.
* `lookup_upsert`, `others_upsert`, `distinct_upsert`, and the same for `eraseFirst` with a property
  that only elements with one key have (`eraseFirst_eq`).
-/

namespace CRun.Keyed

open List

/-- A search by index splits the list where it finds the element. -/
theorem findIdx?_split {α : Type} {q : α → Bool} {l : List α} {n : Nat}
    (h : l.findIdx? q = some n) :
    ∃ l₁ a l₂, l = l₁ ++ a :: l₂ ∧ l₁.length = n ∧ q a = true ∧ ∀ b ∈ l₁, q b = false := by
  induction l generalizing n with
  | nil => cases h
  | cons b l ih =>
    rw [findIdx?_cons] at h
    by_cases hb : q b = true
    · rw [if_pos hb] at h
      cases h
      exact ⟨[], b, l, rfl, rfl, hb, by simp⟩
    · rw [if_neg hb] at h
      obtain ⟨m, hm, rfl⟩ := Option.map_eq_some_iff.mp h
      obtain ⟨l₁, a, l₂, rfl, rfl, ha, hl₁⟩ := ih hm
      refine ⟨b :: l₁, a, l₂, rfl, rfl, ha, ?_⟩
      intro c hc
      rcases mem_cons.mp hc with rfl | hc
      · exact Bool.eq_false_iff.mpr hb
      · exact hl₁ c hc

variable {α κ : Type} [DecidableEq κ] (key : α → κ)

/-- The element with the key `k`. -/
def lookup (l : List α) (k : κ) : Option α := l.find? (key · = k)

/-- The elements with another key, in order. -/
def others (l : List α) (k : κ) : List α := l.filter (key · ≠ k)

/-- No key occurs twice. -/
def Distinct (l : List α) : Prop := (l.map key).Nodup

/-- `g` overwrites the first element with the key `k`; without one, `new` goes to the end. -/
def upsert (k : κ) (new : α) (g : α → α) (l : List α) : List α :=
  match l.findIdx? (key · = k) with
  | some n => l.modify n g
  | none => l ++ [new]

/-- The first element with the property `q` is unlinked. -/
def eraseFirst (q : α → Bool) (l : List α) : List α :=
  match l.findIdx? q with
  | some n => l.eraseIdx n
  | none => l

variable {key}

theorem lookup_eq_none {l : List α} {k : κ} : lookup key l k = none ↔ ∀ a ∈ l, key a ≠ k := by
  simp [lookup]

theorem key_of_lookup {l : List α} {k : κ} {a : α} (h : lookup key l k = some a) : key a = k := by
  simpa using find?_some h

theorem mem_of_lookup {l : List α} {k : κ} {a : α} (h : lookup key l k = some a) : a ∈ l :=
  mem_of_find?_eq_some h

/-- An element of the list is what its key maps to. -/
theorem lookup_of_mem {l : List α} {k : κ} {a : α} (hl : Distinct key l) (ha : a ∈ l)
    (hk : key a = k) : lookup key l k = some a := by
  cases h : lookup key l k with
  | none => exact absurd hk (lookup_eq_none.mp h a ha)
  | some b => rw [inj_on_of_nodup_map hl (mem_of_lookup h) ha ((key_of_lookup h).trans hk.symm)]

/-- The elements with another key say what another key maps to. -/
theorem lookup_others {l : List α} {k k' : κ} (hk : k' ≠ k) :
    lookup key (others key l k) k' = lookup key l k' := by
  unfold lookup others
  rw [find?_filter]
  congr 1
  funext a
  by_cases h : key a = k' <;> simp [h, hk]

/-! ## One operation -/

variable (key) in
theorem upsert_split (k : κ) (new : α) (g : α → α) (l : List α) :
    (∃ l₁ a l₂, l = l₁ ++ a :: l₂ ∧ key a = k ∧ (∀ b ∈ l₁, key b ≠ k) ∧
      upsert key k new g l = l₁ ++ g a :: l₂) ∨
    ((∀ b ∈ l, key b ≠ k) ∧ upsert key k new g l = l ++ [new]) := by
  unfold upsert
  split
  · rename_i n hn
    obtain ⟨l₁, a, l₂, rfl, rfl, ha, hl₁⟩ := findIdx?_split hn
    refine .inl ⟨l₁, a, l₂, rfl, by simpa using ha, by simpa using hl₁, ?_⟩
    rw [modify_eq_take_cons_drop (by simp)]
    simp
  · rename_i hn
    exact .inr ⟨by simpa using hn, rfl⟩

theorem eraseFirst_split (q : α → Bool) (l : List α) :
    (∃ l₁ a l₂, l = l₁ ++ a :: l₂ ∧ q a = true ∧ eraseFirst q l = l₁ ++ l₂) ∨
    ((∀ b ∈ l, q b = false) ∧ eraseFirst q l = l) := by
  unfold eraseFirst
  split
  · rename_i n hn
    obtain ⟨l₁, a, l₂, rfl, rfl, ha, -⟩ := findIdx?_split hn
    refine .inl ⟨l₁, a, l₂, rfl, ha, ?_⟩
    rw [eraseIdx_append_of_length_le (Nat.le_refl _), Nat.sub_self, eraseIdx_cons_zero]
  · rename_i hn
    exact .inr ⟨by simpa using hn, rfl⟩

section Upsert

variable {k : κ} {new : α} {g : α → α} {l : List α}

/-- The key maps to the overwritten element, or to the new one. -/
theorem lookup_upsert (hnew : key new = k) (hg : ∀ a, key a = k → key (g a) = k) :
    lookup key (upsert key k new g l) k = some ((lookup key l k).elim new g) := by
  rcases upsert_split key k new g l with ⟨l₁, a, l₂, rfl, ha, hl₁, h⟩ | ⟨hl, h⟩
  · have hnone : find? (key · = k) l₁ = none := by simpa using hl₁
    simp [h, lookup, find?_append, hnone, ha, hg a ha]
  · have hnone : find? (key · = k) l = none := by simpa using hl
    simp [h, lookup, find?_append, hnone, hnew]

/-- The elements with another key stay as they are, in order. -/
theorem others_upsert (hnew : key new = k) (hg : ∀ a, key a = k → key (g a) = k) :
    others key (upsert key k new g l) k = others key l k := by
  rcases upsert_split key k new g l with ⟨l₁, a, l₂, rfl, ha, -, h⟩ | ⟨-, h⟩
  · simp [h, others, ha, hg a ha]
  · simp [h, others, hnew]

theorem distinct_upsert (hnew : key new = k) (hg : ∀ a, key a = k → key (g a) = k)
    (hl : Distinct key l) : Distinct key (upsert key k new g l) := by
  rcases upsert_split key k new g l with ⟨l₁, a, l₂, rfl, ha, -, h⟩ | ⟨hn, h⟩
  · have hmap : map key (l₁ ++ g a :: l₂) = map key (l₁ ++ a :: l₂) := by simp [ha, hg a ha]
    rw [h, Distinct, hmap]
    exact hl
  · rw [h, Distinct, map_append, map_singleton, nodup_append]
    refine ⟨hl, by simp, ?_⟩
    intro x hx y hy
    obtain ⟨b, hb, rfl⟩ := mem_map.mp hx
    rw [mem_singleton.mp hy, hnew]
    exact hn b hb

end Upsert

/-- An erasure by a property that only elements with the key `k` have. -/
theorem eraseFirst_eq {q : α → Bool} {k : κ} {l : List α} (hq : ∀ a, q a = true → key a = k)
    (hl : Distinct key l) :
    eraseFirst q l = if (lookup key l k).any q then others key l k else l := by
  rcases eraseFirst_split q l with ⟨l₁, a, l₂, rfl, ha, h⟩ | ⟨hn, h⟩
  · rw [Distinct, map_append, map_cons, nodup_append, nodup_cons] at hl
    obtain ⟨-, ⟨hl₂, -⟩, hl₁⟩ := hl
    have hk₁ : ∀ b ∈ l₁, key b ≠ k := fun b hb =>
      hq a ha ▸ hl₁ _ (mem_map_of_mem hb) _ mem_cons_self
    have hk₂ : ∀ b ∈ l₂, key b ≠ k := fun b hb hbk =>
      hl₂ (mem_map.mpr ⟨b, hb, hbk.trans (hq a ha).symm⟩)
    have hnone : find? (key · = k) l₁ = none := by simpa using hk₁
    have hlook : lookup key (l₁ ++ a :: l₂) k = some a := by
      simp [lookup, find?_append, hnone, hq a ha]
    have hothers : others key (l₁ ++ a :: l₂) k = l₁ ++ l₂ := by
      simp only [others, filter_append, filter_cons, hq a ha, not_true_eq_false, decide_false,
        Bool.false_eq_true, ↓reduceIte, ne_eq]
      rw [filter_eq_self.mpr (by simpa using hk₁), filter_eq_self.mpr (by simpa using hk₂)]
    rw [h, hlook, hothers, Option.any_some, if_pos ha]
  · have : (lookup key l k).any q = false := by
      cases hlook : lookup key l k with
      | none => rfl
      | some a => exact hn a (mem_of_lookup hlook)
    rw [h, this, if_neg (by simp)]

theorem distinct_others {l : List α} (k : κ) (hl : Distinct key l) : Distinct key (others key l k) :=
  hl.sublist (filter_sublist.map key)

@[simp] theorem others_others (l : List α) (k : κ) :
    others key (others key l k) k = others key l k := by
  simp [others, filter_filter]

@[simp] theorem lookup_others_self (l : List α) (k : κ) :
    lookup key (others key l k) k = none := by
  rw [lookup_eq_none]
  intro a ha
  simpa using (mem_filter.mp ha).2

end CRun.Keyed
