import Mathlib.Tactic.Common

/-!
# Writing forwards between two pointers

C code that fills a buffer from its start has the address where it writes and the one where the buffer
ends. It writes wherever it computes that it should, and what was written before it gives up stays.
`StoreM` is a function with a return code and the writes that it made. An address is a number.

`Lays` is the rule for a function that asks for room before it writes: with the guard it writes its
bytes from its address on, wherever they end, and without it the function returns -1 after writes in
the buffer only. The rules compose (`Lays.bind`). `inBuffer_iff` says what they mean for the buffer:
the function keeps to it exactly when the guard lets pass only what fits.
-/

namespace CRun

/-- A function that returns a value or a code other than 0, with the writes so far, the last one last. -/
abbrev StoreM := EStateM Int (List (Nat × UInt8))

/-- The writes of `bs` from the address `a` on. -/
def places : Nat → List UInt8 → List (Nat × UInt8)
  | _, [] => []
  | a, b :: bs => (a, b) :: places (a + 1) bs

/-- `memcpy(a, bs, len)`. -/
def StoreM.store (a : Nat) (bs : List UInt8) : StoreM Unit := fun log => .ok () (log ++ places a bs)

/-- What a function has written. -/
def StoreM.written {α : Type} (m : StoreM α) : List (Nat × UInt8) :=
  match m [] with
  | .ok _ log => log
  | .error _ log => log

section Places

variable {a i : Nat} {xs ys bs : List UInt8} {w : Nat × UInt8}

@[simp] theorem length_places (a : Nat) (bs : List UInt8) : (places a bs).length = bs.length := by
  induction bs generalizing a with
  | nil => rfl
  | cons b bs ih => rw [places, List.length_cons, ih, List.length_cons]

theorem places_append (a : Nat) (xs ys : List UInt8) :
    places a (xs ++ ys) = places a xs ++ places (a + xs.length) ys := by
  induction xs generalizing a with
  | nil => rfl
  | cons x xs ih =>
    rw [List.cons_append, places, ih, List.length_cons, Nat.add_assoc, Nat.add_comm 1]
    rfl

theorem mem_places (h : w ∈ places a bs) : a ≤ w.1 ∧ w.1 < a + bs.length := by
  induction bs generalizing a with
  | nil => cases h
  | cons b bs ih =>
    rw [List.length_cons]
    rcases List.mem_cons.mp h with rfl | h
    · exact ⟨Nat.le_refl _, by omega⟩
    · have := ih h
      omega

/-- Every place is written. -/
theorem exists_mem_places (h : i < bs.length) : ∃ b, (a + i, b) ∈ places a bs := by
  induction bs generalizing a i with
  | nil => cases h
  | cons b bs ih =>
    cases i with
    | zero => exact ⟨b, List.mem_cons_self⟩
    | succ i =>
      obtain ⟨c, hc⟩ := @ih (a + 1) i (Nat.lt_of_succ_lt_succ h)
      exact ⟨c, List.mem_cons_of_mem _ (by rwa [Nat.add_comm i, ← Nat.add_assoc])⟩

end Places

/-! ## The rule -/

/-- With `g` the function writes `bs` at the address `a` and returns `r`; without, it fails, and has
written nothing in front of `a` or outside the buffer. -/
structure Lays {α : Type} (a bufend : Nat) (g : Prop) (bs : List UInt8) (r : α) (m : StoreM α) :
    Prop where
  done : g → ∀ log, m log = .ok r (log ++ places a bs)
  fails : ¬ g → ∀ log, ∃ new, m log = .error (-1) (log ++ new) ∧ ∀ w ∈ new, a ≤ w.1 ∧ w.1 < bufend

namespace Lays

open StoreM

variable {α β : Type} {a bufend : Nat} {g g' : Prop} {xs ys bs : List UInt8} {r : α} {s : β}
  {m : StoreM α} {f : α → StoreM β}

theorem pure (r : α) (a bufend : Nat) : Lays a bufend True [] r (pure r) where
  done _ log := by
    rw [places, List.append_nil]
    rfl
  fails h := absurd trivial h

/-- `if (c) return -1;`, in front of writes without a question. -/
theorem ask {c : Prop} [Decidable c] (hg : g ↔ ¬ c) (hm : Lays a bufend True bs r m) :
    Lays a bufend g bs r (if c then throw (-1) else m) := by
  by_cases h : c
  · rw [if_pos h]
    refine ⟨fun hg' => absurd h (hg.mp hg'), fun _ log => ⟨[], ?_, by simp⟩⟩
    rw [List.append_nil]
    rfl
  · rw [if_neg h]
    exact ⟨fun _ => hm.done trivial, fun hg' => absurd (hg.mpr h) hg'⟩

theorem congr {h : Prop} (hm : Lays a bufend g bs r m) (hiff : h ↔ g) : Lays a bufend h bs r m := by
  rw [hiff]
  exact hm

/-- One function after the other. What the first one writes is in the buffer, so that it may be
there when the second one fails. -/
theorem bind (hm : Lays a bufend g xs r m) (hin : g → a + xs.length ≤ bufend)
    (hf : g → Lays (a + xs.length) bufend g' ys s (f r)) :
    Lays a bufend (g ∧ g') (xs ++ ys) s (m >>= f) where
  done hg log := by
    show EStateM.bind m f log = _
    rw [EStateM.bind, hm.done hg.1, places_append, ← List.append_assoc]
    exact (hf hg.1).done hg.2 _
  fails h log := by
    show ∃ new, EStateM.bind m f log = _ ∧ _
    rw [EStateM.bind]
    by_cases hg : g
    · obtain ⟨new, hrun, hnew⟩ := (hf hg).fails (fun hg' => h ⟨hg, hg'⟩) (log ++ places a xs)
      rw [hm.done hg]
      refine ⟨places a xs ++ new, ?_, fun w hw => ?_⟩
      · rw [← List.append_assoc]
        exact hrun
      · have := hin hg
        rcases List.mem_append.mp hw with hw | hw
        · have := mem_places hw
          omega
        · have := hnew w hw
          omega
    · obtain ⟨new, hrun, hnew⟩ := hm.fails hg log
      rw [hrun]
      exact ⟨new, rfl, hnew⟩

/-- The same, when the first one has asked for its bytes, and the guard of the second one is behind
them. -/
theorem andThen (hm : Lays a bufend (a + xs.length < bufend) xs r m)
    (hg : g' → a + xs.length < bufend)
    (hf : a + xs.length < bufend → Lays (a + xs.length) bufend g' ys s (f r)) :
    Lays a bufend g' (xs ++ ys) s (m >>= f) :=
  (hm.bind Nat.le_of_lt hf).congr ⟨fun h => ⟨hg h, h⟩, And.right⟩

/-- A write, and what comes behind it without a question. -/
theorem next {b : Nat} {m : StoreM β} (hb : b = a) (hm : Lays (a + xs.length) bufend True ys s m) :
    Lays a bufend True (xs ++ ys) s (StoreM.store b xs >>= fun _ => m) where
  done _ log := by
    rw [hb, places_append, ← List.append_assoc]
    exact hm.done trivial _
  fails h := absurd trivial h

/-- The last write. -/
theorem last {b : Nat} {s' : β} (hb : b = a) (hs : s' = s) :
    Lays a bufend True bs s (StoreM.store b bs >>= fun _ => Pure.pure s') := by
  subst hs
  have h := @next β a bufend bs [] s' b _ hb (.pure s' (a + bs.length) bufend)
  rwa [List.append_nil] at h

end Lays

/-! ## The buffer -/

/-- A function whose encoding is `enc` keeps to the buffer from `out` to `bufend`: it writes nowhere
else, it fails if the encoding does not fit, and if it returns, it has added what it has written to
`retlen`. -/
structure InBuffer {α : Type} (ret : α → Nat) (out bufend retlen : Nat) (enc : List UInt8)
    (m : StoreM α) : Prop where
  inside : ∀ w ∈ m.written, out ≤ w.1 ∧ w.1 < bufend
  too_long : bufend < out + enc.length → ∃ log, m [] = .error (-1) log
  adds : ∀ r log, m [] = .ok r log → log = places out enc ∧ ret r = retlen + log.length

/-- A function with a guard keeps to the buffer exactly when the guard does not hold or the bytes
fit. -/
theorem inBuffer_iff {α : Type} {ret : α → Nat} {out bufend retlen : Nat} {enc : List UInt8}
    {m : StoreM α} {g : Prop} {r : α} (h : Lays out bufend g enc r m)
    (hret : ret r = retlen + enc.length) (hne : enc ≠ []) :
    InBuffer ret out bufend retlen enc m ↔ ¬ g ∨ out + enc.length ≤ bufend := by
  have hpos := List.length_pos_iff.mpr hne
  by_cases hg : g
  · have hrun : m [] = .ok r (places out enc) := h.done hg []
    have hwritten : m.written = places out enc := by
      unfold StoreM.written
      rw [hrun]
    constructor
    · intro hin
      obtain ⟨b, hb⟩ := @exists_mem_places out (enc.length - 1) enc (by omega)
      have := (hin.inside _ (hwritten ▸ hb)).2
      exact .inr (by omega)
    · intro hfit
      have hle : out + enc.length ≤ bufend := hfit.resolve_left (not_not.mpr hg)
      refine ⟨fun w hw => ?_, fun hlt => absurd hle (Nat.not_le.mpr hlt), fun r' log hok => ?_⟩
      · have := mem_places (hwritten ▸ hw)
        omega
      · rw [hrun] at hok
        cases hok
        exact ⟨rfl, by rw [hret, length_places]⟩
  · obtain ⟨new, hrun, hnew⟩ := h.fails hg []
    refine iff_of_true ⟨fun w hw => ?_, fun _ => ⟨_, hrun⟩, fun r' log hok => ?_⟩ (.inl hg)
    · unfold StoreM.written at hw
      rw [hrun] at hw
      exact hnew w hw
    · rw [hrun] at hok
      cases hok

end CRun
