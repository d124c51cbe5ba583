import CcnLite.Lib.Tlv
import Mathlib.Data.Sum.Basic
import Mathlib.Order.Basic

/-!
# Two walks over the same bytes

A parser runs on two memories that have some bytes in common, at `p` in one and at `p'` in the other
(`Agree`). As long as it stays among these bytes, the second run does what the first one does.

* `Mimics R x y`: what `x` returns, `y` returns up to `R`. `loop_follows` is the rule for loops.
* `nested_follows`: a walk over nested elements, all of it among the common bytes.
* `top_follows`: the packet loop, as far as the elements are among the common bytes. Where the two
  memories end does not matter.
* `Behind`: the types of the elements behind a place; `keeps_behind` says what the packet loop keeps
  from there on.
-/

namespace CRun

/-! ## Runs -/

section Mimics

variable {α β γ δ σ τ : Type}

/-- Whatever `x` returns, `y` returns a value that is related to it. -/
def Mimics (R : α → β → Prop) (x : Run α) (y : Run β) : Prop :=
  ∀ a, x = .ok a → ∃ b, y = .ok b ∧ R a b

variable {R : α → β → Prop} {Q : γ → δ → Prop}

theorem Mimics.ok {a : α} {b : β} (h : R a b) : Mimics R (.ok a) (.ok b) := by
  rintro _ ⟨⟩
  exact ⟨b, rfl, h⟩

theorem Mimics.refl (x : Run α) : Mimics Eq x x := fun a h => ⟨a, h, rfl⟩

theorem Mimics.error (s : Stop) (y : Run β) : Mimics R (.error s) y := nofun

theorem Mimics.bind {x : Run α} {y : Run β} {f : α → Run γ} {g : β → Run δ}
    (hx : Mimics R x y) (hf : ∀ a b, x = .ok a → R a b → Mimics Q (f a) (g b)) :
    Mimics Q (x >>= f) (y >>= g) := by
  intro c hc
  obtain ⟨a, ha, hc⟩ := (bind_eq_ok _ _ _).mp hc
  obtain ⟨b, hb, hab⟩ := hx a ha
  obtain ⟨d, hd, hcd⟩ := hf a b ha hab c hc
  exact ⟨d, (bind_eq_ok _ _ _).mpr ⟨b, hb, hd⟩, hcd⟩

/-- A loop whose passes follow those of another one. -/
theorem loop_follows {step : σ → Run (σ ⊕ α)} {step' : τ → Run (τ ⊕ β)} {J : σ → τ → Prop}
    (h : ∀ s t, J s t → Mimics (Sum.LiftRel J R) (step s) (step' t)) (n : Nat) {s : σ} {t : τ}
    (h0 : J s t) : Mimics R (loop step n s) (loop step' n t) := by
  induction n generalizing s t with
  | zero => exact .error _ _
  | succ n ih =>
    refine (h s t h0).bind fun x y _ hxy => ?_
    cases hxy with
    | inl hst => exact ih hst
    | inr hab => exact .ok hab

/-- The states that a loop reaches, as long as they are in `G`, which no pass leads back to. -/
theorem reached_follows {step : σ → Run (σ ⊕ α)} {step' : τ → Run (τ ⊕ β)} {J : σ → τ → Prop}
    {G : σ → Prop} (hG : ∀ s s', Again step s s' → G s' → G s)
    (h : ∀ s t s', J s t → Again step s s' → G s' → ∃ t', Again step' t t' ∧ J s' t') {s s' : σ}
    {t : τ} (h0 : J s t) (hr : Reached step s s') (hs' : G s') :
    ∃ t', Reached step' t t' ∧ J s' t' := by
  induction hr with
  | refl => exact ⟨t, .refl, h0⟩
  | tail _ ha ih =>
    obtain ⟨u, hu, hJ⟩ := ih (hG _ _ ha hs')
    obtain ⟨v, hv, hJ⟩ := h _ _ _ hJ ha hs'
    exact ⟨v, hu.tail hv, hJ⟩

/-- What is not at the end of a run what it was at the start was changed by a last pass. -/
theorem Reached.last_change {step : σ → Run (σ ⊕ α)} {s u : σ} (hr : Reached step s u) (f : σ → γ)
    (hf : f u ≠ f s) :
    ∃ t t', Reached step s t ∧ Again step t t' ∧ Reached step t' u ∧ f t' = f u ∧ f t ≠ f t' := by
  induction hr with
  | refl => exact absurd rfl hf
  | @tail v w hr ha ih =>
    by_cases heq : f w = f v
    · obtain ⟨t, t', hst, hat, htv, hfv, hne⟩ := ih (heq ▸ hf)
      exact ⟨t, t', hst, hat, htv.tail ha, hfv.trans heq.symm, hne⟩
    · exact ⟨v, w, hr, ha, .refl, rfl, Ne.symm heq⟩

end Mimics

/-! ## Memories -/

/-- The `n` bytes from `p` on of one memory are those from `p'` on of the other. -/
structure Agree (mem mem' : List UInt8) (p p' n : Nat) : Prop where
  le : p + n ≤ mem.length
  le' : p' + n ≤ mem'.length
  take : (mem.drop p).take n = (mem'.drop p').take n

namespace Agree

variable {mem mem' : List UInt8} {p p' n : Nat}

theorem symm (h : Agree mem mem' p p' n) : Agree mem' mem p' p n := ⟨h.le', h.le, h.take.symm⟩

/-- Bytes among the common ones. -/
theorem slice (h : Agree mem mem' p p' n) {q q' k : Nat} (hq : p ≤ q) (hqq : q + p' = q' + p)
    (hk : q + k ≤ p + n) : Agree mem mem' q q' k := by
  have hle := h.le
  have hle' := h.le'
  refine ⟨by omega, by omega, ?_⟩
  have htake := congrArg (fun bs => (bs.drop (q - p)).take k) h.take
  simp only [List.drop_take, List.take_take, List.drop_drop] at htake
  rw [Nat.min_eq_left (by omega), show p + (q - p) = q by omega,
    show p' + (q - p) = q' by omega] at htake
  exact htake

theorem get (h : Agree mem mem' p p' n) {q q' : Nat} (hq : p ≤ q) (hqq : q + p' = q' + p)
    (hlt : q < p + n) : mem[q]? = mem'[q']? := by
  have hone := congrArg List.head? (h.slice hq hqq (k := 1) (by omega)).take
  rwa [List.head?_take, List.head?_take, if_neg (by omega), if_neg (by omega), List.head?_drop,
    List.head?_drop] at hone

theorem inBuf (h : Agree mem mem' p p' n) : InBuf mem' p' n := .inr h.le'

/-- A span among the common bytes. -/
theorem bytes (h : Agree mem mem' p p' n) : (⟨p, n⟩ : Span).bytes mem = (⟨p', n⟩ : Span).bytes mem' :=
  h.take

/-- The common bytes, with what is in front of them left out. -/
theorem drop (h : Agree mem mem' p p' n) : Agree (mem.drop p) (mem'.drop p') 0 0 n := by
  have hle := h.le
  have hle' := h.le'
  refine ⟨?_, ?_, by rw [List.drop_zero, List.drop_zero, h.take]⟩
  · rw [List.length_drop]
    omega
  · rw [List.length_drop]
    omega

/-- The common bytes are those of the memories up to indices behind them. -/
theorem of_take (h : Agree mem mem' 0 0 n) {k k' : Nat} (hk : n ≤ k) (hk' : n ≤ k') :
    Agree (mem.take k) (mem'.take k') 0 0 n := by
  have hle := h.le
  have hle' := h.le'
  refine ⟨?_, ?_, ?_⟩
  · rw [List.length_take]
    omega
  · rw [List.length_take]
    omega
  · have htake := h.take
    rw [List.drop_zero, List.drop_zero] at htake ⊢
    rw [List.take_take, List.take_take, Nat.min_eq_left hk, Nat.min_eq_left hk', htake]

theorem rdBytes (h : Agree mem mem' p p' n) : CRun.rdBytes mem p n = CRun.rdBytes mem' p' n := by
  rw [rdBytes_eq_ok.mpr ⟨.inr h.le, rfl⟩, rdBytes_eq_ok.mpr ⟨h.inBuf, rfl⟩, h.take]

end Agree

namespace Tlv

/-- Two cursors at the same place among the `n` bytes from `p` on and those from `p'` on, and with
the same end. -/
structure Twin (p p' n : Nat) (c c' : Cursor) : Prop where
  le : p ≤ c.pos
  pos : c.pos + p' = c'.pos + p
  len : c'.len = c.len
  lim : c.pos + c.len ≤ p + n

/-- A header among the common bytes is a header in the other memory, if it may go as far. -/
structure Local (H H' : Header) (p p' n : Nat) : Prop where
  len_le : ∀ {lim q typ len v}, H.Head lim q typ len v → q + len ≤ lim
  head : ∀ (lim' : Nat) {lim q q' typ len v}, H.Head lim q typ len v → p ≤ q → v ≤ p + n →
    q + p' = q' + p → v + p' ≤ lim' + p → q' + len ≤ lim' →
      ∃ v', v + p' = v' + p ∧ H'.Head lim' q' typ len v'

section Loops

variable {α β : Type} {dehead dehead' : Cursor → Run (Option (Nat × Nat) × Cursor)}
  {H H' : Header} {p p' n : Nat} {J : α → β → Prop}

/-! ## Nested elements -/

section Nested

variable {elem : Nat → Nat → Nat → Cursor → α → Run (Elem α)}
  {elem' : Nat → Nat → Nat → Cursor → β → Run (Elem β)}

/-- Two states of the nested loop at the same place. -/
abbrev TwinState (p p' n : Nat) (J : α → β → Prop) (s : Cursor × α) (t : Cursor × β) : Prop :=
  Twin p p' n s.1 t.1 ∧ J s.2 t.2

/-- One body of the nested loop follows another, with the step over the value. -/
def ElemFollows (p p' n : Nat) (J : α → β → Prop) (elem : Nat → Nat → Nat → Cursor → α → Run (Elem α))
    (elem' : Nat → Nat → Nat → Cursor → β → Run (Elem β)) : Prop :=
  ∀ hd hd' typ i c c' a a', p ≤ hd → hd < c.pos → hd + p' = hd' + p → Twin p p' n c c' → J a a' →
    Mimics (Sum.LiftRel (TwinState p p' n J) J) (elem hd typ i c a >>= stepOver)
      (elem' hd' typ i c' a' >>= stepOver)

theorem nested_follows (hd : Decodes H dehead) (hd' : Decodes H' dehead') (hH : Local H H' p p' n)
    (he : ElemFollows p p' n J elem elem') {c : Cursor} {c' : Cursor} {a : α} {a' : β}
    (hc : Twin p p' n c c') (h0 : J a a') :
    Mimics J (nested dehead elem c a) (nested dehead' elem' c' a') := by
  unfold nested
  rw [hc.len]
  refine loop_follows (J := TwinState p p' n J) (fun s t ⟨hst, hJ⟩ => ?_) _ ⟨hc, h0⟩
  obtain ⟨c, a⟩ := s
  obtain ⟨c', a'⟩ := t
  obtain ⟨hle, hpos, hlen, hlim⟩ := hst
  simp only at hle hpos hlen hlim hJ
  unfold nestedStep
  simp only [hlen]
  split
  · exact .ok (.inr hJ)
  intro x hx
  obtain ⟨⟨y, c₁⟩, hy, hx⟩ := (bind_eq_ok _ _ _).mp hx
  match y with
  | none => simp at hx
  | some (typ, i) =>
    obtain ⟨hh, hlim₁⟩ := (hd.ok _ _ _ _).mp hy
    have hlt := hd.lt _ _ _ _ _ hh
    have hi := hH.len_le hh
    obtain ⟨v', hv', hh'⟩ := hH.head (c'.pos + c'.len) hh hle (by omega) hpos (by omega)
      (by omega)
    have hlt' := hd'.lt _ _ _ _ _ hh'
    obtain ⟨z, hz, hxz⟩ := he c.pos c'.pos typ i c₁ ⟨v', c'.pos + c'.len - v'⟩ a a' hle hlt.1 hpos
      ⟨by omega, hv', by simp only; omega, by omega⟩ hJ x hx
    refine ⟨z, ?_, hxz⟩
    rw [hd'.of_head hh']
    exact hz

end Nested

/-! ## The packet loop -/

section Top

variable {elem : Nat → Nat → Nat → Cursor → α → Run α}
  {elem' : Nat → Nat → Nat → Cursor → β → Run β}

/-- One body of the packet loop follows another, for an element among the common bytes. -/
def TakesFollow (p p' n : Nat) (J : α → β → Prop) (elem : Nat → Nat → Nat → Cursor → α → Run α)
    (elem' : Nat → Nat → Nat → Cursor → β → Run β) : Prop :=
  ∀ hd hd' typ len c c' a a', p ≤ hd → hd < c.pos → hd + p' = hd' + p → c.pos + p' = c'.pos + p →
    c.pos + len ≤ p + n → len ≤ c'.len → J a a' →
      Mimics J (elem hd typ len c a) (elem' hd' typ len c' a')

theorem top_follows (hd : Decodes H dehead) (hd' : Decodes H' dehead') (hH : Local H H' p p' n)
    (he : TakesFollow p p' n J elem elem') {c c' t : Cursor} {a b : α} {a' : β}
    (hle : p ≤ c.pos) (hpos : c.pos + p' = c'.pos + p) (hlim : p' + n ≤ c'.pos + c'.len)
    (h0 : J a a') (hr : Reached (topStep dehead elem) (c, a) (t, b)) (ht : t.pos ≤ p + n) :
    ∃ t' b', Reached (topStep dehead' elem') (c', a') (t', b') ∧ t.pos + p' = t'.pos + p ∧
      t'.pos + t'.len = c'.pos + c'.len ∧ J b b' := by
  let K : Cursor × α → Cursor × β → Prop := fun s u =>
    p ≤ s.1.pos ∧ s.1.pos + p' = u.1.pos + p ∧ u.1.pos + u.1.len = c'.pos + c'.len ∧ J s.2 u.2
  have hstep : ∀ s u s', K s u → Again (topStep dehead elem) s s' → s'.1.pos ≤ p + n →
      ∃ u', Again (topStep dehead' elem') u u' ∧ K s' u' := by
    rintro ⟨q, a⟩ ⟨q', a'⟩ ⟨r, a₂⟩ ⟨hle, hpos, hlim', hJ⟩ ha hs'
    obtain ⟨typ, len, c₁, hx, he₁, -, rfl⟩ := topStep_again.mp ha
    obtain ⟨hh, -⟩ := (hd.ok _ _ _ _).mp hx
    have hlt := hd.lt _ _ _ _ _ hh
    simp only at hle hpos hlim' hJ hs' hlt
    obtain ⟨v', hv', hh'⟩ := hH.head (q'.pos + q'.len) hh hle (by omega) hpos (by omega) (by omega)
    obtain ⟨a₂', ha', hJ'⟩ := he q.pos q'.pos typ len c₁ ⟨v', q'.pos + q'.len - v'⟩ a a' hle hlt.1
      hpos hv' hs' (by simp only; omega) hJ a₂ he₁
    have hlt' := hd'.lt _ _ _ _ _ hh'
    refine ⟨(⟨v' + len, q'.pos + q'.len - v' - len⟩, a₂'), ?_, ?_⟩
    · exact topStep_again.mpr ⟨typ, len, _, hd'.of_head hh', ha', by simp only; omega, rfl⟩
    · exact ⟨by simp only; omega, by simp only; omega, by simp only; omega, hJ'⟩
  obtain ⟨⟨t', b'⟩, hr', -, hpos', hlim', hJ⟩ := reached_follows (G := fun s => s.1.pos ≤ p + n)
    (fun _ _ ha hs' => Nat.le_trans (Nat.le_of_lt (topStep_cursor hd ha).1) hs') hstep
    (show K (c, a) (c', a') from ⟨hle, hpos, rfl, h0⟩) hr ht
  exact ⟨t', b', hr', hpos', hlim', hJ⟩

/-- The packet loop is in one state at a place. -/
theorem top_unique (hd : Decodes H dehead) {s t u : Cursor × α}
    (ht : Reached (topStep dehead elem) s t) (hu : Reached (topStep dehead elem) s u)
    (hpos : t.1.pos = u.1.pos) : t = u := by
  have hmono : ∀ {v w : Cursor × α}, Reached (topStep dehead elem) v w → v.1.pos ≤ w.1.pos :=
    fun {v w} hr => hr.invariant (I := fun w => v.1.pos ≤ w.1.pos) (Nat.le_refl _)
      fun _ _ hle ha => Nat.le_trans hle (Nat.le_of_lt (topStep_cursor hd ha).1)
  have hone : ∀ {v w : Cursor × α}, Reached (topStep dehead elem) v w → v.1.pos = w.1.pos →
      v = w := fun {v w} hr heq => by
    rcases Relation.ReflTransGen.cases_head hr with rfl | ⟨x, hx, hr⟩
    · rfl
    · have := (topStep_cursor hd hx).1
      have := hmono hr
      omega
  rcases ht.total hu with h | h
  · exact hone h hpos
  · exact (hone h hpos.symm).symm

/-- The packet loop from a state that it reaches. -/
theorem top_reached (hd : Decodes H dehead) {s t : Cursor × α}
    (hr : Reached (topStep dehead elem) s t) : top dehead elem s.1 s.2 = top dehead elem t.1 t.2 := by
  induction hr with
  | refl => rfl
  | tail _ ha ih =>
    exact ih.trans (loop_again (I := fun _ => True) (m := fun s => s.1.len) (fun _ _ _ _ => trivial)
      (fun _ _ _ => topStep_lt hd _ _) trivial ha (Nat.lt_succ_self _) (Nat.lt_succ_self _))

/-- From a place to that behind the element there. -/
def Next (H : Header) (lim q q' : Nat) : Prop := ∃ typ len v, H.Head lim q typ len v ∧ q' = v + len

/-- There is an element of the type at `q`, or behind it. -/
def Behind (H : Header) (lim q typ : Nat) : Prop :=
  ∃ q' len v, Relation.ReflTransGen (Next H lim) q q' ∧ H.Head lim q' typ len v

/-- What every element of the types behind a place keeps, the packet loop keeps from there on. -/
theorem keeps_behind (hd : Decodes H dehead) {I : α → Prop} {s u : Cursor × α}
    (hI : ∀ typ, Behind H (s.1.pos + s.1.len) s.1.pos typ →
      ∀ hd len c a a', I a → elem hd typ len c a = .ok a' → I a')
    (hr : Reached (topStep dehead elem) s u) (h0 : I s.2) : I u.2 := by
  let K : Cursor × α → Prop := fun t =>
    Relation.ReflTransGen (Next H (s.1.pos + s.1.len)) s.1.pos t.1.pos ∧
      t.1.pos + t.1.len = s.1.pos + s.1.len ∧ I t.2
  refine (hr.invariant (I := K) ⟨.refl, rfl, h0⟩ ?_).2.2
  rintro ⟨c, a⟩ ⟨c', a'⟩ ⟨hnext, hlim, ha⟩ hs
  have hcur := (topStep_cursor hd hs).2
  obtain ⟨typ, len, c₁, hx, he, -, rfl⟩ := topStep_again.mp hs
  obtain ⟨hh, -⟩ := (hd.ok _ _ _ _).mp hx
  simp only at hlim hcur
  rw [hlim] at hh
  exact ⟨hnext.tail ⟨typ, len, _, hh, rfl⟩, hcur.trans hlim, hI typ ⟨_, _, _, hnext, hh⟩ _ _ _ _ _ ha he⟩

end Top

end Loops

end Tlv

end CRun
