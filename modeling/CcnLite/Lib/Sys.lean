import CcnLite.Lib.Run

/-!
# Programs that wait for events

A program that handles one event after another, each as a `Run`. `Reachable` are its states between
two events: where a run stops with a fault there is no next state. An invariant that each event
keeps holds in all of them (`Keeps.reachable`).

`ReachableBy P` are the states of the runs whose events all meet the condition `P` in the state where
they come. `Along` is the same for the elements of a list that a fold goes through.

`Avoids B r` says that the run `r` does not stop for a reason in `B`.
-/

namespace CRun

/-- The states that a program starts in, and what it does at an event. -/
structure Sys (σ ε : Type) where
  Start : σ → Prop
  step : ε → σ → Run σ

namespace Sys

variable {σ ε : Type} (S : Sys σ ε)

/-- The states between two events. -/
inductive Reachable : σ → Prop
  | start {s : σ} (h : S.Start s) : Reachable s
  | next {s s' : σ} (hr : Reachable s) (e : ε) (h : S.step e s = .ok s') : Reachable s'

/-- `I` holds at the start, and each event keeps it. -/
structure Keeps (I : σ → Prop) : Prop where
  start : ∀ s, S.Start s → I s
  step : ∀ e s s', I s → S.step e s = .ok s' → I s'

variable {S}

/-- An invariant holds between any two events. -/
theorem Keeps.reachable {I : σ → Prop} (h : S.Keeps I) {s : σ} (hr : S.Reachable s) : I s := by
  induction hr with
  | start hs => exact h.start _ hs
  | next _ e hs ih => exact h.step _ _ _ ih hs

/-- The state after a list of events. -/
theorem Reachable.run {s s' : σ} {es : List ε} (hr : S.Reachable s)
    (h : es.foldlM (fun s e => S.step e s) s = .ok s') : S.Reachable s' := by
  refine foldlM_inv (I := S.Reachable) (fun s e s' hs he => hs.next e he) hr h

/-- The states of the runs whose events all meet `P` where they come. -/
inductive ReachableBy (S : Sys σ ε) (P : ε → σ → Prop) : σ → Prop
  | start {s : σ} (h : S.Start s) : ReachableBy S P s
  | next {s s' : σ} (hr : ReachableBy S P s) (e : ε) (hP : P e s) (h : S.step e s = .ok s') :
    ReachableBy S P s'

/-- `I` holds at the start, and each event that meets `P` keeps it. -/
structure KeepsBy (S : Sys σ ε) (P : ε → σ → Prop) (I : σ → Prop) : Prop where
  start : ∀ s, S.Start s → I s
  step : ∀ e s s', I s → P e s → S.step e s = .ok s' → I s'

/-- An invariant of the events that meet `P` holds in every run of such events. -/
theorem KeepsBy.reachable {P : ε → σ → Prop} {I : σ → Prop} (h : S.KeepsBy P I) {s : σ}
    (hr : S.ReachableBy P s) : I s := by
  induction hr with
  | start hs => exact h.start _ hs
  | next _ e hP hs ih => exact h.step _ _ _ ih hP hs

theorem ReachableBy.mono {P Q : ε → σ → Prop} (h : ∀ e s, P e s → Q e s) {s : σ}
    (hr : S.ReachableBy P s) : S.ReachableBy Q s := by
  induction hr with
  | start hs => exact .start hs
  | next _ e hP hs ih => exact ih.next e (h _ _ hP) hs

end Sys

/-! ## Conditions on the way through a list -/

/-- Each element meets `P` in the state where the fold comes to it. -/
def Along {α β : Type} (f : β → α → Run β) (P : β → α → Prop) : List α → β → Prop
  | [], _ => True
  | a :: l, b => P b a ∧ ∀ b', f b a = .ok b' → Along f P l b'

section Along

variable {α β : Type} {f : β → α → Run β} {P : β → α → Prop}

instance decidableAlong [∀ b a, Decidable (P b a)] : ∀ l b, Decidable (Along f P l b)
  | [], _ => .isTrue trivial
  | a :: l, b =>
    match hb : f b a with
    | .error _ => decidable_of_iff (P b a)
        ⟨fun h => ⟨h, fun b' h' => by rw [hb] at h'; cases h'⟩, And.left⟩
    | .ok b' =>
      have := decidableAlong l b'
      decidable_of_iff (P b a ∧ Along f P l b')
        ⟨fun h => ⟨h.1, fun c hc => by rw [hb] at hc; cases hc; exact h.2⟩, fun h => ⟨h.1, h.2 b' hb⟩⟩

theorem Along.of_forall (h : ∀ b a, P b a) (l : List α) (b : β) : Along f P l b := by
  induction l generalizing b with
  | nil => trivial
  | cons a l ih => exact ⟨h b a, fun b' _ => ih b'⟩

/-- A condition that is asked for only when `F` holds. -/
theorem Along.imp {F : Prop} {l : List α} {b : β} (h : F → Along f P l b) :
    Along f (fun b a => F → P b a) l b := by
  by_cases hF : F
  · simpa only [hF, forall_const] using h hF
  · exact .of_forall (fun _ _ hF' => absurd hF' hF) l b

theorem Along.and {Q : β → α → Prop} {l : List α} {b : β} (hP : Along f P l b)
    (hQ : Along f Q l b) : Along f (fun b a => P b a ∧ Q b a) l b := by
  induction l generalizing b with
  | nil => trivial
  | cons a l ih => exact ⟨⟨hP.1, hQ.1⟩, fun b' hb => ih (hP.2 b' hb) (hQ.2 b' hb)⟩

theorem Along.append {l l' : List α} {b : β} (h : Along f P l b)
    (h' : ∀ b', l.foldlM f b = .ok b' → Along f P l' b') : Along f P (l ++ l') b := by
  induction l generalizing b with
  | nil => exact h' b rfl
  | cons a l ih =>
    refine ⟨h.1, fun b₁ hb => ih (h.2 b₁ hb) fun b' hb' => h' b' ?_⟩
    rw [List.foldlM_cons, hb, ok_bind, hb']

/-- What a fold does when its elements meet `P`, from what each of them does. -/
theorem Along.foldlM {R : β → β → Prop} (hrefl : ∀ b, R b b)
    (htrans : ∀ a b c, R a b → R b c → R a c)
    (hstep : ∀ b a b', P b a → f b a = .ok b' → R b b') {l : List α} {b b' : β}
    (h : Along f P l b) (hf : l.foldlM f b = .ok b') : R b b' := by
  induction l generalizing b with
  | nil => cases hf; exact hrefl _
  | cons a l ih =>
    rw [List.foldlM_cons] at hf
    obtain ⟨b₁, h₁, hf⟩ := (bind_eq_ok _ _ _).mp hf
    exact htrans _ _ _ (hstep _ _ _ h.1 h₁) (ih (h.2 b₁ h₁) hf)

/-- The state after a list of events that meet `P` where they come. -/
theorem Sys.ReachableBy.run {σ ε : Type} {S : Sys σ ε} {P : ε → σ → Prop} {s s' : σ} {es : List ε}
    (hr : S.ReachableBy P s) (hP : Along (fun s e => S.step e s) (fun s e => P e s) es s)
    (h : es.foldlM (fun s e => S.step e s) s = .ok s') : S.ReachableBy P s' :=
  hP.foldlM (R := fun s s' => S.ReachableBy P s → S.ReachableBy P s') (fun _ => id)
    (fun _ _ _ h h' hr => h' (h hr)) (fun _ e _ hP hs hr => hr.next e hP hs) h hr

end Along

/-! ## Reasons for a stop -/

/-- The run does not stop for a reason in `B`. -/
def Avoids {α : Type} (B : Stop → Prop) (r : Run α) : Prop := ∀ s, r = .error s → ¬ B s

section Avoids

variable {α β : Type} {B : Stop → Prop}

theorem Avoids.mono {B' : Stop → Prop} {r : Run α} (h : Avoids B r) (hB : ∀ s, B' s → B s) :
    Avoids B' r :=
  fun s hs hb => h s hs (hB s hb)

@[simp] theorem avoids_ok (a : α) : Avoids B (.ok a : Run α) := fun _ h => by cases h

@[simp] theorem avoids_pure (a : α) : Avoids B (pure a : Run α) := fun _ h => by cases h

@[simp] theorem avoids_error (s : Stop) : Avoids B (.error s : Run α) ↔ ¬ B s := by
  simp [Avoids]

@[simp] theorem avoids_throw (s : Stop) : Avoids B (throw s : Run α) ↔ ¬ B s := avoids_error s

@[simp] theorem avoids_bind (x : Run α) (f : α → Run β) :
    Avoids B (x >>= f) ↔ Avoids B x ∧ ∀ a, x = .ok a → Avoids B (f a) := by
  cases x with
  | error s => simp [bind, Except.bind]
  | ok a => simp [bind, Except.bind]

@[simp] theorem avoids_map (f : α → β) (x : Run α) : Avoids B (f <$> x) ↔ Avoids B x := by
  cases x <;> simp [Functor.map, Except.map]

@[simp] theorem avoids_ite (c : Prop) [Decidable c] (x y : Run α) :
    Avoids B (if c then x else y) ↔ (c → Avoids B x) ∧ (¬ c → Avoids B y) := by
  split <;> simp_all

theorem Avoids.attempt {x : Run α} (h : Avoids B x) : Avoids B (attempt x) := by
  cases x with
  | ok a => simp
  | error s =>
    cases s with
    | bail => simp
    | _ => exact fun _ he => h _ (by cases he; rfl)

/-- A fold avoids what each of its steps avoids. -/
theorem avoids_foldlM {I : β → Prop} {f : β → α → Run β} {l : List α} {b : β} (h0 : I b)
    (hI : ∀ b, ∀ a ∈ l, ∀ b', I b → f b a = .ok b' → I b')
    (h : ∀ b, ∀ a ∈ l, I b → Avoids B (f b a)) : Avoids B (l.foldlM f b) := by
  induction l generalizing b with
  | nil => exact avoids_pure _
  | cons a l ih =>
    rw [List.foldlM_cons, avoids_bind]
    exact ⟨h _ _ (by simp) h0, fun b' hb => ih (hI _ _ (by simp) _ h0 hb)
      (fun b a ha => hI b a (by simp [ha])) fun b a ha => h b a (by simp [ha])⟩

end Avoids

/-! ## Postconditions -/

/-- The run does not stop for a reason in `B`, and what it returns has the property `Q`. -/
structure Meets {α : Type} (B : Stop → Prop) (Q : α → Prop) (r : Run α) : Prop where
  avoids : Avoids B r
  post : ∀ a, r = .ok a → Q a

section Meets

variable {α β : Type} {B : Stop → Prop} {P Q : α → Prop} {R : β → Prop}

theorem Avoids.meets {r : Run α} (h : Avoids B r) : Meets B (fun _ => True) r :=
  ⟨h, fun _ _ => trivial⟩

/-- The strongest postcondition. -/
theorem Avoids.self {r : Run α} (h : Avoids B r) : Meets B (fun a => r = .ok a) r :=
  ⟨h, fun _ => id⟩

namespace Meets

theorem mono {r : Run α} (h : Meets B P r) (hPQ : ∀ a, P a → Q a) : Meets B Q r :=
  ⟨h.avoids, fun a ha => hPQ a (h.post a ha)⟩

theorem mono_stop {B' : Stop → Prop} {r : Run α} (h : Meets B P r) (hB : ∀ s, B' s → B s) :
    Meets B' P r :=
  ⟨h.avoids.mono hB, h.post⟩

theorem ok {a : α} (h : Q a) : Meets B Q (.ok a) :=
  ⟨avoids_ok a, fun b hb => by cases hb; exact h⟩

theorem error {s : Stop} (h : ¬ B s) : Meets B Q (.error s) :=
  ⟨(avoids_error s).mpr h, fun b hb => by cases hb⟩

theorem bind {x : Run α} {f : α → Run β} (hx : Meets B P x) (hf : ∀ a, P a → Meets B R (f a)) :
    Meets B R (x >>= f) where
  avoids := (avoids_bind _ _).mpr ⟨hx.avoids, fun a ha => (hf a (hx.post a ha)).avoids⟩
  post b hb := by
    obtain ⟨a, ha, hb⟩ := (bind_eq_ok _ _ _).mp hb
    exact (hf a (hx.post a ha)).post b hb

theorem attempt {r : Run α} (h : Meets B P r) :
    Meets B (fun x => ∀ a, x = some a → P a) (attempt r) :=
  ⟨h.avoids.attempt, fun _ hx a hxa => h.post a (attempt_eq_some.mp (hxa ▸ hx))⟩

/-- The rule of a fold whose steps keep `I`. -/
theorem foldlM {I : β → Prop} {f : β → α → Run β} {l : List α} {b : β} (h0 : I b)
    (h : ∀ b, ∀ a ∈ l, I b → Meets B I (f b a)) : Meets B I (l.foldlM f b) := by
  induction l generalizing b with
  | nil => exact ok h0
  | cons a l ih =>
    rw [List.foldlM_cons]
    exact (h b a (by simp) h0).bind fun b' hb => ih hb fun b a ha => h b a (by simp [ha])

/-- The rule of a loop that ends: each pass keeps `I` and makes the measure smaller, or leaves the
loop with `R`. -/
theorem loop {I : α → Prop} {m : α → Nat} {step : α → Run (α ⊕ β)} {n : Nat} {s : α}
    (hstep : ∀ s, I s → Meets B (Sum.elim (fun s' => I s' ∧ m s' < m s) R) (step s)) (h0 : I s)
    (hn : m s < n) : Meets B R (loop step n s) := by
  induction n generalizing s with
  | zero => omega
  | succ n ih =>
    refine (hstep s h0).bind fun x hx => ?_
    cases x with
    | inl s' => exact ih hx.1 (Nat.lt_of_lt_of_le hx.2 (Nat.le_of_lt_succ hn))
    | inr b => exact ok hx

end Meets

end Meets

end CRun
