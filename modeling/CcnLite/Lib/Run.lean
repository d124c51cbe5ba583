import Mathlib.Algebra.Ring.Int.Defs
import Mathlib.Algebra.Ring.Nat
import Mathlib.Logic.Relation

/-!
# Runs of C functions over a byte buffer

A C function that walks a buffer returns a value, gives up on its own (`goto Bail`), or does
something that C does not define or that its author did not mean: it reads outside the memory it
was given, takes an unsigned counter below zero, uses an out-parameter that was not set, follows a
NULL pointer, divides by zero. `Run α` is the outcome of such a function, stopped at the first of
these events.

* `Safe r`: the run commits no fault. It may return or give up.
* `rd`, `rdBytes`: checked reads. `Cursor.skip`: `*buf += k; *len -= k`, checked.
* `loop step n s`: a `while` loop whose body is `step`, with `n` units of fuel. A loop with a
  measure that each pass makes smaller never runs out (`loop_safe_iff`), and it is safe exactly
  when every pass that it reaches is safe.
* `reached_map`: the states that a loop reaches, seen through an abstraction of its state.
* `Grows x y`: `y` returns what `x` returns, as a run does when the memory goes on behind its end.
-/

namespace CRun

/-- Why a run ended without a value. -/
inductive Stop where
  /-- The function gave up on its own. -/
  | bail
  /-- A read at index `i`, outside the memory. -/
  | oob (i : Nat)
  /-- An unsigned counter would go below zero. -/
  | wrap
  /-- An out-parameter was used that the call had not set. -/
  | uninit
  /-- A NULL pointer was followed. -/
  | null
  /-- A pointer to a freed object was followed. -/
  | dangling
  /-- A division by zero. -/
  | div
  /-- A loop took a pass that changes nothing, so it never ends. -/
  | spin
  /-- The model's fuel ran out. -/
  | fuel
  deriving DecidableEq, Repr

abbrev Run := Except Stop

instance decidableEqRun {α : Type} [DecidableEq α] : DecidableEq (Run α)
  | .ok a, .ok b => decidable_of_iff (a = b) ⟨congrArg _, Except.ok.inj⟩
  | .error s, .error t => decidable_of_iff (s = t) ⟨congrArg _, Except.error.inj⟩
  | .ok _, .error _ => .isFalse nofun
  | .error _, .ok _ => .isFalse nofun

/-- The run commits no fault: it returns, or gives up on its own. -/
def Safe {α : Type} (r : Run α) : Prop := ∀ s, r = .error s → s = .bail

section Safe

variable {α β : Type}

@[simp] theorem safe_ok (a : α) : Safe (.ok a : Run α) := fun _ h => nomatch h

@[simp] theorem safe_pure (a : α) : Safe (pure a : Run α) := fun _ h => nomatch h

@[simp] theorem safe_error (s : Stop) : Safe (.error s : Run α) ↔ s = .bail := by
  simp [Safe]

@[simp] theorem safe_throw (s : Stop) : Safe (throw s : Run α) ↔ s = .bail := safe_error s

/-- A sequence of two runs is safe exactly when the first is, and the second is at every value
that the first returns. -/
@[simp] theorem safe_bind (x : Run α) (f : α → Run β) :
    Safe (x >>= f) ↔ Safe x ∧ ∀ a, x = .ok a → Safe (f a) := by
  cases x with
  | error s => simp [bind, Except.bind]
  | ok a => simp [bind, Except.bind]

@[simp] theorem safe_map (f : α → β) (x : Run α) : Safe (f <$> x) ↔ Safe x := by
  cases x <;> simp [Functor.map, Except.map]

@[simp] theorem safe_ite (c : Prop) [Decidable c] (x y : Run α) :
    Safe (if c then x else y) ↔ (c → Safe x) ∧ (¬ c → Safe y) := by
  split <;> simp_all

@[simp] theorem ok_bind (a : α) (f : α → Run β) : ((.ok a : Run α) >>= f) = f a := rfl

@[simp] theorem error_bind (s : Stop) (f : α → Run β) :
    ((.error s : Run α) >>= f) = .error s := rfl

/-- A sequence returns `b` exactly when the first part returns some `a` and the second returns
`b` at it. -/
@[simp] theorem bind_eq_ok (x : Run α) (f : α → Run β) (b : β) :
    (x >>= f) = .ok b ↔ ∃ a, x = .ok a ∧ f a = .ok b := by
  cases x <;> simp [bind, Except.bind]

@[simp] theorem map_eq_ok (f : α → β) (x : Run α) (b : β) :
    f <$> x = .ok b ↔ ∃ a, x = .ok a ∧ f a = b := by
  cases x <;> simp [Functor.map, Except.map]

@[simp] theorem pure_eq_ok (a b : α) : (pure a : Run α) = .ok b ↔ a = b := by
  simp [pure, Except.pure]

/-- A computation on the value of a run returns whenever the run does. -/
theorem returns_map (x : Run α) (f : α → β) :
    (∃ b a, x = .ok a ∧ f a = b) ↔ ∃ a, x = .ok a :=
  ⟨fun ⟨_, a, h, _⟩ => ⟨a, h⟩, fun ⟨a, h⟩ => ⟨f a, a, h, rfl⟩⟩

@[simp] theorem throw_ne_ok (s : Stop) (b : α) : (throw s : Run α) = .ok b ↔ False := by
  simp [throw, throwThe, MonadExceptOf.throw]

/-- A run that can be evaluated, to a value with the property `p`. -/
theorem exists_ok {x : Run α} {p : α → Prop} [DecidablePred p]
    (h : x.toOption.any (fun a => p a) = true) : ∃ a, x = .ok a ∧ p a := by
  cases x with
  | ok a => exact ⟨a, rfl, by simpa [Except.toOption] using h⟩
  | error s => simp [Except.toOption] at h

end Safe

/-- The run returns, or ends for a reason of `E`. -/
def Stops {α : Type} (E : Stop → Prop) (x : Run α) : Prop := ∀ s, x = .error s → E s

section Stops

variable {α β : Type} {E : Stop → Prop}

@[simp] theorem stops_ok (a : α) : Stops E (.ok a : Run α) := fun _ h => nomatch h

@[simp] theorem stops_pure (a : α) : Stops E (pure a : Run α) := fun _ h => nomatch h

@[simp] theorem stops_error {s : Stop} : Stops E (.error s : Run α) ↔ E s := by
  refine ⟨fun h => h s rfl, fun h t ht => ?_⟩
  cases ht
  exact h

theorem Stops.bind {x : Run α} {f : α → Run β} (hx : Stops E x)
    (hf : ∀ a, x = .ok a → Stops E (f a)) : Stops E (x >>= f) := by
  cases x with
  | error s => exact stops_error.mpr (hx s rfl)
  | ok a => exact hf a rfl

end Stops

/-- A caller that looks whether a function gave up: `none` when it did. -/
def attempt {α : Type} : Run α → Run (Option α)
  | .ok a => .ok (some a)
  | .error .bail => .ok none
  | .error s => .error s

@[simp] theorem attempt_ok {α : Type} (a : α) : attempt (.ok a : Run α) = .ok (some a) := rfl

@[simp] theorem attempt_bail {α : Type} : attempt (.error .bail : Run α) = .ok none := rfl

@[simp] theorem safe_attempt {α : Type} (x : Run α) : Safe (attempt x) ↔ Safe x := by
  cases x with
  | ok a => simp
  | error s => cases s <;> simp [attempt]

@[simp] theorem attempt_eq_some {α : Type} {x : Run α} {a : α} :
    attempt x = .ok (some a) ↔ x = .ok a := by
  cases x with
  | ok b => simp
  | error s => cases s <;> simp [attempt]

@[simp] theorem attempt_eq_none {α : Type} {x : Run α} :
    attempt x = .ok none ↔ x = .error .bail := by
  cases x with
  | ok b => simp
  | error s => cases s <;> simp [attempt]

/-- What the step of a fold for each element of the list keeps, the fold keeps. -/
theorem foldlM_inv_mem {α β : Type} {I : β → Prop} {f : β → α → Run β} {l : List α}
    (hI : ∀ b, ∀ a ∈ l, ∀ b', I b → f b a = .ok b' → I b') {b b' : β} (h0 : I b)
    (h : l.foldlM f b = .ok b') : I b' := by
  induction l generalizing b with
  | nil => cases h; exact h0
  | cons a l ih =>
    rw [List.foldlM_cons] at h
    obtain ⟨b₁, h₁, h₂⟩ := (bind_eq_ok _ _ _).mp h
    exact ih (fun b a ha => hI b a (List.mem_cons_of_mem _ ha))
      (hI _ _ List.mem_cons_self _ h0 h₁) h₂

/-- What every step of a fold keeps, the fold keeps. -/
theorem foldlM_inv {α β : Type} {I : β → Prop} {f : β → α → Run β}
    (hI : ∀ b a b', I b → f b a = .ok b' → I b') {l : List α} {b b' : β} (h0 : I b)
    (h : l.foldlM f b = .ok b') : I b' := foldlM_inv_mem (fun b a _ => hI b a) h0 h

/-- An element of a list with one element changed. -/
theorem mem_modify {α : Type} {l : List α} {k : Nat} {g : α → α} {b : α} (h : b ∈ l.modify k g) :
    ∃ a ∈ l, b = a ∨ b = g a := by
  obtain ⟨n, hn, rfl⟩ := List.mem_iff_getElem.mp h
  rw [List.length_modify] at hn
  refine ⟨l[n], List.getElem_mem hn, ?_⟩
  rw [List.getElem_modify]
  split
  · exact .inr rfl
  · exact .inl rfl

/-! ## Reads and cursors -/

/-- The byte at index `i`. -/
def rd (mem : List UInt8) (i : Nat) : Run UInt8 :=
  match mem[i]? with
  | some b => .ok b
  | none => .error (.oob i)

@[simp] theorem rd_eq_ok {mem : List UInt8} {i : Nat} {b : UInt8} :
    rd mem i = .ok b ↔ mem[i]? = some b := by
  unfold rd; split <;> simp_all

@[simp] theorem safe_rd {mem : List UInt8} {i : Nat} : Safe (rd mem i) ↔ i < mem.length := by
  unfold rd
  split
  · rename_i b h
    simpa using (List.getElem?_eq_some_iff.mp h).1
  · rename_i h
    simpa using h

/-- The `n` bytes from index `i` on. Reading no byte is no access. -/
def rdBytes (mem : List UInt8) (i n : Nat) : Run (List UInt8) :=
  if n = 0 ∨ i + n ≤ mem.length then .ok ((mem.drop i).take n) else .error (.oob mem.length)

/-- The `n` bytes from index `i` on are inside the memory. -/
def InBuf (mem : List UInt8) (i n : Nat) : Prop := n = 0 ∨ i + n ≤ mem.length

@[simp] theorem rdBytes_eq_ok {mem bs : List UInt8} {i n : Nat} :
    rdBytes mem i n = .ok bs ↔ InBuf mem i n ∧ (mem.drop i).take n = bs := by
  unfold rdBytes InBuf
  split
  · rename_i h; simp [h]
  · rename_i h; simp [h]

@[simp] theorem safe_rdBytes {mem : List UInt8} {i n : Nat} :
    Safe (rdBytes mem i n) ↔ InBuf mem i n := by
  unfold rdBytes InBuf; split <;> simp_all

/-- The run `y` returns what `x` returns. -/
def Grows {α : Type} (x y : Run α) : Prop := ∀ a, x = .ok a → y = .ok a

section Grows

variable {α β : Type}

theorem Grows.refl (x : Run α) : Grows x x := fun _ h => h

theorem Grows.bind {x y : Run α} {f g : α → Run β} (hx : Grows x y) (hf : ∀ a, Grows (f a) (g a)) :
    Grows (x >>= f) (y >>= g) := by
  intro b hb
  obtain ⟨a, ha, hb⟩ := (bind_eq_ok _ _ _).mp hb
  exact (bind_eq_ok _ _ _).mpr ⟨a, hx a ha, hf a b hb⟩

/-- A read stays what it is when the memory goes on behind it. -/
theorem rd_grows (mem rest : List UInt8) (i : Nat) : Grows (rd mem i) (rd (mem ++ rest) i) := by
  intro b hb
  rw [rd_eq_ok] at hb ⊢
  have hi := (List.getElem?_eq_some_iff.mp hb).1
  rw [List.getElem?_append_left hi, hb]

theorem rdBytes_grows (mem rest : List UInt8) (i n : Nat) :
    Grows (rdBytes mem i n) (rdBytes (mem ++ rest) i n) := by
  intro bs hbs
  rw [rdBytes_eq_ok] at hbs ⊢
  obtain ⟨hin, rfl⟩ := hbs
  rcases hin with rfl | hin
  · exact ⟨.inl rfl, by simp⟩
  · refine ⟨.inr (by rw [List.length_append]; omega), ?_⟩
    rw [List.drop_append_of_le_length (by omega),
      List.take_append_of_le_length (by rw [List.length_drop]; omega)]

end Grows

/-- A position in a buffer and the number of bytes left there: `*buf` and `*len`. -/
@[ext] structure Cursor where
  pos : Nat
  len : Nat
  deriving DecidableEq, Repr

namespace Cursor

/-- `*buf += k; *len -= k`. -/
def skip (c : Cursor) (k : Nat) : Run Cursor :=
  if k ≤ c.len then .ok ⟨c.pos + k, c.len - k⟩ else .error .wrap

@[simp] theorem skip_eq_ok {c c' : Cursor} {k : Nat} :
    c.skip k = .ok c' ↔ k ≤ c.len ∧ c' = ⟨c.pos + k, c.len - k⟩ := by
  unfold skip
  split
  · rename_i h; simp [h, eq_comm]
  · rename_i h; simp [h]

@[simp] theorem safe_skip {c : Cursor} {k : Nat} : Safe (c.skip k) ↔ k ≤ c.len := by
  unfold skip; split <;> simp_all

/-- The cursor has gone on from `c`, to the same end. -/
structure After (c' c : Cursor) : Prop where
  pos : c.pos ≤ c'.pos
  lim : c'.pos + c'.len = c.pos + c.len

theorem After.refl (c : Cursor) : c.After c := ⟨Nat.le_refl _, rfl⟩

theorem After.trans {c c' c'' : Cursor} (h : c'.After c) (h' : c''.After c') : c''.After c :=
  ⟨Nat.le_trans h.pos h'.pos, h'.lim.trans h.lim⟩

theorem After.le {c c' : Cursor} (h : c'.After c) : c'.len ≤ c.len := by
  obtain ⟨hpos, hlim⟩ := h
  omega

theorem After.of_le {c : Cursor} {k : Nat} (h : k ≤ c.len) :
    After ⟨c.pos + k, c.len - k⟩ c :=
  ⟨Nat.le_add_right _ _, by simp only; omega⟩

end Cursor

/-- A pointer and a length: `len` bytes from index `off` on. -/
structure Span where
  off : Nat
  len : Nat
  deriving DecidableEq, Repr

namespace Span

/-- The bytes of a span of `mem`. -/
def bytes (s : Span) (mem : List UInt8) : List UInt8 := (mem.drop s.off).take s.len

/-- The span lies between the indices `lo` and `hi`. -/
def Within (s : Span) (lo hi : Nat) : Prop := lo ≤ s.off ∧ s.off + s.len ≤ hi

/-- The span counted from index `base` on. -/
def rebase (s : Span) (base : Nat) : Span := ⟨s.off - base, s.len⟩

theorem Within.mono {s : Span} {lo hi lo' hi' : Nat} (h : s.Within lo hi) (hl : lo' ≤ lo)
    (hh : hi ≤ hi') : s.Within lo' hi' :=
  ⟨Nat.le_trans hl h.1, Nat.le_trans h.2 hh⟩

end Span

/-! ## Loops -/

section Loop

variable {σ τ β : Type} (step : σ → Run (σ ⊕ β))

/-- A `while` loop: `step` is one pass, which ends in a new state or leaves the loop. -/
def loop : Nat → σ → Run β
  | 0, _ => .error .fuel
  | n + 1, s => do
    match ← step s with
    | .inl s' => loop n s'
    | .inr b => pure b

/-- One pass of the loop goes from `s` to `s'` and on. -/
def Again (s s' : σ) : Prop := step s = .ok (.inl s')

/-- The states in which a pass starts, from `s` on. -/
abbrev Reached : σ → σ → Prop := Relation.ReflTransGen (Again step)

variable {step}

theorem loop_succ_eq_ok {n : Nat} {s : σ} {b : β} :
    loop step (n + 1) s = .ok b ↔
      (∃ s', Again step s s' ∧ loop step n s' = .ok b) ∨ step s = .ok (.inr b) := by
  rw [loop, bind_eq_ok]
  constructor
  · rintro ⟨x, hx, h⟩
    cases x with
    | inl s' => exact .inl ⟨s', hx, h⟩
    | inr b' => simp at h; subst h; exact .inr hx
  · rintro (⟨s', hs, h⟩ | h)
    · exact ⟨_, hs, h⟩
    · exact ⟨_, h, rfl⟩

/-- A loop that ends has left from a state that it reached. -/
theorem loop_eq_ok {n : Nat} {s : σ} {b : β} (h : loop step n s = .ok b) :
    ∃ s', Reached step s s' ∧ step s' = .ok (.inr b) := by
  induction n generalizing s with
  | zero => cases h
  | succ n ih =>
    rcases loop_succ_eq_ok.mp h with ⟨s', hs, h'⟩ | h'
    · obtain ⟨t, ht, he⟩ := ih h'
      exact ⟨t, .head hs ht, he⟩
    · exact ⟨s, .refl, h'⟩

/-- A loop that reaches a pass that leaves it ends there, with enough fuel. -/
theorem exists_loop_eq_ok {s s' : σ} {b : β} (hr : Reached step s s')
    (hb : step s' = .ok (.inr b)) : ∃ n, loop step n s = .ok b := by
  induction hr using Relation.ReflTransGen.head_induction_on with
  | refl => exact ⟨1, loop_succ_eq_ok.mpr (.inr hb)⟩
  | head hs _ ih =>
    obtain ⟨n, hn⟩ := ih
    exact ⟨n + 1, loop_succ_eq_ok.mpr (.inl ⟨_, hs, hn⟩)⟩

/-- A loop whose passes make a measure smaller ends as soon as a reached pass leaves it. -/
theorem loop_of_reached {I : σ → Prop} {m : σ → Nat}
    (hI : ∀ s s', I s → Again step s s' → I s')
    (hm : ∀ s s', I s → Again step s s' → m s' < m s) {n : Nat} {s s' : σ} {b : β} (h0 : I s)
    (hr : Reached step s s') (hb : step s' = .ok (.inr b)) (hn : m s < n) :
    loop step n s = .ok b := by
  induction hr using Relation.ReflTransGen.head_induction_on generalizing n with
  | refl =>
    obtain ⟨n, rfl⟩ : ∃ k, n = k + 1 := ⟨n - 1, by omega⟩
    exact loop_succ_eq_ok.mpr (.inr hb)
  | head hs _ ih =>
    obtain ⟨n, rfl⟩ : ∃ k, n = k + 1 := ⟨n - 1, by omega⟩
    have := hm _ _ h0 hs
    exact loop_succ_eq_ok.mpr (.inl ⟨_, hs, ih (hI _ _ h0 hs) (by omega)⟩)

/-- More fuel than the loop needs makes no difference. -/
theorem loop_fuel {I : σ → Prop} {m : σ → Nat} (hI : ∀ s s', I s → Again step s s' → I s')
    (hm : ∀ s s', I s → Again step s s' → m s' < m s) {n k : Nat} {s : σ} (h0 : I s)
    (hn : m s < n) (hk : m s < k) : loop step n s = loop step k s := by
  induction n generalizing k s with
  | zero => omega
  | succ n ih =>
    obtain ⟨k, rfl⟩ : ∃ j, k = j + 1 := ⟨k - 1, by omega⟩
    rw [loop, loop]
    cases hs : step s with
    | error e => rfl
    | ok x =>
      cases x with
      | inr b => rfl
      | inl s' =>
        have := hm s s' h0 hs
        exact ih (hI s s' h0 hs) (by omega) (by omega)

/-- A pass that goes on can be taken off the front of a loop. -/
theorem loop_again {I : σ → Prop} {m : σ → Nat} (hI : ∀ s s', I s → Again step s s' → I s')
    (hm : ∀ s s', I s → Again step s s' → m s' < m s) {n k : Nat} {s s' : σ} (h0 : I s)
    (hs : Again step s s') (hn : m s < n) (hk : m s' < k) : loop step n s = loop step k s' := by
  obtain ⟨n, rfl⟩ : ∃ j, n = j + 1 := ⟨n - 1, by omega⟩
  have := hm s s' h0 hs
  rw [loop, show step s = .ok (.inl s') from hs]
  exact loop_fuel hI hm (hI s s' h0 hs) (by omega) hk

/-- A loop with a decreasing measure and enough fuel is safe exactly when every pass that it
reaches is safe. In particular it ends. -/
theorem loop_safe_iff {I : σ → Prop} {m : σ → Nat} (hI : ∀ s s', I s → Again step s s' → I s')
    (hm : ∀ s s', I s → Again step s s' → m s' < m s) {n : Nat} {s : σ} (h0 : I s)
    (hn : m s < n) : Safe (loop step n s) ↔ ∀ s', Reached step s s' → Safe (step s') := by
  induction n generalizing s with
  | zero => omega
  | succ n ih =>
    have hone : Safe (loop step (n + 1) s) ↔
        Safe (step s) ∧ ∀ s', Again step s s' → Safe (loop step n s') := by
      rw [loop, safe_bind]
      refine and_congr_right fun _ => ⟨fun h s' hs => h _ hs, fun h x hx => ?_⟩
      cases x with
      | inl s' => exact h s' hx
      | inr b => exact safe_pure b
    have hnext : ∀ s', Again step s s' →
        (Safe (loop step n s') ↔ ∀ t, Reached step s' t → Safe (step t)) := fun s' hs =>
      ih (hI _ _ h0 hs) (by have := hm _ _ h0 hs; omega)
    rw [hone]
    constructor
    · rintro ⟨hs0, h⟩ s' hr
      cases hr using Relation.ReflTransGen.head_induction_on with
      | refl => exact hs0
      | head hs hr => exact (hnext _ hs).mp (h _ hs) _ hr
    · exact fun h => ⟨h s .refl, fun s' hs => (hnext _ hs).mpr fun t ht => h t (.head hs ht)⟩

/-- A property that holds at the start and that every pass keeps holds of every reached state. -/
theorem Reached.invariant {I : σ → Prop} {s s' : σ} (hr : Reached step s s') (h0 : I s)
    (hI : ∀ s s', I s → Again step s s' → I s') : I s' := by
  induction hr with
  | refl => exact h0
  | tail _ hs ih => exact hI _ _ ih hs

/-- A loop takes one way. -/
theorem Reached.total {s t u : σ} (ht : Reached step s t) (hu : Reached step s u) :
    Reached step t u ∨ Reached step u t := by
  have hunique : Relator.RightUnique (Again step) := fun a b c hb hc => by
    unfold Again at hb hc
    rw [hb] at hc
    exact Sum.inl.inj (Except.ok.inj hc)
  exact Relation.ReflTransGen.total_of_right_unique hunique ht hu

/-- A state that leaves the loop comes after every state that it reaches. -/
theorem Reached.before_leaving {s t u : σ} {b : β} (ht : Reached step s t) (hu : Reached step s u)
    (hb : step u = .ok (.inr b)) : Reached step t u := by
  rcases ht.total hu with h | h
  · exact h
  · rcases Relation.ReflTransGen.cases_head h with rfl | ⟨v, hv, -⟩
    · exact .refl
    · unfold Again at hv
      rw [hb] at hv
      cases hv

/-- A loop ends in one way. -/
theorem loop_unique {n m : Nat} {s : σ} {b b' : β} (h : loop step n s = .ok b)
    (h' : loop step m s = .ok b') : b = b' := by
  obtain ⟨t, ht, hb⟩ := loop_eq_ok h
  obtain ⟨u, hu, hb'⟩ := loop_eq_ok h'
  rcases Relation.ReflTransGen.cases_head (ht.before_leaving hu hb') with rfl | ⟨v, hv, -⟩
  · rw [hb] at hb'
    exact Sum.inr.inj (Except.ok.inj hb')
  · unfold Again at hv
    rw [hb] at hv
    cases hv

/-- The invariant rule: `I` holds at the start, every pass keeps it, and leaving gives `Q`. -/
theorem loop_inv {I : σ → Prop} {Q : β → Prop} {n : Nat} {s : σ} {b : β}
    (h : loop step n s = .ok b) (h0 : I s) (hI : ∀ s s', I s → Again step s s' → I s')
    (hQ : ∀ s b, I s → step s = .ok (.inr b) → Q b) : Q b := by
  obtain ⟨s', hr, hb⟩ := loop_eq_ok h
  exact hQ _ _ (hr.invariant h0 hI) hb

/-- A loop whose passes return what those of another one return. -/
theorem Grows.loop {step' : σ → Run (σ ⊕ β)} (h : ∀ s, Grows (step s) (step' s)) (n : Nat) (s : σ) :
    Grows (loop step n s) (loop step' n s) := by
  induction n generalizing s with
  | zero => exact Grows.refl _
  | succ n ih =>
    refine (h s).bind fun x => ?_
    cases x with
    | inl s' => exact ih s'
    | inr b => exact Grows.refl _

/-! ## A loop seen through an abstraction

`abs` forgets what does not matter for the course of the loop, and `R` is what a pass does to the
rest, in states with the invariant `I`. -/

section Abstract

variable (abs : σ → τ) {I : σ → Prop} {R : τ → τ → Prop}
  (hI : ∀ s s', I s → Again step s s' → I s')
  (hf : ∀ s s', I s → Again step s s' → R (abs s) (abs s'))
  (hb : ∀ s t, I s → R (abs s) t → ∃ s', Again step s s' ∧ abs s' = t)

include hI hf hb

/-- An abstract state is reached exactly when `R` leads to it. -/
theorem reached_map {s : σ} {t : τ} (h0 : I s) :
    (∃ s', Reached step s s' ∧ abs s' = t) ↔ Relation.ReflTransGen R (abs s) t := by
  constructor
  · rintro ⟨s', hr, rfl⟩
    induction hr with
    | refl => exact .refl
    | tail hr hs ih => exact .tail ih (hf _ _ (Reached.invariant hr h0 hI) hs)
  · intro hr
    induction hr with
    | refl => exact ⟨s, .refl, rfl⟩
    | tail _ hR ih =>
      obtain ⟨u, hu, rfl⟩ := ih
      obtain ⟨v, hv, rfl⟩ := hb _ _ (hu.invariant h0 hI) hR
      exact ⟨v, hu.tail hv, rfl⟩

/-- The loop is safe exactly when `R` only leads to states where a pass is. -/
theorem loop_safe_iff_map {C : τ → Prop} (hC : ∀ s, I s → (Safe (step s) ↔ C (abs s)))
    {m : σ → Nat} (hm : ∀ s s', I s → Again step s s' → m s' < m s) {n : Nat} {s : σ}
    (hn : m s < n) (h0 : I s) :
    Safe (loop step n s) ↔ ∀ t, Relation.ReflTransGen R (abs s) t → C t := by
  rw [loop_safe_iff hI hm h0 hn]
  constructor
  · intro h t ht
    obtain ⟨s', hr, rfl⟩ := (reached_map abs hI hf hb h0).mpr ht
    exact (hC _ (hr.invariant h0 hI)).mp (h s' hr)
  · intro h s' hr
    exact (hC _ (hr.invariant h0 hI)).mpr
      (h _ ((reached_map abs hI hf hb h0).mp ⟨s', hr, rfl⟩))

/-- The loop returns `b` exactly when `R` leads to a state where a pass leaves it with `b`. -/
theorem loop_eq_ok_iff_map {L : τ → β → Prop}
    (hL : ∀ s b, I s → (step s = .ok (.inr b) ↔ L (abs s) b))
    {m : σ → Nat} (hm : ∀ s s', I s → Again step s s' → m s' < m s) {n : Nat} {s : σ} {b : β}
    (hn : m s < n) (h0 : I s) :
    loop step n s = .ok b ↔ ∃ t, Relation.ReflTransGen R (abs s) t ∧ L t b := by
  constructor
  · intro h
    obtain ⟨s', hr, hb'⟩ := loop_eq_ok h
    exact ⟨abs s', (reached_map abs hI hf hb h0).mp ⟨s', hr, rfl⟩,
      (hL _ _ (hr.invariant h0 hI)).mp hb'⟩
  · rintro ⟨t, ht, hl⟩
    obtain ⟨s', hr, rfl⟩ := (reached_map abs hI hf hb h0).mpr ht
    exact loop_of_reached hI hm h0 hr ((hL _ _ (hr.invariant h0 hI)).mpr hl) hn

/-- The loop returns exactly when `R` leads to a state where a pass leaves it. -/
theorem loop_returns_iff_map {L : τ → Prop}
    (hL : ∀ s, I s → ((∃ b, step s = .ok (.inr b)) ↔ L (abs s)))
    {m : σ → Nat} (hm : ∀ s s', I s → Again step s s' → m s' < m s) {n : Nat} {s : σ}
    (hn : m s < n) (h0 : I s) :
    (∃ b, loop step n s = .ok b) ↔ ∃ t, Relation.ReflTransGen R (abs s) t ∧ L t := by
  constructor
  · rintro ⟨b, h⟩
    obtain ⟨s', hr, hb'⟩ := loop_eq_ok h
    exact ⟨abs s', (reached_map abs hI hf hb h0).mp ⟨s', hr, rfl⟩,
      (hL _ (hr.invariant h0 hI)).mp ⟨b, hb'⟩⟩
  · rintro ⟨t, ht, hl⟩
    obtain ⟨s', hr, rfl⟩ := (reached_map abs hI hf hb h0).mpr ht
    obtain ⟨b, hb'⟩ := (hL _ (hr.invariant h0 hI)).mpr hl
    exact ⟨b, loop_of_reached hI hm h0 hr hb' hn⟩

end Abstract

end Loop

end CRun
