import CcnLite.Lib.Run

/-!
# Walks over type-length-value elements

A TLV parser takes off the header of an element, looks at the value, and steps over it; the value
may hold elements of its own. This library is about the two loops that such a parser is made of,
for any header format:

* `nested`: `while (len > 0)`, the loop over the elements inside a value. A header that cannot be
  taken off makes the parser give up.
* `top`: the loop over the elements of a packet, which ends at the first header that cannot be
  taken off.

`Header` describes a header format on the wire and `ElemSpec` a kind of element. Both are about
indices into the bytes, not about the parser. `safe_nested`, `nested_returns` and `safe_top` say
what a walk on the wire has to look like for the loop to be safe, or to return.
-/

namespace CRun

namespace Tlv

/-! ## Headers and kinds of elements on the wire -/

/-- A header format, on the bytes below an index `lim`. -/
structure Header where
  /-- Looking for a header at `p` is safe. -/
  Readable (lim p : Nat) : Prop
  /-- At `p` there is a header with the type `typ` and the length `len`; the value is at `q`. -/
  Head (lim p typ len q : Nat) : Prop

/-- A kind of elements, as far as a walk over them depends on it. `b` is what the walk remembers
of the elements before. -/
structure ElemSpec (β : Type) where
  /-- Looking at the value at `q` is safe. -/
  Readable (lim typ i q : Nat) (b : β) : Prop
  /-- The element is taken; the `i'` bytes at `q'` are to be stepped over. -/
  Value (lim typ i q : Nat) (b : β) (q' i' : Nat) (b' : β) : Prop
  /-- The walk ends in this element. -/
  Stop (typ i q : Nat) : Prop

section Wire

variable {β : Type} (H : Header) (S : ElemSpec β) (lim : Nat)

/-- One element, from a place to the next. -/
def Pass (s t : Nat × β) : Prop :=
  ∃ typ i q, H.Head lim s.1 typ i q ∧
    ∃ q' i', S.Value lim typ i q s.2 q' i' t.2 ∧ q' + i' ≤ lim ∧ t.1 = q' + i'

/-- The places that a walk comes to. -/
abbrev Visits : Nat × β → Nat × β → Prop := Relation.ReflTransGen (Pass H S lim)

/-- The element at a place is confined: its header and its value can be read, and what is to be
stepped over ends below the limit. -/
def ConfAt (s : Nat × β) : Prop :=
  H.Readable lim s.1 ∧
    ∀ typ i q, H.Head lim s.1 typ i q → S.Readable lim typ i q s.2 ∧
      ∀ q' i' b', S.Value lim typ i q s.2 q' i' b' → q' + i' ≤ lim

/-- A walk over nested elements is confined: every element that it comes to is. -/
def Confined (s : Nat × β) : Prop :=
  ∀ t, Visits H S lim s t → t.1 < lim → ConfAt H S lim t

/-- A walk over nested elements ends at a place: at the limit, or in an element that ends it. -/
def EndAt (s : Nat × β) : Prop :=
  s.1 = lim ∨ ∃ typ i q, H.Head lim s.1 typ i q ∧ S.Stop typ i q

/-- A walk over nested elements gets to its end. -/
def Ends (s : Nat × β) : Prop := ∃ t, Visits H S lim s t ∧ EndAt H S lim t

/-- A walk over the elements of a packet is confined. It looks for a header at every place that it
comes to, the end included. -/
def TopConfined (s : Nat × β) : Prop := ∀ t, Visits H S lim s t → ConfAt H S lim t

end Wire

/-! ## Decoders -/

/-- `dehead` takes off headers of the format `H`. -/
structure Decodes (H : Header) (dehead : Cursor → Run (Option (Nat × Nat) × Cursor)) : Prop where
  safe : ∀ c, Safe (dehead c) ↔ H.Readable (c.pos + c.len) c.pos
  ok : ∀ c typ len c', dehead c = .ok (some (typ, len), c') ↔
    H.Head (c.pos + c.len) c.pos typ len c'.pos ∧ c'.pos + c'.len = c.pos + c.len
  cursor : ∀ c x c', dehead c = .ok (x, c') →
    c.pos ≤ c'.pos ∧ c'.pos + c'.len = c.pos + c.len
  lt : ∀ lim p typ len q, H.Head lim p typ len q → p < q ∧ q ≤ lim

/-- How the body of a loop goes on: at a value, `i` bytes long, that is to be stepped over,
or out of the loop. -/
inductive Elem (α : Type) where
  | next (cp : Cursor) (i : Nat) (a : α)
  | stop (a : α)

/-- `elem` is a body for the kind `S`; `abs` is what a walk remembers. A body is given the place of
the header, the type and the length, and the cursor at the value. -/
structure Models {α β : Type} (S : ElemSpec β)
    (elem : Nat → Nat → Nat → Cursor → α → Run (Elem α)) (abs : α → β) : Prop where
  readable : ∀ hd typ i cp a, Safe (elem hd typ i cp a) ↔
    S.Readable (cp.pos + cp.len) typ i cp.pos (abs a)
  value : ∀ hd typ i cp a q' i' b', S.Value (cp.pos + cp.len) typ i cp.pos (abs a) q' i' b' ↔
    ∃ cp' a', elem hd typ i cp a = .ok (.next cp' i' a') ∧ cp'.pos = q' ∧ abs a' = b'
  cursor : ∀ hd typ i cp a cp' i' a', elem hd typ i cp a = .ok (.next cp' i' a') →
    cp.pos ≤ cp'.pos ∧ cp'.pos + cp'.len = cp.pos + cp.len
  stop : ∀ hd typ i cp a, S.Stop typ i cp.pos ↔ ∃ a', elem hd typ i cp a = .ok (.stop a')

theorem Decodes.of_head {H : Header} {dehead : Cursor → Run (Option (Nat × Nat) × Cursor)}
    (hd : Decodes H dehead) {c : Cursor} {typ len q : Nat}
    (h : H.Head (c.pos + c.len) c.pos typ len q) :
    dehead c = .ok (some (typ, len), ⟨q, c.pos + c.len - q⟩) := by
  have := hd.lt _ _ _ _ _ h
  exact (hd.ok _ _ _ _).mpr ⟨h, by simp only; omega⟩

/-! ## The nested loop -/

section Nested

variable {α β : Type} (dehead : Cursor → Run (Option (Nat × Nat) × Cursor))
  (elem : Nat → Nat → Nat → Cursor → α → Run (Elem α))

/-- `cp += i; len -= i`, unless the body left the loop. -/
def stepOver : Elem α → Run ((Cursor × α) ⊕ α)
  | .next cp i a => do
    let cp ← cp.skip i
    return .inl (cp, a)
  | .stop a => .ok (.inr a)

@[simp] theorem safe_stepOver (e : Elem α) :
    Safe (stepOver e) ↔ match e with
      | .next cp i _ => i ≤ cp.len
      | .stop _ => True := by
  cases e <;> simp [stepOver]

@[simp] theorem stepOver_next_eq_ok {cp : Cursor} {i : Nat} {a : α} {x : (Cursor × α) ⊕ α} :
    stepOver (.next cp i a) = .ok x ↔
      i ≤ cp.len ∧ x = .inl (⟨cp.pos + i, cp.len - i⟩, a) := by
  simp only [stepOver, bind_eq_ok, Cursor.skip_eq_ok, pure_eq_ok]
  constructor
  · rintro ⟨_, ⟨h, rfl⟩, rfl⟩
    exact ⟨h, rfl⟩
  · rintro ⟨h, rfl⟩
    exact ⟨_, ⟨h, rfl⟩, rfl⟩

@[simp] theorem stepOver_stop_eq_ok {a : α} {x : (Cursor × α) ⊕ α} :
    stepOver (.stop a) = .ok x ↔ x = .inr a := by
  simp [stepOver, eq_comm]

/-- A pass of the nested loop. -/
def nestedStep (s : Cursor × α) : Run ((Cursor × α) ⊕ α) := do
  if s.1.len = 0 then return .inr s.2
  match ← dehead s.1 with
  | (none, _) => throw .bail
  | (some (typ, i), cp) => stepOver (← elem s.1.pos typ i cp s.2)

/-- The nested loop: `while (len > 0)`, take off a header, run the body, and step over the value. -/
def nested (cp : Cursor) (a : α) : Run α := loop (nestedStep dehead elem) (cp.len + 1) (cp, a)

variable {dehead elem}

/-- A pass of the nested loop that goes on. -/
theorem nestedStep_again {cp cp' : Cursor} {a a' : α} :
    Again (nestedStep dehead elem) (cp, a) (cp', a') ↔
      0 < cp.len ∧ ∃ typ i cp₁ cp₂ i', dehead cp = .ok (some (typ, i), cp₁) ∧
        elem cp.pos typ i cp₁ a = .ok (.next cp₂ i' a') ∧ i' ≤ cp₂.len ∧
        cp' = ⟨cp₂.pos + i', cp₂.len - i'⟩ := by
  unfold Again nestedStep
  constructor
  · intro hs
    split at hs
    · simp at hs
    · rename_i hne
      obtain ⟨x, hx, hs⟩ := (bind_eq_ok _ _ _).mp hs
      match x with
      | (none, _) => simp at hs
      | (some (typ, i), cp₁) =>
        obtain ⟨e, he, hs⟩ := (bind_eq_ok _ _ _).mp hs
        cases e with
        | stop a => simp at hs
        | next cp₂ i' a₂ =>
          simp only [stepOver_next_eq_ok, Sum.inl.injEq, Prod.mk.injEq] at hs
          obtain ⟨hi, rfl, rfl⟩ := hs
          exact ⟨Nat.pos_of_ne_zero hne, typ, i, cp₁, cp₂, i', hx, he, hi, rfl⟩
  · rintro ⟨hlt, typ, i, cp₁, cp₂, i', hx, he, hi, rfl⟩
    rw [if_neg (by simp only; omega), hx]
    simp [he, hi]

variable {H : Header} {S : ElemSpec β} {abs : α → β}

theorem nestedStep_cursor (hd : Decodes H dehead) (h : Models S elem abs) {cp cp' : Cursor}
    {a a' : α} (hs : Again (nestedStep dehead elem) (cp, a) (cp', a')) :
    cp.pos < cp'.pos ∧ cp'.pos + cp'.len = cp.pos + cp.len := by
  obtain ⟨-, typ, i, cp₁, cp₂, i', hx, he, hi, rfl⟩ := nestedStep_again.mp hs
  obtain ⟨hh, hlim⟩ := (hd.ok _ _ _ _).mp hx
  have := hd.lt _ _ _ _ _ hh
  have := h.cursor _ _ _ _ _ _ _ _ he
  simp only
  omega

/-- A pass makes the count smaller. -/
theorem nestedStep_lt (hd : Decodes H dehead) (h : Models S elem abs) (s s' : Cursor × α)
    (hs : Again (nestedStep dehead elem) s s') : s'.1.len < s.1.len := by
  obtain ⟨cp, a⟩ := s
  obtain ⟨cp', a'⟩ := s'
  have := nestedStep_cursor hd h hs
  simp only
  omega

/-- A pass of the nested loop is a pass on the wire. -/
theorem pass_of_nestedStep (hd : Decodes H dehead) (h : Models S elem abs) {cp cp' : Cursor}
    {a a' : α} (hs : Again (nestedStep dehead elem) (cp, a) (cp', a')) :
    Pass H S (cp.pos + cp.len) (cp.pos, abs a) (cp'.pos, abs a') := by
  obtain ⟨-, typ, i, cp₁, cp₂, i', hx, he, hi, rfl⟩ := nestedStep_again.mp hs
  obtain ⟨hh, hlim⟩ := (hd.ok _ _ _ _).mp hx
  have hc := h.cursor _ _ _ _ _ _ _ _ he
  refine ⟨typ, i, cp₁.pos, hh, cp₂.pos, i', ?_, by omega, rfl⟩
  rw [← hlim]
  exact (h.value _ _ _ _ _ _ _ _).mpr ⟨cp₂, a', he, rfl, rfl⟩

/-- A pass on the wire is a pass of the nested loop. -/
theorem nestedStep_of_pass (hd : Decodes H dehead) (h : Models S elem abs) {cp : Cursor} {a : α}
    {t : Nat × β} (hp : Pass H S (cp.pos + cp.len) (cp.pos, abs a) t) :
    ∃ cp' a', Again (nestedStep dehead elem) (cp, a) (cp', a') ∧ (cp'.pos, abs a') = t := by
  obtain ⟨typ, i, q, hh, q', i', hv, hle, ht⟩ := hp
  have hq := hd.lt _ _ _ _ _ hh
  have hlim : q + (cp.pos + cp.len - q) = cp.pos + cp.len := by omega
  rw [← hlim] at hv
  obtain ⟨cp₂, a', he, rfl, hb⟩ := (h.value cp.pos typ i ⟨q, cp.pos + cp.len - q⟩ a _ _ _).mp hv
  have hc := h.cursor _ _ _ _ _ _ _ _ he
  simp only at hc hq
  exact ⟨_, a', nestedStep_again.mpr
    ⟨by omega, typ, i, _, cp₂, i', hd.of_head hh, he, by omega, rfl⟩, Prod.ext ht.symm hb⟩

/-- The body and the step over the value are confined exactly when the value is. -/
theorem safe_elem (h : Models S elem abs) {lim hd typ i : Nat} {cp : Cursor} {a : α}
    (hlim : cp.pos + cp.len = lim) :
    Safe (elem hd typ i cp a >>= stepOver) ↔
      S.Readable lim typ i cp.pos (abs a) ∧
        ∀ q' i' b', S.Value lim typ i cp.pos (abs a) q' i' b' → q' + i' ≤ lim := by
  rw [← hlim, safe_bind, h.readable]
  refine and_congr_right fun _ => ⟨fun hx q' i' b' hv => ?_, fun hx e he => ?_⟩
  · obtain ⟨cp₂, a', he, rfl, -⟩ := (h.value hd _ _ _ _ _ _ _).mp hv
    have hc := h.cursor _ _ _ _ _ _ _ _ he
    have := (safe_stepOver _).mp (hx _ he)
    simp only at this
    omega
  · cases e with
    | stop a => simp
    | next cp₂ i' a' =>
      have hc := h.cursor _ _ _ _ _ _ _ _ he
      have := hx _ _ _ ((h.value _ _ _ _ _ _ _ _).mpr ⟨cp₂, a', he, rfl, rfl⟩)
      simp only [safe_stepOver]
      omega

/-- A pass is confined exactly when the element is. -/
theorem safe_nestedStep (hd : Decodes H dehead) (h : Models S elem abs) {cp : Cursor} {a : α} :
    Safe (nestedStep dehead elem (cp, a)) ↔
      (cp.pos < cp.pos + cp.len → ConfAt H S (cp.pos + cp.len) (cp.pos, abs a)) := by
  unfold nestedStep ConfAt
  by_cases h0 : cp.len = 0
  · simp [h0]
  have hlt : cp.pos < cp.pos + cp.len := by omega
  simp only [h0, ↓reduceIte, hlt, forall_const, safe_bind, hd.safe]
  refine and_congr_right fun _ => ?_
  constructor
  · intro hx typ i q hh
    have hq := hd.lt _ _ _ _ _ hh
    exact (safe_elem h (by simp only; omega)).mp (hx _ (hd.of_head hh))
  · rintro hx ⟨_ | ⟨typ, i⟩, cp₁⟩ hok
    · simp
    · obtain ⟨hh, hlim⟩ := (hd.ok _ _ _ _).mp hok
      exact (safe_elem h hlim).mpr (hx _ _ _ hh)

/-- A pass leaves the loop exactly at an end of the walk. -/
theorem nestedStep_leaves (hd : Decodes H dehead) (h : Models S elem abs) {cp : Cursor} {a : α} :
    (∃ a', nestedStep dehead elem (cp, a) = .ok (.inr a')) ↔
      EndAt H S (cp.pos + cp.len) (cp.pos, abs a) := by
  unfold nestedStep EndAt
  by_cases h0 : cp.len = 0
  · simp [h0]
  have hne : ¬ cp.pos = cp.pos + cp.len := by omega
  simp only [h0, ↓reduceIte, hne, false_or]
  constructor
  · rintro ⟨a', hok⟩
    obtain ⟨x, hx, hok⟩ := (bind_eq_ok _ _ _).mp hok
    match x with
    | (none, _) => simp at hok
    | (some (typ, i), cp₁) =>
      obtain ⟨hh, -⟩ := (hd.ok _ _ _ _).mp hx
      obtain ⟨e, he, hs⟩ := (bind_eq_ok _ _ _).mp hok
      cases e with
      | next cp₂ i' a₂ => simp at hs
      | stop a₂ => exact ⟨typ, i, cp₁.pos, hh, (h.stop cp.pos typ i cp₁ a).mpr ⟨a₂, he⟩⟩
  · rintro ⟨typ, i, q, hh, hs⟩
    obtain ⟨a', ha⟩ := (h.stop cp.pos typ i ⟨q, cp.pos + cp.len - q⟩ a).mp hs
    exact ⟨a', by rw [hd.of_head hh]; simp [ha]⟩

/-- The nested loop is safe exactly when the walk on the wire is confined. -/
theorem safe_nested (hd : Decodes H dehead) (h : Models S elem abs) (cp : Cursor) (a : α) :
    Safe (nested dehead elem cp a) ↔ Confined H S (cp.pos + cp.len) (cp.pos, abs a) :=
  loop_safe_iff_map (fun s : Cursor × α => (s.1.pos, abs s.2))
    (I := fun s => s.1.pos + s.1.len = cp.pos + cp.len)
    (fun _ _ hi hs => (nestedStep_cursor hd h hs).2.trans hi)
    (fun _ _ hi hs => hi ▸ pass_of_nestedStep hd h hs)
    (fun (cp₁, a₁) t hi hp => by
      rw [← hi] at hp
      obtain ⟨cp', a', h₁, h₂⟩ := nestedStep_of_pass hd h hp
      exact ⟨(cp', a'), h₁, h₂⟩)
    (fun _ hi => hi ▸ safe_nestedStep hd h) (m := fun s => s.1.len)
    (fun _ _ _ => nestedStep_lt hd h _ _) (Nat.lt_succ_self _) rfl

/-- The nested loop returns exactly when the walk on the wire gets to its end. -/
theorem nested_returns (hd : Decodes H dehead) (h : Models S elem abs) (cp : Cursor) (a : α) :
    (∃ a', nested dehead elem cp a = .ok a') ↔ Ends H S (cp.pos + cp.len) (cp.pos, abs a) :=
  loop_returns_iff_map (fun s : Cursor × α => (s.1.pos, abs s.2))
    (I := fun s => s.1.pos + s.1.len = cp.pos + cp.len)
    (fun _ _ hi hs => (nestedStep_cursor hd h hs).2.trans hi)
    (fun _ _ hi hs => hi ▸ pass_of_nestedStep hd h hs)
    (fun (cp₁, a₁) t hi hp => by
      rw [← hi] at hp
      obtain ⟨cp', a', h₁, h₂⟩ := nestedStep_of_pass hd h hp
      exact ⟨(cp', a'), h₁, h₂⟩)
    (fun _ hi => hi ▸ nestedStep_leaves hd h) (m := fun s => s.1.len)
    (fun _ _ _ => nestedStep_lt hd h _ _) (Nat.lt_succ_self _) rfl

/-- The loop with its first element taken off. -/
theorem nested_next (hd : Decodes H dehead) (h : Models S elem abs) {cp cp₁ cp₂ : Cursor}
    {typ i i' : Nat} {a a' : α} (hx : dehead cp = .ok (some (typ, i), cp₁)) (h0 : 0 < cp.len)
    (he : elem cp.pos typ i cp₁ a = .ok (.next cp₂ i' a')) (hi : i' ≤ cp₂.len) :
    nested dehead elem cp a = nested dehead elem ⟨cp₂.pos + i', cp₂.len - i'⟩ a' :=
  loop_again (I := fun _ => True) (m := fun s => s.1.len) (fun _ _ _ _ => trivial)
    (fun _ _ _ => nestedStep_lt hd h _ _) trivial
    (nestedStep_again.mpr ⟨h0, typ, i, cp₁, cp₂, i', hx, he, hi, rfl⟩)
    (Nat.lt_succ_self _) (Nat.lt_succ_self _)

/-- The loop where its first pass ends with an error. -/
theorem nested_error {cp : Cursor} {a : α} {e : Stop}
    (h : nestedStep dehead elem (cp, a) = .error e) : nested dehead elem cp a = .error e := by
  unfold nested loop
  rw [h]
  rfl

/-- The loop after its last element. -/
theorem nested_end (p : Nat) (a : α) : nested dehead elem ⟨p, 0⟩ a = .ok a := rfl

/-- The loop whose first element ends it. -/
theorem nested_stop {cp cp₁ : Cursor} {typ i : Nat} {a a' : α}
    (hx : dehead cp = .ok (some (typ, i), cp₁)) (h0 : 0 < cp.len)
    (he : elem cp.pos typ i cp₁ a = .ok (.stop a')) : nested dehead elem cp a = .ok a' := by
  unfold nested loop nestedStep
  dsimp only
  rw [if_neg (by omega), hx, ok_bind]
  dsimp only
  rw [he]
  rfl

/-- What every element of a nested loop keeps holds at its end. -/
theorem nested_inv (hd : Decodes H dehead) (h : Models S elem abs) {I : Nat → α → Prop}
    {Q : α → Prop} {cp : Cursor} {a b : α} (hn : nested dehead elem cp a = .ok b)
    (h0 : I cp.pos a)
    (hI : ∀ p typ i cp₁ cp₂ i' a a', I p a → H.Head (cp.pos + cp.len) p typ i cp₁.pos →
      elem p typ i cp₁ a = .ok (.next cp₂ i' a') → cp₁.pos ≤ cp₂.pos →
      cp₂.pos + i' ≤ cp.pos + cp.len → I (cp₂.pos + i') a')
    (hend : ∀ p a, I p a → p ≤ cp.pos + cp.len → Q a)
    (hstop : ∀ p typ i cp₁ a a', I p a → elem p typ i cp₁ a = .ok (.stop a') → Q a') : Q b := by
  let J : Cursor × α → Prop := fun s => s.1.pos + s.1.len = cp.pos + cp.len ∧ I s.1.pos s.2
  refine loop_inv (I := J) hn ⟨rfl, h0⟩ ?_ ?_
  · rintro ⟨c, x⟩ ⟨c', x'⟩ ⟨hc, hx⟩ hs
    have hcur := (nestedStep_cursor hd h hs).2
    obtain ⟨-, typ, i, c₁, c₂, i', hdh, he, hi, rfl⟩ := nestedStep_again.mp hs
    obtain ⟨hh, hlim⟩ := (hd.ok _ _ _ _).mp hdh
    have hle := h.cursor _ _ _ _ _ _ _ _ he
    simp only at hc hcur hx hh
    rw [hc] at hh
    exact ⟨hcur.trans hc, hI _ _ _ _ _ _ _ _ hx hh he hle.1 (by omega)⟩
  · rintro ⟨c, x⟩ b ⟨hc, hx⟩ hs
    simp only at hc hx
    unfold nestedStep at hs
    split at hs
    · cases hs
      exact hend _ _ hx (by omega)
    · obtain ⟨y, -, hs⟩ := (bind_eq_ok _ _ _).mp hs
      match y with
      | (none, _) => simp at hs
      | (some (typ, i), c₁) =>
        obtain ⟨e, he, hs⟩ := (bind_eq_ok _ _ _).mp hs
        cases e with
        | next c₂ i' x₂ => simp at hs
        | stop x₂ =>
          simp only [stepOver_stop_eq_ok, Sum.inr.injEq] at hs
          exact hs ▸ hstop _ _ _ _ _ _ hx he

end Nested

/-! ## The packet loop -/

section Top

variable {α β : Type} (dehead : Cursor → Run (Option (Nat × Nat) × Cursor))
  (elem : Nat → Nat → Nat → Cursor → α → Run α)

/-- A pass of the packet loop: take off a header, run the body, and step over the value. -/
def topStep (s : Cursor × α) : Run ((Cursor × α) ⊕ (Cursor × α)) := do
  match ← dehead s.1 with
  | (none, cp) => return .inr (cp, s.2)
  | (some (typ, len), cp) =>
    let a ← elem s.1.pos typ len cp s.2
    let cp ← cp.skip len
    return .inl (cp, a)

/-- The packet loop. It ends at the first header that cannot be taken off. -/
def top (cp : Cursor) (a : α) : Run (Cursor × α) := loop (topStep dehead elem) (cp.len + 1) (cp, a)

/-- `elem` is a body of the packet loop for the kind `S`: it takes the whole value. -/
structure Takes (S : ElemSpec β) (abs : α → β) : Prop where
  readable : ∀ hd typ i cp a, Safe (elem hd typ i cp a) ↔
    S.Readable (cp.pos + cp.len) typ i cp.pos (abs a)
  value : ∀ hd typ i cp a q' i' b', S.Value (cp.pos + cp.len) typ i cp.pos (abs a) q' i' b' ↔
    ∃ a', elem hd typ i cp a = .ok a' ∧ cp.pos = q' ∧ i = i' ∧ abs a' = b'

variable {dehead elem}

/-- A pass of the packet loop that goes on. -/
theorem topStep_again {cp cp' : Cursor} {a a' : α} :
    Again (topStep dehead elem) (cp, a) (cp', a') ↔
      ∃ typ len cp₁, dehead cp = .ok (some (typ, len), cp₁) ∧
        elem cp.pos typ len cp₁ a = .ok a' ∧ len ≤ cp₁.len ∧
        cp' = ⟨cp₁.pos + len, cp₁.len - len⟩ := by
  unfold Again topStep
  constructor
  · intro hs
    obtain ⟨x, hx, hs⟩ := (bind_eq_ok _ _ _).mp hs
    match x with
    | (none, _) => simp at hs
    | (some (typ, len), cp₁) =>
      obtain ⟨a₁, ha, hs⟩ := (bind_eq_ok _ _ _).mp hs
      obtain ⟨cp₂, hcp, hs⟩ := (bind_eq_ok _ _ _).mp hs
      obtain ⟨hle, rfl⟩ := Cursor.skip_eq_ok.mp hcp
      cases hs
      exact ⟨typ, len, cp₁, hx, ha, hle, rfl⟩
  · rintro ⟨typ, len, cp₁, hx, ha, hle, rfl⟩
    rw [hx]
    simp [ha, Cursor.skip, hle]

theorem topStep_leaves {cp cp' : Cursor} {a a' : α} :
    topStep dehead elem (cp, a) = .ok (.inr (cp', a')) ↔
      dehead cp = .ok (none, cp') ∧ a' = a := by
  unfold topStep
  constructor
  · intro h
    obtain ⟨x, hx, h⟩ := (bind_eq_ok _ _ _).mp h
    match x with
    | (none, cp₁) =>
      cases h
      exact ⟨hx, rfl⟩
    | (some (typ, len), cp₁) => simp at h
  · rintro ⟨hx, rfl⟩
    rw [hx]
    rfl

variable {H : Header} {S : ElemSpec β} {abs : α → β}

theorem topStep_cursor (hd : Decodes H dehead) {cp cp' : Cursor} {a a' : α}
    (hs : Again (topStep dehead elem) (cp, a) (cp', a')) :
    cp.pos < cp'.pos ∧ cp'.pos + cp'.len = cp.pos + cp.len := by
  obtain ⟨typ, len, cp₁, hx, -, hle, rfl⟩ := topStep_again.mp hs
  obtain ⟨hh, hlim⟩ := (hd.ok _ _ _ _).mp hx
  have := hd.lt _ _ _ _ _ hh
  simp only
  omega

theorem topStep_lt (hd : Decodes H dehead) (s s' : Cursor × α)
    (hs : Again (topStep dehead elem) s s') : s'.1.len < s.1.len := by
  obtain ⟨cp, a⟩ := s
  obtain ⟨cp', a'⟩ := s'
  have := topStep_cursor hd hs
  simp only
  omega

/-- A pass of the packet loop is a pass on the wire. -/
theorem pass_of_topStep (hd : Decodes H dehead) (h : Takes elem S abs) {cp cp' : Cursor} {a a' : α}
    (hs : Again (topStep dehead elem) (cp, a) (cp', a')) :
    Pass H S (cp.pos + cp.len) (cp.pos, abs a) (cp'.pos, abs a') := by
  obtain ⟨typ, len, cp₁, hx, ha, hle, rfl⟩ := topStep_again.mp hs
  obtain ⟨hh, hlim⟩ := (hd.ok _ _ _ _).mp hx
  refine ⟨typ, len, cp₁.pos, hh, cp₁.pos, len, ?_, by omega, rfl⟩
  rw [← hlim]
  exact (h.value _ _ _ _ _ _ _ _).mpr ⟨a', ha, rfl, rfl, rfl⟩

/-- A pass on the wire is a pass of the packet loop. -/
theorem topStep_of_pass (hd : Decodes H dehead) (h : Takes elem S abs) {cp : Cursor} {a : α}
    {t : Nat × β} (hp : Pass H S (cp.pos + cp.len) (cp.pos, abs a) t) :
    ∃ cp' a', Again (topStep dehead elem) (cp, a) (cp', a') ∧ (cp'.pos, abs a') = t := by
  obtain ⟨typ, len, q, hh, q', len', hv, hle, ht⟩ := hp
  have hq := hd.lt _ _ _ _ _ hh
  have hlim : q + (cp.pos + cp.len - q) = cp.pos + cp.len := by omega
  rw [← hlim] at hv
  obtain ⟨a', ha, rfl, rfl, hb⟩ :=
    (h.value cp.pos typ len ⟨q, cp.pos + cp.len - q⟩ a _ _ _).mp hv
  exact ⟨_, a', topStep_again.mpr
    ⟨typ, len, _, hd.of_head hh, ha, by simp only at hle ⊢; omega, rfl⟩, Prod.ext ht.symm hb⟩

/-- The body and the step over the value are confined exactly when the value is. -/
theorem safe_taken (h : Takes elem S abs) {lim hd typ len : Nat} {cp : Cursor} {a : α}
    (hlim : cp.pos + cp.len = lim) :
    Safe (do
        let a ← elem hd typ len cp a
        let cp ← cp.skip len
        return (.inl (cp, a) : (Cursor × α) ⊕ (Cursor × α))) ↔
      S.Readable lim typ len cp.pos (abs a) ∧
        ∀ q' i' b', S.Value lim typ len cp.pos (abs a) q' i' b' → q' + i' ≤ lim := by
  simp only [← hlim, safe_bind, h.readable, Cursor.safe_skip, safe_pure, implies_true, and_true]
  refine and_congr_right fun _ => ⟨fun hx q' i' b' hv => ?_, fun hx a' ha => ?_⟩
  · obtain ⟨a', ha, rfl, rfl, -⟩ := (h.value hd _ _ _ _ _ _ _).mp hv
    have := hx _ ha
    omega
  · have := hx _ _ _ ((h.value hd _ _ _ _ _ _ _).mpr ⟨a', ha, rfl, rfl, rfl⟩)
    omega

/-- A pass is confined exactly when the element is. -/
theorem safe_topStep (hd : Decodes H dehead) (h : Takes elem S abs) {cp : Cursor} {a : α} :
    Safe (topStep dehead elem (cp, a)) ↔ ConfAt H S (cp.pos + cp.len) (cp.pos, abs a) := by
  unfold topStep ConfAt
  rw [safe_bind, hd.safe]
  refine and_congr_right fun _ => ⟨fun hx typ len q hh => ?_, fun hx x hok => ?_⟩
  · have hq := hd.lt _ _ _ _ _ hh
    exact (safe_taken h (by simp only; omega)).mp (hx _ (hd.of_head hh))
  · match x with
    | (none, _) => simp
    | (some (typ, len), cp₁) =>
      obtain ⟨hh, hlim⟩ := (hd.ok _ _ _ _).mp hok
      exact (safe_taken h hlim).mpr (hx _ _ _ hh)

/-- A place on the wire is visited exactly when the packet loop starts a pass there. -/
theorem top_reaches (hd : Decodes H dehead) (h : Takes elem S abs) {cp : Cursor} {a : α}
    {t : Nat × β} :
    (∃ s, Reached (topStep dehead elem) (cp, a) s ∧ (s.1.pos, abs s.2) = t) ↔
      Visits H S (cp.pos + cp.len) (cp.pos, abs a) t :=
  reached_map (fun s : Cursor × α => (s.1.pos, abs s.2))
    (I := fun s => s.1.pos + s.1.len = cp.pos + cp.len)
    (fun _ _ hi hs => (topStep_cursor hd hs).2.trans hi)
    (fun _ _ hi hs => hi ▸ pass_of_topStep hd h hs)
    (fun (cp₁, a₁) t hi hp => by
      rw [← hi] at hp
      obtain ⟨cp', a', h₁, h₂⟩ := topStep_of_pass hd h hp
      exact ⟨(cp', a'), h₁, h₂⟩) rfl

/-- The packet loop is safe exactly when the walk on the wire is confined. -/
theorem safe_top (hd : Decodes H dehead) (h : Takes elem S abs) (cp : Cursor) (a : α) :
    Safe (top dehead elem cp a) ↔ TopConfined H S (cp.pos + cp.len) (cp.pos, abs a) := by
  refine (loop_safe_iff (I := fun _ => True) (m := fun s : Cursor × α => s.1.len)
    (fun _ _ _ _ => trivial) (fun _ _ _ => topStep_lt hd _ _) trivial
    (Nat.lt_succ_self _)).trans ?_
  have hlim : ∀ s, Reached (topStep dehead elem) (cp, a) s →
      s.1.pos + s.1.len = cp.pos + cp.len := fun s hr =>
    hr.invariant (I := fun s => s.1.pos + s.1.len = cp.pos + cp.len) rfl
      fun _ _ hi hs => (topStep_cursor hd hs).2.trans hi
  constructor
  · intro hx t ht
    obtain ⟨s, hr, rfl⟩ := (top_reaches hd h).mpr ht
    exact hlim s hr ▸ (safe_topStep hd h).mp (hx s hr)
  · intro hx s hr
    exact (safe_topStep hd h).mpr (hlim s hr ▸ hx _ ((top_reaches hd h).mp ⟨s, hr, rfl⟩))

/-- The packet loop with its first element taken off. -/
theorem top_next (hd : Decodes H dehead) {cp cp₁ : Cursor} {typ len : Nat} {a a' : α}
    (hx : dehead cp = .ok (some (typ, len), cp₁))
    (he : elem cp.pos typ len cp₁ a = .ok a') (hi : len ≤ cp₁.len) :
    top dehead elem cp a = top dehead elem ⟨cp₁.pos + len, cp₁.len - len⟩ a' :=
  loop_again (I := fun _ => True) (m := fun s => s.1.len) (fun _ _ _ _ => trivial)
    (fun _ _ _ => topStep_lt hd _ _) trivial
    (topStep_again.mpr ⟨typ, len, cp₁, hx, he, hi, rfl⟩) (Nat.lt_succ_self _) (Nat.lt_succ_self _)

/-- The packet loop where no header can be taken off. -/
theorem top_end {cp cp' : Cursor} {a : α} (hx : dehead cp = .ok (none, cp')) :
    top dehead elem cp a = .ok (cp', a) := by
  unfold top loop topStep
  rw [hx]
  rfl

/-- The packet loop where its first pass ends with an error. -/
theorem top_error {cp : Cursor} {a : α} {e : Stop} (h : topStep dehead elem (cp, a) = .error e) :
    top dehead elem cp a = .error e := by
  unfold top loop
  rw [h]
  rfl

/-- What every element of a packet loop keeps holds at its end. `I p a` is about the elements
before the place `p`. -/
theorem top_inv (hd : Decodes H dehead) {I : Nat → α → Prop} {cp cp' : Cursor} {a a' : α}
    (ht : top dehead elem cp a = .ok (cp', a')) (h0 : I cp.pos a)
    (hI : ∀ p typ len cp₁ a a', I p a → cp.pos ≤ p → p < cp₁.pos →
      elem p typ len cp₁ a = .ok a' → cp₁.pos + len ≤ cp.pos + cp.len → I (cp₁.pos + len) a') :
    (∃ p, cp.pos ≤ p ∧ p ≤ cp'.pos ∧ I p a') ∧ cp'.pos + cp'.len = cp.pos + cp.len := by
  let J : Cursor × α → Prop := fun s =>
    s.1.pos + s.1.len = cp.pos + cp.len ∧ cp.pos ≤ s.1.pos ∧ I s.1.pos s.2
  let Q : Cursor × α → Prop := fun s =>
    (∃ p, cp.pos ≤ p ∧ p ≤ s.1.pos ∧ I p s.2) ∧ s.1.pos + s.1.len = cp.pos + cp.len
  refine loop_inv (I := J) (Q := Q) ht ⟨rfl, Nat.le_refl _, h0⟩ ?_ ?_
  · rintro ⟨c, x⟩ ⟨c', x'⟩ ⟨hc, hle, hx⟩ hs
    have hcur := topStep_cursor hd hs
    obtain ⟨typ, len, c₁, hdh, ha, hi, rfl⟩ := topStep_again.mp hs
    obtain ⟨hh, hlim⟩ := (hd.ok _ _ _ _).mp hdh
    have hlt := hd.lt _ _ _ _ _ hh
    simp only at hc hcur hx hle
    exact ⟨hcur.2.trans hc, by simp only; omega, hI _ _ _ _ _ _ hx hle hlt.1 ha (by omega)⟩
  · rintro ⟨c, x⟩ ⟨c', x'⟩ ⟨hc, hle, hx⟩ hs
    obtain ⟨hdh, rfl⟩ := topStep_leaves.mp hs
    have hcur := hd.cursor _ _ _ hdh
    exact ⟨⟨c.pos, hle, hcur.1, hx⟩, hcur.2.trans hc⟩

/-- What every element keeps, whatever its place. -/
theorem top_keeps {I : α → Prop} {cp cp' : Cursor} {a a' : α}
    (ht : top dehead elem cp a = .ok (cp', a')) (h0 : I a)
    (hI : ∀ hd typ len cp a a', I a → elem hd typ len cp a = .ok a' → I a') : I a' := by
  refine loop_inv (I := fun s : Cursor × α => I s.2) (Q := fun s : Cursor × α => I s.2) ht h0 ?_ ?_
  · rintro ⟨c, x⟩ ⟨c', x'⟩ hx hs
    obtain ⟨typ, len, c₁, -, ha, -, -⟩ := topStep_again.mp hs
    exact hI _ _ _ _ _ _ hx ha
  · rintro ⟨c, x⟩ ⟨c', x'⟩ hx hs
    obtain ⟨-, rfl⟩ := topStep_leaves.mp hs
    exact hx

end Top

/-- What every element of a nested loop keeps, whatever its place. -/
theorem nested_keeps {α : Type} {dehead : Cursor → Run (Option (Nat × Nat) × Cursor)}
    {elem : Nat → Nat → Nat → Cursor → α → Run (Elem α)} {I : α → Prop} {cp : Cursor} {a b : α}
    (hn : nested dehead elem cp a = .ok b) (h0 : I a)
    (hI : ∀ hd typ i cp a e, I a → elem hd typ i cp a = .ok e →
      match e with
      | .next _ _ a' => I a'
      | .stop a' => I a') : I b := by
  refine loop_inv (I := fun s : Cursor × α => I s.2) (Q := I) hn h0 ?_ ?_
  · rintro ⟨c, x⟩ ⟨c', x'⟩ hx hs
    obtain ⟨-, typ, i, c₁, c₂, i', -, ha, -, -⟩ := nestedStep_again.mp hs
    exact hI _ _ _ _ _ _ hx ha
  · rintro ⟨c, x⟩ b hx hs
    unfold nestedStep at hs
    split at hs
    · cases hs
      exact hx
    · obtain ⟨y, -, hs⟩ := (bind_eq_ok _ _ _).mp hs
      match y with
      | (none, _) => cases hs
      | (some (typ, i), c₁) =>
        obtain ⟨e, he, hs⟩ := (bind_eq_ok _ _ _).mp hs
        have := hI _ _ _ _ _ _ hx he
        cases e with
        | next c₂ i' a' => simp at hs
        | stop a' =>
          obtain rfl : b = a' := by simpa using hs
          exact this

end Tlv

end CRun
