import CcnLite.Pkt.CcnbGrammar

/-!
# The elements of a CCNB packet

The loop over a Name and the fields whose value the parser uses, on the wire: `NamePass` is one
element of a Name, `FieldFine`, `UintEnds` and `BufEnds` are about elements with one blob in them.
Each comes with the function of the parser that reads it.
-/

namespace Ccnl

open CRun Relation

/-! ## Names -/

section Name

variable (mem : List UInt8) (lim : Nat)

/-- The element is a name component that the code takes in. -/
def IsCcnbComponent (num typ n : Nat) : Prop :=
  (typ = ccnTtDtag ∧ num = ccnDtagComponent) ∧ n < maxNameComp

instance (num typ n : Nat) : Decidable (IsCcnbComponent num typ n) :=
  inferInstanceAs (Decidable (_ ∧ _))

/-- One element of a Name. The walk remembers the components, with their blobs. -/
def NamePass (s t : Nat × List (Option Span)) : Prop :=
  ∃ num typ q, CcnbAt mem lim s.1 num typ q ∧ ¬ IsEnd num typ ∧
    if IsCcnbComponent num typ s.2.length then ∃ r, Hunts mem lim q t.1 r ∧ t.2 = s.2 ++ [r]
    else (∃ r, Skips mem lim typ num q t.1 r) ∧ t.2 = s.2

/-- The blobs of the element at a place of a Name end below the limit. -/
def NameFine (s : Nat × List (Option Span)) : Prop :=
  ∀ num typ q, CcnbAt mem lim s.1 num typ q → ¬ IsEnd num typ →
    if IsCcnbComponent num typ s.2.length then ¬ Overruns mem lim q
    else ¬ SkipOverruns mem lim typ num q

/-- The walk over a Name is confined. -/
def NameConfined (s : Nat × List (Option Span)) : Prop :=
  ∀ t, ReflTransGen (NamePass mem lim) s t → NameFine mem lim t

/-- The walk over a Name gets to the end marker, the one before `t.1`. -/
def NameEnds (s t : Nat × List (Option Span)) : Prop :=
  ∃ u, ReflTransGen (NamePass mem lim) s u ∧ CcnbAt mem lim u.1 0 0 t.1 ∧ t.2 = u.2

variable {mem lim}

theorem NamePass.le {s t : Nat × List (Option Span)} (h : NamePass mem lim s t) :
    s.1 < t.1 ∧ t.1 ≤ lim := by
  obtain ⟨num, typ, q, hat, -, h⟩ := h
  have := hat.lt
  split at h
  · obtain ⟨r, hr, -⟩ := h
    have := hr.lt
    omega
  · obtain ⟨⟨r, hr⟩, -⟩ := h
    have := hr.le
    omega

theorem nameVisits_le {s t : Nat × List (Option Span)}
    (h : ReflTransGen (NamePass mem lim) s t) : s.1 ≤ t.1 := by
  induction h with
  | refl => exact Nat.le_refl _
  | tail _ hp ih => exact Nat.le_trans ih (Nat.le_of_lt hp.le.1)

theorem NameEnds.le {s t : Nat × List (Option Span)} (h : NameEnds mem lim s t) :
    s.1 < t.1 ∧ t.1 ≤ lim := by
  obtain ⟨u, hu, hat, -⟩ := h
  have := nameVisits_le hu
  have := hat.lt
  omega

/-! The loop over a Name, with the limit where its cursor has it. -/

variable {c c' : Cursor} {comp comp' : List (Option Span)}

theorem ccnbNameStep_again (hlim : c.pos + c.len = lim) (hl : lim ≤ mem.length) :
    Again (ccnbNameStep mem) (c, comp) (c', comp') ↔
      NamePass mem lim (c.pos, comp) (c'.pos, comp') ∧ c'.pos + c'.len = lim := by
  subst hlim
  unfold Again ccnbNameStep NamePass
  simp only
  rcases ccnbDehead_cases hl with ⟨hx, hno⟩ | ⟨num, typ, c₁, hx, hat, hc₁⟩ <;> rw [hx, ok_bind]
  · simp only [throw_ne_ok, false_iff, not_and]
    rintro ⟨num, typ, q, hat, -⟩
    exact absurd hat (hno _ _ _)
  · rw [hat.exists_iff]
    change (if IsEnd num typ then _ else if IsCcnbComponent num typ comp.length then _ else _) = _ ↔ _
    by_cases he : IsEnd num typ
    · simp [he]
    by_cases hcomp : IsCcnbComponent num typ comp.length
    · have hh := @hunt_returns mem c₁ none (by omega)
      rw [hc₁] at hh
      simp only [he, hcomp, ↓reduceIte, bind_eq_ok, pure_eq_ok, not_false_eq_true, true_and]
      constructor
      · rintro ⟨⟨c₂, v⟩, hc₂, h⟩
        cases h
        obtain ⟨r, hr, rfl, hl'⟩ := (hh _ _).mp hc₂
        exact ⟨⟨r, hr, by rw [Option.or_none]⟩, hl'⟩
      · rintro ⟨⟨r, hr, rfl⟩, hl'⟩
        exact ⟨(c', r), (hh _ _).mpr ⟨r, hr, by rw [Option.or_none], hl'⟩, rfl⟩
    · have hh := @consume_returns mem typ num c₁ none (by omega)
      rw [hc₁] at hh
      simp only [he, hcomp, ↓reduceIte, bind_eq_ok, pure_eq_ok, not_false_eq_true, true_and]
      constructor
      · rintro ⟨⟨c₂, v⟩, hc₂, h⟩
        cases h
        obtain ⟨r, hr, -, hl'⟩ := (hh _ _).mp hc₂
        exact ⟨⟨⟨r, hr⟩, rfl⟩, hl'⟩
      · rintro ⟨⟨⟨r, hr⟩, rfl⟩, hl'⟩
        exact ⟨_, (hh _ _).mpr ⟨r, hr, rfl, hl'⟩, rfl⟩

theorem ccnbNameStep_leaves (hlim : c.pos + c.len = lim) (hl : lim ≤ mem.length) :
    ccnbNameStep mem (c, comp) = .ok (.inr (c', comp')) ↔
      CcnbAt mem lim c.pos 0 0 c'.pos ∧ comp' = comp ∧ c'.pos + c'.len = lim := by
  subst hlim
  unfold ccnbNameStep
  simp only
  rcases ccnbDehead_cases hl with ⟨hx, hno⟩ | ⟨num, typ, c₁, hx, hat, hc₁⟩ <;> rw [hx, ok_bind]
  · simpa using fun h => absurd h (hno _ _ _)
  · simp only
    change (if IsEnd num typ then _ else if IsCcnbComponent num typ comp.length then _ else _) = _ ↔ _
    by_cases he : IsEnd num typ
    · obtain ⟨rfl, rfl⟩ := id he
      simp only [he, ↓reduceIte, pure_eq_ok, Sum.inr.injEq, Prod.mk.injEq]
      constructor
      · rintro ⟨rfl, rfl⟩
        exact ⟨hat, rfl, hc₁⟩
      · rintro ⟨hat', rfl, hl'⟩
        have := (hat.unique hat').2.2
        exact ⟨Cursor.ext this (by omega), rfl⟩
    · have hne : ¬ CcnbAt mem (c.pos + c.len) c.pos 0 0 c'.pos := fun hat' =>
        he ⟨(hat.unique hat').1, (hat.unique hat').2.1⟩
      simp only [he, hne, ↓reduceIte, false_and, iff_false]
      split <;> simp

theorem safe_ccnbNameStep (hlim : c.pos + c.len = lim) (hl : lim ≤ mem.length) :
    Safe (ccnbNameStep mem (c, comp)) ↔ NameFine mem lim (c.pos, comp) := by
  subst hlim
  unfold ccnbNameStep NameFine
  simp only
  rcases ccnbDehead_cases hl with ⟨hx, hno⟩ | ⟨num, typ, c₁, hx, hat, hc₁⟩ <;> rw [hx, ok_bind]
  · simp only [safe_throw, true_iff]
    exact fun num typ q hat => absurd hat (hno _ _ _)
  · rw [hat.forall_iff]
    change Safe (if IsEnd num typ then _ else if IsCcnbComponent num typ comp.length then _ else _) ↔ _
    by_cases he : IsEnd num typ
    · simp [he]
    have hlt := hat.lt
    by_cases hcomp : IsCcnbComponent num typ comp.length
    · simp [he, hcomp, @safe_hunt mem c₁ none (by omega), hc₁]
    · simp [he, hcomp, @safe_consume mem typ num c₁ none (by omega), hc₁]

theorem ccnbNameStep_lt (hlim : c.pos + c.len = lim) (hl : lim ≤ mem.length)
    (hs : Again (ccnbNameStep mem) (c, comp) (c', comp')) : c'.len < c.len := by
  obtain ⟨hp, hlim'⟩ := (ccnbNameStep_again hlim hl).mp hs
  have := hp.le.1
  simp only at this
  omega

/-- The components lie between `lo` and the place of the walk. -/
theorem NameEnds.within {lo : Nat} {s t : Nat × List (Option Span)} (h : NameEnds mem lim s t)
    (hlo : lo ≤ s.1) (h0 : ∀ x, some x ∈ s.2 → x.Within lo s.1) :
    ∀ x, some x ∈ t.2 → x.Within lo t.1 := by
  obtain ⟨u, hu, hat, he⟩ := h
  have hwithin : lo ≤ u.1 ∧ ∀ x, some x ∈ u.2 → x.Within lo u.1 := by
    clear he hat
    induction hu with
    | refl => exact ⟨hlo, h0⟩
    | @tail a b _ hp ih =>
      obtain ⟨hle, hin⟩ := ih
      have hab := hp.le
      have hold : ∀ x, some x ∈ a.2 → x.Within lo b.1 := fun x hx =>
        (hin x hx).mono (Nat.le_refl _) (Nat.le_of_lt hab.1)
      refine ⟨by omega, ?_⟩
      obtain ⟨num, typ, q, hat, -, hp⟩ := hp
      have := hat.lt
      split at hp
      · obtain ⟨r, hr, hb⟩ := hp
        intro x hx
        rw [hb, List.mem_append, List.mem_singleton] at hx
        rcases hx with hx | hx
        · exact hold x hx
        · exact (hr.within hx.symm).mono (by omega) (Nat.le_refl _)
      · rw [hp.2]
        exact hold
  have := hat.lt
  rw [he]
  exact fun x hx => (hwithin.2 x hx).mono (Nat.le_refl _) (by omega)

/-- The loop over a Name is confined exactly when the walk on the wire is. -/
theorem safe_ccnbName (hl : c.pos + c.len ≤ mem.length) :
    Safe (ccnbName mem c comp) ↔ NameConfined mem (c.pos + c.len) (c.pos, comp) :=
  loop_safe_iff_map (fun s : Cursor × List (Option Span) => (s.1.pos, s.2))
    (I := fun s => s.1.pos + s.1.len = c.pos + c.len)
    (fun _ _ hi hs => ((ccnbNameStep_again hi hl).mp hs).2)
    (fun _ _ hi hs => ((ccnbNameStep_again hi hl).mp hs).1)
    (fun _ t hi hp => ⟨(⟨t.1, c.pos + c.len - t.1⟩, t.2), (ccnbNameStep_again hi hl).mpr
      ⟨hp, by have := hp.le; simp only; omega⟩, rfl⟩)
    (fun _ hi => safe_ccnbNameStep hi hl) (m := fun s => s.1.len)
    (fun _ _ hi hs => ccnbNameStep_lt hi hl hs) (Nat.lt_succ_self _) rfl

/-- The loop over a Name returns at the end marker on the wire. -/
theorem ccnbName_eq_ok (hl : c.pos + c.len ≤ mem.length) :
    ccnbName mem c comp = .ok (c', comp') ↔
      NameEnds mem (c.pos + c.len) (c.pos, comp) (c'.pos, comp') ∧
        c'.pos + c'.len = c.pos + c.len := by
  have := loop_eq_ok_iff_map (fun s : Cursor × List (Option Span) => (s.1.pos, s.2))
    (I := fun s => s.1.pos + s.1.len = c.pos + c.len)
    (fun _ _ hi hs => ((ccnbNameStep_again hi hl).mp hs).2)
    (fun _ _ hi hs => ((ccnbNameStep_again hi hl).mp hs).1)
    (fun _ t hi hp => ⟨(⟨t.1, c.pos + c.len - t.1⟩, t.2), (ccnbNameStep_again hi hl).mpr
      ⟨hp, by have := hp.le; simp only; omega⟩, rfl⟩)
    (fun _ (c₁, comp₁) hi => ccnbNameStep_leaves hi hl)
    (L := fun t b => CcnbAt mem (c.pos + c.len) t.1 0 0 b.1.pos ∧ b.2 = t.2 ∧
      b.1.pos + b.1.len = c.pos + c.len)
    (m := fun s => s.1.len) (fun _ _ hi hs => ccnbNameStep_lt hi hl hs)
    (s := (c, comp)) (b := (c', comp')) (Nat.lt_succ_self _) rfl
  rw [ccnbName, this]
  constructor
  · rintro ⟨t, ht, hat, he, hlim⟩
    exact ⟨⟨t, ht, hat, he⟩, hlim⟩
  · rintro ⟨⟨t, ht, hat, he⟩, hlim⟩
    exact ⟨t, ht, hat, he, hlim⟩

end Name

/-! ## Elements of a packet -/

section Field

variable (mem : List UInt8) (lim : Nat)

/-- An element whose value is used: no blob in it ends behind the limit, and if it is closed then
there is a blob. -/
def FieldFine (q : Nat) : Prop :=
  ¬ Overruns mem lim q ∧ ∀ q' r, Hunts mem lim q q' r → r.isSome

/-- An element with a decimal number up to `bound` ends at `q'`. -/
def UintEnds (bound q q' : Nat) : Prop :=
  ∃ s v, Hunts mem lim q q' (some s) ∧ ccnbData2uint (s.bytes mem) 0 = some v ∧ v ≤ bound

/-- An element of which the first one is used is fine; `old` says that there was one. -/
def BufFine (old : Bool) (q : Nat) : Prop :=
  ¬ Overruns mem lim q ∧ (old = false → ∀ q' r, Hunts mem lim q q' r → r.isSome)

/-- An element of which the first one is used ends at `q'`. -/
def BufEnds (old : Bool) (q q' : Nat) : Prop :=
  ∃ r, Hunts mem lim q q' r ∧ (old = false → r.isSome)

variable {mem} {c c' : Cursor}

@[simp] theorem safe_handedOut {v : Option Span} : Safe (handedOut v) ↔ v.isSome := by
  cases v <;> simp [handedOut]

@[simp] theorem handedOut_eq_ok {v : Option Span} {s : Span} :
    handedOut v = .ok s ↔ v = some s := by
  cases v <;> simp [handedOut]

theorem mapM_handedOut {l : List (Option Span)} {m : List Span} :
    l.mapM handedOut = .ok m ↔ l = m.map some := by
  induction l generalizing m with
  | nil => cases m <;> simp
  | cons v l ih =>
    rw [List.mapM_cons]
    cases v with
    | none => cases m <;> simp
    | some s =>
      cases m with
      | nil => simp
      | cons t m =>
        simp only [bind_eq_ok, handedOut_eq_ok, ih, pure_eq_ok, List.map_cons, List.cons.injEq]
        constructor
        · rintro ⟨_, h, _, rfl, rfl, rfl⟩
          exact ⟨h, rfl⟩
        · rintro ⟨h, rfl⟩
          exact ⟨t, h, m, rfl, rfl, rfl⟩

theorem exists_mapM_handedOut {l : List (Option Span)} (h : ∀ v ∈ l, v.isSome) :
    ∃ m, l.mapM handedOut = .ok m := by
  refine ⟨l.filterMap id, mapM_handedOut.mpr ?_⟩
  induction l with
  | nil => rfl
  | cons v l ih =>
    obtain ⟨s, rfl⟩ := Option.isSome_iff_exists.mp (h v (by simp))
    simpa using ih fun v hv => h v (by simp [hv])

theorem safe_mapM_handedOut {l : List (Option Span)} :
    Safe (l.mapM handedOut) ↔ ∀ v ∈ l, v.isSome := by
  induction l with
  | nil => simp
  | cons v l ih =>
    rw [List.mapM_cons]
    cases v with
    | none => simp [handedOut]
    | some s => simp [handedOut, ih]

theorem hunt_eq_ok {v : Option Span} (hl : c.pos + c.len ≤ mem.length) :
    ccnbHuntForEnd mem c none = .ok (c', v) ↔
      Hunts mem (c.pos + c.len) c.pos c'.pos v ∧ c'.pos + c'.len = c.pos + c.len := by
  rw [hunt_returns hl]
  simp only [Option.or_none]
  constructor
  · rintro ⟨r, hr, rfl, hlim⟩
    exact ⟨hr, hlim⟩
  · rintro ⟨hr, hlim⟩
    exact ⟨v, hr, rfl, hlim⟩

/-- An end marker on the wire is one that the function comes to. -/
theorem Hunts.hunt {q' : Nat} {r : Option Span} (hl : c.pos + c.len ≤ mem.length)
    (h : Hunts mem (c.pos + c.len) c.pos q' r) :
    ccnbHuntForEnd mem c none = .ok (⟨q', c.pos + c.len - q'⟩, r) :=
  (hunt_eq_ok hl).mpr ⟨h, by have := h.lt; simp only; omega⟩

theorem safe_ccnbField (hl : c.pos + c.len ≤ mem.length) :
    Safe (ccnbField mem c) ↔ FieldFine mem (c.pos + c.len) c.pos := by
  unfold ccnbField FieldFine
  simp only [safe_bind, safe_hunt hl, safe_handedOut, safe_pure, implies_true, and_true]
  refine and_congr_right fun _ => ⟨fun h q' r hr => h _ (hr.hunt hl), fun h x hx => ?_⟩
  exact h _ _ ((hunt_eq_ok hl).mp hx).1

theorem ccnbField_eq_ok {s : Span} (hl : c.pos + c.len ≤ mem.length) :
    ccnbField mem c = .ok (s, c') ↔
      Hunts mem (c.pos + c.len) c.pos c'.pos (some s) ∧ c'.pos + c'.len = c.pos + c.len := by
  unfold ccnbField
  simp only [bind_eq_ok, handedOut_eq_ok, pure_eq_ok]
  constructor
  · rintro ⟨⟨c₁, v⟩, hv, s', hs', he⟩
    cases he
    simp only at hs'
    subst hs'
    exact (hunt_eq_ok hl).mp hv
  · intro h
    exact ⟨(c', some s), (hunt_eq_ok hl).mpr h, s, rfl, rfl⟩

/-- The value of an element is in the buffer. -/
theorem inBuf_of_field {s : Span} (hl : c.pos + c.len ≤ mem.length)
    (h : ccnbField mem c = .ok (s, c')) : s.Within c.pos c'.pos ∧ InBuf mem s.off s.len := by
  obtain ⟨hh, -⟩ := (ccnbField_eq_ok hl).mp h
  have hw := hh.within rfl
  have := hh.lt
  refine ⟨hw, .inr ?_⟩
  have := hw.2
  omega

theorem safe_ccnbUint {bound : Nat} (hl : c.pos + c.len ≤ mem.length) :
    Safe (ccnbUint mem c bound) ↔ FieldFine mem (c.pos + c.len) c.pos := by
  unfold ccnbUint
  rw [safe_bind, safe_ccnbField hl, and_iff_left]
  intro (s, c₁) hs
  simp only [safe_bind, safe_rdBytes, (inBuf_of_field hl hs).2, true_and]
  intro bs _
  cases ccnbData2uint bs 0 with
  | none => simp
  | some v =>
    simp only
    split <;> simp

theorem ccnbUint_eq_ok {bound v : Nat} (hl : c.pos + c.len ≤ mem.length) :
    ccnbUint mem c bound = .ok (v, c') ↔
      (∃ s, Hunts mem (c.pos + c.len) c.pos c'.pos (some s) ∧
        ccnbData2uint (s.bytes mem) 0 = some v ∧ v ≤ bound) ∧
      c'.pos + c'.len = c.pos + c.len := by
  unfold ccnbUint
  rw [bind_eq_ok]
  constructor
  · rintro ⟨⟨s, c₁⟩, hs, h⟩
    obtain ⟨bs, hbs, h⟩ := (bind_eq_ok _ _ _).mp h
    obtain ⟨-, rfl⟩ := rdBytes_eq_ok.mp hbs
    obtain ⟨hh, hlim⟩ := (ccnbField_eq_ok hl).mp hs
    split at h
    · simp at h
    · rename_i w hw
      split at h
      · simp at h
      · cases h
        exact ⟨⟨s, hh, hw, by omega⟩, hlim⟩
  · rintro ⟨⟨s, hh, hv, hle⟩, hlim⟩
    have hs := (ccnbField_eq_ok hl).mpr ⟨hh, hlim⟩
    refine ⟨(s, c'), hs, ?_⟩
    simp only [bind_eq_ok, rdBytes_eq_ok]
    refine ⟨_, ⟨(inBuf_of_field hl hs).2, rfl⟩, ?_⟩
    unfold Span.bytes at hv
    rw [hv]
    simp only
    rw [if_neg (by omega)]
    rfl

theorem safe_ccnbBuf {old : Option (List UInt8)} (hl : c.pos + c.len ≤ mem.length) :
    Safe (ccnbBuf mem c old) ↔ BufFine mem (c.pos + c.len) old.isSome c.pos := by
  unfold ccnbBuf BufFine
  cases old with
  | some b => simp [safe_hunt hl]
  | none =>
    simp only [safe_bind, safe_ccnbField hl, safe_rdBytes, safe_pure, implies_true, and_true,
      Option.isSome_none, forall_const]
    rw [and_iff_left fun x hx => (inBuf_of_field hl hx).2]
    rfl

/-- What `ccnbBuf` hands out is the old buffer, or the bytes of a blob. -/
theorem ccnbBuf_eq_ok {old new : Option (List UInt8)} (hl : c.pos + c.len ≤ mem.length) :
    ccnbBuf mem c old = .ok (new, c') ↔
      (∃ r, Hunts mem (c.pos + c.len) c.pos c'.pos r ∧
        match old with
        | some _ => new = old
        | none => ∃ s, r = some s ∧ new = some (s.bytes mem)) ∧
      c'.pos + c'.len = c.pos + c.len := by
  unfold ccnbBuf
  cases old with
  | some b =>
    simp only [bind_eq_ok, pure_eq_ok]
    constructor
    · rintro ⟨⟨c₁, v⟩, hv, he⟩
      cases he
      obtain ⟨hh, hlim⟩ := (hunt_eq_ok hl).mp hv
      exact ⟨⟨v, hh, rfl⟩, hlim⟩
    · rintro ⟨⟨r, hh, rfl⟩, hlim⟩
      exact ⟨(c', r), (hunt_eq_ok hl).mpr ⟨hh, hlim⟩, rfl⟩
  | none =>
    simp only [bind_eq_ok, pure_eq_ok, rdBytes_eq_ok]
    constructor
    · rintro ⟨⟨s, c₁⟩, hs, _, ⟨-, rfl⟩, he⟩
      cases he
      obtain ⟨hh, hlim⟩ := (ccnbField_eq_ok hl).mp hs
      exact ⟨⟨_, hh, s, rfl, rfl⟩, hlim⟩
    · rintro ⟨⟨r, hh, s, rfl, rfl⟩, hlim⟩
      have hs := (ccnbField_eq_ok hl).mpr ⟨hh, hlim⟩
      exact ⟨(s, c'), hs, _, ⟨(inBuf_of_field hl hs).2, rfl⟩, rfl⟩

theorem ccnbBuf_ends {old new : Option (List UInt8)} (hl : c.pos + c.len ≤ mem.length)
    (h : ccnbBuf mem c old = .ok (new, c')) :
    BufEnds mem (c.pos + c.len) old.isSome c.pos c'.pos ∧ new.isSome = true ∧
      c'.pos + c'.len = c.pos + c.len := by
  obtain ⟨⟨r, hr, hv⟩, hlim⟩ := (ccnbBuf_eq_ok hl).mp h
  cases old with
  | some b =>
    cases hv
    exact ⟨⟨r, hr, fun h => nomatch h⟩, rfl, hlim⟩
  | none =>
    obtain ⟨s, rfl, rfl⟩ := hv
    exact ⟨⟨_, hr, fun _ => rfl⟩, rfl, hlim⟩

theorem BufEnds.ccnbBuf {old : Option (List UInt8)} {q' : Nat} (hl : c.pos + c.len ≤ mem.length)
    (h : BufEnds mem (c.pos + c.len) old.isSome c.pos q') :
    ∃ new, ccnbBuf mem c old = .ok (new, ⟨q', c.pos + c.len - q'⟩) ∧ new.isSome = true := by
  obtain ⟨r, hr, hs⟩ := h
  have hlim : q' + (c.pos + c.len - q') = c.pos + c.len := by
    have := hr.lt
    omega
  cases old with
  | some b => exact ⟨some b, (ccnbBuf_eq_ok hl).mpr ⟨⟨r, hr, rfl⟩, hlim⟩, rfl⟩
  | none =>
    obtain ⟨s, rfl⟩ := Option.isSome_iff_exists.mp (hs rfl)
    exact ⟨_, (ccnbBuf_eq_ok hl).mpr ⟨⟨_, hr, s, rfl, rfl⟩, hlim⟩, rfl⟩

theorem UintEnds.ccnbUint {bound q' : Nat} (hl : c.pos + c.len ≤ mem.length)
    (h : UintEnds mem (c.pos + c.len) bound c.pos q') :
    ∃ v, ccnbUint mem c bound = .ok (v, ⟨q', c.pos + c.len - q'⟩) := by
  obtain ⟨s, v, hr, hv, hle⟩ := h
  have := hr.lt
  exact ⟨v, (ccnbUint_eq_ok hl).mpr ⟨⟨s, hr, hv, hle⟩, by simp only; omega⟩⟩

end Field

end Ccnl
