import CcnLite.Pkt.Ccnb

/-!
# The bytes that the CCNB parser walks

The wire format by itself. `CcnbAt` is a header, `Hunts` says where the end marker is that closes
the element that one is in, and `Overruns` that a blob is longer than what is left before it. Both
follow the nesting of the elements; `hunt_eq_ok` and `safe_hunt` are about the two functions of the
parser that call each other.
-/

namespace Ccnl

open CRun

/-! ## Headers -/

/-- The number, the type and the size of the header at the front of the bytes, after bytes that add
up to `val`. -/
def ccnbNumber : List UInt8 → Nat → Option ((Nat × Nat) × Nat)
  | [], _ => none
  | b :: bs, val =>
    if 0x80 ≤ b then some ((val * 2 ^ 4 + ((b >>> 3) &&& 0xf).toNat, (b &&& 0x7).toNat), 1)
    else (ccnbNumber bs (val * 2 ^ 7 + b.toNat)).map fun x => (x.1, x.2 + 1)

/-- The header at the front of the bytes: an end marker, or a number of at most eight bytes. -/
def ccnbHeader : List UInt8 → Option ((Nat × Nat) × Nat)
  | [] => none
  | b :: bs => if b = 0 then some ((0, 0), 1) else ccnbNumber ((b :: bs).take 8) 0

/-- A header at `p` below `lim`, with what follows it at `q`. -/
def CcnbAt (mem : List UInt8) (lim p num typ q : Nat) : Prop :=
  ∃ k, ccnbHeader ((mem.drop p).take (lim - p)) = some ((num, typ), k) ∧ q = p + k

theorem ccnbNumber_size {bs : List UInt8} {val : Nat} {h : Nat × Nat} {k : Nat}
    (he : ccnbNumber bs val = some (h, k)) : 0 < k ∧ k ≤ bs.length := by
  induction bs generalizing val h k with
  | nil => cases he
  | cons b bs ih =>
    unfold ccnbNumber at he
    split at he
    · cases he
      simp
    · obtain ⟨⟨h', k'⟩, hr, he⟩ := Option.map_eq_some_iff.mp he
      cases he
      have := ih hr
      simp only [List.length_cons]
      omega

theorem ccnbHeader_size {bs : List UInt8} {h : Nat × Nat} {k : Nat}
    (he : ccnbHeader bs = some (h, k)) : 0 < k ∧ k ≤ bs.length := by
  unfold ccnbHeader at he
  split at he
  · cases he
  · split at he
    · cases he
      simp
    · have := ccnbNumber_size he
      rw [List.length_take] at this
      omega

theorem CcnbAt.lt {mem : List UInt8} {lim p num typ q : Nat} (h : CcnbAt mem lim p num typ q) :
    p < q ∧ q ≤ lim ∧ q ≤ mem.length := by
  obtain ⟨k, hk, rfl⟩ := h
  have := ccnbHeader_size hk
  simp only [List.length_take, List.length_drop] at this
  omega

/-- The header at an index is determined by the bytes. -/
theorem CcnbAt.unique {mem : List UInt8} {lim p num typ q num' typ' q' : Nat}
    (h : CcnbAt mem lim p num typ q) (h' : CcnbAt mem lim p num' typ' q') :
    num = num' ∧ typ = typ' ∧ q = q' := by
  obtain ⟨k, hk, rfl⟩ := h
  obtain ⟨k', hk', rfl⟩ := h'
  rw [hk] at hk'
  cases hk'
  exact ⟨rfl, rfl, rfl⟩

theorem CcnbAt.exists_iff {mem : List UInt8} {lim p num typ q : Nat}
    (h : CcnbAt mem lim p num typ q) {P : Nat → Nat → Nat → Prop} :
    (∃ num' typ' q', CcnbAt mem lim p num' typ' q' ∧ P num' typ' q') ↔ P num typ q := by
  constructor
  · rintro ⟨num', typ', q', h', hp⟩
    obtain ⟨rfl, rfl, rfl⟩ := h.unique h'
    exact hp
  · exact fun hp => ⟨num, typ, q, h, hp⟩

theorem CcnbAt.forall_iff {mem : List UInt8} {lim p num typ q : Nat}
    (h : CcnbAt mem lim p num typ q) {P : Nat → Nat → Nat → Prop} :
    (∀ num' typ' q', CcnbAt mem lim p num' typ' q' → P num' typ' q') ↔ P num typ q := by
  constructor
  · exact fun hp => hp _ _ _ h
  · intro hp num' typ' q' h'
    obtain ⟨rfl, rfl, rfl⟩ := h.unique h'
    exact hp

section Decode

variable {mem : List UInt8}

theorem window_cons {c : Cursor} {b : UInt8} (hlen : c.len ≠ 0) (hb : mem[c.pos]? = some b) :
    (mem.drop c.pos).take c.len = b :: (mem.drop (c.pos + 1)).take (c.len - 1) := by
  obtain ⟨hp, rfl⟩ := List.getElem?_eq_some_iff.mp hb
  obtain ⟨n, hn⟩ : ∃ n, c.len = n + 1 := ⟨c.len - 1, by omega⟩
  rw [hn, List.drop_eq_getElem_cons hp, List.take_succ_cons, Nat.add_sub_cancel]

theorem ccnbDeheadFrom_eq {k val : Nat} {c : Cursor} (hlim : c.pos + c.len ≤ mem.length) :
    ccnbDeheadFrom mem k val c =
      .ok ((ccnbNumber (((mem.drop c.pos).take c.len).take k) val).map fun x =>
        (x.1, ⟨c.pos + x.2, c.len - x.2⟩)) := by
  induction k generalizing val c with
  | zero => simp [ccnbDeheadFrom, ccnbNumber]
  | succ k ih =>
    unfold ccnbDeheadFrom
    by_cases hlen : c.len = 0
    · simp [hlen, ccnbNumber, pure, Except.pure]
    obtain ⟨b, hb⟩ : ∃ b, mem[c.pos]? = some b := ⟨_, List.getElem?_eq_getElem (by omega)⟩
    rw [if_neg hlen, rd_eq_ok.mpr hb, window_cons hlen hb, List.take_succ_cons]
    simp only [ccnbNumber, ok_bind]
    split
    · rfl
    · rw [ih (by simp only; omega), Option.map_map]
      congr 2
      funext x
      simp only [Function.comp_apply, Prod.mk.injEq, Cursor.mk.injEq, true_and]
      omega

theorem ccnbDehead_eq {c : Cursor} (hlim : c.pos + c.len ≤ mem.length) :
    ccnbDehead mem c = .ok ((ccnbHeader ((mem.drop c.pos).take c.len)).map fun x =>
      (x.1, ⟨c.pos + x.2, c.len - x.2⟩)) := by
  unfold ccnbDehead
  by_cases hlen : c.len = 0
  · simp [hlen, ccnbHeader, pure, Except.pure]
  obtain ⟨b, hb⟩ : ∃ b, mem[c.pos]? = some b := ⟨_, List.getElem?_eq_getElem (by omega)⟩
  rw [if_neg hlen, rd_eq_ok.mpr hb, ccnbDeheadFrom_eq hlim, window_cons hlen hb]
  simp only [ccnbHeader, ok_bind]
  split <;> rfl

/-- `ccnbDehead` returns the header on the wire. -/
theorem ccnbDehead_eq_some {c c' : Cursor} {num typ : Nat} (hlim : c.pos + c.len ≤ mem.length) :
    ccnbDehead mem c = .ok (some ((num, typ), c')) ↔
      CcnbAt mem (c.pos + c.len) c.pos num typ c'.pos ∧ c'.pos + c'.len = c.pos + c.len := by
  rw [ccnbDehead_eq hlim]
  unfold CcnbAt
  rw [Nat.add_sub_cancel_left]
  obtain ⟨q, l⟩ := c'
  simp only [Except.ok.injEq, Option.map_eq_some_iff]
  constructor
  · rintro ⟨⟨h, k⟩, hk, he⟩
    cases he
    have := ccnbHeader_size hk
    simp only [List.length_take, List.length_drop] at this
    exact ⟨⟨k, hk, rfl⟩, by simp only; omega⟩
  · rintro ⟨⟨k, hk, rfl⟩, hl⟩
    refine ⟨_, hk, ?_⟩
    simp only [Prod.mk.injEq, Cursor.mk.injEq, true_and]
    omega

/-- `ccnbDehead` fails where there is no header. -/
theorem ccnbDehead_eq_none {c : Cursor} (hlim : c.pos + c.len ≤ mem.length) :
    ccnbDehead mem c = .ok none ↔
      ∀ num typ q, ¬ CcnbAt mem (c.pos + c.len) c.pos num typ q := by
  rw [ccnbDehead_eq hlim]
  unfold CcnbAt
  rw [Nat.add_sub_cancel_left]
  cases h : ccnbHeader ((mem.drop c.pos).take c.len) with
  | none => simp
  | some x => exact iff_of_false (by simp) fun hn => hn x.1.1 x.1.2 (c.pos + x.2) ⟨x.2, rfl, rfl⟩

/-- Either there is no header, or the cursor goes past it. -/
theorem ccnbDehead_cases {c : Cursor} (hlim : c.pos + c.len ≤ mem.length) :
    (ccnbDehead mem c = .ok none ∧ ∀ num typ q, ¬ CcnbAt mem (c.pos + c.len) c.pos num typ q) ∨
      ∃ num typ c', ccnbDehead mem c = .ok (some ((num, typ), c')) ∧
        CcnbAt mem (c.pos + c.len) c.pos num typ c'.pos ∧ c'.pos + c'.len = c.pos + c.len := by
  obtain ⟨x, hx⟩ : ∃ x, ccnbDehead mem c = .ok x := ⟨_, ccnbDehead_eq hlim⟩
  match x with
  | none => exact .inl ⟨hx, (ccnbDehead_eq_none hlim).mp hx⟩
  | some ((num, typ), c') => exact .inr ⟨num, typ, c', hx, (ccnbDehead_eq_some hlim).mp hx⟩

theorem CcnbAt.dehead {c : Cursor} {num typ q : Nat} (hlim : c.pos + c.len ≤ mem.length)
    (h : CcnbAt mem (c.pos + c.len) c.pos num typ q) :
    ccnbDehead mem c = .ok (some ((num, typ), ⟨q, c.pos + c.len - q⟩)) := by
  have := h.lt
  exact (ccnbDehead_eq_some hlim).mpr ⟨h, by simp only; omega⟩

end Decode

/-! ## Nested elements -/

/-- An end marker. -/
def IsEnd (num typ : Nat) : Prop := num = 0 ∧ typ = 0

/-- An element that is so many bytes. -/
def IsBlob (typ : Nat) : Prop := typ = ccnTtBlob ∨ typ = ccnTtUdata

/-- An element with others inside. -/
def IsOpen (typ : Nat) : Prop := typ = ccnTtDtag ∨ typ = ccnTtDattr

instance (num typ : Nat) : Decidable (IsEnd num typ) := inferInstanceAs (Decidable (_ ∧ _))

instance (typ : Nat) : Decidable (IsBlob typ) := inferInstanceAs (Decidable (_ ∨ _))

instance (typ : Nat) : Decidable (IsOpen typ) := inferInstanceAs (Decidable (_ ∨ _))

theorem not_isEnd_of_blob {num typ : Nat} (h : IsBlob typ) : ¬ IsEnd num typ := by
  rintro ⟨-, rfl⟩
  rcases h with h | h <;> cases h

theorem not_isEnd_of_open {num typ : Nat} (h : IsOpen typ) : ¬ IsEnd num typ := by
  rintro ⟨-, rfl⟩
  rcases h with h | h <;> cases h

theorem not_isOpen_of_blob {typ : Nat} (h : IsBlob typ) : ¬ IsOpen typ := by
  rintro (rfl | rfl) <;> rcases h with h | h <;> cases h

section Nesting

variable (mem : List UInt8) (lim : Nat)

/-- From `p` on, the end marker that closes the element is the one before `p'`; `r` is the last blob
on the way. -/
inductive Hunts : Nat → Nat → Option Span → Prop
  | fin {p q : Nat} : CcnbAt mem lim p 0 0 q → Hunts p q none
  | blob {p num typ q p' : Nat} {r : Option Span} : CcnbAt mem lim p num typ q → IsBlob typ →
      q + num ≤ lim → Hunts (q + num) p' r → Hunts p p' (r.or (some ⟨q, num⟩))
  | elem {p num typ q q' p' : Nat} {r₁ r : Option Span} : CcnbAt mem lim p num typ q →
      IsOpen typ → Hunts q q' r₁ → Hunts q' p' r → Hunts p p' (r.or r₁)

/-- On the way from `p` on to the end marker, a blob comes that ends behind the limit. -/
inductive Overruns : Nat → Prop
  | here {p num typ q : Nat} : CcnbAt mem lim p num typ q → IsBlob typ → lim < q + num →
      Overruns p
  | blob {p num typ q : Nat} : CcnbAt mem lim p num typ q → IsBlob typ → q + num ≤ lim →
      Overruns (q + num) → Overruns p
  | inside {p num typ q : Nat} : CcnbAt mem lim p num typ q → IsOpen typ → Overruns q →
      Overruns p
  | elem {p num typ q q' : Nat} {r : Option Span} : CcnbAt mem lim p num typ q → IsOpen typ →
      Hunts mem lim q q' r → Overruns q' → Overruns p

/-- An element with its header before `q` ends at `q'`; `r` is the last blob in it. -/
def Skips (typ num q q' : Nat) (r : Option Span) : Prop :=
  IsBlob typ ∧ q + num ≤ lim ∧ q' = q + num ∧ r = some ⟨q, num⟩ ∨
    IsOpen typ ∧ Hunts mem lim q q' r

/-- In an element with its header before `q`, a blob ends behind the limit. -/
def SkipOverruns (typ num q : Nat) : Prop :=
  IsBlob typ ∧ lim < q + num ∨ IsOpen typ ∧ Overruns mem lim q

variable {mem lim}

theorem Hunts.lt {p p' : Nat} {r : Option Span} (h : Hunts mem lim p p' r) :
    p < p' ∧ p' ≤ lim := by
  induction h with
  | fin hat => exact ⟨hat.lt.1, hat.lt.2.1⟩
  | blob hat _ _ _ ih =>
    have := hat.lt
    omega
  | elem hat _ _ _ ih₁ ih =>
    have := hat.lt
    omega

theorem Skips.le {typ num q q' : Nat} {r : Option Span} (h : Skips mem lim typ num q q' r) :
    q ≤ q' ∧ q' ≤ lim := by
  rcases h with ⟨-, hle, rfl, -⟩ | ⟨-, h⟩
  · omega
  · have := h.lt
    omega

/-- Blobs are inside the element that they are found in. -/
theorem Hunts.within {p p' : Nat} {r : Option Span} {s : Span} (h : Hunts mem lim p p' r)
    (hs : r = some s) : s.Within p p' := by
  induction h with
  | fin => cases hs
  | @blob p num typ q p' r hat _ _ hr ih =>
    have := hat.lt
    have := hr.lt
    cases r with
    | none =>
      cases hs
      exact ⟨by simp only; omega, by simp only; omega⟩
    | some t => exact (ih hs).mono (by omega) (Nat.le_refl _)
  | @elem p num typ q q' p' r₁ r hat _ h₁ hr ih₁ ih =>
    have := hat.lt
    have := h₁.lt
    have := hr.lt
    cases r with
    | none => exact (ih₁ hs).mono (by omega) (by omega)
    | some t => exact (ih hs).mono (by omega) (Nat.le_refl _)

theorem hunts_iff_of_isEnd {p num typ q p' : Nat} {r : Option Span}
    (hat : CcnbAt mem lim p num typ q) (he : IsEnd num typ) :
    Hunts mem lim p p' r ↔ p' = q ∧ r = none := by
  obtain ⟨rfl, rfl⟩ := he
  constructor
  · intro h
    cases h with
    | fin hat' => exact ⟨(hat'.unique hat).2.2, rfl⟩
    | blob hat' hb => exact absurd ⟨(hat'.unique hat).1, (hat'.unique hat).2.1⟩ (not_isEnd_of_blob hb)
    | elem hat' ho => exact absurd ⟨(hat'.unique hat).1, (hat'.unique hat).2.1⟩ (not_isEnd_of_open ho)
  · rintro ⟨rfl, rfl⟩
    exact .fin hat

/-- The way to the end marker goes past one element. -/
theorem hunts_iff_of_not_isEnd {p num typ q p' : Nat} {r : Option Span}
    (hat : CcnbAt mem lim p num typ q) (he : ¬ IsEnd num typ) :
    Hunts mem lim p p' r ↔
      ∃ q' r₁ r₂, Skips mem lim typ num q q' r₁ ∧ Hunts mem lim q' p' r₂ ∧ r = r₂.or r₁ := by
  constructor
  · intro h
    cases h with
    | fin hat' =>
      obtain ⟨h₁, h₂, -⟩ := hat.unique hat'
      exact absurd ⟨h₁, h₂⟩ he
    | blob hat' hb hle hr =>
      obtain ⟨rfl, rfl, rfl⟩ := hat.unique hat'
      exact ⟨_, _, _, .inl ⟨hb, hle, rfl, rfl⟩, hr, rfl⟩
    | elem hat' ho h₁ hr =>
      obtain ⟨rfl, rfl, rfl⟩ := hat.unique hat'
      exact ⟨_, _, _, .inr ⟨ho, h₁⟩, hr, rfl⟩
  · rintro ⟨q', r₁, r₂, ⟨hb, hle, rfl, rfl⟩ | ⟨ho, h₁⟩, hr, rfl⟩
    · exact .blob hat hb hle hr
    · exact .elem hat ho h₁ hr

theorem not_overruns_of_isEnd {p num typ q : Nat} (hat : CcnbAt mem lim p num typ q)
    (he : IsEnd num typ) : ¬ Overruns mem lim p := by
  intro h
  cases h with
  | here hat' hb => exact not_isEnd_of_blob hb (by obtain ⟨rfl, rfl, -⟩ := hat.unique hat'; exact he)
  | blob hat' hb => exact not_isEnd_of_blob hb (by obtain ⟨rfl, rfl, -⟩ := hat.unique hat'; exact he)
  | inside hat' ho => exact not_isEnd_of_open ho (by obtain ⟨rfl, rfl, -⟩ := hat.unique hat'; exact he)
  | elem hat' ho => exact not_isEnd_of_open ho (by obtain ⟨rfl, rfl, -⟩ := hat.unique hat'; exact he)

theorem overruns_iff {p num typ q : Nat} (hat : CcnbAt mem lim p num typ q) :
    Overruns mem lim p ↔ SkipOverruns mem lim typ num q ∨
      ∃ q' r, Skips mem lim typ num q q' r ∧ Overruns mem lim q' := by
  constructor
  · intro h
    cases h with
    | here hat' hb hlt =>
      obtain ⟨rfl, rfl, rfl⟩ := hat.unique hat'
      exact .inl (.inl ⟨hb, hlt⟩)
    | blob hat' hb hle ho =>
      obtain ⟨rfl, rfl, rfl⟩ := hat.unique hat'
      exact .inr ⟨_, _, .inl ⟨hb, hle, rfl, rfl⟩, ho⟩
    | inside hat' ho hi =>
      obtain ⟨rfl, rfl, rfl⟩ := hat.unique hat'
      exact .inl (.inr ⟨ho, hi⟩)
    | elem hat' ho hh hr =>
      obtain ⟨rfl, rfl, rfl⟩ := hat.unique hat'
      exact .inr ⟨_, _, .inr ⟨ho, hh⟩, hr⟩
  · rintro ((⟨hb, hlt⟩ | ⟨ho, hi⟩) | ⟨q', r, ⟨hb, hle, rfl, -⟩ | ⟨ho, hh⟩, hr⟩)
    · exact .here hat hb hlt
    · exact .inside hat ho hi
    · exact .blob hat hb hle hr
    · exact .elem hat ho hh hr

end Nesting

/-! ## The two functions -/

section Functions

variable {mem : List UInt8}

/-- What a call returns: the cursor after the element, and the last blob if there was one. -/
def Returns (hunt : Run (Cursor × Option Span)) (R : Nat → Option Span → Prop) (lim : Nat)
    (v : Option Span) : Prop :=
  ∀ c' v', hunt = .ok (c', v') ↔ ∃ r, R c'.pos r ∧ v' = r.or v ∧ c'.pos + c'.len = lim

theorem consumeWith_returns {hunt : Cursor → Option Span → Run (Cursor × Option Span)}
    {typ num : Nat} {c : Cursor} {v : Option Span}
    (hh : IsOpen typ →
      Returns (hunt c v) (Hunts mem (c.pos + c.len) c.pos) (c.pos + c.len) v) :
    Returns (consumeWith hunt typ num c v) (Skips mem (c.pos + c.len) typ num c.pos)
      (c.pos + c.len) v := by
  rintro ⟨q', l'⟩ v'
  unfold consumeWith
  change (if IsBlob typ then _ else if IsOpen typ then _ else _) = _ ↔ _
  unfold Skips
  by_cases hb : IsBlob typ
  · simp only [hb, ↓reduceIte, not_isOpen_of_blob hb, false_and, or_false, true_and, bind_eq_ok,
      Cursor.skip_eq_ok, pure_eq_ok]
    constructor
    · rintro ⟨_, ⟨hle, rfl⟩, he⟩
      cases he
      exact ⟨_, ⟨by omega, rfl, rfl⟩, rfl, by omega⟩
    · rintro ⟨_, ⟨hle, rfl, rfl⟩, rfl, hl⟩
      refine ⟨_, ⟨by omega, rfl⟩, ?_⟩
      simp only [Option.some_or, Prod.mk.injEq, Cursor.mk.injEq, true_and, and_true]
      omega
  · by_cases ho : IsOpen typ
    · simpa only [hb, ho, ↓reduceIte, false_and, false_or, true_and] using hh ho ⟨q', l'⟩ v'
    · simp [hb, ho]

theorem safe_consumeWith {hunt : Cursor → Option Span → Run (Cursor × Option Span)}
    {typ num : Nat} {c : Cursor} {v : Option Span}
    (hh : IsOpen typ → (Safe (hunt c v) ↔ ¬ Overruns mem (c.pos + c.len) c.pos)) :
    Safe (consumeWith hunt typ num c v) ↔ ¬ SkipOverruns mem (c.pos + c.len) typ num c.pos := by
  unfold consumeWith
  change Safe (if IsBlob typ then _ else if IsOpen typ then _ else _) ↔ _
  unfold SkipOverruns
  by_cases hb : IsBlob typ
  · simp [hb, not_isOpen_of_blob hb]
  · by_cases ho : IsOpen typ
    · simp [hb, ho, hh ho]
    · simp [hb, ho]

theorem huntFrom_returns {n : Nat} {c : Cursor} {v : Option Span} (hn : c.len < n)
    (hlim : c.pos + c.len ≤ mem.length) :
    Returns (huntFrom mem n c v) (Hunts mem (c.pos + c.len) c.pos) (c.pos + c.len) v := by
  induction n generalizing c v with
  | zero => omega
  | succ n ih =>
    intro c' v'
    unfold huntFrom
    rcases ccnbDehead_cases hlim with ⟨hx, hno⟩ | ⟨num, typ, c₁, hx, hat, hl⟩ <;> rw [hx, ok_bind]
    · simp only [throw_ne_ok, false_iff, not_exists, not_and]
      intro r hr
      cases hr with
      | fin hat => exact absurd hat (hno _ _ _)
      | blob hat => exact absurd hat (hno _ _ _)
      | elem hat => exact absurd hat (hno _ _ _)
    · have hlt := hat.lt
      by_cases he : IsEnd num typ
      · have he' : num = 0 ∧ typ = 0 := he
        simp only [he', and_self, ↓reduceIte, pure_eq_ok, hunts_iff_of_isEnd hat he]
        constructor
        · intro h
          cases h
          exact ⟨none, ⟨rfl, rfl⟩, rfl, hl⟩
        · rintro ⟨_, ⟨hp, rfl⟩, rfl, hl'⟩
          obtain ⟨q', l'⟩ := c'
          simp only at hp hl'
          simp only [Prod.mk.injEq, and_true]
          ext
          · exact hp.symm
          · simp only
            omega
      · have he' : ¬ (num = 0 ∧ typ = 0) := he
        have hcons := @consumeWith_returns mem _ typ num c₁ v
          fun _ => ih (by omega) (by omega)
        simp only [he', ↓reduceIte, bind_eq_ok, hunts_iff_of_not_isEnd hat he]
        constructor
        · rintro ⟨⟨c₂, v₂⟩, hc₂, h⟩
          obtain ⟨r₁, hs, rfl, hl₂⟩ := (hcons _ _).mp hc₂
          have hle := hs.le
          obtain ⟨r, hr, rfl, hl'⟩ :=
            (ih (c := c₂) (v := r₁.or v) (by omega) (by omega) _ _).mp h
          rw [hl] at hs
          rw [hl₂, hl] at hr
          exact ⟨r.or r₁, ⟨_, _, _, hs, hr, rfl⟩, by rw [Option.or_assoc], by omega⟩
        · rintro ⟨_, ⟨q', r₁, r, hs, hr, rfl⟩, rfl, hl'⟩
          rw [← hl] at hs
          have hle := hs.le
          refine ⟨(⟨q', c.pos + c.len - q'⟩, r₁.or v), (hcons _ _).mpr
            ⟨r₁, hs, rfl, by simp only; omega⟩, (ih (by simp only; omega) (by simp only; omega) _ _).mpr
            ⟨r, ?_, by rw [Option.or_assoc], by simp only; omega⟩⟩
          have : q' + (c.pos + c.len - q') = c.pos + c.len := by omega
          simpa only [this] using hr

/-- `ccnl_ccnb_hunt_for_end` returns at the end marker on the wire. -/
theorem hunt_returns {c : Cursor} {v : Option Span} (hlim : c.pos + c.len ≤ mem.length) :
    Returns (ccnbHuntForEnd mem c v) (Hunts mem (c.pos + c.len) c.pos) (c.pos + c.len) v :=
  huntFrom_returns (Nat.lt_succ_self _) hlim

/-- `ccnl_ccnb_consume` returns behind the element on the wire. -/
theorem consume_returns {typ num : Nat} {c : Cursor} {v : Option Span}
    (hlim : c.pos + c.len ≤ mem.length) :
    Returns (ccnbConsume mem typ num c v) (Skips mem (c.pos + c.len) typ num c.pos)
      (c.pos + c.len) v :=
  consumeWith_returns fun _ => hunt_returns hlim

theorem safe_huntFrom {n : Nat} {c : Cursor} {v : Option Span} (hn : c.len < n)
    (hlim : c.pos + c.len ≤ mem.length) :
    Safe (huntFrom mem n c v) ↔ ¬ Overruns mem (c.pos + c.len) c.pos := by
  induction n generalizing c v with
  | zero => omega
  | succ n ih =>
    unfold huntFrom
    rcases ccnbDehead_cases hlim with ⟨hx, hno⟩ | ⟨num, typ, c₁, hx, hat, hl⟩ <;> rw [hx, ok_bind]
    · simp only [safe_throw, true_iff]
      intro h
      cases h with
      | here hat => exact hno _ _ _ hat
      | blob hat => exact hno _ _ _ hat
      | inside hat => exact hno _ _ _ hat
      | elem hat => exact hno _ _ _ hat
    · have hlt := hat.lt
      by_cases he : IsEnd num typ
      · have he' : num = 0 ∧ typ = 0 := he
        simp [he', not_overruns_of_isEnd hat he]
      · have he' : ¬ (num = 0 ∧ typ = 0) := he
        have hcons := @consumeWith_returns mem _ typ num c₁ v
          fun _ => huntFrom_returns (n := n) (by omega) (by omega)
        have hsafe := @safe_consumeWith mem _ typ num c₁ v
          fun _ => ih (by omega) (by omega)
        simp only [he', ↓reduceIte, safe_bind, hsafe, hl, overruns_iff hat, not_or, not_exists,
          not_and]
        refine and_congr_right fun _ => ⟨fun h q' r hs => ?_, fun h x hc₂ => ?_⟩
        · rw [← hl] at hs
          have hle := hs.le
          have := h (⟨q', c.pos + c.len - q'⟩, r.or v)
            ((hcons _ _).mpr ⟨r, hs, rfl, by simp only; omega⟩)
          rw [ih (by simp only; omega) (by simp only; omega)] at this
          have hq : q' + (c.pos + c.len - q') = c.pos + c.len := by omega
          simpa only [hq] using this
        · obtain ⟨c₂, v₂⟩ := x
          obtain ⟨r, hs, rfl, hl₂⟩ := (hcons _ _).mp hc₂
          have hle := hs.le
          rw [hl] at hs
          have := h _ _ hs
          rw [← hl, ← hl₂] at this
          exact (ih (c := c₂) (v := r.or v) (by omega) (by omega)).mpr this

theorem safe_hunt {c : Cursor} {v : Option Span} (hlim : c.pos + c.len ≤ mem.length) :
    Safe (ccnbHuntForEnd mem c v) ↔ ¬ Overruns mem (c.pos + c.len) c.pos :=
  safe_huntFrom (Nat.lt_succ_self _) hlim

theorem safe_consume {typ num : Nat} {c : Cursor} {v : Option Span}
    (hlim : c.pos + c.len ≤ mem.length) :
    Safe (ccnbConsume mem typ num c v) ↔ ¬ SkipOverruns mem (c.pos + c.len) typ num c.pos :=
  safe_consumeWith fun _ => safe_hunt hlim

end Functions

end Ccnl
