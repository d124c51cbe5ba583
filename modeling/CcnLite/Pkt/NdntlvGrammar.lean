import CcnLite.Pkt.Ndntlv

/-!
# The bytes that the NDN-TLV parser walks

A description of the wire format by itself: what number stands at an index (`numAt`), what header
stands there (`Head`), and which of these can be read without leaving the buffer.
-/

namespace Ccnl

open CRun Tlv

/-! ## Numbers and headers on the wire -/

/-- How many bytes the number takes that starts with `b`; 0 when `b` starts none. -/
def numSize (b : UInt8) : Nat :=
  if b < 253 then 1 else if b = 253 then 3 else if b = 254 then 5 else 0

/-- The number at index `p`, and the index after it: one byte, or a marker byte and two or four
bytes. -/
def numAt (mem : List UInt8) (p : Nat) : Option (Nat × Nat) :=
  match mem[p]? with
  | none => none
  | some b =>
    if numSize b = 0 ∨ mem.length < p + numSize b then none
    else some (if b < 253 then b.toNat else beNat ((mem.drop (p + 1)).take (numSize b - 1)),
      p + numSize b)

/-- A parser that may go up to `lim` reads no byte outside the buffer when it looks for a number at
`p`: the first byte is there, and so is the rest if it would fit. -/
def NumReadable (mem : List UInt8) (lim p : Nat) : Prop :=
  ∃ b, mem[p]? = some b ∧ (p + numSize b ≤ lim → p + numSize b ≤ mem.length)

/-- A header below `lim`: type `typ`, length `len`, value from index `q` on. The length is compared
with the bytes below `lim` from the start of the header on. -/
def Head (mem : List UInt8) (lim p typ len q : Nat) : Prop :=
  ∃ m, numAt mem p = some (typ, m) ∧ m ≤ lim ∧ numAt mem m = some (len, q) ∧ q ≤ lim ∧
    p + len ≤ lim

/-- Looking for a header at `p` reads no byte outside the buffer. -/
def HeadReadable (mem : List UInt8) (lim p : Nat) : Prop :=
  NumReadable mem lim p ∧
    ∀ typ m, numAt mem p = some (typ, m) → m ≤ lim → NumReadable mem lim m

theorem numAt_lt {mem : List UInt8} {p v m : Nat} (h : numAt mem p = some (v, m)) :
    p < m ∧ m ≤ mem.length := by
  unfold numAt at h
  split at h
  · cases h
  · split at h
    · cases h
    · simp only [Option.some.injEq, Prod.mk.injEq] at h
      omega

theorem Head.lt {mem : List UInt8} {lim p typ len q : Nat} (h : Head mem lim p typ len q) :
    p + 2 ≤ q ∧ q ≤ lim ∧ q ≤ mem.length := by
  obtain ⟨m, h₁, -, h₂, hq, -⟩ := h
  have := numAt_lt h₁
  have := numAt_lt h₂
  omega

/-- The header at an index is determined by the bytes. -/
theorem Head.unique {mem : List UInt8} {lim p typ len q typ' len' q' : Nat}
    (h : Head mem lim p typ len q) (h' : Head mem lim p typ' len' q') :
    typ = typ' ∧ len = len' ∧ q = q' := by
  obtain ⟨m, h₁, -, h₂, -⟩ := h
  obtain ⟨m', h₁', -, h₂', -⟩ := h'
  rw [h₁] at h₁'
  obtain ⟨rfl, rfl⟩ := Prod.mk.inj (Option.some.inj h₁')
  rw [h₂] at h₂'
  obtain ⟨rfl, rfl⟩ := Prod.mk.inj (Option.some.inj h₂')
  exact ⟨rfl, rfl, rfl⟩

/-! ## The decoder reads them -/

section Decode

variable {mem : List UInt8} {c : Cursor}

/-- `ndntlvVarlenint` is confined exactly when the number is readable. -/
theorem safe_varlenint :
    Safe (ndntlvVarlenint mem c) ↔ NumReadable mem (c.pos + c.len) c.pos := by
  unfold ndntlvVarlenint NumReadable
  cases hb : mem[c.pos]? with
  | none =>
    have : mem.length ≤ c.pos := List.getElem?_eq_none_iff.mp hb
    simp [this]
  | some b =>
    have hp := (List.getElem?_eq_some_iff.mp hb).1
    rw [rd_eq_ok.mpr hb, ok_bind]
    simp only [Option.some.injEq, exists_eq_left']
    -- the three forms of a number, and a byte that starts none
    by_cases h₁ : b < 253
    · have h253 : b ≠ 253 := fun h => by simp [h] at h₁
      have h254 : b ≠ 254 := fun h => by simp [h] at h₁
      have hsize : numSize b = 1 := by simp [numSize, h₁]
      simp only [h₁, h253, h254, hsize, true_and, false_and, ↓reduceIte]
      split <;> simp <;> omega
    by_cases h₂ : b = 253
    · have hsize : numSize b = 3 := by simp [numSize, h₂]
      subst h₂
      simp [hsize, InBuf]
    by_cases h₃ : b = 254
    · have hsize : numSize b = 5 := by simp [numSize, h₃]
      subst h₃
      simp [hsize, InBuf]
    · have hsize : numSize b = 0 := by simp [numSize, h₁, h₂, h₃]
      simp [h₁, h₂, h₃, hsize]
      omega

/-- A number behind a marker byte. -/
theorem wide_eq_ok {k v q l : Nat} (hk : k + 1 ≤ c.len) :
    (do
      let bs ← rdBytes mem (c.pos + 1) k
      return some (beNat bs, (⟨c.pos + (k + 1), c.len - (k + 1)⟩ : Cursor))) =
        .ok (some (v, ⟨q, l⟩)) ↔
      ((k = 0 ∨ c.pos + (k + 1) ≤ mem.length) ∧ beNat ((mem.drop (c.pos + 1)).take k) = v ∧
        c.pos + (k + 1) = q) ∧ q ≤ c.pos + c.len ∧ q + l = c.pos + c.len := by
  rw [bind_eq_ok]
  constructor
  · intro ⟨bs, hbs, h⟩
    obtain ⟨hin, rfl⟩ := rdBytes_eq_ok.mp hbs
    cases h
    unfold InBuf at hin
    exact ⟨⟨by omega, rfl, rfl⟩, by omega, by omega⟩
  · rintro ⟨⟨hin, rfl, rfl⟩, hle, hlim⟩
    refine ⟨_, rdBytes_eq_ok.mpr ⟨by unfold InBuf; omega, rfl⟩, ?_⟩
    obtain rfl : l = c.len - (k + 1) := by omega
    rfl

/-- `ndntlvVarlenint` returns the number on the wire, if it ends below the limit. -/
theorem varlenint_eq_ok {v : Nat} {c' : Cursor} :
    ndntlvVarlenint mem c = .ok (some (v, c')) ↔
      numAt mem c.pos = some (v, c'.pos) ∧ c'.pos ≤ c.pos + c.len ∧
        c'.pos + c'.len = c.pos + c.len := by
  unfold ndntlvVarlenint numAt
  obtain ⟨q, l⟩ := c'
  cases hb : mem[c.pos]? with
  | none =>
    have : mem.length ≤ c.pos := List.getElem?_eq_none_iff.mp hb
    simp [this]
  | some b =>
    have hp := (List.getElem?_eq_some_iff.mp hb).1
    rw [rd_eq_ok.mpr hb, ok_bind]
    by_cases h₁ : b < 253
    · have h253 : b ≠ 253 := fun h => by simp [h] at h₁
      have h254 : b ≠ 254 := fun h => by simp [h] at h₁
      have hsize : numSize b = 1 := by simp [numSize, h₁]
      simp only [h₁, h253, h254, hsize, true_and, false_and, ↓reduceIte]
      split <;> simp <;> omega
    by_cases h₂ : b = 253
    · have hsize : numSize b = 3 := by simp [numSize, h₂]
      subst h₂
      simp only [hsize, h₁, false_and, true_and, ↓reduceIte]
      split
      · rename_i hlen
        rw [wide_eq_ok hlen]
        simp
      · simp
        omega
    by_cases h₃ : b = 254
    · have hsize : numSize b = 5 := by simp [numSize, h₃]
      subst h₃
      simp only [hsize, h₁, h₂, false_and, true_and, ↓reduceIte]
      split
      · rename_i hlen
        rw [wide_eq_ok hlen]
        simp
      · simp
        omega
    · have hsize : numSize b = 0 := by simp [numSize, h₁, h₂, h₃]
      simp [h₁, h₂, h₃, hsize]

/-- `ndntlvDehead` is confined exactly when the header is readable. -/
theorem safe_dehead : Safe (ndntlvDehead mem c) ↔ HeadReadable mem (c.pos + c.len) c.pos := by
  unfold ndntlvDehead HeadReadable
  rw [safe_bind, safe_varlenint]
  refine and_congr_right fun _ => ?_
  constructor
  · intro h typ m hm hl
    have := h (some (typ, ⟨m, c.pos + c.len - m⟩))
      (varlenint_eq_ok.mpr ⟨hm, hl, by simp only; omega⟩)
    simp only [safe_bind, safe_varlenint] at this
    have hlim : m + (c.pos + c.len - m) = c.pos + c.len := by omega
    rw [hlim] at this
    exact this.1
  · rintro h (_ | ⟨typ, c₁⟩) hx
    · exact safe_pure _
    · obtain ⟨hn, hl, hlim⟩ := varlenint_eq_ok.mp hx
      simp only [safe_bind, safe_varlenint, hlim]
      refine ⟨h _ _ hn hl, fun y _ => ?_⟩
      rcases y with _ | ⟨vallen, c₂⟩
      · exact safe_pure _
      · simp

/-- `ndntlvDehead` returns the header on the wire. -/
theorem dehead_eq_ok {typ len : Nat} {c' : Cursor} :
    ndntlvDehead mem c = .ok (some (typ, len), c') ↔
      Head mem (c.pos + c.len) c.pos typ len c'.pos ∧ c'.pos + c'.len = c.pos + c.len := by
  unfold ndntlvDehead Head
  constructor
  · intro h
    obtain ⟨x, hx, h⟩ := (bind_eq_ok _ _ _).mp h
    match x with
    | none => simp at h
    | some (t, c₁) =>
      obtain ⟨hn, hl, hlim⟩ := varlenint_eq_ok.mp hx
      obtain ⟨y, hy, h⟩ := (bind_eq_ok _ _ _).mp h
      match y with
      | none => simp at h
      | some (vl, c₂) =>
        obtain ⟨hn₂, hl₂, hlim₂⟩ := varlenint_eq_ok.mp hy
        simp only at h
        split at h
        · simp at h
        · simp only [pure_eq_ok, Prod.mk.injEq, Option.some.injEq] at h
          obtain ⟨⟨rfl, rfl⟩, rfl⟩ := h
          exact ⟨⟨c₁.pos, hn, hl, hn₂, by omega, by omega⟩, by omega⟩
  · rintro ⟨⟨m, hn, hm, hn₂, hq, hlen⟩, hlim⟩
    have h₁ : ndntlvVarlenint mem c = .ok (some (typ, ⟨m, c.pos + c.len - m⟩)) :=
      varlenint_eq_ok.mpr ⟨hn, hm, by simp only; omega⟩
    have h₂ : ndntlvVarlenint mem ⟨m, c.pos + c.len - m⟩ = .ok (some (len, c')) :=
      varlenint_eq_ok.mpr ⟨hn₂, by simp only; omega, by simp only; omega⟩
    have : ¬ c.len < len := by omega
    simp [h₁, h₂, this]

theorem varlenint_cursor {v : Nat} {c' : Cursor}
    (h : ndntlvVarlenint mem c = .ok (some (v, c'))) :
    c.pos < c'.pos ∧ c'.pos + c'.len = c.pos + c.len :=
  ⟨(numAt_lt (varlenint_eq_ok.mp h).1).1, (varlenint_eq_ok.mp h).2.2⟩

/-- `ndntlvDehead` moves on, also when it fails, and keeps the limit. -/
theorem dehead_cursor {x : Option (Nat × Nat)} {c' : Cursor}
    (h : ndntlvDehead mem c = .ok (x, c')) :
    c.pos ≤ c'.pos ∧ c'.pos + c'.len = c.pos + c.len := by
  unfold ndntlvDehead at h
  obtain ⟨y, hy, h⟩ := (bind_eq_ok _ _ _).mp h
  match y with
  | none =>
    cases h
    exact ⟨Nat.le_refl _, rfl⟩
  | some (typ, c₁) =>
    have h₁ := varlenint_cursor hy
    obtain ⟨z, hz, h⟩ := (bind_eq_ok _ _ _).mp h
    match z with
    | none =>
      cases h
      omega
    | some (vallen, c₂) =>
      have h₂ := varlenint_cursor hz
      simp only at h
      split at h <;> cases h <;> omega

theorem dehead_of_head {typ len q : Nat} (h : Head mem (c.pos + c.len) c.pos typ len q) :
    ndntlvDehead mem c = .ok (some (typ, len), ⟨q, c.pos + c.len - q⟩) := by
  have := h.lt
  exact dehead_eq_ok.mpr ⟨h, by simp only; omega⟩

end Decode

/-- The headers of NDN-TLV, as a header format. -/
def ndnHeader (mem : List UInt8) : Header := ⟨HeadReadable mem, Head mem⟩

theorem dehead_decodes (mem : List UInt8) : Decodes (ndnHeader mem) (ndntlvDehead mem) where
  safe _ := safe_dehead
  ok _ _ _ _ := dehead_eq_ok
  cursor _ _ _ h := dehead_cursor h
  lt _ _ _ _ _ h := ⟨by have := h.lt; omega, h.lt.2.1⟩

/-! ## The kinds of nested elements -/

/-- The unsigned number in the `n` bytes from index `p` on. -/
def uintAt (mem : List UInt8) (p n : Nat) : Nat := nonNeg ((mem.drop p).take n)

@[simp] theorem safe_nonNegInt {mem : List UInt8} {p n : Nat} :
    Safe (ndntlvNonNegInt mem p n) ↔ InBuf mem p n := by
  simp [ndntlvNonNegInt]

@[simp] theorem nonNegInt_eq_ok {mem : List UInt8} {p n v : Nat} :
    ndntlvNonNegInt mem p n = .ok v ↔ InBuf mem p n ∧ uintAt mem p n = v := by
  simp only [ndntlvNonNegInt, uintAt, bind_eq_ok, rdBytes_eq_ok, pure_eq_ok]
  constructor
  · rintro ⟨_, ⟨h, rfl⟩, rfl⟩
    exact ⟨h, rfl⟩
  · rintro ⟨h, rfl⟩
    exact ⟨_, ⟨h, rfl⟩, rfl⟩

@[simp] theorem safe_afterMarker {i : Nat} : Safe (afterMarker i) ↔ 1 ≤ i := by
  unfold afterMarker; split <;> simp_all

@[simp] theorem afterMarker_eq_ok {i j : Nat} : afterMarker i = .ok j ↔ 1 ≤ i ∧ i - 1 = j := by
  unfold afterMarker; split <;> simp_all

/-- A marked number of `i` bytes at `q` can be read. -/
def MarkedReadable (mem : List UInt8) (q i : Nat) : Prop := 1 ≤ i ∧ InBuf mem (q + 1) (i - 1)

@[simp] theorem safe_marked {mem : List UInt8} {q i bound : Nat} :
    Safe (ndnMarked mem q i bound) ↔ MarkedReadable mem q i := by
  unfold ndnMarked MarkedReadable
  simp only [safe_bind, safe_afterMarker, afterMarker_eq_ok, safe_nonNegInt, safe_ite, safe_throw,
    safe_pure, implies_true, and_true]
  exact and_congr_right fun h => ⟨fun h' => h' _ ⟨h, rfl⟩, fun h' _ he => he.2 ▸ h'⟩

@[simp] theorem marked_eq_ok {mem : List UInt8} {q i bound v : Nat} :
    ndnMarked mem q i bound = .ok v ↔
      MarkedReadable mem q i ∧ uintAt mem (q + 1) (i - 1) = v ∧ v < bound := by
  unfold ndnMarked MarkedReadable
  simp only [bind_eq_ok, afterMarker_eq_ok, nonNegInt_eq_ok]
  constructor
  · rintro ⟨_, ⟨h, rfl⟩, _, ⟨h', rfl⟩, hv⟩
    split at hv
    · simp at hv
    · cases hv
      exact ⟨⟨h, h'⟩, rfl, by omega⟩
  · rintro ⟨⟨h, h'⟩, rfl, hv⟩
    exact ⟨_, ⟨h, rfl⟩, _, ⟨h', rfl⟩, by rw [if_neg (by omega)]; rfl⟩

/-- The element is a name component that the code takes in. -/
def IsComponent (typ n : Nat) : Prop := typ = ndnTlvNameComponent ∧ n < maxNameComp

instance (typ n : Nat) : Decidable (IsComponent typ n) := inferInstanceAs (Decidable (_ ∧ _))

/-- Names: the walk counts the components. The first byte of each is looked at, and the segment
number after a marker is read. -/
def nameSpec (mem : List UInt8) : ElemSpec Nat where
  Readable _ typ i q n :=
    IsComponent typ n → q < mem.length ∧
      (mem[q]? = some ndnMarkerSegmentNumber → MarkedReadable mem q i)
  Value _ typ i q n q' i' n' :=
    (IsComponent typ n → q < mem.length ∧ (mem[q]? = some ndnMarkerSegmentNumber →
      MarkedReadable mem q i ∧ uintAt mem (q + 1) (i - 1) ≤ uint32Max)) ∧
    q' = q ∧ i' = i ∧ n' = if IsComponent typ n then n + 1 else n
  Stop _ _ _ := False

/-- The name with the component at `q` taken in. -/
def withComponent (mem : List UInt8) (typ i q : Nat) (p : Prefix) : Prefix :=
  if IsComponent typ p.compcnt then
    { p with
      comp := p.comp ++ [⟨q, i⟩]
      chunknum := if mem[q]? = some ndnMarkerSegmentNumber then some (uintAt mem (q + 1) (i - 1))
        else p.chunknum }
  else p

theorem nameElem_eq_ok {mem : List UInt8} {hd typ i : Nat} {cp : Cursor} {p : Prefix} {e : Elem Prefix} :
    ndnNameElem mem hd typ i cp p = .ok e ↔
      (IsComponent typ p.compcnt → cp.pos < mem.length ∧
        (mem[cp.pos]? = some ndnMarkerSegmentNumber →
          MarkedReadable mem cp.pos i ∧ uintAt mem (cp.pos + 1) (i - 1) ≤ uint32Max)) ∧
      .next cp i (withComponent mem typ i cp.pos p) = e := by
  unfold ndnNameElem withComponent
  change (if IsComponent typ p.compcnt then _ else _) = _ ↔ _
  split
  · rename_i h
    cases hb : mem[cp.pos]? with
    | none =>
      have : mem.length ≤ cp.pos := List.getElem?_eq_none_iff.mp hb
      simp [h, Nat.not_lt.mpr this]
    | some b =>
      have hp := (List.getElem?_eq_some_iff.mp hb).1
      rw [rd_eq_ok.mpr hb, ok_bind]
      by_cases hm : b = ndnMarkerSegmentNumber
      · simp only [hm, ↓reduceIte, bind_eq_ok, marked_eq_ok, pure_eq_ok, h, hp, true_and,
          forall_const]
        constructor
        · rintro ⟨_, ⟨hr, rfl, hv⟩, rfl⟩
          exact ⟨⟨hr, by omega⟩, rfl⟩
        · rintro ⟨⟨hr, hv⟩, rfl⟩
          exact ⟨_, ⟨hr, rfl, by omega⟩, rfl⟩
      · simp [hm, hp, h]
  · rename_i h
    simp [h]

theorem safe_nameElem {mem : List UInt8} {hd typ i : Nat} {cp : Cursor} {p : Prefix} :
    Safe (ndnNameElem mem hd typ i cp p) ↔
      (IsComponent typ p.compcnt → cp.pos < mem.length ∧
        (mem[cp.pos]? = some ndnMarkerSegmentNumber → MarkedReadable mem cp.pos i)) := by
  unfold ndnNameElem
  change Safe (if IsComponent typ p.compcnt then _ else _) ↔ _
  split
  · rename_i h
    cases hb : mem[cp.pos]? with
    | none =>
      have : mem.length ≤ cp.pos := List.getElem?_eq_none_iff.mp hb
      simp [this, h]
    | some b =>
      have hp := (List.getElem?_eq_some_iff.mp hb).1
      rw [rd_eq_ok.mpr hb, ok_bind]
      by_cases hm : b = ndnMarkerSegmentNumber <;> simp [hm, hp, h]
  · simp_all

theorem compcnt_withComponent {mem : List UInt8} {typ i q : Nat} {p : Prefix} :
    (withComponent mem typ i q p).compcnt =
      if IsComponent typ p.compcnt then p.compcnt + 1 else p.compcnt := by
  unfold withComponent
  split <;> simp [Prefix.compcnt]

theorem nameSpec_models (mem : List UInt8) :
    Models (nameSpec mem) (ndnNameElem mem) Prefix.compcnt where
  readable _ _ _ _ _ := safe_nameElem
  value hd typ i cp p q' i' n' := by
    simp only [nameElem_eq_ok, nameSpec, Elem.next.injEq]
    constructor
    · rintro ⟨h, rfl, rfl, rfl⟩
      exact ⟨cp, _, ⟨h, rfl, rfl, rfl⟩, rfl, compcnt_withComponent⟩
    · rintro ⟨_, _, ⟨h, rfl, rfl, rfl⟩, rfl, rfl⟩
      exact ⟨h, rfl, rfl, compcnt_withComponent⟩
  cursor hd typ i cp p cp' i' p' h := by
    simp only [nameElem_eq_ok, Elem.next.injEq] at h
    obtain ⟨-, rfl, -⟩ := h
    exact ⟨Nat.le_refl _, rfl⟩
  stop hd typ i cp p := by simp [nameElem_eq_ok, nameSpec]

/-- Selectors: the suffix bounds are read. -/
def selectorsSpec (mem : List UInt8) : ElemSpec Unit where
  Readable _ typ i q _ :=
    typ = ndnTlvMinSuffixComponents ∨ typ = ndnTlvMaxSuffixComponents → InBuf mem q i
  Value _ typ i q _ q' i' _ :=
    (typ = ndnTlvMinSuffixComponents ∨ typ = ndnTlvMaxSuffixComponents → InBuf mem q i) ∧
    q' = q ∧ i' = i
  Stop _ _ _ := False

theorem selectorsElem_eq_ok {mem : List UInt8} {hd typ i : Nat} {cp : Cursor} {d : NdntlvDetail}
    {e : Elem NdntlvDetail} (h : ndnSelectorsElem mem hd typ i cp d = .ok e) :
    (typ = ndnTlvMinSuffixComponents ∨ typ = ndnTlvMaxSuffixComponents → InBuf mem cp.pos i) ∧
      ∃ d', e = .next cp i d' := by
  unfold ndnSelectorsElem at h
  split at h
  · obtain ⟨v, hv, h⟩ := (bind_eq_ok _ _ _).mp h
    cases h
    exact ⟨fun _ => (nonNegInt_eq_ok.mp hv).1, _, rfl⟩
  split at h
  · obtain ⟨v, hv, h⟩ := (bind_eq_ok _ _ _).mp h
    cases h
    exact ⟨fun _ => (nonNegInt_eq_ok.mp hv).1, _, rfl⟩
  split at h <;> cases h <;> exact ⟨fun h => by simp_all, _, rfl⟩

theorem safe_selectorsElem {mem : List UInt8} {hd typ i : Nat} {cp : Cursor} {d : NdntlvDetail} :
    Safe (ndnSelectorsElem mem hd typ i cp d) ↔
      (typ = ndnTlvMinSuffixComponents ∨ typ = ndnTlvMaxSuffixComponents → InBuf mem cp.pos i) := by
  unfold ndnSelectorsElem
  split
  · simp_all
  split
  · simp_all
  split <;> simp_all

theorem selectorsElem_returns {mem : List UInt8} {hd typ i : Nat} {cp : Cursor} {d : NdntlvDetail}
    (h : typ = ndnTlvMinSuffixComponents ∨ typ = ndnTlvMaxSuffixComponents → InBuf mem cp.pos i) :
    ∃ d', ndnSelectorsElem mem hd typ i cp d = .ok (.next cp i d') := by
  unfold ndnSelectorsElem
  split
  · simp_all
  split
  · simp_all
  split <;> exact ⟨_, rfl⟩

theorem selectorsSpec_models (mem : List UInt8) :
    Models (selectorsSpec mem) (ndnSelectorsElem mem) (fun _ => ()) where
  readable _ _ _ _ _ := safe_selectorsElem
  value hd typ i cp d q' i' b' := by
    constructor
    · rintro ⟨h, rfl, rfl⟩
      obtain ⟨d', hd⟩ := selectorsElem_returns h
      exact ⟨cp, d', hd, rfl, rfl⟩
    · rintro ⟨cp', d', h, rfl, -⟩
      obtain ⟨hr, _, he⟩ := selectorsElem_eq_ok h
      cases he
      exact ⟨hr, rfl, rfl⟩
  cursor hd typ i cp d cp' i' d' h := by
    obtain ⟨-, _, he⟩ := selectorsElem_eq_ok h
    cases he
    exact ⟨Nat.le_refl _, rfl⟩
  stop hd typ i cp d := by
    simp only [selectorsSpec, false_iff, not_exists]
    intro d' h
    obtain ⟨-, _, he⟩ := selectorsElem_eq_ok h
    cases he

/-- SignatureInfo: the walk ends at the type of an HMAC signature. -/
def signatureInfoSpec (mem : List UInt8) : ElemSpec Unit where
  Readable _ typ i q _ := typ = ndnTlvSignatureType ∧ i = 1 → q < mem.length
  Value _ typ i q _ q' i' _ :=
    (typ = ndnTlvSignatureType ∧ i = 1 →
      q < mem.length ∧ mem[q]? ≠ some ndnValSigtypeHmac256) ∧ q' = q ∧ i' = i
  Stop typ i q := (typ = ndnTlvSignatureType ∧ i = 1) ∧ mem[q]? = some ndnValSigtypeHmac256

theorem signatureInfoElem_eq_ok {mem : List UInt8} {hd typ i : Nat} {cp : Cursor} {hmac : Bool}
    {e : Elem Bool} :
    ndnSignatureInfoElem mem hd typ i cp hmac = .ok e ↔
      ((signatureInfoSpec mem).Stop typ i cp.pos ∧ .stop true = e) ∨
      ((typ = ndnTlvSignatureType ∧ i = 1 →
        cp.pos < mem.length ∧ mem[cp.pos]? ≠ some ndnValSigtypeHmac256) ∧
        .next cp i hmac = e) := by
  unfold ndnSignatureInfoElem signatureInfoSpec
  by_cases h : typ = ndnTlvSignatureType ∧ i = 1
  · simp only [h, and_self, ↓reduceIte, forall_const, true_and]
    cases hb : mem[cp.pos]? with
    | none =>
      have : mem.length ≤ cp.pos := List.getElem?_eq_none_iff.mp hb
      simp [Nat.not_lt.mpr this]
    | some b =>
      have hp := (List.getElem?_eq_some_iff.mp hb).1
      rw [rd_eq_ok.mpr hb, ok_bind]
      by_cases hm : b = ndnValSigtypeHmac256 <;> simp [hm, hp]
  · simp [h]

theorem signatureInfoSpec_models (mem : List UInt8) :
    Models (signatureInfoSpec mem) (ndnSignatureInfoElem mem) (fun _ => ()) where
  readable hd typ i cp hmac := by
    unfold ndnSignatureInfoElem signatureInfoSpec
    by_cases h : typ = ndnTlvSignatureType ∧ i = 1
    · simp only [h, and_self, ↓reduceIte, forall_const, safe_bind, safe_rd]
      exact and_iff_left fun b _ => by split <;> simp
    · simp [h]
  value hd typ i cp hmac q' i' b' := by
    simp only [signatureInfoElem_eq_ok, reduceCtorEq, and_false, Elem.next.injEq, false_or]
    constructor
    · rintro ⟨h, rfl, rfl⟩
      exact ⟨cp, hmac, ⟨h, rfl, rfl, rfl⟩, rfl, trivial⟩
    · rintro ⟨_, _, ⟨h, rfl, rfl, -⟩, rfl, -⟩
      exact ⟨h, rfl, rfl⟩
  cursor hd typ i cp hmac cp' i' hmac' h := by
    simp only [signatureInfoElem_eq_ok, reduceCtorEq, and_false, Elem.next.injEq, false_or] at h
    obtain ⟨-, rfl, -⟩ := h
    exact ⟨Nat.le_refl _, rfl⟩
  stop hd typ i cp hmac := by simp [signatureInfoElem_eq_ok]

/-- MetaInfo: the freshness period is read, and FinalBlockId is a component of its own, with a
marked number in it. -/
def metaInfoSpec (mem : List UInt8) : ElemSpec Unit where
  Readable lim typ i q _ :=
    (typ = ndnTlvFreshnessPeriod → InBuf mem q i) ∧
    (typ = ndnTlvFinalBlockId → HeadReadable mem lim q ∧
      ∀ i' q', Head mem lim q ndnTlvNameComponent i' q' → MarkedReadable mem q' i')
  Value lim typ i q _ q' i' _ :=
    if typ = ndnTlvFinalBlockId then
      ∃ typ', Head mem lim q typ' i' q' ∧ (typ' = ndnTlvNameComponent →
        MarkedReadable mem q' i' ∧ uintAt mem (q' + 1) (i' - 1) < 2 ^ 63)
    else (typ = ndnTlvFreshnessPeriod → InBuf mem q i) ∧ q' = q ∧ i' = i
  Stop _ _ _ := False

theorem metaInfo_value_final {mem : List UInt8} {lim typ i q q' i' : Nat}
    (h : typ = ndnTlvFinalBlockId) :
    (metaInfoSpec mem).Value lim typ i q () q' i' () ↔
      ∃ typ', Head mem lim q typ' i' q' ∧ (typ' = ndnTlvNameComponent →
        MarkedReadable mem q' i' ∧ uintAt mem (q' + 1) (i' - 1) < 2 ^ 63) := by
  simp [metaInfoSpec, h]

theorem metaInfo_value_other {mem : List UInt8} {lim typ i q q' i' : Nat}
    (h : typ ≠ ndnTlvFinalBlockId) :
    (metaInfoSpec mem).Value lim typ i q () q' i' () ↔
      (typ = ndnTlvFreshnessPeriod → InBuf mem q i) ∧ q' = q ∧ i' = i := by
  simp [metaInfoSpec, h]

theorem metaInfoElem_eq_ok {mem : List UInt8} {hd typ i : Nat} {cp : Cursor} {a : NdntlvDetail × Nat}
    {e : Elem (NdntlvDetail × Nat)} (h : ndnMetaInfoElem mem hd typ i cp a = .ok e) :
    ∃ cp' i' a', e = .next cp' i' a' ∧ cp.pos ≤ cp'.pos ∧
      cp'.pos + cp'.len = cp.pos + cp.len ∧
      (metaInfoSpec mem).Value (cp.pos + cp.len) typ i cp.pos () cp'.pos i' () := by
  unfold ndnMetaInfoElem at h
  split at h
  · rename_i ht
    obtain ⟨v, hv, h⟩ := (bind_eq_ok _ _ _).mp h
    cases h
    refine ⟨cp, i, _, rfl, Nat.le_refl _, rfl, (metaInfo_value_other ?_).mpr ?_⟩
    · rw [ht]
      decide
    · exact ⟨fun _ => (nonNegInt_eq_ok.mp hv).1, rfl, rfl⟩
  split at h
  · rename_i ht
    obtain ⟨x, hx, h⟩ := (bind_eq_ok _ _ _).mp h
    match x with
    | (none, _) => simp at h
    | (some (typ', i'), cp') =>
      obtain ⟨hh, hlim⟩ := dehead_eq_ok.mp hx
      have := hh.lt
      simp only at h
      split at h
      · rename_i ht'
        obtain ⟨v, hv, h⟩ := (bind_eq_ok _ _ _).mp h
        cases h
        obtain ⟨hr, rfl, hv⟩ := marked_eq_ok.mp hv
        exact ⟨cp', i', _, rfl, by omega, hlim,
          (metaInfo_value_final ht).mpr ⟨typ', hh, fun _ => ⟨hr, hv⟩⟩⟩
      · rename_i ht'
        cases h
        exact ⟨cp', i', _, rfl, by omega, hlim,
          (metaInfo_value_final ht).mpr ⟨typ', hh, fun h => absurd h ht'⟩⟩
  · rename_i ht₁ ht₂
    cases h
    exact ⟨cp, i, _, rfl, Nat.le_refl _, rfl,
      (metaInfo_value_other ht₂).mpr ⟨fun h => absurd h ht₁, rfl, rfl⟩⟩

theorem safe_metaInfoElem {mem : List UInt8} {hd typ i : Nat} {cp : Cursor} {a : NdntlvDetail × Nat} :
    Safe (ndnMetaInfoElem mem hd typ i cp a) ↔
      (metaInfoSpec mem).Readable (cp.pos + cp.len) typ i cp.pos () := by
  unfold ndnMetaInfoElem metaInfoSpec
  split
  · rename_i ht
    have : ¬ typ = ndnTlvFinalBlockId := by rw [ht]; decide
    simp only [ht, forall_const, safe_bind, safe_nonNegInt, safe_pure, implies_true, and_true]
    exact ⟨fun h => ⟨h, fun h' => absurd (ht.trans h') this⟩, fun h => h.1⟩
  split
  · rename_i ht₁ ht
    subst ht
    simp only [ht₁, false_imp_iff, true_and, forall_const, safe_bind, safe_dehead]
    refine and_congr_right fun _ => ⟨fun hx => ?_, fun hx => ?_⟩
    · intro i' q' hh
      have := hx _ (dehead_of_head hh)
      simpa using this
    · rintro ⟨_ | ⟨typ', i'⟩, cp'⟩ hok
      · simp
      · obtain ⟨hh, -⟩ := dehead_eq_ok.mp hok
        by_cases ht' : typ' = ndnTlvNameComponent
        · subst ht'
          simpa using hx _ _ hh
        · simp [ht']
  · simp_all

theorem metaInfoElem_returns {mem : List UInt8} {hd typ i : Nat} {cp : Cursor}
    {a : NdntlvDetail × Nat} {q' i' : Nat}
    (h : (metaInfoSpec mem).Value (cp.pos + cp.len) typ i cp.pos () q' i' ()) :
    ∃ cp' a', ndnMetaInfoElem mem hd typ i cp a = .ok (.next cp' i' a') ∧ cp'.pos = q' := by
  unfold ndnMetaInfoElem
  by_cases ht : typ = ndnTlvFinalBlockId
  · obtain ⟨typ', hh, hv⟩ := (metaInfo_value_final ht).mp h
    rw [if_neg (by rw [ht]; decide), if_pos ht, dehead_of_head hh]
    by_cases ht' : typ' = ndnTlvNameComponent
    · obtain ⟨hr, hv⟩ := hv ht'
      exact ⟨⟨q', cp.pos + cp.len - q'⟩, (a.1, uintAt mem (q' + 1) (i' - 1)),
        by rw [ok_bind]; dsimp only; rw [if_pos ht', marked_eq_ok.mpr ⟨hr, rfl, hv⟩]; rfl, rfl⟩
    · exact ⟨⟨q', cp.pos + cp.len - q'⟩, a, by simp [ht'], rfl⟩
  · obtain ⟨hr, rfl, rfl⟩ := (metaInfo_value_other ht).mp h
    split
    · rename_i ht'
      exact ⟨cp, _, by rw [nonNegInt_eq_ok.mpr ⟨hr ht', rfl⟩]; rfl, rfl⟩
    · exact ⟨cp, _, rfl, rfl⟩

theorem metaInfoSpec_models (mem : List UInt8) :
    Models (metaInfoSpec mem) (ndnMetaInfoElem mem) (fun _ => ()) where
  readable _ _ _ _ _ := safe_metaInfoElem
  value hd typ i cp a q' i' b' := by
    constructor
    · intro h
      obtain ⟨cp', a', he, hq⟩ := metaInfoElem_returns h
      exact ⟨cp', a', he, hq, rfl⟩
    · rintro ⟨cp', a', h, rfl, -⟩
      obtain ⟨_, _, _, he, -, -, hv⟩ := metaInfoElem_eq_ok h
      cases he
      exact hv
  cursor hd typ i cp a cp' i' a' h := by
    obtain ⟨_, _, _, he, hle, hlim, -⟩ := metaInfoElem_eq_ok h
    cases he
    exact ⟨hle, hlim⟩
  stop hd typ i cp a := by
    simp only [metaInfoSpec, false_iff, not_exists]
    intro a' h
    obtain ⟨_, _, _, he, -⟩ := metaInfoElem_eq_ok h
    cases he

/-! ## The parser as a whole -/

section Parser

variable {mem : List UInt8} {start : Nat} {c e : Cursor} {pkt : Pkt}

/-- When `ndntlvBytes2pkt` accepts a packet: the packet loop takes all the bytes, and the packet is a
copy of them. -/
theorem ndntlvBytes2pkt_eq_ok {type : Nat} :
    ndntlvBytes2pkt mem type start c = .ok (pkt, e) ↔
      (type = ndnTlvInterest ∨ type = ndnTlvData) ∧ ∃ t,
        top (ndntlvDehead mem) (ndnElem mem start) c { pkt := ndnPkt type start } = .ok (e, t) ∧
        e.len = 0 ∧
        ∃ buf, rdBytes mem start (e.pos - start) = .ok buf ∧ pkt = t.pkt.rebase start buf := by
  unfold ndntlvBytes2pkt
  by_cases ht : type ≠ ndnTlvInterest ∧ type ≠ ndnTlvData
  · rw [if_pos ht]
    have hne : ¬ (type = ndnTlvInterest ∨ type = ndnTlvData) := by
      rw [not_or]
      exact ht
    simp [hne]
  · rw [if_neg ht]
    have heq : type = ndnTlvInterest ∨ type = ndnTlvData := by
      by_contra hne
      exact ht (not_or.mp hne)
    simp only [heq, true_and]
    constructor
    · intro h
      obtain ⟨⟨e', t⟩, htop, h⟩ := (bind_eq_ok _ _ _).mp h
      dsimp only at h
      split at h
      · simp at h
      · rename_i hlen
        obtain ⟨buf, hbuf, h⟩ := (bind_eq_ok _ _ _).mp h
        cases h
        exact ⟨t, htop, Nat.eq_zero_of_not_pos hlen, buf, hbuf, rfl⟩
    · rintro ⟨t, htop, hlen, buf, hbuf, rfl⟩
      refine (bind_eq_ok _ _ _).mpr ⟨(e, t), htop, ?_⟩
      dsimp only
      rw [if_neg (by omega), hbuf]
      rfl

/-- When `ndntlvParse` accepts a packet: behind a header whose length fits, it is that of
`ndntlvBytes2pkt`. -/
theorem ndntlvParse_eq_ok :
    ndntlvParse mem c = .ok (pkt, e) ↔
      ∃ typ len c₁ pkt', ndntlvDehead mem c = .ok (some (typ, len), c₁) ∧ len ≤ c₁.len ∧
        ndntlvBytes2pkt mem typ c.pos c₁ = .ok (pkt', e) ∧ pkt = { pkt' with type := typ } := by
  unfold ndntlvParse
  constructor
  · intro h
    obtain ⟨⟨x, c₁⟩, hx, h⟩ := (bind_eq_ok _ _ _).mp h
    match x with
    | none => simp at h
    | some (typ, len) =>
      dsimp only at h
      split at h
      · simp at h
      · rename_i hlen
        obtain ⟨⟨pkt', c₂⟩, hp, h⟩ := (bind_eq_ok _ _ _).mp h
        cases h
        exact ⟨typ, len, c₁, pkt', hx, Nat.le_of_not_lt hlen, hp, rfl⟩
  · rintro ⟨typ, len, c₁, pkt', hx, hlen, hp, rfl⟩
    rw [hx, ok_bind]
    dsimp only
    rw [if_neg (Nat.not_lt.mpr hlen), hp]
    rfl

end Parser

end Ccnl
