import CcnLite.Pkt.Ccntlv

/-!
# The bytes that the CCNx-TLV parser walks

The wire format by itself, as a header format and two kinds of elements: those of a Name
(`ccntlvNameSpec`) and those of a message (`ccntlvMessageSpec`). The bodies of the parser's loops
are bodies for these kinds.
-/

namespace Ccnl

open CRun Tlv

/-! ## Headers -/

/-- A header below `lim`: type `typ`, length `len`, value from index `q` on. The length is compared
with the bytes below `lim` from the start of the header on. -/
def CcntlvHead (mem : List UInt8) (lim p typ len q : Nat) : Prop :=
  q = p + 4 ∧ q ≤ lim ∧ q ≤ mem.length ∧ typ = beNat (((mem.drop p).take 4).take 2) ∧
    len = beNat (((mem.drop p).take 4).drop 2) ∧ p + len ≤ lim

/-- The headers of CCNx-TLV, as a header format. -/
def ccntlvHeaders (mem : List UInt8) : Header where
  Readable lim p := p + 4 ≤ lim → p + 4 ≤ mem.length
  Head := CcntlvHead mem

section Decode

variable {mem : List UInt8} {c : Cursor}

theorem safe_ccntlvDehead :
    Safe (ccntlvDehead mem c) ↔ (ccntlvHeaders mem).Readable (c.pos + c.len) c.pos := by
  unfold ccntlvDehead ccntlvHeaders
  by_cases h : c.len < 4
  · simp only [h, ↓reduceIte, safe_pure, true_iff]
    omega
  · simp only [h, ↓reduceIte, safe_bind, safe_rdBytes, InBuf]
    constructor
    · intro h'
      have := h'.1
      omega
    · intro h'
      exact ⟨.inr (h' (by omega)), fun bs _ => by split <;> simp⟩

theorem ccntlvDehead_eq_ok {typ len : Nat} {c' : Cursor} :
    ccntlvDehead mem c = .ok (some (typ, len), c') ↔
      CcntlvHead mem (c.pos + c.len) c.pos typ len c'.pos ∧
        c'.pos + c'.len = c.pos + c.len := by
  unfold ccntlvDehead CcntlvHead
  obtain ⟨q, l⟩ := c'
  by_cases h : c.len < 4
  · simp only [h, ↓reduceIte, pure_eq_ok, Prod.mk.injEq, reduceCtorEq, false_and, false_iff]
    omega
  simp only [h, ↓reduceIte, bind_eq_ok, rdBytes_eq_ok, InBuf]
  constructor
  · rintro ⟨bs, ⟨hin, rfl⟩, hx⟩
    split at hx
    · simp at hx
    · simp only [pure_eq_ok, Prod.mk.injEq, Option.some.injEq, Cursor.mk.injEq] at hx
      obtain ⟨⟨rfl, rfl⟩, rfl, rfl⟩ := hx
      exact ⟨⟨rfl, by omega, by omega, rfl, rfl, by omega⟩, by omega⟩
  · rintro ⟨⟨rfl, h₁, h₂, rfl, rfl, h₃⟩, h₄⟩
    refine ⟨_, ⟨.inr h₂, rfl⟩, ?_⟩
    rw [if_neg (by omega)]
    simp only [pure_eq_ok, Prod.mk.injEq, Cursor.mk.injEq, true_and]
    omega

theorem ccntlvDehead_cursor {x : Option (Nat × Nat)} {c' : Cursor}
    (h : ccntlvDehead mem c = .ok (x, c')) :
    c.pos ≤ c'.pos ∧ c'.pos + c'.len = c.pos + c.len := by
  unfold ccntlvDehead at h
  split at h
  · cases h
    exact ⟨Nat.le_refl _, rfl⟩
  · obtain ⟨bs, -, h⟩ := (bind_eq_ok _ _ _).mp h
    simp only at h
    split at h <;> cases h <;> simp only <;> omega

theorem ccntlvDehead_decodes (mem : List UInt8) :
    Decodes (ccntlvHeaders mem) (ccntlvDehead mem) where
  safe _ := safe_ccntlvDehead
  ok _ _ _ _ := ccntlvDehead_eq_ok
  cursor _ _ _ h := ccntlvDehead_cursor h
  lt _ _ _ _ _ h := by
    obtain ⟨rfl, h, -⟩ := h
    omega

@[simp] theorem safe_extract {p n : Nat} :
    Safe (extractNetworkVarInt mem p n) ↔ (n ≤ 4 → InBuf mem p n) := by
  unfold extractNetworkVarInt
  by_cases h : 4 < n
  · simp [h, Nat.not_le.mpr h]
  · simp [h, Nat.not_lt.mp h]

/-- A number can be extracted: it has at most four bytes, all of them in the buffer. -/
theorem extract_eq_ok {p n : Nat} {x : Option Nat} :
    extractNetworkVarInt mem p n = .ok x ↔
      (4 < n ∧ none = x) ∨
        (n ≤ 4 ∧ InBuf mem p n) ∧ some (beNat ((mem.drop p).take n)) = x := by
  unfold extractNetworkVarInt
  by_cases h : 4 < n
  · simp [h, Nat.not_le.mpr h]
  · simp only [h, ↓reduceIte, bind_eq_ok, rdBytes_eq_ok, pure_eq_ok, false_and, false_or,
      Nat.not_lt.mp h, true_and]
    constructor
    · rintro ⟨_, ⟨hin, rfl⟩, rfl⟩
      exact ⟨hin, rfl⟩
    · rintro ⟨hin, rfl⟩
      exact ⟨_, ⟨hin, rfl⟩, rfl⟩

end Decode

/-! ## The elements of a Name -/

/-- Names: the number of a Chunk is read, and the header inside of a Meta element is taken off. -/
def ccntlvNameSpec (mem : List UInt8) : ElemSpec Unit where
  Readable lim typ i q _ :=
    match ccnxTlvN typ with
    | .chunk => i ≤ 4 → InBuf mem q i
    | .metaData => (ccntlvHeaders mem).Readable lim q
    | .nameSegment | .other => True
  Value lim typ i q _ q' i' _ :=
    match ccnxTlvN typ with
    | .chunk => (i ≤ 4 ∧ InBuf mem q i) ∧ q = q' ∧ i = i'
    | .metaData => ∃ typ', CcntlvHead mem lim q typ' i' q'
    | .nameSegment | .other => q = q' ∧ i = i'
  Stop _ _ _ := False

/-- The name after an element at `hd` of which `i'` bytes at `q'` are stepped over. -/
def withElem (mem : List UInt8) (hd typ i q : Nat) (p : Prefix) : Prefix :=
  match ccnxTlvN typ with
  | .chunk =>
    { p.addComp ⟨hd, q - hd + i⟩ with chunknum := some (beNat ((mem.drop q).take i)) }
  | .nameSegment => p.addComp ⟨hd, q - hd + i⟩
  | .metaData | .other => p

/-- What the body of the loop over a Name returns. -/
theorem ccntlvNameElem_eq_ok {mem : List UInt8} {hd typ i : Nat} {cp : Cursor} {p : Prefix}
    {e : Elem Prefix} :
    ccntlvNameElem mem hd typ i cp p = .ok e ↔
      ∃ cp' i', .next cp' i' (withElem mem hd typ i cp.pos p) = e ∧
        cp'.pos + cp'.len = cp.pos + cp.len ∧
        (ccntlvNameSpec mem).Value (cp.pos + cp.len) typ i cp.pos () cp'.pos i' () := by
  unfold ccntlvNameElem withElem
  simp only [ccntlvNameSpec]
  cases ht : ccnxTlvN typ <;> simp only [bind_eq_ok, pure_eq_ok]
  case chunk =>
    constructor
    · rintro ⟨x, hx, h⟩
      rcases extract_eq_ok.mp hx with ⟨-, rfl⟩ | ⟨hin, rfl⟩
      · simp at h
      · cases h
        exact ⟨cp, i, rfl, rfl, hin, rfl, rfl⟩
    · rintro ⟨⟨q', l'⟩, i', rfl, hlim, hin, rfl, rfl⟩
      refine ⟨_, extract_eq_ok.mpr (.inr ⟨hin, rfl⟩), ?_⟩
      obtain rfl : l' = cp.len := by simp only at hlim; omega
      rfl
  case metaData =>
    constructor
    · rintro ⟨⟨_ | ⟨typ', i'⟩, cp'⟩, hx, h⟩
      · simp at h
      · cases h
        obtain ⟨hh, hlim⟩ := ccntlvDehead_eq_ok.mp hx
        exact ⟨cp', i', rfl, hlim, typ', hh⟩
    · rintro ⟨cp', i', rfl, hlim, typ', hh⟩
      exact ⟨_, ccntlvDehead_eq_ok.mpr ⟨hh, hlim⟩, rfl⟩
  all_goals
    constructor
    · rintro rfl
      exact ⟨cp, i, rfl, rfl, rfl, rfl⟩
    · rintro ⟨⟨q', l'⟩, i', rfl, hlim, rfl, rfl⟩
      obtain rfl : l' = cp.len := by simp only at hlim; omega
      rfl

theorem ccntlvNameSpec_le {mem : List UInt8} {lim typ i q q' i' : Nat}
    (h : (ccntlvNameSpec mem).Value lim typ i q () q' i' ()) : q ≤ q' := by
  unfold ccntlvNameSpec at h
  cases ht : ccnxTlvN typ <;> simp only [ht] at h
  case metaData =>
    obtain ⟨typ', rfl, -⟩ := h
    omega
  all_goals omega

theorem ccntlvNameSpec_models (mem : List UInt8) :
    Models (ccntlvNameSpec mem) (ccntlvNameElem mem) (fun _ => ()) where
  readable hd typ i cp p := by
    unfold ccntlvNameElem
    simp only [ccntlvNameSpec]
    cases ht : ccnxTlvN typ <;>
      simp only [safe_bind, safe_extract, safe_ccntlvDehead, safe_pure]
    case chunk => exact and_iff_left fun x _ => by cases x <;> simp
    case metaData => exact and_iff_left fun x _ => by rcases x with ⟨_ | _, _⟩ <;> simp
  value hd typ i cp p q' i' b' := by
    constructor
    · intro h
      have hle := ccntlvNameSpec_le h
      refine ⟨⟨q', cp.pos + cp.len - q'⟩, withElem mem hd typ i cp.pos p,
        ccntlvNameElem_eq_ok.mpr ⟨_, i', rfl, ?_, h⟩, rfl, rfl⟩
      unfold ccntlvNameSpec at h
      cases ht : ccnxTlvN typ <;> simp only [ht] at h
      case metaData =>
        obtain ⟨typ', -, h', -⟩ := h
        simp only
        omega
      all_goals
        simp only
        omega
    · rintro ⟨cp', p', h, rfl, -⟩
      obtain ⟨_, _, he, -, hv⟩ := ccntlvNameElem_eq_ok.mp h
      cases he
      exact hv
  cursor hd typ i cp p cp' i' p' h := by
    obtain ⟨_, _, he, hlim, hv⟩ := ccntlvNameElem_eq_ok.mp h
    cases he
    exact ⟨ccntlvNameSpec_le hv, hlim⟩
  stop hd typ i cp p := by
    simp only [ccntlvNameSpec, false_iff, not_exists]
    intro p' h
    obtain ⟨_, _, he, -⟩ := ccntlvNameElem_eq_ok.mp h
    cases he

/-! ## The elements of a message -/

/-- The elements of a message. One that is longer than what is left makes the parser give up. -/
def ccntlvMessageSpec (mem : List UInt8) : ElemSpec Unit where
  Readable lim typ len q _ :=
    q + len ≤ lim → match ccnxTlvM typ with
      | .name => Confined (ccntlvHeaders mem) (ccntlvNameSpec mem) (q + len) (q, ())
      | .endChunk => len ≤ 4 → InBuf mem q len
      | .validationAlgo => (ccntlvHeaders mem).Readable (q + len) q
      | .payload | .validationPayload | .other => True
  Value lim typ len q _ q' len' _ :=
    (q + len ≤ lim ∧ match ccnxTlvM typ with
      | .name => Ends (ccntlvHeaders mem) (ccntlvNameSpec mem) (q + len) (q, ())
      | .endChunk => len ≤ 4 ∧ InBuf mem q len
      | .validationAlgo => ∃ typ' i q', CcntlvHead mem (q + len) q typ' i q'
      | .payload | .validationPayload | .other => True) ∧
    q = q' ∧ len = len'
  Stop _ _ _ := False

section Message

variable {mem : List UInt8} {start hmacStart hd typ len : Nat} {cur : Cursor} {s : CcntlvState}

/-- What an element of a message makes of the state. -/
inductive CcntlvTaken (mem : List UInt8) (start hmacStart hd typ len : Nat) (cur : Cursor)
    (s : CcntlvState) : CcntlvState → Prop where
  | name {p : Prefix} (ht : ccnxTlvM typ = .name)
      (h : nested (ccntlvDehead mem) (ccntlvNameElem mem) ⟨cur.pos, len⟩
        { s.p with nameptr := some (start + (hd - start)) } = .ok p) :
      CcntlvTaken mem start hmacStart hd typ len cur s
        { s with p := { p with namelen := cur.pos - (start + (hd - start)) } }
  | endChunk {v : Nat} (ht : ccnxTlvM typ = .endChunk)
      (h : extractNetworkVarInt mem cur.pos len = .ok (some v)) :
      CcntlvTaken mem start hmacStart hd typ len cur s { s with pkt := { s.pkt with val := v } }
  | payload (ht : ccnxTlvM typ = .payload) : CcntlvTaken mem start hmacStart hd typ len cur s
      { s with pkt := { s.pkt with content := some ⟨cur.pos, len⟩ } }
  | algo {x q : Nat} {c : Cursor} (ht : ccnxTlvM typ = .validationAlgo)
      (h : ccntlvDehead mem ⟨cur.pos, len⟩ = .ok (some (x, q), c)) :
      CcntlvTaken mem start hmacStart hd typ len cur s
        { s with validAlgoIsHmac256 := s.validAlgoIsHmac256 || x == ccnxValidalgoHmacSha256 }
  | digest (ht : ccnxTlvM typ = .validationPayload) (h : s.validAlgoIsHmac256 ∧ len = 32) :
      CcntlvTaken mem start hmacStart hd typ len cur s { s with pkt := { s.pkt with
        hmacLen := cur.pos - hmacStart - 4
        hmacSignature := some cur.pos } }
  | noDigest (ht : ccnxTlvM typ = .validationPayload) :
      CcntlvTaken mem start hmacStart hd typ len cur s s
  | other (ht : ccnxTlvM typ = .other) : CcntlvTaken mem start hmacStart hd typ len cur s s

/-- The body of the message loop does nothing else. -/
theorem ccntlvElem_taken {s' : CcntlvState}
    (h : ccntlvElem mem start hmacStart hd typ len cur s = .ok s') :
    CcntlvTaken mem start hmacStart hd typ len cur s s' := by
  unfold ccntlvElem at h
  by_cases hlen : cur.len < len
  · rw [if_pos hlen] at h
    cases h
  rw [if_neg hlen] at h
  dsimp only at h
  cases ht : ccnxTlvM typ <;> rw [ht] at h <;> dsimp only at h
  case name =>
    obtain ⟨p, hp, h⟩ := (bind_eq_ok _ _ _).mp h
    cases h
    exact .name ht hp
  case endChunk =>
    obtain ⟨x, hx, h⟩ := (bind_eq_ok _ _ _).mp h
    cases x <;> cases h
    exact .endChunk ht hx
  case payload =>
    cases h
    exact .payload ht
  case validationAlgo =>
    obtain ⟨⟨x, c⟩, hx, h⟩ := (bind_eq_ok _ _ _).mp h
    cases x <;> cases h
    exact .algo ht hx
  case validationPayload =>
    split at h
    · rename_i hs
      cases h
      exact .digest ht hs
    · cases h
      exact .noDigest ht
  case other =>
    cases h
    exact .other ht

theorem safe_ccntlvElem :
    Safe (ccntlvElem mem start hmacStart hd typ len cur s) ↔
      (ccntlvMessageSpec mem).Readable (cur.pos + cur.len) typ len cur.pos () := by
  unfold ccntlvElem
  simp only [ccntlvMessageSpec]
  by_cases h : cur.len < len
  · have : ¬ cur.pos + len ≤ cur.pos + cur.len := by omega
    simp [h, this]
  have hle : cur.pos + len ≤ cur.pos + cur.len := by omega
  simp only [h, hle, ↓reduceIte, true_imp_iff]
  cases ht : ccnxTlvM typ <;>
    simp only [safe_bind, safe_extract, safe_ccntlvDehead, safe_pure, safe_ite,
      safe_nested (ccntlvDehead_decodes mem) (ccntlvNameSpec_models mem), implies_true, and_true]
  case endChunk => exact and_iff_left fun x _ => by cases x <;> simp
  case validationAlgo => exact and_iff_left fun x _ => by rcases x with ⟨_ | _, _⟩ <;> simp

theorem ccntlvElem_returns :
    (∃ s', ccntlvElem mem start hmacStart hd typ len cur s = .ok s') ↔
      (ccntlvMessageSpec mem).Value (cur.pos + cur.len) typ len cur.pos () cur.pos len () := by
  have hn := nested_returns (ccntlvDehead_decodes mem) (ccntlvNameSpec_models mem) ⟨cur.pos, len⟩
    { s.p with nameptr := some (start + (hd - start)) }
  unfold ccntlvElem
  simp only [ccntlvMessageSpec, and_self, and_true]
  by_cases h : cur.len < len
  · have : ¬ cur.pos + len ≤ cur.pos + cur.len := by omega
    simp [h, this]
  have hle : cur.pos + len ≤ cur.pos + cur.len := by omega
  simp only [h, hle, ↓reduceIte, true_and]
  cases ht : ccnxTlvM typ <;> simp only [bind_eq_ok, pure_eq_ok]
  case name =>
    rw [← hn]
    exact returns_map _ _
  case endChunk =>
    constructor
    · rintro ⟨s', x, hx, h⟩
      rcases extract_eq_ok.mp hx with ⟨-, rfl⟩ | ⟨hin, rfl⟩
      · simp at h
      · exact hin
    · intro hin
      exact ⟨_, _, extract_eq_ok.mpr (.inr ⟨hin, rfl⟩), rfl⟩
  case validationAlgo =>
    constructor
    · rintro ⟨s', ⟨_ | ⟨typ', i'⟩, cp'⟩, hx, h⟩
      · simp at h
      · exact ⟨typ', i', _, (ccntlvDehead_eq_ok.mp hx).1⟩
    · rintro ⟨typ', i', q', hh⟩
      exact ⟨_, _, (ccntlvDehead_decodes mem).of_head (c := ⟨cur.pos, len⟩) hh, rfl⟩
  case validationPayload => split <;> simp
  all_goals simp

theorem ccntlvElem_takes (mem : List UInt8) (start hmacStart : Nat) :
    Takes (ccntlvElem mem start hmacStart) (ccntlvMessageSpec mem) (fun _ => ()) where
  readable _ _ _ _ _ := safe_ccntlvElem
  value hd typ i cp a q' i' b' := by
    constructor
    · intro h
      obtain ⟨-, rfl, rfl⟩ := id h
      obtain ⟨a', ha⟩ := ccntlvElem_returns.mpr h
      exact ⟨a', ha, rfl, rfl, rfl⟩
    · rintro ⟨a', ha, rfl, rfl, -⟩
      exact ccntlvElem_returns.mp ⟨a', ha⟩

end Message

/-! ## The parser as a whole -/

section Parser

variable {mem : List UInt8} {start : Nat} {c e : Cursor} {pkt : Pkt}

/-- The packet that the parser makes of its variables at the end of the loop. -/
def CcntlvState.finish (s : CcntlvState) (start : Nat) (buf : List UInt8) : Pkt :=
  Pkt.rebase { s.pkt with
    pfx := some s.p
    hmacStart := s.pkt.hmacStart.map (· - start)
    hmacSignature := s.pkt.hmacSignature.map (· - start) } start buf

/-- When `ccntlvBytes2pkt` accepts a message: behind a header whose length fits, the message loop
takes all the bytes. -/
theorem ccntlvBytes2pkt_eq_ok :
    ccntlvBytes2pkt mem start c = .ok (pkt, e) ↔
      ∃ typ len c₁ s, ccntlvDehead mem c = .ok (some (typ, len), c₁) ∧ len ≤ c₁.len ∧
        top (ccntlvDehead mem) (ccntlvElem mem start c.pos) c₁ (.init typ c.pos) = .ok (e, s) ∧
        e.len = 0 ∧
        ∃ buf, rdBytes mem start (e.pos - start) = .ok buf ∧ s.finish start buf = pkt := by
  unfold ccntlvBytes2pkt
  constructor
  · intro h
    obtain ⟨⟨x, c₁⟩, hx, h⟩ := (bind_eq_ok _ _ _).mp h
    match x with
    | none => simp at h
    | some (typ, len) =>
      dsimp only at h
      by_cases hlen : c₁.len < len
      · rw [if_pos hlen] at h
        simp at h
      rw [if_neg hlen] at h
      obtain ⟨⟨c₂, s⟩, hs, h⟩ := (bind_eq_ok _ _ _).mp h
      dsimp only at h
      by_cases h0 : 0 < c₂.len
      · rw [if_pos h0] at h
        simp at h
      rw [if_neg h0] at h
      obtain ⟨buf, hbuf, h⟩ := (bind_eq_ok _ _ _).mp h
      obtain ⟨rfl, rfl⟩ := Prod.mk.inj ((pure_eq_ok _ _).mp h)
      exact ⟨typ, len, c₁, s, hx, Nat.le_of_not_lt hlen, hs, Nat.eq_zero_of_not_pos h0, buf, hbuf, rfl⟩
  · rintro ⟨typ, len, c₁, s, hx, hlen, hs, h0, buf, hbuf, rfl⟩
    rw [hx, ok_bind]
    dsimp only
    rw [if_neg (Nat.not_lt.mpr hlen)]
    refine (bind_eq_ok _ _ _).mpr ⟨_, hs, ?_⟩
    dsimp only
    rw [if_neg (by omega), hbuf]
    rfl

end Parser

end Ccnl
