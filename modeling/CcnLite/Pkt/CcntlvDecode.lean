import CcnLite.Pkt.CcntlvEncode
import CcnLite.Pkt.CcntlvGrammar

/-!
# Parsing what the CCNx-TLV encoder wrote

`wireTLV` is an element as the parser reads it, with 16 bits for the type and for the length. The
encoder writes the same when the length is below 256, and a header with a shorter length in front
of a longer value (`ccnxTLV_eq`, `dehead_ccnxTL`).

A Name that is too long ends for the parser somewhere inside. There it either gives up or is between
two components, and it takes the others for elements of the message (`nested_cut`,
`top_components`).
-/

namespace Ccnl

open CRun Tlv

/-! ## Headers -/

/-- A header as the parser reads it. -/
def wireTL (type len : Nat) : List UInt8 := beBytes 2 type ++ beBytes 2 len

/-- An element as the parser reads it. -/
def wireTLV (type : Nat) (v : List UInt8) : List UInt8 := wireTL type v.length ++ v

section Headers

variable {mem : List UInt8} {p n type len : Nat} {v : List UInt8}

@[simp] theorem length_wireTL (type len : Nat) : (wireTL type len).length = 4 := by
  rw [wireTL, List.length_append, length_beBytes, length_beBytes]

theorem length_wireTLV (type : Nat) (v : List UInt8) : (wireTLV type v).length = 4 + v.length := by
  rw [wireTLV, List.length_append, length_wireTL]

/-- What the encoder writes has the low byte of the type and of the length. -/
theorem ccnxTL_eq (type len : Nat) : ccnxTL type len = wireTL (type % 2 ^ 8) (len % 2 ^ 8) := by
  have hbytes : ∀ x : Nat, beBytes 2 (x % 2 ^ 8) = [0, UInt8.ofNat x] := fun x => by
    have hhi : x % 2 ^ 8 / 2 ^ 8 = 0 := Nat.div_eq_of_lt (Nat.mod_lt _ (Nat.two_pow_pos 8))
    have hlo : UInt8.ofNat (x % 2 ^ 8) = UInt8.ofNat x := by
      rw [← UInt8.toNat_inj, UInt8.toNat_ofNat', UInt8.toNat_ofNat', Nat.mod_mod]
    rw [beBytes, beBytes, beBytes, hhi, hlo]
    rfl
  rw [wireTL, hbytes, hbytes]
  rfl

theorem ccnxTLV_eq (ht : type < 2 ^ 8) (hv : v.length < 2 ^ 8) : ccnxTLV type v = wireTLV type v := by
  rw [ccnxTLV, wireTLV, ccnxTL_eq, Nat.mod_eq_of_lt ht, Nat.mod_eq_of_lt hv]

theorem at_wireTLV : At mem p (wireTLV type v) ↔
    At mem p (wireTL type v.length) ∧ At mem (p + 4) v := by
  rw [wireTLV, at_append, length_wireTL]

theorem at_ccnxTLV : At mem p (ccnxTLV type v) ↔
    At mem p (ccnxTL type v.length) ∧ At mem (p + 4) v := at_append

/-- The parser takes off a header, if the length is not larger than the count. -/
theorem dehead_wireTL (h : At mem p (wireTL type len)) (ht : type < 2 ^ 16) (hl : len < 2 ^ 16)
    (n : Nat) : ccntlvDehead mem ⟨p, 4 + n⟩ =
      .ok (if 4 + n < len then none else some (type, len), ⟨p + 4, n⟩) := by
  have hbytes := h.rdBytes
  rw [length_wireTL] at hbytes
  have hnum : ∀ x : Nat, x < 2 ^ 16 → beNat (beBytes 2 x) = x := fun x hx =>
    (foldl_beBytes 2 x).trans (Nat.mod_eq_of_lt hx)
  have htake : (wireTL type len).take 2 = beBytes 2 type := List.take_left' (length_beBytes 2 _)
  have hdrop : (wireTL type len).drop 2 = beBytes 2 len := List.drop_left' (length_beBytes 2 _)
  unfold ccntlvDehead
  rw [if_neg (by simp only; omega), hbytes]
  dsimp only [ok_bind]
  rw [htake, hdrop, hnum type ht, hnum len hl, Nat.add_sub_cancel_left]
  split <;> rfl

/-- The header that the encoder writes in front of a value. -/
theorem dehead_ccnxTL (h : At mem p (ccnxTL type len)) (hle : len ≤ 4 + n) :
    ccntlvDehead mem ⟨p, 4 + n⟩ = .ok (some (type % 2 ^ 8, len % 2 ^ 8), ⟨p + 4, n⟩) := by
  have hlt : ∀ x : Nat, x % 2 ^ 8 < 2 ^ 16 := fun x =>
    Nat.lt_trans (Nat.mod_lt _ (Nat.two_pow_pos 8)) (by decide)
  have hmod := Nat.mod_le len (2 ^ 8)
  rw [ccnxTL_eq] at h
  rw [dehead_wireTL h (hlt _) (hlt _) n, if_neg (by omega)]

end Headers

/-! ## Components -/

/-- The elements of a Name that the encoder writes: segments, and a chunk number at the end. -/
inductive NameElem : List UInt8 → Prop where
  | segment (v : List UInt8) (h : v.length < 2 ^ 16) : NameElem (wireTLV ccnxTlvNNameSegment v)
  | chunk (v : List UInt8) (h : v.length ≤ 4) : NameElem (wireTLV ccnxTlvNChunk v)

theorem NameElem.length {w : List UInt8} (h : NameElem w) : 4 ≤ w.length := by
  cases h <;> rw [length_wireTLV] <;> omega

/-- Where the pieces lie that stand one after the other from `p` on. -/
def pieces : Nat → List (List UInt8) → List Span
  | _, [] => []
  | p, w :: ws => ⟨p, w.length⟩ :: pieces (p + w.length) ws

/-- The chunk number after an element of a Name. -/
def withChunk (k : Option Nat) (w : List UInt8) : Option Nat :=
  if w.take 2 = beBytes 2 ccnxTlvNChunk then some (beNat (w.drop 4)) else k

section Components

variable {mem : List UInt8} {p n : Nat} {w : List UInt8} {ws : List (List UInt8)} {P : Prefix}

theorem bytes_pieces (h : At mem p ws.flatten) : (pieces p ws).map (·.bytes mem) = ws := by
  induction ws generalizing p with
  | nil => rfl
  | cons w ws ih =>
    rw [List.flatten_cons] at h
    obtain ⟨h₁, h₂⟩ := at_append.mp h
    rw [pieces, List.map_cons, ih h₂, h₁.bytes]

theorem within_pieces : ∀ s ∈ pieces p ws, s.Within p (p + ws.flatten.length) := by
  induction ws generalizing p with
  | nil => intro s hs; cases hs
  | cons w ws ih =>
    intro s hs
    rw [List.flatten_cons, List.length_append]
    rcases List.mem_cons.mp hs with rfl | hs
    · exact ⟨Nat.le_refl _, by simp only; omega⟩
    · exact (ih s hs).mono (Nat.le_add_right _ _) (by omega)

/-- The name with an element at `p` taken in. -/
def Prefix.withPiece (P : Prefix) (p : Nat) (w : List UInt8) : Prefix :=
  { P with comp := P.comp ++ [⟨p, w.length⟩], chunknum := withChunk P.chunknum w }

theorem take_wireTLV (type : Nat) (v : List UInt8) : (wireTLV type v).take 2 = beBytes 2 type := by
  rw [wireTLV, wireTL, List.append_assoc]
  exact List.take_left' (length_beBytes 2 type)

theorem drop_wireTLV (type : Nat) (v : List UInt8) : (wireTLV type v).drop 4 = v :=
  List.drop_left' (length_wireTL type v.length)

/-- The body of the loop over a Name at one of these elements. -/
theorem nameElem_piece (hw : NameElem w) (h : At mem p w) (hcnt : P.compcnt < maxNameComp) :
    ∃ typ v, w = wireTLV typ v ∧ typ < 2 ^ 16 ∧ v.length < 2 ^ 16 ∧
      ∀ n, ccntlvNameElem mem p typ v.length ⟨p + 4, n⟩ P =
        .ok (.next ⟨p + 4, n⟩ v.length (P.withPiece p w)) := by
  have hspan : ∀ typ (v : List UInt8), (⟨p, p + 4 - p + v.length⟩ : Span) =
      ⟨p, (wireTLV typ v).length⟩ := fun typ v => by
    rw [length_wireTLV, Nat.add_sub_cancel_left]
  cases hw with
  | segment v hv =>
    refine ⟨_, v, rfl, by decide, hv, fun n => ?_⟩
    have hkeep : withChunk P.chunknum (wireTLV ccnxTlvNNameSegment v) = P.chunknum := by
      rw [withChunk, take_wireTLV, if_neg (by decide)]
    unfold ccntlvNameElem Prefix.addComp Prefix.withPiece
    rw [show ccnxTlvN ccnxTlvNNameSegment = .nameSegment from rfl, hkeep]
    dsimp only
    rw [if_pos hcnt, hspan ccnxTlvNNameSegment]
    rfl
  | chunk v hv =>
    refine ⟨_, v, rfl, by decide, by omega, fun n => ?_⟩
    have hset : withChunk P.chunknum (wireTLV ccnxTlvNChunk v) = some (beNat v) := by
      rw [withChunk, take_wireTLV, if_pos rfl, drop_wireTLV]
    have hat := (at_wireTLV.mp h).2
    have hnum : extractNetworkVarInt mem (p + 4) v.length = .ok (some (beNat v)) := by
      rw [extract_eq_ok, hat.take]
      exact .inr ⟨⟨hv, hat.inBuf⟩, rfl⟩
    unfold ccntlvNameElem Prefix.addComp Prefix.withPiece
    rw [show ccnxTlvN ccnxTlvNChunk = .chunk from rfl, hset]
    dsimp only
    rw [hnum, ok_bind]
    dsimp only
    rw [if_pos hcnt, hspan ccnxTlvNChunk]
    rfl

/-- The loop over a Name takes an element that is there as a whole. -/
theorem nested_piece (hw : NameElem w) (h : At mem p w) (hcnt : P.compcnt < maxNameComp) :
    nested (ccntlvDehead mem) (ccntlvNameElem mem) ⟨p, w.length + n⟩ P =
      nested (ccntlvDehead mem) (ccntlvNameElem mem) ⟨p + w.length, n⟩ (P.withPiece p w) := by
  obtain ⟨typ, v, rfl, ht, hv, helem⟩ := nameElem_piece hw h hcnt
  have hdehead := dehead_wireTL (at_wireTLV.mp h).1 ht hv (v.length + n)
  rw [if_neg (by omega)] at hdehead
  rw [length_wireTLV, Nat.add_assoc, nested_next (ccntlvDehead_decodes mem)
    (ccntlvNameSpec_models mem) hdehead (by simp only; omega) (helem _) (by simp only; omega)]
  simp only [Nat.add_sub_cancel_left, Nat.add_assoc]

/-- The loop over a Name does not end inside an element. -/
theorem nested_inside (hw : NameElem w) (h : At mem p w) (hcnt : P.compcnt < maxNameComp)
    (h0 : 0 < n) (hn : n < w.length) (Q : Prefix) :
    nested (ccntlvDehead mem) (ccntlvNameElem mem) ⟨p, n⟩ P ≠ .ok Q := by
  obtain ⟨typ, v, rfl, ht, hv, helem⟩ := nameElem_piece hw h hcnt
  rw [length_wireTLV] at hn
  have herr : ∃ e, nestedStep (ccntlvDehead mem) (ccntlvNameElem mem) (⟨p, n⟩, P) = .error e := by
    unfold nestedStep
    dsimp only
    rw [if_neg (by omega)]
    by_cases h4 : n < 4
    · refine ⟨.bail, ?_⟩
      rw [ccntlvDehead, if_pos h4]
      rfl
    · obtain ⟨m, rfl⟩ : ∃ m, n = 4 + m := ⟨n - 4, by omega⟩
      rw [dehead_wireTL (at_wireTLV.mp h).1 ht hv m]
      by_cases hlen : 4 + m < v.length
      · rw [if_pos hlen]
        exact ⟨.bail, rfl⟩
      · rw [if_neg hlen, ok_bind]
        dsimp only
        rw [helem, ok_bind]
        refine ⟨.wrap, ?_⟩
        unfold stepOver Cursor.skip
        dsimp only
        rw [if_neg (by omega)]
        rfl
  obtain ⟨e, he⟩ := herr
  rw [nested_error he]
  exact nofun

/-- The name with the elements taken in that stand from `p` on. -/
def Prefix.withPieces (P : Prefix) (p : Nat) (ws : List (List UInt8)) : Prefix :=
  { P with comp := P.comp ++ pieces p ws, chunknum := ws.foldl withChunk P.chunknum }

/-- The loop over the elements of a Name, if there are not too many. -/
theorem nested_pieces (hws : ∀ w ∈ ws, NameElem w) (h : At mem p ws.flatten)
    (hcnt : P.compcnt + ws.length ≤ maxNameComp) :
    nested (ccntlvDehead mem) (ccntlvNameElem mem) ⟨p, ws.flatten.length⟩ P =
      .ok (P.withPieces p ws) := by
  induction ws generalizing p P with
  | nil =>
    rw [Prefix.withPieces, pieces, List.append_nil]
    exact nested_end p P
  | cons w ws ih =>
    rw [List.flatten_cons] at h
    rw [List.length_cons] at hcnt
    obtain ⟨h₁, h₂⟩ := at_append.mp h
    rw [List.flatten_cons, List.length_append,
      nested_piece (hws w List.mem_cons_self) h₁ (by omega),
      ih (fun v hv => hws v (List.mem_cons_of_mem _ hv)) h₂]
    · simp only [Prefix.withPieces, Prefix.withPiece, pieces, List.append_assoc,
        List.singleton_append, List.foldl_cons]
    · simp only [Prefix.compcnt, Prefix.withPiece, List.length_append, List.length_singleton] at hcnt ⊢
      omega

/-- A loop over the first `n` bytes of a Name's elements that returns has ended between two of
them. -/
theorem nested_cut {Q : Prefix} (hws : ∀ w ∈ ws, NameElem w) (h : At mem p ws.flatten)
    (hn : n ≤ ws.flatten.length) (hcnt : 4 * P.compcnt + n ≤ 4 * maxNameComp)
    (hok : nested (ccntlvDehead mem) (ccntlvNameElem mem) ⟨p, n⟩ P = .ok Q) :
    ∃ us vs, ws = us ++ vs ∧ n = us.flatten.length ∧ Q = P.withPieces p us := by
  induction ws generalizing p n P with
  | nil =>
    obtain rfl : n = 0 := by simpa using hn
    refine ⟨[], [], rfl, rfl, ?_⟩
    rw [nested_end] at hok
    cases hok
    simp [Prefix.withPieces, pieces]
  | cons w ws ih =>
    rw [List.flatten_cons] at h
    obtain ⟨h₁, h₂⟩ := at_append.mp h
    have hw := hws w List.mem_cons_self
    have hwlen := hw.length
    by_cases h0 : n = 0
    · subst h0
      refine ⟨[], w :: ws, rfl, rfl, ?_⟩
      rw [nested_end] at hok
      cases hok
      simp [Prefix.withPieces, pieces]
    by_cases hlt : n < w.length
    · exact absurd hok (nested_inside hw h₁ (by omega) (by omega) hlt Q)
    · obtain ⟨m, rfl⟩ : ∃ m, n = w.length + m := ⟨n - w.length, by omega⟩
      rw [nested_piece hw h₁ (by omega)] at hok
      rw [List.flatten_cons, List.length_append] at hn
      obtain ⟨us, vs, rfl, rfl, rfl⟩ := ih (fun v hv => hws v (List.mem_cons_of_mem _ hv)) h₂
        (by omega) (by
          simp only [Prefix.compcnt, Prefix.withPiece, List.length_append, List.length_singleton]
            at hcnt ⊢
          omega) hok
      refine ⟨w :: us, vs, rfl, by rw [List.flatten_cons, List.length_append], ?_⟩
      simp only [Prefix.withPieces, Prefix.withPiece, pieces, List.append_assoc,
        List.singleton_append, List.foldl_cons]

end Components

/-! ## The elements of a message -/

/-- The elements of a Name, as the encoder writes them. -/
def ccnxWireComps (name : Prefix) : List (List UInt8) :=
  name.comps ++ match name.chunknum with
    | some k => [ccnxTLV ccnxTlvNChunk (ccnxVar k)]
    | none => []

theorem flatten_ccnxWireComps (name : Prefix) :
    (ccnxWireComps name).flatten = ccnxNameElems name := by
  unfold ccnxWireComps ccnxNameElems ccnxOptional
  rw [List.flatten_append]
  cases name.chunknum with
  | none => rfl
  | some k => rw [List.flatten_singleton]

/-- A name that the encoder and the parser agree on: components that are segments, and a 32-bit
chunk number. -/
structure CcnxEncodable (name : Prefix) : Prop where
  comp : ∀ w ∈ name.comps, ∃ v : List UInt8, v.length < 2 ^ 16 ∧ w = wireTLV ccnxTlvNNameSegment v
  chunknum : ∀ k ∈ name.chunknum, k ≤ uint32Max

theorem length_ccnxVar (k : Nat) : (ccnxVar k).length ≤ 4 := by
  rw [ccnxVar, length_beBytes]
  exact varCount_le 4 k

theorem beNat_ccnxVar {k : Nat} (h : k ≤ uint32Max) : beNat (ccnxVar k) = k := by
  have hlt : k < 2 ^ (8 * 4) := by
    unfold uint32Max at h
    omega
  exact (foldl_beBytes _ k).trans (Nat.mod_eq_of_lt (lt_of_varCount hlt))

theorem CcnxEncodable.elems {name : Prefix} (h : CcnxEncodable name) :
    ∀ w ∈ ccnxWireComps name, NameElem w := by
  intro w hw
  rcases List.mem_append.mp hw with hw | hw
  · obtain ⟨v, hv, rfl⟩ := h.comp w hw
    exact .segment v hv
  · split at hw
    · rename_i k _
      have hlen := length_ccnxVar k
      rw [List.mem_singleton.mp hw, ccnxTLV_eq (by decide) (by omega)]
      exact .chunk _ hlen
    · cases hw

theorem CcnxEncodable.withChunk {name : Prefix} (h : CcnxEncodable name) :
    (ccnxWireComps name).foldl withChunk none = name.chunknum := by
  have hplain : name.comps.foldl Ccnl.withChunk none = none := by
    have := h.comp
    generalize name.comps = ws at this
    induction ws with
    | nil => rfl
    | cons w ws ih =>
      obtain ⟨v, -, rfl⟩ := this w List.mem_cons_self
      rw [List.foldl_cons, Ccnl.withChunk, take_wireTLV, if_neg (by decide)]
      exact ih fun u hu => this u (List.mem_cons_of_mem _ hu)
  rw [ccnxWireComps, List.foldl_append, hplain]
  split
  · rename_i k hk
    have hlen := length_ccnxVar k
    rw [List.foldl_cons, List.foldl_nil, Ccnl.withChunk, ccnxTLV_eq (by decide) (by omega),
      take_wireTLV, if_pos rfl, drop_wireTLV, beNat_ccnxVar (h.chunknum k hk), hk]
  · rename_i hk
    rw [hk]
    rfl

/-- The message loop of the parser. -/
abbrev ccntlvTop (mem : List UInt8) (start hmacStart : Nat) :
    Cursor → CcntlvState → Run (Cursor × CcntlvState) :=
  top (ccntlvDehead mem) (ccntlvElem mem start hmacStart)

section Message

variable {mem : List UInt8} {start hmacStart p n type : Nat} {s s' : CcntlvState}

/-- The message loop takes an element that the encoder wrote, as far as its header says. -/
theorem top_ccnxTLV {v : List UInt8} (h : At mem p (ccnxTLV type v)) (ht : type < 2 ^ 8)
    (he : ccntlvElem mem start hmacStart p type (v.length % 2 ^ 8) ⟨p + 4, v.length + n⟩ s =
      .ok s') :
    ccntlvTop mem start hmacStart ⟨p, (ccnxTLV type v).length + n⟩ s =
      ccntlvTop mem start hmacStart
        ⟨p + 4 + v.length % 2 ^ 8, v.length - v.length % 2 ^ 8 + n⟩ s' := by
  have hmod := Nat.mod_le v.length (2 ^ 8)
  have hdehead := dehead_ccnxTL (n := v.length + n) (at_ccnxTLV.mp h).1 (by omega)
  rw [Nat.mod_eq_of_lt ht] at hdehead
  have hlen : (ccnxTLV type v).length = 4 + v.length := List.length_append
  rw [hlen, Nat.add_assoc, ccntlvTop, top_next (ccntlvDehead_decodes mem) hdehead he (by simp only; omega)]
  simp only
  rw [show v.length + n - v.length % 2 ^ 8 = v.length - v.length % 2 ^ 8 + n by omega]

/-- The message loop takes an element of a Name for one of its own: a segment for a payload, and
leaves out a chunk number. -/
theorem top_component {w : List UInt8} (hw : NameElem w) (h : At mem p w) :
    ∃ c, ccntlvTop mem start hmacStart ⟨p, w.length + n⟩ s =
      ccntlvTop mem start hmacStart ⟨p + w.length, n⟩
        { s with pkt := { s.pkt with content := c } } := by
  have hone : ∀ {typ : Nat} {v : List UInt8} {s' : CcntlvState}, At mem p (wireTLV typ v) →
      typ < 2 ^ 16 → v.length < 2 ^ 16 →
      ccntlvElem mem start hmacStart p typ v.length ⟨p + 4, v.length + n⟩ s = .ok s' →
      ccntlvTop mem start hmacStart ⟨p, (wireTLV typ v).length + n⟩ s =
        ccntlvTop mem start hmacStart ⟨p + (wireTLV typ v).length, n⟩ s' := by
    intro typ v s' hat ht hv he
    have hdehead := dehead_wireTL (at_wireTLV.mp hat).1 ht hv (v.length + n)
    rw [if_neg (by omega)] at hdehead
    rw [length_wireTLV, Nat.add_assoc, ccntlvTop, top_next (ccntlvDehead_decodes mem) hdehead he
      (by simp only; omega)]
    simp only [Nat.add_sub_cancel_left, Nat.add_assoc]
  cases hw with
  | segment v hv =>
    refine ⟨some ⟨p + 4, v.length⟩, hone h (by decide) hv ?_⟩
    unfold ccntlvElem
    rw [if_neg (by simp only; omega)]
    rfl
  | chunk v hv =>
    refine ⟨s.pkt.content, hone h (by decide) (by omega) ?_⟩
    unfold ccntlvElem
    rw [if_neg (by simp only; omega)]
    rfl

theorem top_components {ws : List (List UInt8)} (hws : ∀ w ∈ ws, NameElem w)
    (h : At mem p ws.flatten) :
    ∃ c, ccntlvTop mem start hmacStart ⟨p, ws.flatten.length + n⟩ s =
      ccntlvTop mem start hmacStart ⟨p + ws.flatten.length, n⟩
        { s with pkt := { s.pkt with content := c } } := by
  induction ws generalizing p s with
  | nil => exact ⟨s.pkt.content, by rw [List.flatten_nil, List.length_nil, Nat.zero_add]; rfl⟩
  | cons w ws ih =>
    rw [List.flatten_cons] at h
    obtain ⟨h₁, h₂⟩ := at_append.mp h
    obtain ⟨c₁, hc₁⟩ := @top_component mem start hmacStart p (ws.flatten.length + n) s w
      (hws w List.mem_cons_self) h₁
    obtain ⟨c₂, hc₂⟩ := ih (s := { s with pkt := { s.pkt with content := c₁ } })
      (fun v hv => hws v (List.mem_cons_of_mem _ hv)) h₂
    refine ⟨c₂, ?_⟩
    rw [List.flatten_cons, List.length_append, Nat.add_assoc, hc₁, hc₂, Nat.add_assoc]

/-- A number behind the Name. -/
theorem top_endChunk {num : Option Nat} (hnum : ∀ k ∈ num, k ≤ uint32Max)
    (h : At mem p (ccnxOptional ccnxTlvMEndChunk num)) :
    ccntlvTop mem start hmacStart ⟨p, (ccnxOptional ccnxTlvMEndChunk num).length + n⟩ s =
      ccntlvTop mem start hmacStart ⟨p + (ccnxOptional ccnxTlvMEndChunk num).length, n⟩
        { s with pkt := { s.pkt with val := num.getD s.pkt.val } } := by
  cases num with
  | none =>
    rw [show (ccnxOptional ccnxTlvMEndChunk none).length = 0 from rfl, Nat.zero_add]
    rfl
  | some k =>
    have hlen := length_ccnxVar k
    have hmod : (ccnxVar k).length % 2 ^ 8 = (ccnxVar k).length := Nat.mod_eq_of_lt (by omega)
    have hat := (at_ccnxTLV.mp h).2
    have hval : extractNetworkVarInt mem (p + 4) (ccnxVar k).length = .ok (some k) := by
      rw [extract_eq_ok, hat.take, beNat_ccnxVar (hnum k rfl)]
      exact .inr ⟨⟨hlen, hat.inBuf⟩, rfl⟩
    have hone := @top_ccnxTLV mem start hmacStart p n _ s { s with pkt := { s.pkt with val := k } }
      _ h (by decide) (by
        unfold ccntlvElem
        rw [hmod, if_neg (by simp only; omega), show ccnxTlvM ccnxTlvMEndChunk = .endChunk from rfl]
        dsimp only
        rw [hval]
        rfl)
    rw [hmod, Nat.sub_self, Nat.zero_add] at hone
    have hsum : (ccnxOptional ccnxTlvMEndChunk (some k)).length = 4 + (ccnxVar k).length :=
      List.length_append
    rw [hsum, ← Nat.add_assoc]
    rw [show (ccnxTLV ccnxTlvMEndChunk (ccnxVar k)).length = 4 + (ccnxVar k).length from
      List.length_append] at hone
    exact hone

/-- The packet loop where nothing is left. -/
theorem ccntlvTop_end (p : Nat) : ccntlvTop mem start hmacStart ⟨p, 0⟩ s = .ok (⟨p, 0⟩, s) :=
  top_end (by rw [ccntlvDehead, if_pos (Nat.succ_pos 3)]; rfl)

/-- The payload, as far as its header says. -/
theorem top_payload {v : List UInt8} (h : At mem p (ccnxTLV ccnxTlvMPayload v)) :
    ccntlvTop mem start hmacStart ⟨p, (ccnxTLV ccnxTlvMPayload v).length + n⟩ s =
      ccntlvTop mem start hmacStart
        ⟨p + 4 + v.length % 2 ^ 8, v.length - v.length % 2 ^ 8 + n⟩
        { s with pkt := { s.pkt with content := some ⟨p + 4, v.length % 2 ^ 8⟩ } } := by
  have hmod := Nat.mod_le v.length (2 ^ 8)
  refine top_ccnxTLV h (by decide) ?_
  unfold ccntlvElem
  rw [if_neg (by simp only; omega)]
  rfl

/-- The Name. A loop that does not give up inside of it goes on between two of its elements, and takes
the rest for elements of the message. -/
theorem top_ccnxName {ws : List (List UInt8)} {r : Cursor × CcntlvState}
    (hws : ∀ w ∈ ws, NameElem w) (h : At mem p (ccnxTLV ccnxTlvMName ws.flatten))
    (hs : s.p.comp = []) (hk : s.p.chunknum = none)
    (hok : ccntlvTop mem start hmacStart
      ⟨p, (ccnxTLV ccnxTlvMName ws.flatten).length + n⟩ s = .ok r) :
    ∃ us vs q c, ws = us ++ vs ∧ us.flatten.length = ws.flatten.length % 2 ^ 8 ∧
      q.comp = pieces (p + 4) us ∧ q.chunknum = us.foldl withChunk none ∧
      ccntlvTop mem start hmacStart ⟨p + 4 + ws.flatten.length, n⟩
        { s with p := q, pkt := { s.pkt with content := c } } = .ok r := by
  have hat := (at_ccnxTLV.mp h).2
  have hmod := Nat.mod_le ws.flatten.length (2 ^ 8)
  have hmax : ws.flatten.length % 2 ^ 8 < 4 * maxNameComp := Nat.mod_lt _ (Nat.two_pow_pos 8)
  cases hnest : nested (ccntlvDehead mem) (ccntlvNameElem mem) ⟨p + 4, ws.flatten.length % 2 ^ 8⟩
      { s.p with nameptr := some (start + (p - start)) } with
  | error e =>
    have hlen : (ccnxTLV ccnxTlvMName ws.flatten).length + n = 4 + (ws.flatten.length + n) := by
      rw [ccnxTLV, List.length_append, Nat.add_assoc]
      rfl
    have hdehead := dehead_ccnxTL (n := ws.flatten.length + n) (at_ccnxTLV.mp h).1 (by omega)
    have herr : topStep (ccntlvDehead mem) (ccntlvElem mem start hmacStart)
        (⟨p, 4 + (ws.flatten.length + n)⟩, s) = .error e := by
      rw [topStep, hdehead, ok_bind]
      dsimp only
      unfold ccntlvElem
      rw [if_neg (by simp only; omega), show ccnxTlvM (ccnxTlvMName % 2 ^ 8) = .name from rfl]
      dsimp only
      rw [hnest]
      rfl
    rw [hlen, ccntlvTop, top_error herr] at hok
    cases hok
  | ok Q =>
    obtain ⟨us, vs, hwseq, hlen, rfl⟩ := nested_cut hws hat hmod (by
      rw [show Prefix.compcnt { s.p with nameptr := some (start + (p - start)) } = 0 by
        rw [Prefix.compcnt, hs]
        rfl]
      omega) hnest
    have hone := @top_ccnxTLV mem start hmacStart p n _ s _ _ h (by decide) (by
        unfold ccntlvElem
        rw [if_neg (by simp only; omega), show ccnxTlvM ccnxTlvMName = .name from rfl]
        dsimp only
        rw [hnest]
        rfl)
    have hrest : ws.flatten.length - ws.flatten.length % 2 ^ 8 = vs.flatten.length := by
      rw [hlen, hwseq, List.flatten_append, List.length_append, Nat.add_sub_cancel_left]
    have hsum : p + 4 + ws.flatten.length % 2 ^ 8 + vs.flatten.length = p + 4 + ws.flatten.length := by
      omega
    rw [hwseq, List.flatten_append] at hat
    obtain ⟨c, hc⟩ := @top_components mem start hmacStart _ n _ _
      (fun w hw => hws w (hwseq ▸ List.mem_append_right us hw)) (hlen ▸ (at_append.mp hat).2)
    rw [hone, hrest, hc, hsum] at hok
    refine ⟨us, vs, _, c, hwseq, hlen.symm, ?_, ?_, hok⟩
    · simp only [Prefix.withPieces, hs, List.nil_append]
    · simp only [Prefix.withPieces, hk]

/-- A Name whose length is written in full. -/
theorem top_ccnxName_short {ws : List (List UInt8)} (hws : ∀ w ∈ ws, NameElem w)
    (h : At mem p (ccnxTLV ccnxTlvMName ws.flatten)) (hlen : ws.flatten.length < 2 ^ 8)
    (hs : s.p.comp = []) (hk : s.p.chunknum = none) :
    ∃ q, q.comp = pieces (p + 4) ws ∧ q.chunknum = ws.foldl withChunk none ∧
      ccntlvTop mem start hmacStart ⟨p, (ccnxTLV ccnxTlvMName ws.flatten).length + n⟩ s =
        ccntlvTop mem start hmacStart ⟨p + 4 + ws.flatten.length, n⟩ { s with p := q } := by
  have hmod : ws.flatten.length % 2 ^ 8 = ws.flatten.length := Nat.mod_eq_of_lt hlen
  have hcount : 4 * ws.length ≤ ws.flatten.length := by
    clear h hlen hmod
    induction ws with
    | nil => exact Nat.zero_le _
    | cons w ws ih =>
      have := (hws w List.mem_cons_self).length
      have := ih fun v hv => hws v (List.mem_cons_of_mem _ hv)
      rw [List.flatten_cons, List.length_append, List.length_cons]
      omega
  have hnest := nested_pieces (P := { s.p with nameptr := some (start + (p - start)) }) hws
    (at_ccnxTLV.mp h).2 (by
      rw [show Prefix.compcnt { s.p with nameptr := some (start + (p - start)) } = 0 by
        rw [Prefix.compcnt, hs]
        rfl, maxNameComp]
      omega)
  have hone := @top_ccnxTLV mem start hmacStart p n _ s _ _ h (by decide) (by
      unfold ccntlvElem
      rw [if_neg (by simp only; omega), show ccnxTlvM ccnxTlvMName = .name from rfl]
      dsimp only
      rw [hmod, hnest]
      rfl)
  rw [hmod, Nat.sub_self, Nat.zero_add] at hone
  refine ⟨_, ?_, ?_, hone⟩
  · simp only [Prefix.withPieces, hs, List.nil_append]
  · simp only [Prefix.withPieces, hk]

/-- An element of a message sets the content to its value, or leaves it. -/
theorem ccntlvElem_content {hd typ len : Nat} {cur : Cursor}
    (h : ccntlvElem mem start hmacStart hd typ len cur s = .ok s') :
    s'.pkt.content = s.pkt.content ∨ s'.pkt.content = some ⟨cur.pos, len⟩ := by
  cases ccntlvElem_taken h with
  | payload => exact .inr rfl
  | name | endChunk | algo | digest | noDigest | other => exact .inl rfl

/-- A payload whose length is cut is not taken as a whole by a later element either: there is less
room for it. -/
theorem content_lt {c : Cursor} {size : Nat} (h : ccntlvTop mem start hmacStart ⟨p, n⟩ s = .ok (c, s'))
    (hs : ∃ sp, s.pkt.content = some sp ∧ sp.len < size) (hn : n ≤ size) :
    ∃ sp, s'.pkt.content = some sp ∧ sp.len < size := by
  let I : Nat → CcntlvState → Prop := fun _ s => ∃ sp, s.pkt.content = some sp ∧ sp.len < size
  obtain ⟨⟨q, -, -, hI⟩, -⟩ := top_inv (I := I) (ccntlvDehead_decodes mem) h hs (by
    rintro q typ len cp₁ a a' ⟨sp, hsp, hlt⟩ hq hq₁ he hle
    rcases ccntlvElem_content he with h | h
    · exact ⟨sp, h.trans hsp, hlt⟩
    · exact ⟨_, h, by simp only at hq hle ⊢; omega⟩)
  exact hI

end Message

end Ccnl
