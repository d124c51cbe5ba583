import CcnLite.Lib.Follow
import CcnLite.Pkt.NdntlvRoundtrip
import Mathlib.Data.List.Induction

/-!
# The Name of an NDN packet

`ccnl_ndntlv_bytes2pkt` on a Name of any components, in a packet that it would go through with any
other name (`NdnAround`). The parser looks at the first byte of every component, not only of the
last one: behind a marker it reads a number of any length and gives up if that is too large, and an
empty component has no first byte, so that it looks at the byte behind. `bytes2pkt_name_iff` says
when the packet is accepted, and with which chunk number; `segment_iff` compares this with the
naming convention (`README-chunking.md`), where the marker counts in the last component.
-/

namespace Ccnl

open CRun Tlv

/-! ## The components -/

section Comps

variable {mem : List UInt8} {p n k : Nat} {v : List UInt8} {vs : List (List UInt8)} {P Q : Prefix}
  {b f : UInt8}

/-- What the parser asks of a component with the first byte `f`, that of the component or, if it is
empty, the one behind. -/
def CompTaken (f : UInt8) (v : List UInt8) : Prop :=
  (v.head? = some ndnMarkerSegmentNumber → nonNeg v.tail ≤ uint32Max) ∧
    (v = [] → f ≠ ndnMarkerSegmentNumber)

/-- What the parser asks of the components of a Name with the byte `b` behind, if it has room for
`k` of them. -/
def CompsTaken (b : UInt8) (k : Nat) (vs : List (List UInt8)) : Prop :=
  (∀ v ∈ vs.take k, v.head? = some ndnMarkerSegmentNumber → nonNeg v.tail ≤ uint32Max) ∧
    (vs.length ≤ k → vs.getLast? = some [] → b ≠ ndnMarkerSegmentNumber)

theorem nameElem_comp (h : At mem p v) (hf : mem[p]? = some f) (hcnt : P.compcnt < maxNameComp)
    (hd n : Nat) {e : Elem Prefix} :
    ndnNameElem mem hd ndnTlvNameComponent v.length ⟨p, n⟩ P = .ok e ↔
      CompTaken f v ∧ e = .next ⟨p, n⟩ v.length
        { P with comp := P.comp ++ [⟨p, v.length⟩], chunknum := chunkOf P.chunknum v } := by
  have hlt := (List.getElem?_eq_some_iff.mp hf).1
  have hcomp : IsComponent ndnTlvNameComponent P.compcnt := ⟨rfl, hcnt⟩
  rw [nameElem_eq_ok, withComponent, if_pos hcomp, eq_comm (a := e)]
  simp only [hcomp, hlt, hf, forall_const, true_and, Option.some.injEq]
  cases v with
  | nil =>
    have hunread : ¬ MarkedReadable mem p 0 := fun h => Nat.not_succ_le_zero 0 h.1
    simp only [CompTaken, List.length_nil, List.head?_nil, reduceCtorEq, false_imp_iff, true_and,
      forall_const, hunread, false_and, imp_false]
    refine and_congr_right fun hne => ?_
    rw [if_neg hne]
    rfl
  | cons a bs =>
    obtain ⟨hb, hbs⟩ := at_cons.mp h
    obtain rfl : f = a := Option.some.inj (hf.symm.trans hb)
    have huint : uintAt mem (p + 1) bs.length = nonNeg bs := by rw [uintAt, hbs.take]
    have hread : MarkedReadable mem p (bs.length + 1) := ⟨Nat.succ_pos _, hbs.inBuf⟩
    simp only [CompTaken, List.length_cons, Nat.add_sub_cancel, huint, hread, true_and,
      List.head?_cons, List.tail_cons, Option.some.injEq, reduceCtorEq, false_imp_iff, and_true,
      chunkOf]

theorem nested_comp_error {elem : Nat → Nat → Nat → Cursor → Prefix → Run (Elem Prefix)} {e : Stop}
    (h : At mem p (ndnTLV ndnTlvNameComponent v)) (hv : v.length < 2 ^ 32)
    (he : elem p ndnTlvNameComponent v.length
      ⟨valuePos p ndnTlvNameComponent v.length, v.length + n⟩ P = .error e) :
    nested (ndntlvDehead mem) elem ⟨p, (ndnTLV ndnTlvNameComponent v).length + n⟩ P = .error e := by
  have hpos : 0 < (ndnTLV ndnTlvNameComponent v).length := List.length_pos_iff.mpr (tlv_ne_nil _ v)
  refine nested_error ?_
  unfold nestedStep
  rw [if_neg (by simp only; omega), dehead_tlv h (by decide) hv n, ok_bind]
  simp only [he]
  rfl

/-- A component that there is no room for is skipped. -/
theorem nameElem_full (hcnt : ¬ P.compcnt < maxNameComp) (hd typ i : Nat) (cp : Cursor) :
    ndnNameElem mem hd typ i cp P = .ok (.next cp i P) := by
  unfold ndnNameElem
  rw [if_neg fun h => hcnt h.2]
  rfl

theorem length_comp_lt (h : (ndnComps (v :: vs)).length < 2 ^ 32) :
    v.length < 2 ^ 32 ∧ (ndnComps vs).length < 2 ^ 32 := by
  rw [ndnComps_cons, ndnTLV, List.length_append, List.length_append] at h
  omega

/-- The byte that an element starts with. -/
theorem at_comps_head {w : List UInt8} (h : At mem p (ndnComps (w :: vs))) :
    mem[p]? = some 8 := by
  rw [ndnComps_cons, ndnTLV, ndnTL, List.append_assoc, List.append_assoc] at h
  exact (at_cons.mp (show At mem p (8 :: _) from h)).1

/-- The components that there is no room for. -/
theorem nested_comps_full (h : At mem p (ndnComps vs)) (hlen : (ndnComps vs).length < 2 ^ 32)
    (hcnt : ¬ P.compcnt < maxNameComp) :
    nested (ndntlvDehead mem) (ndnNameElem mem) ⟨p, (ndnComps vs).length⟩ P = .ok P := by
  induction vs generalizing p with
  | nil => exact nested_end p P
  | cons v vs ih =>
    obtain ⟨hv, hvs⟩ := length_comp_lt hlen
    rw [ndnComps_cons] at h
    obtain ⟨h₁, h₂⟩ := at_append.mp h
    rw [ndnComps_cons, List.length_append, nested_tlv (nameSpec_models mem) h₁ (by decide) hv
      (nameElem_full hcnt _ _ _ _)]
    exact ih h₂ hvs

theorem compsTaken_cons : CompsTaken b (k + 1) (v :: vs) ↔
    CompTaken (if vs = [] then b else 8) v ∧ CompsTaken b k vs := by
  have h8 : (8 : UInt8) ≠ ndnMarkerSegmentNumber := by decide
  cases vs with
  | nil => simp [CompsTaken, CompTaken]
  | cons w ws =>
    simp only [CompsTaken, CompTaken, List.take_succ_cons, List.forall_mem_cons, List.length_cons,
      List.getLast?_cons_cons, Nat.add_le_add_iff_right, reduceCtorEq, ↓reduceIte, ne_eq, h8,
      not_false_eq_true, implies_true, and_true, and_assoc]

/-- The loop over a Name. -/
theorem nested_name_iff (h : At mem p (ndnComps vs)) (hlen : (ndnComps vs).length < 2 ^ 32)
    (hb : mem[p + (ndnComps vs).length]? = some b) (hk : P.compcnt + k = maxNameComp) :
    nested (ndntlvDehead mem) (ndnNameElem mem) ⟨p, (ndnComps vs).length⟩ P = .ok Q ↔
      CompsTaken b k vs ∧ Q = { P with
        comp := P.comp ++ (compSpans p vs).take k, chunknum := (vs.take k).foldl chunkOf P.chunknum } := by
  induction vs generalizing p P k with
  | nil =>
    have hend : nested (ndntlvDehead mem) (ndnNameElem mem) ⟨p, (ndnComps []).length⟩ P = .ok P :=
      nested_end p P
    rw [hend, compSpans]
    simp [CompsTaken, eq_comm]
  | cons v vs ih =>
    cases k with
    | zero =>
      rw [nested_comps_full h hlen (by omega)]
      simp [CompsTaken, eq_comm]
    | succ k =>
      obtain ⟨hv, hvs⟩ := length_comp_lt hlen
      rw [ndnComps_cons] at h hb
      rw [List.length_append, ← Nat.add_assoc] at hb
      obtain ⟨h₁, h₂⟩ := at_append.mp h
      have hat := (at_tlv.mp h₁).2
      -- the first byte of an empty component is that of the next element
      have hfirst : ∃ f, mem[valuePos p ndnTlvNameComponent v.length]? = some f ∧
          (CompTaken f v ↔ CompTaken (if vs = [] then b else 8) v) := by
        cases v with
        | cons a bs => exact ⟨a, (at_cons.mp hat).1, by simp [CompTaken]⟩
        | nil =>
          have hend := valuePos_add p ndnTlvNameComponent []
          rw [List.length_nil, Nat.add_zero] at hend
          rw [List.length_nil, hend]
          cases vs with
          | nil => exact ⟨b, by simpa [ndnComps] using hb, by simp⟩
          | cons w ws => exact ⟨8, at_comps_head h₂, by simp⟩
      obtain ⟨f, hf, hiff⟩ := hfirst
      have helem := @nameElem_comp mem _ v P f hat hf (by omega) p (v.length + (ndnComps vs).length)
      rw [ndnComps_cons, List.length_append, compsTaken_cons, ← hiff]
      by_cases ht : CompTaken f v
      · have hroom : (P.comp ++
            [(⟨valuePos p ndnTlvNameComponent v.length, v.length⟩ : Span)]).length + k =
              maxNameComp := by
          rw [List.length_append, List.length_singleton, ← hk, Prefix.compcnt]
          omega
        rw [nested_tlv (nameSpec_models mem) h₁ (by decide) hv (helem.mpr ⟨ht, rfl⟩),
          ih h₂ hvs hb hroom]
        simp only [ht, true_and, compSpans, List.take_succ_cons, List.append_assoc,
          List.singleton_append, List.foldl_cons]
      · cases he : ndnNameElem mem p ndnTlvNameComponent v.length
          ⟨valuePos p ndnTlvNameComponent v.length, v.length + (ndnComps vs).length⟩ P with
        | ok e => exact absurd (helem.mp he).1 ht
        | error e =>
          rw [nested_comp_error h₁ hv he]
          simp [ht]

end Comps

/-! ## The packet around a Name -/

/-- The packet under construction with the name `q`. -/
def NdnState.withName (s : NdnState) (q : Prefix) : NdnState :=
  { s with pkt := { s.pkt with pfx := some q } }

section Around

variable {mem : List UInt8} {start hd typ len : Nat} {cur c e : Cursor} {s t : NdnState} {q : Prefix}

/-- What comes behind the Name does not look at it. -/
theorem ndnElem_withName (hs : s.pkt.pfx.isSome = true) (q : Prefix)
    (h : ndnElem mem start hd typ len cur s = .ok t) :
    ndnElem mem start hd typ len cur (s.withName q) = .ok (t.withName q) ∧ t.pkt.pfx.isSome = true := by
  unfold ndnElem at h ⊢
  cases ht : ndnTlv typ <;> simp only [ht] at h ⊢
  case name =>
    rw [if_pos hs] at h
    cases h
  case signatureValue =>
    split at h
    · rename_i hc
      cases h
      exact ⟨by rw [if_pos (show (s.withName q).validAlgoIsHmac256 = true ∧ len = 32 from hc)]; rfl, hs⟩
    · rename_i hc
      cases h
      exact ⟨by rw [if_neg (show ¬ ((s.withName q).validAlgoIsHmac256 = true ∧ len = 32) from hc)]; rfl,
        hs⟩
  case content | other =>
    cases h
    exact ⟨rfl, hs⟩
  all_goals
    obtain ⟨v, hv, h⟩ := (bind_eq_ok _ _ _).mp h
    cases h
    refine ⟨(bind_eq_ok _ _ _).mpr ⟨v, hv, ?_⟩, hs⟩
    rfl

theorem ndnTop_withName (hs : s.pkt.pfx.isSome = true) (q : Prefix)
    (h : ndnTop mem start c s = .ok (e, t)) :
    ndnTop mem start c (s.withName q) = .ok (e, t.withName q) := by
  let J : Cursor × NdnState → Cursor × NdnState → Prop := fun x y =>
    y = (x.1, x.2.withName q) ∧ x.2.pkt.pfx.isSome = true
  have hstep : ∀ x y, J x y → Mimics (Sum.LiftRel J J) (topStep (ndntlvDehead mem) (ndnElem mem start) x)
      (topStep (ndntlvDehead mem) (ndnElem mem start) y) := by
    rintro ⟨c, s⟩ _ ⟨rfl, hs⟩
    unfold topStep
    refine (Mimics.refl _).bind fun a b hab hb => ?_
    obtain rfl := hb
    match a with
    | (none, c₁) => exact .ok (.inr ⟨rfl, hs⟩)
    | (some (typ, len), c₁) =>
      refine Mimics.bind (R := fun t t' => t' = t.withName q ∧ t.pkt.pfx.isSome = true) ?_ ?_
      · intro t ht
        obtain ⟨h₁, h₂⟩ := ndnElem_withName hs q ht
        exact ⟨_, h₁, rfl, h₂⟩
      · rintro t _ - ⟨rfl, ht⟩
        exact (Mimics.refl _).bind fun c₂ _ _ hc => .ok (.inl ⟨by rw [hc], ht⟩)
  obtain ⟨_, hrun, rfl, -⟩ := loop_follows hstep (c.len + 1) ⟨rfl, hs⟩ _ h
  exact hrun

theorem dehead_pos {x : Option (Nat × Nat)} (h : ndntlvDehead mem c = .ok (x, e)) :
    c.pos < mem.length ∧ e.pos ≤ mem.length := by
  have hread : ∀ {c : Cursor} {y}, ndntlvVarlenint mem c = .ok y → c.pos < mem.length :=
    fun {c y} hy => by
      obtain ⟨b, hb, -⟩ := (bind_eq_ok _ _ _).mp hy
      exact (List.getElem?_eq_some_iff.mp (rd_eq_ok.mp hb)).1
  unfold ndntlvDehead at h
  obtain ⟨y, hy, h⟩ := (bind_eq_ok _ _ _).mp h
  refine ⟨hread hy, ?_⟩
  match y with
  | none =>
    cases h
    exact Nat.le_of_lt (hread hy)
  | some (typ, c₁) =>
    obtain ⟨z, hz, h⟩ := (bind_eq_ok _ _ _).mp h
    match z with
    | none =>
      cases h
      exact Nat.le_of_lt (hread hz)
    | some (vallen, c₂) =>
      have hle := (numAt_lt (varlenint_eq_ok.mp hz).1).2
      dsimp only at h
      split at h <;> cases h <;> exact hle

/-- Where the packet loop ends. -/
theorem ndnTop_end (h : ndnTop mem start c s = .ok (e, t)) :
    c.pos < mem.length ∧ e.pos ≤ mem.length ∧ e.pos + e.len = c.pos + c.len ∧ c.pos ≤ e.pos := by
  have hcur := top_inv (dehead_decodes mem) (I := fun _ _ => True) h trivial
    fun _ _ _ _ _ _ _ _ _ _ _ => trivial
  obtain ⟨⟨p, hp, hpe, -⟩, hlim⟩ := hcur
  obtain ⟨x, hx⟩ : ∃ x, ndntlvDehead mem c = .ok x := by
    cases hx : ndntlvDehead mem c with
    | ok x => exact ⟨x, rfl⟩
    | error r =>
      have herr : topStep (ndntlvDehead mem) (ndnElem mem start) (c, s) = .error r := by
        unfold topStep
        rw [hx]
        rfl
      cases (top_error herr).symm.trans h
  obtain ⟨⟨c₁, s₁⟩, -, hleave⟩ := loop_eq_ok h
  obtain ⟨hlast, -⟩ := topStep_leaves.mp hleave
  exact ⟨(dehead_pos hx).1, (dehead_pos hlast).2, hlim, Nat.le_trans hp hpe⟩

/-- A Name with the components `vs`. -/
def ndnNameOf (vs : List (List UInt8)) : List UInt8 := ndnTLV ndnTlvName (ndnComps vs)

/-- A packet in which nothing but its Name, the bytes `w` at `q` with `n` bytes behind, is in
question: the packet loop comes to the Name in a state `s` without a name, and with some name it would
go from behind it to the end. -/
structure NdnAround (mem : List UInt8) (type start : Nat) (c : Cursor) (q n : Nat) (s : NdnState)
    (w : List UInt8) : Prop where
  kind : type = ndnTlvInterest ∨ type = ndnTlvData
  le : start ≤ c.pos
  name : At mem q w
  before : Reached (topStep (ndntlvDehead mem) (ndnElem mem start)) (c, { pkt := ndnPkt type start })
    (⟨q, w.length + n⟩, s)
  first : s.pkt.pfx = none
  after : ∃ p e t, ndnTop mem start ⟨q + w.length, n⟩
    (NdnState.withName { s with pkt := { s.pkt with val := 2 ^ 64 - 1 } } p) = .ok (⟨e, 0⟩, t)

/-- The name that the parser makes of a Name with the components `vs`, at `q` in the buffer. -/
def nameAt (q : Nat) (vs : List (List UInt8)) : Prefix :=
  let v := valuePos q ndnTlvName (ndnComps vs).length
  { mem := [], comp := (compSpans v vs).take maxNameComp, suite := .ndntlv, nameptr := some q,
    namelen := v - q, chunknum := (vs.take maxNameComp).foldl chunkOf none }

variable {type n k : Nat} {vs : List (List UInt8)} {b : UInt8} {pkt : Pkt}

/-- The header of a Name that is too long is not taken off. -/
theorem dehead_long (h : At mem k (ndnNameOf vs)) (hlen : 2 ^ 32 ≤ (ndnComps vs).length) :
    ndntlvDehead mem ⟨k, (ndnNameOf vs).length + n⟩ =
      .ok (none, ⟨k + 1, (ndnNameOf vs).length + n - 1⟩) := by
  have hform : tlvalForm (ndnComps vs).length = (8, 255) := by
    unfold tlvalForm
    rw [if_neg (by omega), if_neg (by omega), if_neg (by omega)]
  have hpos : 1 ≤ (ndnNameOf vs).length + n :=
    Nat.le_add_right_of_le (List.length_pos_iff.mpr (tlv_ne_nil _ _))
  have hbytes : ndnNameOf vs = 7 :: 255 :: (beBytes 8 (ndnComps vs).length ++ ndnComps vs) := by
    rw [ndnNameOf, ndnTLV, ndnTL, ndnTLval, ndnTLval, hform]
    rfl
  have h₁ : rd mem k = .ok 7 := At.rd (hbytes ▸ h)
  have h₂ : rd mem (k + 1) = .ok 255 := At.rd (at_cons.mp (hbytes ▸ h)).2
  have htype : ndntlvVarlenint mem ⟨k, (ndnNameOf vs).length + n⟩ =
      .ok (some (7, ⟨k + 1, (ndnNameOf vs).length + n - 1⟩)) := by
    unfold ndntlvVarlenint
    rw [h₁, ok_bind, if_pos ⟨by decide, hpos⟩]
    rfl
  have hnone : ndntlvVarlenint mem ⟨k + 1, (ndnNameOf vs).length + n - 1⟩ = .ok none := by
    unfold ndntlvVarlenint
    rw [h₂, ok_bind, if_neg (fun h => absurd h.1 (by decide)),
      if_neg (fun h => absurd h.1 (by decide)), if_neg (fun h => absurd h.1 (by decide))]
    rfl
  unfold ndntlvDehead
  rw [htype, ok_bind]
  dsimp only
  rw [hnone]
  rfl

/-- The Name is taken exactly when its components are. -/
theorem nameElem_iff (h : At mem k (ndnNameOf vs)) (hlen : (ndnComps vs).length < 2 ^ 32)
    (hb : mem[k + (ndnNameOf vs).length]? = some b) (hfirst : s.pkt.pfx = none)
    (hle : start ≤ k) :
    ndnElem mem start k ndnTlvName (ndnComps vs).length
        ⟨valuePos k ndnTlvName (ndnComps vs).length, (ndnComps vs).length + n⟩ s = .ok t ↔
      CompsTaken b maxNameComp vs ∧
        t = NdnState.withName { s with pkt := { s.pkt with val := 2 ^ 64 - 1 } } (nameAt k vs) := by
  have hend : valuePos k ndnTlvName (ndnComps vs).length + (ndnComps vs).length =
      k + (ndnNameOf vs).length := valuePos_add _ _ _
  have hnested := fun Q => @nested_name_iff mem (valuePos k ndnTlvName (ndnComps vs).length)
    maxNameComp vs { mem := [], comp := [], suite := .ndntlv, nameptr := some k } Q b
    (at_tlv.mp h).2 hlen (hend ▸ hb) (Nat.zero_add _)
  have hnone : ¬ s.pkt.pfx.isSome = true := by rw [hfirst]; decide
  unfold ndnElem
  rw [show ndnTlv ndnTlvName = .name from rfl]
  dsimp only
  rw [if_neg hnone, Nat.add_sub_cancel' hle]
  constructor
  · intro h
    obtain ⟨Q, hQ, h⟩ := (bind_eq_ok _ _ _).mp h
    obtain ⟨htaken, rfl⟩ := (hnested Q).mp hQ
    cases h
    exact ⟨htaken, rfl⟩
  · rintro ⟨htaken, rfl⟩
    exact (bind_eq_ok _ _ _).mpr ⟨_, (hnested _).mpr ⟨htaken, rfl⟩, rfl⟩

/-- The packet is accepted exactly when the Name is short enough for the header format that the
parser knows, and its components are taken; the name is then the first 64 components, with the last
chunk number among them. -/
theorem bytes2pkt_name_iff (h : NdnAround mem type start c k n s (ndnNameOf vs))
    (hb : mem[k + (ndnNameOf vs).length]? = some b) :
    ((∃ r, ndntlvBytes2pkt mem type start c = .ok r) ↔
      (ndnComps vs).length < 2 ^ 32 ∧ CompsTaken b maxNameComp vs) ∧
    ∀ pkt e, ndntlvBytes2pkt mem type start c = .ok (pkt, e) → ∃ p, pkt.pfx = some p ∧
      p.comps = vs.take maxNameComp ∧ p.chunknum = (vs.take maxNameComp).foldl chunkOf none := by
  obtain ⟨p, e, t, hafter⟩ := h.after
  have htop := top_reached (dehead_decodes mem) h.before
  simp only at htop
  have hle : c.pos ≤ k :=
    Reached.invariant (I := fun u : Cursor × NdnState => c.pos ≤ u.1.pos) h.before (Nat.le_refl _)
      fun _ _ hi ha => Nat.le_trans hi (Nat.le_of_lt (topStep_cursor (dehead_decodes mem) ha).1)
  have hstart := Nat.le_trans h.le hle
  have hlong : 0 < (ndnNameOf vs).length := List.length_pos_iff.mpr (tlv_ne_nil _ _)
  by_cases hlen : (ndnComps vs).length < 2 ^ 32
  · have helem := fun t => @nameElem_iff mem start s t n k vs b h.name hlen hb h.first hstart
    by_cases ht : CompsTaken b maxNameComp vs
    · have hstep := top_tlv (n := n) h.name (by decide) hlen ((helem _).mpr ⟨ht, rfl⟩)
      have hnamed := ndnTop_withName
        (s := NdnState.withName { s with pkt := { s.pkt with val := 2 ^ 64 - 1 } } p) rfl (nameAt k vs)
        hafter
      have hrun := htop.trans (hstep.trans hnamed)
      obtain ⟨-, hmem, hlim, -⟩ := ndnTop_end hafter
      simp only [Nat.add_zero] at hmem hlim
      refine ⟨iff_of_true ⟨_, ndntlvBytes2pkt_eq_ok.mpr ⟨h.kind, _, hrun, rfl, _,
        rdBytes_eq_ok.mpr ⟨.inr ?_, rfl⟩, rfl⟩⟩ ⟨hlen, ht⟩, fun pkt e' hpkt => ?_⟩
      · simp only
        omega
      · obtain ⟨-, t', htop', -, buf, hbuf, rfl⟩ := ndntlvBytes2pkt_eq_ok.mp hpkt
        obtain ⟨rfl, rfl⟩ := Prod.mk.inj (Except.ok.inj (htop'.symm.trans hrun))
        obtain ⟨-, rfl⟩ := rdBytes_eq_ok.mp hbuf
        refine ⟨_, rfl, ?_, rfl⟩
        have hend : valuePos k ndnTlvName (ndnComps vs).length + (ndnComps vs).length =
          k + (ndnNameOf vs).length := valuePos_add _ _ _
        have hq : k ≤ valuePos k ndnTlvName (ndnComps vs).length := Nat.le_add_right _ _
        have hcopy := @map_bytes_rebase
          ((compSpans (valuePos k ndnTlvName (ndnComps vs).length) vs).take maxNameComp) mem start e
          fun sp hsp => (within_compSpans sp (List.mem_of_mem_take hsp)).mono (by omega) (by omega)
        refine hcopy.trans ?_
        rw [List.map_take, bytes_compSpans (at_tlv.mp h.name).2]
    · have herr : ¬ ∃ r, ndntlvBytes2pkt mem type start c = .ok r := by
        rintro ⟨⟨pkt, e'⟩, hpkt⟩
        obtain ⟨-, t', htop', -⟩ := ndntlvBytes2pkt_eq_ok.mp hpkt
        cases he : ndnElem mem start k ndnTlvName (ndnComps vs).length
          ⟨valuePos k ndnTlvName (ndnComps vs).length, (ndnComps vs).length + n⟩ s with
        | ok t => exact ht ((helem t).mp he).1
        | error r =>
          have hstep : topStep (ndntlvDehead mem) (ndnElem mem start)
              (⟨k, (ndnNameOf vs).length + n⟩, s) = .error r := by
            unfold topStep
            rw [ndnNameOf, dehead_tlv h.name (by decide) hlen n, ok_bind]
            simp only [he]
            rfl
          cases (top_error hstep).symm.trans (htop.symm.trans htop')
      exact ⟨iff_of_false herr fun hc => ht hc.2, fun pkt e' hpkt => absurd ⟨_, hpkt⟩ herr⟩
  · have herr : ¬ ∃ r, ndntlvBytes2pkt mem type start c = .ok r := by
      rintro ⟨⟨pkt, e'⟩, hpkt⟩
      obtain ⟨-, t', htop', h0, -⟩ := ndntlvBytes2pkt_eq_ok.mp hpkt
      have hstop : ndnTop mem start ⟨k, (ndnNameOf vs).length + n⟩ s = .ok (_, s) :=
        top_end (dehead_long h.name (Nat.le_of_not_lt hlen))
      obtain ⟨rfl, -⟩ := Prod.mk.inj (Except.ok.inj (hstop.symm.trans (htop.symm.trans htop')))
      have hbig : (ndnComps vs).length ≤ (ndnNameOf vs).length := length_value_le _ _
      simp only at h0
      omega
    exact ⟨iff_of_false herr fun hc => hlen hc.1, fun pkt e' hpkt => absurd ⟨_, hpkt⟩ herr⟩

end Around

/-! ## Segments -/

/-- The chunk number by the naming convention: the last component is the marker and a number of one,
two or four bytes. -/
def segmentOf (vs : List (List UInt8)) : Option Nat :=
  match vs.getLast? with
  | some (m :: bs) =>
    if m = ndnMarkerSegmentNumber ∧ (bs.length = 1 ∨ bs.length = 2 ∨ bs.length = 4) then
      some (beNat bs)
    else none
  | _ => none

section Segments

variable {vs : List (List UInt8)} {v bs : List UInt8}

theorem nonNeg_concat (bs : List UInt8) (b : UInt8) :
    nonNeg (bs ++ [b]) = u64 (nonNeg bs * 2 ^ 8) + b.toNat := by
  rw [nonNeg, List.foldl_append]
  rfl

/-- In eight bytes and less no bit is lost. -/
theorem nonNeg_eq_beNat (h : bs.length ≤ 8) : nonNeg bs = beNat bs := by
  induction bs using List.reverseRecOn with
  | nil => rfl
  | append_singleton bs b ih =>
    rw [List.length_append, List.length_singleton] at h
    have hlt : beNat bs * 2 ^ 8 < 2 ^ 64 :=
      calc beNat bs * 2 ^ 8
        _ < 2 ^ (8 * bs.length) * 2 ^ 8 :=
          Nat.mul_lt_mul_of_pos_right (beNat_lt bs) (Nat.two_pow_pos 8)
        _ = 2 ^ (8 * bs.length + 8) := (Nat.pow_add ..).symm
        _ ≤ 2 ^ 64 := Nat.pow_le_pow_right (by omega) (by omega)
    rw [nonNeg_concat, ih (by omega), beNat_concat, u64, Nat.mod_eq_of_lt hlt]

theorem foldl_chunkOf_none :
    vs.foldl chunkOf none = none ↔ ∀ v ∈ vs, v.head? ≠ some ndnMarkerSegmentNumber := by
  induction vs using List.reverseRecOn with
  | nil => simp
  | append_singleton vs v ih =>
    rw [List.foldl_append, List.foldl_cons, List.foldl_nil, chunkOf]
    split
    · rename_i hm
      simp [hm]
    · rename_i hm
      rw [ih, List.forall_mem_append]
      simp [hm]

/-- The parser agrees with the convention where the last component carries a number, and where no
component has the marker in front. -/
theorem foldl_chunkOf_segment : vs.foldl chunkOf none = segmentOf vs ↔
    (segmentOf vs).isSome = true ∨ ∀ v ∈ vs, v.head? ≠ some ndnMarkerSegmentNumber := by
  induction vs using List.reverseRecOn with
  | nil => simp [segmentOf]
  | append_singleton vs v _ =>
    rw [← foldl_chunkOf_none, List.foldl_append, List.foldl_cons, List.foldl_nil, segmentOf,
      List.getLast?_concat]
    cases v with
    | nil => simp [chunkOf]
    | cons m bs =>
      rw [chunkOf, List.head?_cons, List.tail_cons]
      dsimp only
      by_cases hm : m = ndnMarkerSegmentNumber
      · by_cases hl : bs.length = 1 ∨ bs.length = 2 ∨ bs.length = 4
        · have hnum : nonNeg bs = beNat bs := nonNeg_eq_beNat (by omega)
          simp [hm, hl, hnum]
        · simp [hm, hl]
      · simp [hm]

end Segments

/-- A packet with a Name of at most 64 components is accepted, with the chunk number of the last
component, exactly when the Name is shorter than 2^32 bytes, behind each marker in front of a
component there is a number below 2^32, an empty last component is not followed by a zero byte, and
the last component carries a number or no component has the marker in front. -/
theorem segment_iff {mem : List UInt8} {type start k n : Nat} {c : Cursor} {s : NdnState}
    {vs : List (List UInt8)} (h : NdnAround mem type start c k n s (ndnNameOf vs))
    (hvs : vs.length ≤ maxNameComp) :
    (∃ pkt e p, ndntlvBytes2pkt mem type start c = .ok (pkt, e) ∧ pkt.pfx = some p ∧
      p.chunknum = segmentOf vs) ↔
    (ndnComps vs).length < 2 ^ 32 ∧
      (∀ v ∈ vs, v.head? = some ndnMarkerSegmentNumber → nonNeg v.tail ≤ uint32Max) ∧
      (vs.getLast? = some [] → mem[k + (ndnNameOf vs).length]? ≠ some ndnMarkerSegmentNumber) ∧
      ((segmentOf vs).isSome = true ∨ ∀ v ∈ vs, v.head? ≠ some ndnMarkerSegmentNumber) := by
  obtain ⟨p, e, t, hafter⟩ := h.after
  have hlt : k + (ndnNameOf vs).length < mem.length := (ndnTop_end hafter).1
  obtain ⟨b, hb⟩ : ∃ b, mem[k + (ndnNameOf vs).length]? = some b :=
    ⟨_, List.getElem?_eq_getElem hlt⟩
  obtain ⟨hok, hname⟩ := bytes2pkt_name_iff h hb
  rw [List.take_of_length_le hvs] at hname
  have htaken : CompsTaken b maxNameComp vs ↔
      (∀ v ∈ vs, v.head? = some ndnMarkerSegmentNumber → nonNeg v.tail ≤ uint32Max) ∧
        (vs.getLast? = some [] → b ≠ ndnMarkerSegmentNumber) := by
    rw [CompsTaken, List.take_of_length_le hvs]
    simp only [hvs, forall_const]
  have hbehind : mem[k + (ndnNameOf vs).length]? ≠ some ndnMarkerSegmentNumber ↔
      b ≠ ndnMarkerSegmentNumber := by
    rw [hb]
    simp
  rw [hbehind, ← and_assoc (b := vs.getLast? = some [] → _), ← htaken, ← and_assoc, ← hok,
    ← foldl_chunkOf_segment]
  constructor
  · rintro ⟨pkt, e, p, hpkt, hp, hc⟩
    obtain ⟨q, hq, -, hchunk⟩ := hname pkt e hpkt
    obtain rfl : p = q := Option.some.inj (hp.symm.trans hq)
    exact ⟨⟨_, hpkt⟩, hchunk.symm.trans hc⟩
  · rintro ⟨⟨⟨pkt, e⟩, hpkt⟩, hc⟩
    obtain ⟨q, hq, -, hchunk⟩ := hname pkt e hpkt
    exact ⟨pkt, e, q, hpkt, hq, hchunk.trans hc⟩

/-- An Interest of a Name only, with a byte behind. -/
theorem around_interest {mem : List UInt8} {vs : List (List UInt8)} {b : UInt8}
    (h : mem = 5 :: UInt8.ofNat (ndnNameOf vs).length :: (ndnNameOf vs ++ [b])) :
    NdnAround mem ndnTlvInterest 0 ⟨2, (ndnNameOf vs).length⟩ 2 0 { pkt := ndnPkt ndnTlvInterest 0 }
      (ndnNameOf vs) where
  kind := .inl rfl
  le := Nat.zero_le _
  name := by
    rw [h]
    exact List.prefix_append _ _
  before := .refl
  first := rfl
  after := by
    have hb : rd mem (2 + (ndnNameOf vs).length) = .ok b := by
      rw [rd_eq_ok, h, Nat.add_comm]
      simp
    have hend : ndnTop mem 0 ⟨2 + (ndnNameOf vs).length, 0⟩ (NdnState.withName
        { pkt := { ndnPkt ndnTlvInterest 0 with val := 2 ^ 64 - 1 } } (nameAt 2 vs)) = _ :=
      top_ndn_end _
    exact ⟨nameAt 2 vs, _, _, hend.trans (by rw [hb]; rfl)⟩

/-- The name /%00%01/b gets the chunk number 1. -/
theorem segment_not_last : ¬ ∀ mem type start c k n s (vs : List (List UInt8)),
    NdnAround mem type start c k n s (ndnNameOf vs) → vs.length ≤ maxNameComp →
    ∃ pkt e p, ndntlvBytes2pkt mem type start c = .ok (pkt, e) ∧ pkt.pfx = some p ∧
      p.chunknum = segmentOf vs := by
  intro h
  obtain ⟨pkt, e, p, hpkt, hp, hc⟩ := h [5, 9, 7, 7, 8, 2, 0, 1, 8, 1, 98, 9] _ _ _ _ _ _
    [[0, 1], [98]] (around_interest (b := 9) (by decide)) (by decide)
  have hone : (ndntlvBytes2pkt [5, 9, 7, 7, 8, 2, 0, 1, 8, 1, 98, 9] ndnTlvInterest 0
      ⟨2, (ndnNameOf [[0, 1], [98]]).length⟩).toOption.map (fun r => r.1.pfx.map (·.chunknum)) =
        some (some (some 1)) := by
    decide +kernel
  rw [hpkt] at hone
  simp only [Except.toOption, Option.map_some, hp, hc] at hone
  exact absurd hone (by decide)

/-- The name /a, chunk 300. -/
theorem segment_last : ∃ pkt e p,
    ndntlvBytes2pkt [5, 10, 7, 8, 8, 1, 97, 8, 3, 0, 1, 44, 0] ndnTlvInterest 0 ⟨2, 10⟩ =
      .ok (pkt, e) ∧ pkt.pfx = some p ∧ p.chunknum = some 300 :=
  (segment_iff (@around_interest _ [[97], [0, 1, 44]] 0 (by decide)) (by decide)).mpr
    ⟨by decide, by decide, by decide, by decide⟩

end Ccnl
