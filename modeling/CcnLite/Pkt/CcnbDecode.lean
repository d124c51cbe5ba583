import CcnLite.Pkt.CcnbEncode
import CcnLite.Pkt.CcnbPacket

/-!
# What the CCNB parser makes of what the encoder wrote

A header that the encoder wrote is a header on the wire when its number is below 2 ^ 53
(`ccnbAt_hdr`). A greater number needs more than the eight bytes that the parser looks at, and there
is no header (`not_ccnbAt_hdr`). A blob, a Name, and the packet loop over what is in a packet follow
from this.
-/

namespace Ccnl

open CRun Relation

/-! ## Headers -/

section Header

variable {k n num tt c : Nat} {b : UInt8} {xs rest : List UInt8}

theorem ccnbSeptets_zero (k : Nat) : ccnbSeptets k 0 = [] := by cases k <;> rfl

theorem ccnbSeptets_succ (h : 0 < n) :
    ccnbSeptets (k + 1) n = UInt8.ofNat (n % 2 ^ 7) :: ccnbSeptets k (n / 2 ^ 7) := by
  rw [ccnbSeptets, if_pos h, Nat.shiftRight_eq_div_pow, ← Nat.and_two_pow_sub_one_eq_mod]

/-- Seven bits at a time have the top bit clear. -/
theorem lt_of_mem_septets (h : b ∈ ccnbSeptets k n) : b < 0x80 := by
  induction k generalizing n with
  | zero => cases h
  | succ k ih =>
    rw [ccnbSeptets] at h
    split at h
    · rcases List.mem_cons.mp h with rfl | h
      · rw [UInt8.lt_iff_toNat_lt, UInt8.toNat_ofNat', show (0x7f : Nat) = 2 ^ 7 - 1 from rfl,
          Nat.and_two_pow_sub_one_eq_mod]
        have := Nat.mod_lt n (Nat.two_pow_pos 7)
        exact Nat.lt_of_le_of_lt (Nat.mod_le _ _) this
      · exact ih h
    · cases h

/-- Reading the septets gives the number. -/
theorem foldl_septets (h : n ≤ k) :
    (ccnbSeptets k n).reverse.foldl (fun v b => v * 2 ^ 7 + b.toNat) 0 = n := by
  induction k generalizing n with
  | zero =>
    obtain rfl : n = 0 := Nat.le_zero.mp h
    rfl
  | succ k ih =>
    by_cases hn : 0 < n
    · have hdiv : n / 2 ^ 7 ≤ k := by omega
      have hmod : (UInt8.ofNat (n % 2 ^ 7)).toNat = n % 2 ^ 7 := by
        rw [UInt8.toNat_ofNat']
        omega
      rw [ccnbSeptets_succ hn, List.reverse_cons, List.foldl_append, ih hdiv, List.foldl_cons,
        List.foldl_nil, hmod]
      omega
    · obtain rfl : n = 0 := by omega
      rw [ccnbSeptets_zero]
      rfl

theorem length_septets_le (h : n ≤ k) (j : Nat) :
    (ccnbSeptets k n).length ≤ j ↔ n < 2 ^ (7 * j) := by
  induction k generalizing n j with
  | zero =>
    obtain rfl : n = 0 := Nat.le_zero.mp h
    exact iff_of_true (Nat.zero_le _) (Nat.two_pow_pos _)
  | succ k ih =>
    by_cases hn : 0 < n
    · rw [ccnbSeptets_succ hn, List.length_cons]
      cases j with
      | zero => omega
      | succ j =>
        rw [Nat.succ_le_succ_iff, ih (by omega), Nat.div_lt_iff_lt_mul (Nat.two_pow_pos 7),
          ← Nat.pow_add]
        rfl
    · obtain rfl : n = 0 := by omega
      rw [ccnbSeptets_zero]
      exact iff_of_true (Nat.zero_le _) (Nat.two_pow_pos _)

/-- The first of the septets is not zero. -/
theorem septets_first (h : n ≤ k) {x : UInt8} (hx : n = 0 → x ≠ 0) :
    ∃ y ys, (ccnbSeptets k n).reverse ++ [x] = y :: ys ∧ y ≠ 0 := by
  induction k generalizing n x with
  | zero => exact ⟨x, [], rfl, hx (Nat.le_zero.mp h)⟩
  | succ k ih =>
    by_cases hn : 0 < n
    · rw [ccnbSeptets_succ hn, List.reverse_cons]
      have hnext : n / 2 ^ 7 = 0 → UInt8.ofNat (n % 2 ^ 7) ≠ 0 := fun h0 he => by
        have := congrArg UInt8.toNat he
        rw [UInt8.toNat_ofNat'] at this
        have h0' : n < 2 ^ 7 := by omega
        rw [Nat.mod_eq_of_lt h0', Nat.mod_eq_of_lt (by omega)] at this
        exact absurd this (Nat.ne_of_gt hn)
      obtain ⟨y, ys, hy, h0⟩ := ih (by omega) hnext
      exact ⟨y, ys ++ [x], by rw [hy]; rfl, h0⟩
    · obtain rfl : n = 0 := by omega
      rw [ccnbSeptets_zero]
      exact ⟨x, [], rfl, hx rfl⟩

/-- The last byte of a header. -/
def lastByte (num tt : Nat) : UInt8 := UInt8.ofNat (0x80 ||| ((num &&& 0x0f) <<< 3) ||| tt)

theorem lastByte_spec (ht : tt < 8) : 0x80 ≤ lastByte num tt ∧
    ((lastByte num tt >>> 3) &&& 0xf).toNat = num % 2 ^ 4 ∧ (lastByte num tt &&& 0x7).toNat = tt := by
  have hall : ∀ a < 16, ∀ t < 8,
      (0x80 : UInt8) ≤ UInt8.ofNat (0x80 ||| (a <<< 3) ||| t) ∧
      ((UInt8.ofNat (0x80 ||| (a <<< 3) ||| t) >>> 3) &&& 0xf).toNat = a ∧
      (UInt8.ofNat (0x80 ||| (a <<< 3) ||| t) &&& 0x7).toNat = t := by decide
  have hlast : lastByte num tt = UInt8.ofNat (0x80 ||| ((num % 2 ^ 4) <<< 3) ||| tt) := by
    rw [lastByte, show (0x0f : Nat) = 2 ^ 4 - 1 from rfl, Nat.and_two_pow_sub_one_eq_mod]
  rw [hlast]
  exact hall _ (Nat.mod_lt _ (Nat.two_pow_pos 4)) tt ht

theorem ccnbHdr_eq (num tt : Nat) :
    ccnbHdr num tt = (ccnbSeptets (num >>> 4) (num >>> 4)).reverse ++ [lastByte num tt] := by
  rw [ccnbHdr, List.reverse_cons]
  rfl

/-- Bytes with the top bit clear are no header. -/
theorem ccnbNumber_none (h : ∀ b ∈ xs, b < 0x80) (v : Nat) : ccnbNumber xs v = none := by
  induction xs generalizing v with
  | nil => rfl
  | cons b xs ih =>
    have hb : ¬ 0x80 ≤ b := UInt8.not_le.mpr (h b (List.mem_cons_self ..))
    rw [ccnbNumber, if_neg hb, ih fun b hb => h b (List.mem_cons_of_mem _ hb)]
    rfl

theorem ccnbNumber_some (h : ∀ b ∈ xs, b < 0x80) (hb : 0x80 ≤ b) (v : Nat) :
    ccnbNumber (xs ++ b :: rest) v =
      some ((xs.foldl (fun v b => v * 2 ^ 7 + b.toNat) v * 2 ^ 4 + ((b >>> 3) &&& 0xf).toNat,
        (b &&& 0x7).toNat), xs.length + 1) := by
  induction xs generalizing v with
  | nil => rw [List.nil_append, ccnbNumber, if_pos hb]; rfl
  | cons a xs ih =>
    have ha : ¬ 0x80 ≤ a := UInt8.not_le.mpr (h a (List.mem_cons_self ..))
    rw [List.cons_append, ccnbNumber, if_neg ha, ih fun b hb => h b (List.mem_cons_of_mem _ hb)]
    rfl

/-- The first byte of a header is not an end marker. -/
theorem hdr_first (ht : tt < 8) : ∃ y ys, ccnbHdr num tt = y :: ys ∧ y ≠ 0 := by
  rw [ccnbHdr_eq]
  refine septets_first (Nat.le_refl _) fun _ h => ?_
  have := (@lastByte_spec num tt ht).1
  rw [h] at this
  exact absurd this (by decide)

theorem length_hdr_le : (ccnbHdr num tt).length ≤ 8 ↔ num < 2 ^ 53 := by
  have hpow : 2 ^ (7 * 7) * 2 ^ 4 = 2 ^ 53 := by decide
  rw [ccnbHdr_eq, List.length_append, List.length_reverse, List.length_singleton,
    Nat.succ_le_succ_iff, length_septets_le (Nat.le_refl _), Nat.shiftRight_eq_div_pow,
    Nat.div_lt_iff_lt_mul (Nat.two_pow_pos 4), hpow]

theorem ccnbHeader_first {y : UInt8} {ys : List UInt8} (h : y ≠ 0) :
    ccnbHeader (y :: ys) = ccnbNumber ((y :: ys).take 8) 0 := by rw [ccnbHeader, if_neg h]

/-- A header is read back when its number is below 2 ^ 53. -/
theorem ccnbHeader_hdr (ht : tt < 8) (hn : num < 2 ^ 53) (rest : List UInt8) :
    ccnbHeader (ccnbHdr num tt ++ rest) = some ((num, tt), (ccnbHdr num tt).length) := by
  obtain ⟨y, ys, hy, h0⟩ := @hdr_first num tt ht
  obtain ⟨hb, hnum, htyp⟩ := @lastByte_spec num tt ht
  have hlen := (@length_hdr_le num tt).mpr hn
  have hshift : num >>> 4 = num / 2 ^ 4 := Nat.shiftRight_eq_div_pow _ _
  rw [hy, List.cons_append, ccnbHeader_first h0, ← List.cons_append, ← hy, List.take_append,
    List.take_of_length_le hlen, ccnbHdr_eq, List.append_assoc, List.singleton_append,
    ccnbNumber_some (fun b hb => lt_of_mem_septets (List.mem_reverse.mp hb)) hb,
    foldl_septets (Nat.le_refl _), hnum, htyp, List.length_append, List.length_singleton, hshift,
    Nat.div_add_mod']

/-- A greater number has no header that the parser reads. -/
theorem ccnbHeader_hdr_none (ht : tt < 8) (hn : 2 ^ 53 ≤ num) (rest : List UInt8) :
    ccnbHeader (ccnbHdr num tt ++ rest) = none := by
  obtain ⟨y, ys, hy, h0⟩ := @hdr_first num tt ht
  have hlen : 8 ≤ (ccnbSeptets (num >>> 4) (num >>> 4)).reverse.length := by
    have := mt (@length_hdr_le num tt).mp (by omega)
    rw [ccnbHdr_eq, List.length_append, List.length_singleton] at this
    omega
  rw [hy, List.cons_append, ccnbHeader_first h0, ← List.cons_append, ← hy, ccnbHdr_eq,
    List.append_assoc, List.take_append_of_le_length hlen]
  exact ccnbNumber_none (fun b hb =>
    lt_of_mem_septets (List.mem_reverse.mp (List.mem_of_mem_take hb))) 0

end Header

/-! ## On the wire

The limit is the end of the memory from here on. -/

section Wire

variable {mem bs : List UInt8} {p num tt : Nat}

theorem ccnbAt_iff {typ q : Nat} : CcnbAt mem mem.length p num typ q ↔
    ∃ k, ccnbHeader (mem.drop p) = some ((num, typ), k) ∧ q = p + k := by
  unfold CcnbAt
  rw [List.take_of_length_le (Nat.le_of_eq List.length_drop)]

theorem ccnbAt_hdr (h : At mem p (ccnbHdr num tt)) (ht : tt < 8) (hn : num < 2 ^ 53) :
    CcnbAt mem mem.length p num tt (p + (ccnbHdr num tt).length) := by
  obtain ⟨rest, hrest⟩ := h
  exact ccnbAt_iff.mpr ⟨_, by rw [← hrest, ccnbHeader_hdr ht hn], rfl⟩

theorem not_ccnbAt_hdr (h : At mem p (ccnbHdr num tt)) (ht : tt < 8) (hn : 2 ^ 53 ≤ num)
    (n typ q : Nat) : ¬ CcnbAt mem mem.length p n typ q := by
  obtain ⟨rest, hrest⟩ := h
  rw [ccnbAt_iff, ← hrest, ccnbHeader_hdr_none ht hn]
  rintro ⟨k, ⟨⟩, -⟩

/-- An end marker. -/
theorem ccnbAt_end (h : At mem p [0]) : CcnbAt mem mem.length p 0 0 (p + 1) := by
  obtain ⟨rest, hrest⟩ := h
  exact ccnbAt_iff.mpr ⟨1, by rw [← hrest]; rfl, rfl⟩

theorem skips_blob {lim n q q' : Nat} {r : Option Span} :
    Skips mem lim ccnTtBlob n q q' r ↔ q + n ≤ lim ∧ q' = q + n ∧ r = some ⟨q, n⟩ := by
  simp [Skips, IsBlob, IsOpen, ccnTtBlob, ccnTtDtag, ccnTtDattr]

/-- Where the parser finds a blob that was written at `p`. -/
def blobSpan (p : Nat) (bs : List UInt8) : Span := ⟨p + (ccnbHdr bs.length ccnTtBlob).length, bs.length⟩

theorem bytes_blobSpan (h : At mem p (ccnbBlob bs)) : (blobSpan p bs).bytes mem = bs :=
  (at_append.mp h).2.take

theorem blobSpan_within (p : Nat) (bs : List UInt8) :
    (blobSpan p bs).Within p (p + (ccnbBlob bs).length) := by
  rw [ccnbBlob, List.length_append]
  exact ⟨Nat.le_add_right _ _, Nat.le_of_eq (Nat.add_assoc _ _ _)⟩

/-- A blob with an end marker behind it is found when its length is below 2 ^ 53. -/
theorem hunts_blob (h : At mem p (ccnbBlob bs ++ [0])) {p' : Nat} {r : Option Span} :
    Hunts mem mem.length p p' r ↔ bs.length < 2 ^ 53 ∧
      p' = p + (ccnbBlob bs ++ [0]).length ∧ r = some (blobSpan p bs) := by
  obtain ⟨hblob, hend⟩ := at_append.mp h
  have hhdr := (at_append.mp hblob).1
  have hpos : p + (ccnbHdr bs.length ccnTtBlob).length + bs.length = p + (ccnbBlob bs).length := by
    rw [ccnbBlob, List.length_append, Nat.add_assoc]
  by_cases hn : bs.length < 2 ^ 53
  · have hat := ccnbAt_hdr hhdr (by decide) hn
    have hmark := ccnbAt_end hend
    have hle := hmark.lt
    rw [hunts_iff_of_not_isEnd hat (not_isEnd_of_blob (.inl rfl)), and_iff_right hn]
    simp only [skips_blob, hpos]
    constructor
    · rintro ⟨q', r₁, r₂, ⟨-, rfl, rfl⟩, hend', rfl⟩
      obtain ⟨rfl, rfl⟩ := (hunts_iff_of_isEnd hmark ⟨rfl, rfl⟩).mp hend'
      exact ⟨by rw [List.length_append]; rfl, rfl⟩
    · rintro ⟨rfl, rfl⟩
      exact ⟨_, _, none, ⟨by omega, rfl, rfl⟩, (hunts_iff_of_isEnd hmark ⟨rfl, rfl⟩).mpr
        ⟨by rw [List.length_append]; rfl, rfl⟩, rfl⟩
  · refine iff_of_false (fun hunts => ?_) fun h => hn h.1
    have hno := not_ccnbAt_hdr hhdr (by decide) (by omega)
    cases hunts with
    | fin hat => exact hno _ _ _ hat
    | blob hat => exact hno _ _ _ hat
    | elem hat => exact hno _ _ _ hat

/-! ### Names -/

/-- The blobs of components that were written at `p`. -/
def ccnbSpans : Nat → List (List UInt8) → List Span
  | _, [] => []
  | p, v :: vs =>
    blobSpan (p + (ccnbHdr ccnDtagComponent ccnTtDtag).length) v ::
      ccnbSpans (p + (ccnbField1 ccnDtagComponent v).length) vs

theorem at_field1 {num : Nat} : At mem p (ccnbField1 num bs) ↔
    At mem p (ccnbHdr num ccnTtDtag) ∧
      At mem (p + (ccnbHdr num ccnTtDtag).length) (ccnbBlob bs ++ [0]) := at_append

theorem length_field1 (num : Nat) (bs : List UInt8) : (ccnbField1 num bs).length =
    (ccnbHdr num ccnTtDtag).length + (ccnbBlob bs ++ [0]).length := List.length_append

theorem ccnbComps_cons (v : List UInt8) (vs : List (List UInt8)) :
    ccnbComps (v :: vs) = ccnbField1 ccnDtagComponent v ++ ccnbComps vs := List.flatMap_cons

theorem bytes_ccnbSpans {vs : List (List UInt8)} (h : At mem p (ccnbComps vs)) :
    (ccnbSpans p vs).map (·.bytes mem) = vs := by
  induction vs generalizing p with
  | nil => rfl
  | cons v vs ih =>
    rw [ccnbComps_cons] at h
    obtain ⟨hv, hvs⟩ := at_append.mp h
    have hblob := (at_append.mp (at_field1.mp hv).2).1
    rw [ccnbSpans, List.map_cons, ih hvs, bytes_blobSpan hblob]

theorem within_ccnbSpans {vs : List (List UInt8)} :
    ∀ s ∈ ccnbSpans p vs, s.Within p (p + (ccnbComps vs).length) := by
  induction vs generalizing p with
  | nil => exact fun _ hs => nomatch hs
  | cons v vs ih =>
    intro s hs
    have hlen := length_field1 ccnDtagComponent v
    rw [List.length_append] at hlen
    rw [ccnbComps_cons, List.length_append]
    rcases List.mem_cons.mp hs with rfl | hs
    · exact (blobSpan_within _ _).mono (by omega) (by omega)
    · exact (ih s hs).mono (by omega) (by omega)

/-- A component is taken off the front of a Name when its length is below 2 ^ 53. -/
theorem nameEnds_comp {comp : List (Option Span)} {t : Nat × List (Option Span)}
    (h : At mem p (ccnbField1 ccnDtagComponent bs)) (hn : comp.length < maxNameComp) :
    NameEnds mem mem.length (p, comp) t ↔ bs.length < 2 ^ 53 ∧
      NameEnds mem mem.length (p + (ccnbField1 ccnDtagComponent bs).length,
        comp ++ [some (blobSpan (p + (ccnbHdr ccnDtagComponent ccnTtDtag).length) bs)]) t := by
  obtain ⟨hhdr, hblob⟩ := at_field1.mp h
  have hat := ccnbAt_hdr hhdr (by decide) (by decide)
  have hcomp : IsCcnbComponent ccnDtagComponent ccnTtDtag comp.length := ⟨⟨rfl, rfl⟩, hn⟩
  have hpass : ∀ u, NamePass mem mem.length (p, comp) u ↔ bs.length < 2 ^ 53 ∧
      u = (p + (ccnbField1 ccnDtagComponent bs).length,
        comp ++ [some (blobSpan (p + (ccnbHdr ccnDtagComponent ccnTtDtag).length) bs)]) := by
    intro u
    unfold NamePass
    rw [hat.exists_iff]
    simp only [hcomp, ↓reduceIte, hunts_blob hblob, length_field1, ← Nat.add_assoc]
    constructor
    · rintro ⟨-, r, ⟨hlt, hpos, rfl⟩, hcs⟩
      exact ⟨hlt, Prod.ext hpos hcs⟩
    · rintro ⟨hlt, rfl⟩
      exact ⟨not_isEnd_of_open (.inl rfl), _, ⟨hlt, rfl, rfl⟩, rfl⟩
  constructor
  · rintro ⟨u, hu, hend, ht⟩
    rcases ReflTransGen.cases_head hu with rfl | ⟨v, hv, hu⟩
    · exact nomatch (hat.unique hend).2.1
    · obtain ⟨hlt, rfl⟩ := (hpass v).mp hv
      exact ⟨hlt, u, hu, hend, ht⟩
  · rintro ⟨hlt, u, hu, hend, ht⟩
    exact ⟨u, .head ((hpass _).mpr ⟨hlt, rfl⟩) hu, hend, ht⟩

/-- A Name that was written is taken when its components are shorter than 2 ^ 53. -/
theorem nameEnds_comps {vs : List (List UInt8)} {comp : List (Option Span)}
    {t : Nat × List (Option Span)} (h : At mem p (ccnbComps vs ++ [0]))
    (hn : comp.length + vs.length ≤ maxNameComp) :
    NameEnds mem mem.length (p, comp) t ↔ (∀ v ∈ vs, v.length < 2 ^ 53) ∧
      t = (p + (ccnbComps vs ++ [0]).length, comp ++ (ccnbSpans p vs).map some) := by
  induction vs generalizing p comp with
  | nil =>
    have hat := ccnbAt_end h
    simp only [List.not_mem_nil, false_implies, implies_true, true_and]
    constructor
    · rintro ⟨u, hu, hend, ht⟩
      rcases ReflTransGen.cases_head hu with rfl | ⟨v, ⟨num, typ, q, hat', hne, -⟩, -⟩
      · exact Prod.ext (hend.unique hat).2.2 (by rw [ht]; exact (List.append_nil comp).symm)
      · exact absurd ⟨(hat'.unique hat).1, (hat'.unique hat).2.1⟩ hne
    · rintro rfl
      exact ⟨_, .refl, hat, List.append_nil comp⟩
  | cons v vs ih =>
    rw [ccnbComps_cons, List.append_assoc] at h ⊢
    obtain ⟨hv, hvs⟩ := at_append.mp h
    rw [List.length_cons] at hn
    have hn' : comp.length + 1 + vs.length ≤ maxNameComp := by omega
    have hlen : p + (ccnbField1 ccnDtagComponent v ++ (ccnbComps vs ++ [0])).length =
        p + (ccnbField1 ccnDtagComponent v).length + (ccnbComps vs ++ [0]).length := by
      rw [List.length_append, Nat.add_assoc]
    rw [nameEnds_comp hv (by omega), ih hvs (by rw [List.length_append]; exact hn'),
      List.forall_mem_cons, and_assoc, hlen, List.append_assoc]
    rfl

end Wire

/-! ## The packet loop -/

section Loop

variable {mem bs : List UInt8} {start hd p q num : Nat} {s s' : CcnbState} {c : Cursor}
  {r : Cursor × CcnbState}

/-- The cursor at `p`, with all bytes behind it. -/
def behind (mem : List UInt8) (p : Nat) : Cursor := ⟨p, mem.length - p⟩

/-- The packet loop from `p` on. -/
def ccnbTop (mem : List UInt8) (start p : Nat) (s : CcnbState) : Run (Cursor × CcnbState) :=
  loop (ccnbStep mem start) ((behind mem p).len + 1) (behind mem p, s)

theorem behind_limit (h : p ≤ mem.length) :
    (behind mem p).pos + (behind mem p).len = mem.length := by
  unfold behind
  simp only
  omega

theorem eq_behind (h : c.pos + c.len = mem.length) : c = behind mem c.pos :=
  Cursor.ext rfl (by unfold behind; simp only; omega)

/-- The body of the packet loop for an element that was written. -/
theorem ccnbStep_hdr (h : At mem p (ccnbHdr num ccnTtDtag)) (hn : num < 2 ^ 53) :
    ccnbStep mem start (behind mem p, s) =
      (.inl <$> ccnbElem mem start p num (behind mem (p + (ccnbHdr num ccnTtDtag).length)) s) := by
  have hat := ccnbAt_hdr h (by decide) hn
  have hlim := @behind_limit mem p (by have := hat.lt; omega)
  rw [← hlim] at hat
  have hdehead := hat.dehead (Nat.le_of_eq hlim)
  rw [hlim] at hdehead
  unfold ccnbStep
  rw [hdehead, ok_bind]
  dsimp only
  rw [if_neg (fun h => nomatch h.2), if_pos rfl]
  rfl

/-- An element that was written is taken off the front of the packet loop. -/
theorem top_elem (h : At mem p (ccnbHdr num ccnTtDtag)) (hn : num < 2 ^ 53) :
    ccnbTop mem start p s = .ok r ↔ ∃ q s',
      ccnbElem mem start p num (behind mem (p + (ccnbHdr num ccnTtDtag).length)) s =
        .ok (behind mem q, s') ∧ ccnbTop mem start q s' = .ok r := by
  have hp := (ccnbAt_hdr h (by decide) hn).lt
  have hlim := @behind_limit mem p (by omega)
  have hlim' := @behind_limit mem (p + (ccnbHdr num ccnTtDtag).length) (by omega)
  have htop : ∀ q s', Again (ccnbStep mem start) (behind mem p, s) (behind mem q, s') →
      ccnbTop mem start p s = ccnbTop mem start q s' := fun q s' hs =>
    loop_again (I := fun u => u.1.pos + u.1.len = mem.length) (m := fun u => u.1.len)
      (fun _ _ hi hs => (ccnbStep_again hi (Nat.le_refl _) hs).2)
      (fun _ _ hi hs => ccnbStep_lt hi (Nat.le_refl _) hs) hlim hs (Nat.lt_succ_self _)
      (Nat.lt_succ_self _)
  constructor
  · intro hr
    rcases loop_succ_eq_ok.mp hr with ⟨⟨c, s'⟩, hs, -⟩ | hs
    · have hc := eq_behind (ccnbStep_again hlim (Nat.le_refl _) hs).2
      rw [hc] at hs
      have hs' := hs
      rw [Again, ccnbStep_hdr h hn] at hs'
      obtain ⟨x, hx, he⟩ := (map_eq_ok _ _ _).mp hs'
      cases he
      exact ⟨c.pos, s', hx, htop _ _ hs ▸ hr⟩
    · rw [ccnbStep_hdr h hn, map_eq_ok] at hs
      obtain ⟨x, -, ⟨⟩⟩ := hs
  · rintro ⟨q, s', he, hr⟩
    rw [htop q s' (by rw [Again, ccnbStep_hdr h hn, he]; rfl)]
    exact hr

/-- An end marker ends the packet. -/
theorem top_end_ccnb (h : At mem p [0]) : ccnbTop mem start p s = .ok (behind mem (p + 1), s) := by
  have hat := ccnbAt_end h
  have hlt := hat.lt
  exact loop_succ_eq_ok.mpr (.inr ((ccnbStep_leaves (behind_limit (by omega)) (Nat.le_refl _)).mpr
    ⟨.inl hat, rfl, behind_limit hlt.2.1⟩))

/-- The packet ends where it is exactly when no header comes. -/
theorem top_stays (hp : p ≤ mem.length) : ccnbTop mem start p s = .ok (behind mem p, s') ↔
    ccnbHeader (mem.drop p) = none ∧ s' = s := by
  have hlim := @behind_limit mem p hp
  have hno : ccnbHeader (mem.drop p) = none ↔ ∀ n typ q, ¬ CcnbAt mem mem.length p n typ q := by
    simp only [ccnbAt_iff, not_exists, not_and]
    constructor
    · intro h n typ q k hk
      rw [h] at hk
      cases hk
    · exact fun h => Option.eq_none_iff_forall_ne_some.mpr fun ⟨⟨n, typ⟩, k⟩ hk => h n typ _ k hk rfl
  have hleave : (∀ n typ q, ¬ CcnbAt mem mem.length p n typ q) →
      ccnbTop mem start p s = .ok (behind mem p, s) := fun h =>
    loop_succ_eq_ok.mpr (.inr ((ccnbStep_leaves hlim (Nat.le_refl _)).mpr ⟨.inr ⟨h, rfl⟩, rfl, hlim⟩))
  rw [hno]
  constructor
  · intro h
    obtain ⟨u, hu, hend, -⟩ := (packetLoop_eq_ok (Nat.le_of_eq hlim)).mp h
    rw [hlim] at hend
    have hle : p ≤ u.pos ∧ u.pos + u.len = mem.length :=
      hu.invariant (I := fun u => p ≤ u.1.pos ∧ u.1.pos + u.1.len = mem.length)
        ⟨Nat.le_refl _, hlim⟩ fun _ _ hi hs => by
          have ⟨hpass, hlim'⟩ := ccnbStep_again hi.2 (Nat.le_refl _) hs
          have hlt := hpass.le.1
          exact ⟨by simp only at hlt; omega, hlim'⟩
    obtain ⟨-, hup⟩ := hle.2 ▸ hend.le (by omega)
    have hpos : u.pos = p := by
      have := (hend.le (by omega)).1
      exact Nat.le_antisymm this hle.1
    rw [hpos] at hend
    rcases hend with hat | ⟨hnone, -⟩
    · have := hat.lt
      simp only [behind] at this
      omega
    · have := (hleave hnone).symm.trans h
      simp only [Except.ok.injEq, Prod.mk.injEq, true_and] at this
      exact ⟨hnone, this.symm⟩
  · rintro ⟨h, rfl⟩
    exact hleave h

/-- The variables of the parser after a Name. -/
def CcnbState.withName (s : CcnbState) (nameptr q : Nat) (spans : List Span) : CcnbState :=
  { s with comp := s.comp ++ spans.map some, nameptr := some nameptr, namelen := q - nameptr }

/-- A Name that was written is taken. -/
theorem top_ccnbName {name : Prefix} (h : At mem p (ccnbNameBytes name)) (hs : s.comp = [])
    (hn : name.compcnt ≤ maxNameComp) :
    ccnbTop mem start p s = .ok r ↔ (∀ v ∈ name.comps, v.length < 2 ^ 53) ∧
      ccnbTop mem start (p + (ccnbNameBytes name).length)
        (s.withName (start + (p - start)) (p + (ccnbNameBytes name).length)
          (ccnbSpans (p + (ccnbHdr ccnDtagName ccnTtDtag).length) name.comps)) = .ok r := by
  obtain ⟨hhdr, hcomps⟩ := at_append.mp h
  have hq := (ccnbAt_hdr hhdr (by decide) (by decide)).lt.2.1
  have hlen : p + (ccnbHdr ccnDtagName ccnTtDtag).length + (ccnbComps name.comps ++ [0]).length =
      p + (ccnbNameBytes name).length := by
    rw [ccnbNameBytes, @List.length_append _ (ccnbHdr _ _) _, Nat.add_assoc]
  have hlim := behind_limit hq
  have hends : ∀ c' comp', ccnbName mem (behind mem (p + (ccnbHdr ccnDtagName ccnTtDtag).length))
      s.comp = .ok (c', comp') ↔ (∀ v ∈ name.comps, v.length < 2 ^ 53) ∧
        c' = behind mem (p + (ccnbNameBytes name).length) ∧
        comp' = s.comp ++
          (ccnbSpans (p + (ccnbHdr ccnDtagName ccnTtDtag).length) name.comps).map some := by
    intro c' comp'
    have hmark := (ccnbAt_end (at_append.mp hcomps).2).lt
    have hcnt : s.comp.length + name.comps.length ≤ maxNameComp := by
      rw [hs, Prefix.length_comps, List.length_nil, Nat.zero_add]
      exact hn
    rw [ccnbName_eq_ok (Nat.le_of_eq hlim), hlim]
    change NameEnds mem mem.length (p + (ccnbHdr ccnDtagName ccnTtDtag).length, s.comp) _ ∧ _ ↔ _
    rw [nameEnds_comps hcomps hcnt, hlen, and_assoc, and_congr_right_iff, Prod.mk.injEq]
    intro _
    constructor
    · rintro ⟨⟨hpos, hcomp⟩, hlim'⟩
      exact ⟨hpos ▸ eq_behind hlim', hcomp⟩
    · rintro ⟨rfl, hcomp⟩
      refine ⟨⟨rfl, hcomp⟩, behind_limit ?_⟩
      rw [← hlen, List.length_append, ← Nat.add_assoc]
      exact hmark.2.1
  rw [top_elem hhdr (by decide)]
  simp only [ccnbElem, show ccnDtag ccnDtagName = .name from rfl, bind_eq_ok]
  constructor
  · rintro ⟨q, s', ⟨⟨c', comp'⟩, hname, he⟩, hr⟩
    obtain ⟨hall, rfl, rfl⟩ := (hends _ _).mp hname
    cases he
    exact ⟨hall, hr⟩
  · rintro ⟨hall, hr⟩
    exact ⟨_, _, ⟨_, (hends _ _).mpr ⟨hall, rfl, rfl⟩, rfl⟩, hr⟩

theorem behind_blob (h : At mem q (ccnbBlob bs ++ [0])) :
    (behind mem q).pos + (behind mem q).len = mem.length ∧
      q + (ccnbBlob bs ++ [0]).length ≤ mem.length := by
  have hle := h.le (List.append_ne_nil_of_right_ne_nil _ (List.cons_ne_nil _ _))
  exact ⟨behind_limit (by omega), hle⟩

theorem consume_blob {v w : Option Span} (h : At mem q (ccnbBlob bs ++ [0])) :
    ccnbConsume mem ccnTtDtag num (behind mem q) v = .ok (c, w) ↔
      bs.length < 2 ^ 53 ∧ c = behind mem (q + (ccnbBlob bs ++ [0]).length) ∧
        w = some (blobSpan q bs) := by
  obtain ⟨hlim, hle⟩ := behind_blob h
  rw [consume_dtag_eq_ok (Nat.le_of_eq hlim), hlim]
  constructor
  · rintro ⟨r, hr, rfl, hc⟩
    obtain ⟨hlt, hpos, rfl⟩ := (hunts_blob h).mp hr
    have hc := eq_behind hc
    rw [hpos] at hc
    exact ⟨hlt, hc, rfl⟩
  · rintro ⟨hlt, rfl, rfl⟩
    exact ⟨_, (hunts_blob h).mpr ⟨hlt, rfl, rfl⟩, rfl, behind_limit hle⟩

theorem buf_blob {new : Option (List UInt8)} (h : At mem q (ccnbBlob bs ++ [0])) :
    ccnbBuf mem (behind mem q) none = .ok (new, c) ↔
      bs.length < 2 ^ 53 ∧ c = behind mem (q + (ccnbBlob bs ++ [0]).length) ∧ new = some bs := by
  obtain ⟨hlim, hle⟩ := behind_blob h
  have hbytes := bytes_blobSpan (at_append.mp h).1
  rw [ccnbBuf_eq_ok (Nat.le_of_eq hlim), hlim]
  constructor
  · rintro ⟨⟨r, hr, sp, rfl, rfl⟩, hc⟩
    obtain ⟨hlt, hpos, hsp⟩ := (hunts_blob h).mp hr
    have hc := eq_behind hc
    rw [hpos] at hc
    obtain rfl := Option.some.inj hsp
    exact ⟨hlt, hc, congrArg some hbytes⟩
  · rintro ⟨hlt, rfl, rfl⟩
    exact ⟨⟨_, (hunts_blob h).mpr ⟨hlt, rfl, rfl⟩, _, rfl, congrArg some hbytes.symm⟩,
      behind_limit hle⟩

/-- The payload that was written is taken. -/
theorem top_ccnbContent (h : At mem p (ccnbField1 ccnDtagContent bs)) :
    ccnbTop mem start p s = .ok r ↔ bs.length < 2 ^ 53 ∧
      ccnbTop mem start (p + (ccnbField1 ccnDtagContent bs).length)
        { s with pkt := { s.pkt with
          content := some (blobSpan (p + (ccnbHdr ccnDtagContent ccnTtDtag).length) bs) } } = .ok r := by
  obtain ⟨hhdr, hblob⟩ := at_field1.mp h
  rw [top_elem hhdr (by decide), length_field1, ← Nat.add_assoc]
  simp only [ccnbElem, show ccnDtag ccnDtagContent = .content from rfl, bind_eq_ok]
  constructor
  · rintro ⟨q, s', ⟨⟨c', v⟩, hcons, he⟩, hr⟩
    obtain ⟨hlt, rfl, rfl⟩ := (consume_blob hblob).mp hcons
    cases he
    exact ⟨hlt, hr⟩
  · rintro ⟨hlt, hr⟩
    exact ⟨_, _, ⟨_, (consume_blob hblob).mpr ⟨hlt, rfl, rfl⟩, rfl⟩, hr⟩

/-- A Nonce that was written is taken, when it is the first one. -/
theorem top_ccnbNonce {w : UInt32} (h : At mem p (ccnbField1 ccnDtagNonce (wordBytes w)))
    (hs : s.pkt.ccnb.nonce = none) :
    ccnbTop mem start p s = .ok r ↔ ccnbTop mem start
      (p + (ccnbField1 ccnDtagNonce (wordBytes w)).length)
      { s with pkt := s.pkt.setCcnb { s.pkt.ccnb with nonce := some (wordBytes w) } } = .ok r := by
  obtain ⟨hhdr, hblob⟩ := at_field1.mp h
  have hlt : (wordBytes w).length < 2 ^ 53 := by rw [length_wordBytes]; decide
  rw [top_elem hhdr (by decide), length_field1, ← Nat.add_assoc]
  simp only [ccnbElem, show ccnDtag ccnDtagNonce = .nonce from rfl, bind_eq_ok, hs]
  constructor
  · rintro ⟨q, s', ⟨⟨v, c'⟩, hbuf, he⟩, hr⟩
    obtain ⟨-, rfl, rfl⟩ := (buf_blob hblob).mp hbuf
    cases he
    exact hr
  · intro hr
    exact ⟨_, _, ⟨_, (buf_blob hblob).mpr ⟨hlt, rfl, rfl⟩, rfl⟩, hr⟩

end Loop

end Ccnl
