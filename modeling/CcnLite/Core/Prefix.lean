import CcnLite.Core.Types
import Mathlib.Data.List.Basic
import Mathlib.Order.Basic
import Mathlib.Order.Bounds.Basic
import Mathlib.Tactic.Common

/-!
# Name comparison (`ccnl-prefix.c`)

`prefixCmp` is `ccnl_prefix_cmp` and `iPrefixofC` is `ccnl_i_prefixof_c`, the test that decides
whether a content answers an Interest. Its purpose is `SuffixMatch`: the Interest name is a prefix
of the content's full name (its components, then its digest), and the number of components left
over lies between the bounds.

The code compares with `CMP_EXACT`, so it only ever accepts the full name, with or without the
digest (`iPrefixofC_accepts`). `iPrefixofC_iff_suffixMatch` says exactly when the two agree.

`prefixCmp_correct` is about the comparison itself: `CMP_LONGEST` counts the components that two
names begin with, and `CMP_EXACT` is equality of names.
-/

namespace Ccnl

open CRun

/-- `CMP_EXACT`, `CMP_MATCH`, `CMP_LONGEST`. -/
inductive CmpMode where
  | exact
  | partly
  | longest
  deriving DecidableEq, Repr

/-- The loop of `ccnl_prefix_cmp`, from component `i` on. -/
def cmpFrom (mode : CmpMode) : Nat → List (List UInt8) → List (List UInt8) → Int
  | i, comp :: pfx, ncomp :: nam =>
    if comp.length ≠ ncomp.length ∨ comp ≠ ncomp then
      if mode = .exact then -1 else i
    else cmpFrom mode (i + 1) pfx nam
  | i, _, _ => if mode = .exact then 0 else i

/-- `ccnl_prefix_cmp`. The digest `md` counts as one more component of `pfx`. -/
def prefixCmp (pfx : Prefix) (md : Option Digest) (nam : Prefix) (mode : CmpMode) : Int :=
  let full := pfx.comps ++ (md.map (·.val)).toList
  if mode = .exact ∧ (full.length ≠ nam.compcnt ∨ pfx.chunknum ≠ nam.chunknum) then -1
  else cmpFrom mode 0 full nam.comps

/-- `ccnl_i_prefixof_c`; `digest` is `compute_ccnx_digest`. `compcnt` is a `uint32_t`, the suffix
bounds are `uint64_t`. -/
def iPrefixofC (digest : List UInt8 → Digest) (pfx : Prefix) (minsuffix maxsuffix : Nat)
    (c : Content) : Run Int := do
  let p ← deref c.pkt.pfx
  if u64 (pfx.compcnt + minsuffix) > u32 (p.compcnt + 1) ∨
      u64 (pfx.compcnt + maxsuffix) < u32 (p.compcnt + 1) then
    return -2
  else
    let md := if u32 (pfx.compcnt + 2 ^ 32 - p.compcnt) = 1 then some (digest c.pkt.buf) else none
    return prefixCmp p md pfx .exact

/-! ## Exact comparison -/

theorem cmpFrom_exact {pfx nam : List (List UInt8)} (h : pfx.length = nam.length) (i : Nat) :
    cmpFrom .exact i pfx nam = if pfx = nam then 0 else -1 := by
  induction pfx generalizing nam i with
  | nil =>
    obtain rfl : nam = [] := List.eq_nil_of_length_eq_zero h.symm
    simp [cmpFrom]
  | cons a pfx ih =>
    obtain ⟨b, nam, rfl⟩ := List.exists_cons_of_length_eq_add_one h.symm
    by_cases hab : a = b
    · subst hab
      simp [cmpFrom, ih (Nat.succ.inj h)]
    · simp [cmpFrom, hab]

/-- `CMP_EXACT` compares the components and the chunk numbers. -/
theorem prefixCmp_exact (pfx : Prefix) (md : Option Digest) (nam : Prefix) :
    prefixCmp pfx md nam .exact =
      if pfx.comps ++ (md.map (·.val)).toList = nam.comps ∧ pfx.chunknum = nam.chunknum then 0
      else -1 := by
  unfold prefixCmp
  by_cases hl : (pfx.comps ++ (md.map (·.val)).toList).length = nam.compcnt
  · by_cases hc : pfx.chunknum = nam.chunknum
    · simp only [hl, hc, ne_eq, not_true_eq_false, or_self, and_false, ↓reduceIte, and_true]
      exact cmpFrom_exact (by rw [hl, Prefix.length_comps]) 0
    · simp [hc]
  · have hne : pfx.comps ++ (md.map (·.val)).toList ≠ nam.comps := by
      intro he
      exact hl (by rw [he, Prefix.length_comps])
    simp only [hl, hne, ne_eq, not_false_eq_true, true_or, and_true, ↓reduceIte, false_and]

/-- Two names are equal for `CMP_EXACT`. -/
def Prefix.Same (p q : Prefix) : Prop := p.comps = q.comps ∧ p.chunknum = q.chunknum

instance (p q : Prefix) : Decidable (p.Same q) := inferInstanceAs (Decidable (_ ∧ _))

theorem Prefix.Same.symm {p q : Prefix} (h : p.Same q) : q.Same p := ⟨h.1.symm, h.2.symm⟩

theorem prefixCmp_exact_eq_zero {p q : Prefix} : prefixCmp p none q .exact = 0 ↔ p.Same q := by
  rw [prefixCmp_exact]
  simp [Prefix.Same]

/-! ## The longest match -/

section Longest

variable {α : Type} {a b : α} {l l' : List α} {n : Nat}

/-- The lengths of the lists that both lists begin with. -/
def commonLengths (l l' : List α) : Set Nat := {n | ∃ c, c.length = n ∧ c <+: l ∧ c <+: l'}

theorem commonLengths_of_nil (h : ∀ c, c <+: l → c <+: l' → c = []) :
    IsGreatest (commonLengths l l') 0 := by
  refine ⟨⟨[], rfl, List.nil_prefix, List.nil_prefix⟩, ?_⟩
  rintro n ⟨c, rfl, hl, hl'⟩
  rw [h c hl hl']
  exact Nat.le_refl 0

theorem commonLengths_cons (h : IsGreatest (commonLengths l l') n) :
    IsGreatest (commonLengths (a :: l) (a :: l')) (n + 1) := by
  obtain ⟨⟨c, rfl, hl, hl'⟩, hmax⟩ := h
  refine ⟨⟨a :: c, rfl, List.cons_prefix_cons.mpr ⟨rfl, hl⟩, List.cons_prefix_cons.mpr ⟨rfl, hl'⟩⟩, ?_⟩
  rintro n ⟨d, rfl, hd, hd'⟩
  cases d with
  | nil => exact Nat.zero_le _
  | cons x d =>
    exact Nat.succ_le_succ
      (hmax ⟨d, rfl, (List.cons_prefix_cons.mp hd).2, (List.cons_prefix_cons.mp hd').2⟩)

theorem commonLengths_ne (h : a ≠ b) : IsGreatest (commonLengths (a :: l) (b :: l')) 0 := by
  refine commonLengths_of_nil fun c hc hc' => ?_
  cases c with
  | nil => rfl
  | cons x c =>
    exact absurd ((List.cons_prefix_cons.mp hc).1.symm.trans (List.cons_prefix_cons.mp hc').1) h

end Longest

/-- From component `i` on, the loop counts the components that both lists begin with. -/
theorem cmpFrom_greatest (pfx nam : List (List UInt8)) (i : Nat) :
    ∃ n : Nat, cmpFrom .longest i pfx nam = (i + n : Nat) ∧ IsGreatest (commonLengths pfx nam) n := by
  induction pfx generalizing nam i with
  | nil => exact ⟨0, rfl, commonLengths_of_nil fun c hc _ => List.prefix_nil.mp hc⟩
  | cons a pfx ih =>
    cases nam with
    | nil => exact ⟨0, rfl, commonLengths_of_nil fun c _ hc => List.prefix_nil.mp hc⟩
    | cons b nam =>
      by_cases hab : a = b
      · subst hab
        obtain ⟨n, hn, hmax⟩ := ih nam (i + 1)
        refine ⟨n + 1, ?_, commonLengths_cons hmax⟩
        rw [cmpFrom, if_neg (by simp), hn, Nat.add_assoc, Nat.add_comm 1 n]
      · refine ⟨0, ?_, commonLengths_ne hab⟩
        rw [cmpFrom, if_pos (.inr hab)]
        rfl

theorem same_equivalence : Equivalence Prefix.Same :=
  ⟨fun _ => ⟨rfl, rfl⟩, .symm, fun h h' => ⟨h.1.trans h'.1, h.2.trans h'.2⟩⟩

/-- `CMP_LONGEST` counts the components that the two names have in common at their start, with the
digest as one more component of the first; `CMP_EXACT` is 0 for equal names and -1 for others. -/
theorem prefixCmp_correct :
    (∀ (p : Prefix) (md : Option Digest) (q : Prefix), ∃ n : Nat, prefixCmp p md q .longest = n ∧
      IsGreatest (commonLengths (p.comps ++ (md.map (·.val)).toList) q.comps) n) ∧
    (∀ p q : Prefix, prefixCmp p none q .exact =
      if p.comps = q.comps ∧ p.chunknum = q.chunknum then 0 else -1) ∧
    Equivalence fun p q : Prefix => prefixCmp p none q .exact = 0 := by
  refine ⟨fun p md q => ?_, fun p q => ?_, ?_⟩
  · obtain ⟨n, hn, hmax⟩ := cmpFrom_greatest (p.comps ++ (md.map (·.val)).toList) q.comps 0
    refine ⟨n, ?_, hmax⟩
    rw [prefixCmp, if_neg (fun h => absurd h.1 (by decide)), hn, Nat.zero_add]
  · rw [prefixCmp_exact, Option.map_none, Option.toList_none, List.append_nil]
  · simp only [prefixCmp_exact_eq_zero]
    exact same_equivalence

/-! ## Interest against content -/

/-- The run returns a match (`>= 0`). -/
def Accepts (r : Run Int) : Prop := ∃ v, r = .ok v ∧ 0 ≤ v

@[simp] theorem accepts_ok (v : Int) : Accepts (.ok v) ↔ 0 ≤ v := by simp [Accepts]

@[simp] theorem accepts_error (s : Stop) : ¬ Accepts (.error s) := by simp [Accepts]

instance (r : Run Int) : Decidable (Accepts r) :=
  match r with
  | .ok v => decidable_of_iff (0 ≤ v) (accepts_ok v).symm
  | .error s => .isFalse (accepts_error s)

/-- What Interest matching is for: `name` is a prefix of `full`, and between `lo` and `hi`
components are left over. -/
def SuffixMatch {α : Type} (name full : List α) (lo hi : Nat) : Prop :=
  name <+: full ∧ lo ≤ full.length - name.length ∧ full.length - name.length ≤ hi

instance {α : Type} [DecidableEq α] (name full : List α) (lo hi : Nat) :
    Decidable (SuffixMatch name full lo hi) := inferInstanceAs (Decidable (_ ∧ _ ∧ _))

/-- The components of a content's full name. -/
def fullName (digest : List UInt8 → Digest) (p : Prefix) (buf : List UInt8) : List (List UInt8) :=
  p.comps ++ [(digest buf).val]

section Counts

variable {digest : List UInt8 → Digest} {pfx p : Prefix} {lo hi : Nat} {c : Content}

/-- `iPrefixofC` at a content that has a name. -/
theorem iPrefixofC_eq (hp : c.pkt.pfx = some p) :
    iPrefixofC digest pfx lo hi c =
      .ok (if u64 (pfx.compcnt + lo) > u32 (p.compcnt + 1) ∨
          u64 (pfx.compcnt + hi) < u32 (p.compcnt + 1) then -2
        else prefixCmp p
          (if u32 (pfx.compcnt + 2 ^ 32 - p.compcnt) = 1 then some (digest c.pkt.buf) else none)
          pfx .exact) := by
  unfold iPrefixofC
  rw [hp]
  show (if _ then _ else _) = _
  split <;> rfl

/-- The digest joins the comparison when the Interest has one component more, so the comparison
succeeds on the content's name with or without the digest. -/
theorem prefixCmp_digest (hm : pfx.compcnt < 2 ^ 32) (hk : p.compcnt + 1 < 2 ^ 32)
    (d : Digest) :
    0 ≤ prefixCmp p (if u32 (pfx.compcnt + 2 ^ 32 - p.compcnt) = 1 then some d else none) pfx
        .exact ↔
      (pfx.comps = p.comps ∨ pfx.comps = p.comps ++ [d.val]) ∧ p.chunknum = pfx.chunknum := by
  have hdig : u32 (pfx.compcnt + 2 ^ 32 - p.compcnt) = 1 ↔ pfx.compcnt = p.compcnt + 1 := by
    unfold u32; omega
  have hlen : ∀ l, pfx.comps = l → pfx.compcnt = l.length := fun l h => by
    rw [← h, Prefix.length_comps]
  simp only [hdig, prefixCmp_exact]
  by_cases hd : pfx.compcnt = p.compcnt + 1
  · have hne : pfx.comps ≠ p.comps := fun h => by
      have := hlen _ h
      rw [Prefix.length_comps] at this
      omega
    by_cases h : p.comps ++ [d.val] = pfx.comps ∧ p.chunknum = pfx.chunknum
    · simp [hd, h]
    · simp only [hd, ↓reduceIte, Option.map_some, Option.toList_some, h]
      simp [hne, eq_comm (a := pfx.comps), h]
  · have hne : pfx.comps ≠ p.comps ++ [d.val] := fun h => by
      have := hlen _ h
      simp at this
      omega
    by_cases h : p.comps = pfx.comps ∧ p.chunknum = pfx.chunknum
    · simp [hd, h]
    · simp only [hd, ↓reduceIte, Option.map_none, Option.toList_none, List.append_nil, h]
      simp [hne, eq_comm (a := pfx.comps), h]

/-- What `iPrefixofC` accepts: the component counts pass, computed in 64 bits, and the name is the
content's, with or without the digest, chunk number included. -/
theorem iPrefixofC_accepts (hp : c.pkt.pfx = some p) (hm : pfx.compcnt < 2 ^ 32)
    (hk : p.compcnt + 1 < 2 ^ 32) :
    Accepts (iPrefixofC digest pfx lo hi c) ↔
      (u64 (pfx.compcnt + lo) ≤ p.compcnt + 1 ∧ p.compcnt + 1 ≤ u64 (pfx.compcnt + hi)) ∧
      (pfx.comps = p.comps ∨ pfx.comps = fullName digest p c.pkt.buf) ∧
      p.chunknum = pfx.chunknum := by
  have hkk : u32 (p.compcnt + 1) = p.compcnt + 1 := Nat.mod_eq_of_lt hk
  rw [iPrefixofC_eq hp, accepts_ok, hkk, fullName, ← prefixCmp_digest hm hk]
  by_cases hb : u64 (pfx.compcnt + lo) > p.compcnt + 1 ∨ u64 (pfx.compcnt + hi) < p.compcnt + 1
  · rw [if_pos hb]
    omega
  · rw [if_neg hb]
    omega

/-- A prefix of the full name is a proper prefix of the content's name, or that name itself, or
the full name. -/
theorem prefix_fullName_iff {buf : List UInt8} :
    pfx.comps <+: fullName digest p buf ↔
      (pfx.comps <+: p.comps ∧ pfx.comps ≠ p.comps) ∨
      (pfx.comps = p.comps ∨ pfx.comps = fullName digest p buf) := by
  rw [fullName, List.prefix_concat_iff]
  by_cases h : pfx.comps = p.comps <;> simp [h, or_comm]

end Counts

/-- `iPrefixofC` matches as prefix matching with suffix bounds would, exactly when the Interest
name is not a proper prefix of the content's name with a permitted suffix count and, for the names
that the code does accept, the chunk numbers agree and the two sums do not wrap to the other
answer. -/
theorem iPrefixofC_iff_suffixMatch {digest : List UInt8 → Digest} {pfx p : Prefix} {lo hi : Nat}
    {c : Content} (hp : c.pkt.pfx = some p) (hm : pfx.compcnt < 2 ^ 32)
    (hk : p.compcnt + 1 < 2 ^ 32) (hlo : lo < 2 ^ 64) (hhi : hi < 2 ^ 64) :
    (Accepts (iPrefixofC digest pfx lo hi c) ↔
      SuffixMatch pfx.comps (fullName digest p c.pkt.buf) lo hi) ↔
    (pfx.comps <+: p.comps → pfx.comps ≠ p.comps →
      ¬ (lo ≤ p.compcnt + 1 - pfx.compcnt ∧ p.compcnt + 1 - pfx.compcnt ≤ hi)) ∧
    (pfx.comps = p.comps ∨ pfx.comps = fullName digest p c.pkt.buf →
      (lo ≤ p.compcnt + 1 - pfx.compcnt ∧ p.compcnt + 1 - pfx.compcnt ≤ hi →
        p.chunknum = pfx.chunknum ∧ pfx.compcnt + hi < 2 ^ 64) ∧
      (2 ^ 64 ≤ pfx.compcnt + lo ∧ pfx.compcnt + hi < 2 ^ 64 ∧
        p.compcnt + 1 - pfx.compcnt ≤ hi → p.chunknum ≠ pfx.chunknum)) := by
  have hfull : (fullName digest p c.pkt.buf).length = p.compcnt + 1 := by simp [fullName]
  rw [iPrefixofC_accepts hp hm hk]
  unfold SuffixMatch
  rw [prefix_fullName_iff, hfull, Prefix.length_comps]
  have hproper : (pfx.comps = p.comps ∨ pfx.comps = fullName digest p c.pkt.buf) →
      pfx.compcnt ≤ p.compcnt + 1 ∧ (pfx.comps <+: p.comps → pfx.comps = p.comps) := by
    rintro (h | h)
    · have := congrArg List.length h
      rw [Prefix.length_comps, Prefix.length_comps] at this
      exact ⟨by omega, fun _ => h⟩
    · have := congrArg List.length h
      rw [Prefix.length_comps, hfull] at this
      exact ⟨by omega, fun hpre => absurd hpre.length_le (by simp [this])⟩
  by_cases hE : pfx.comps = p.comps ∨ pfx.comps = fullName digest p c.pkt.buf
  · obtain ⟨hmk, hsame⟩ := hproper hE
    have hvac : ¬ (pfx.comps <+: p.comps ∧ pfx.comps ≠ p.comps) := fun h => h.2 (hsame h.1)
    rw [← and_imp, eq_false hvac]
    simp only [hE, true_and, false_or, forall_const, false_imp_iff]
    -- the names agree, so only the sums and the chunk numbers are left
    by_cases hc : p.chunknum = pfx.chunknum
    · simp only [hc, and_true, true_and, ne_eq, not_true_eq_false, imp_false, u64]
      omega
    · simp only [hc, and_false, false_and, ne_eq, not_false_eq_true, implies_true, and_true,
        false_iff, imp_false]
  · simp only [hE, false_and, and_false, or_false, false_iff, false_imp_iff, and_true, not_and,
      and_imp]

/-- The name with the components `cs`, laid out one after another. -/
def Prefix.ofComps (suite : Suite) (cs : List (List UInt8)) : Prefix where
  mem := cs.flatten
  comp := cs.zipIdx.map fun (x, i) => ⟨((cs.take i).map List.length).sum, x.length⟩
  suite := suite

/-- The Interest `/a` and the content `/a`, with the suffix bounds that a parser sets when a packet
has none. -/
theorem iPrefixofC_iff_suffixMatch_same :
    Accepts (iPrefixofC (fun _ => ⟨List.replicate 32 0, rfl⟩) (.ofComps .ndntlv [[97]]) 0
      maxNameComp { pkt := { pfx := some (.ofComps .ndntlv [[97]]), s := .ndntlv {},
                             suite := .ndntlv } }) ↔
    SuffixMatch (Prefix.ofComps .ndntlv [[97]]).comps
      (fullName (fun _ => ⟨List.replicate 32 0, rfl⟩) (.ofComps .ndntlv [[97]]) []) 0
      maxNameComp :=
  (iPrefixofC_iff_suffixMatch rfl (by decide) (by decide) (by decide) (by decide)).mpr
    ⟨fun _ h => absurd rfl h, fun _ => ⟨fun _ => ⟨rfl, by decide⟩, fun h => absurd h.1 (by decide)⟩⟩

/-- The Interest `/a` and the content `/a/b`: two components are left over, which the bounds
permit, and there is no match. -/
theorem iPrefixofC_rejects_longer :
    ¬ (Accepts (iPrefixofC (fun _ => ⟨List.replicate 32 0, rfl⟩) (.ofComps .ndntlv [[97]]) 0
        maxNameComp { pkt := { pfx := some (.ofComps .ndntlv [[97], [98]]), s := .ndntlv {},
                               suite := .ndntlv } }) ↔
      SuffixMatch (Prefix.ofComps .ndntlv [[97]]).comps
        (fullName (fun _ => ⟨List.replicate 32 0, rfl⟩) (.ofComps .ndntlv [[97], [98]]) []) 0
        maxNameComp) := by
  decide

end Ccnl
