import CcnLite.Core.Path
import CcnLite.Pkt.CcntlvDecode

/-!
# Names from strings (`ccnl-prefix.c`)

`uriToPrefix` reads a name from a string that `prefixToStrDetailed` has printed. The printer leaves a
percent sign as it is, and the reader takes it and two characters behind it for a byte; a byte from
0x80 on is printed with the sign that a `char` has, so that more characters come back.

* `unescape_escaped_iff`: a component comes back exactly when it has neither (`Survives`).
* `uri_roundtrip_iff`: the same for names.
-/

namespace Ccnl

open CRun Front

/-! ## Reading -/

/-- `hex2int`. -/
def hex2int (c : UInt8) : Nat :=
  if 48 ≤ c ∧ c ≤ 57 then c.toNat - 48
  else if 97 ≤ c ∧ c ≤ 102 then c.toNat - 87
  else if 65 ≤ c ∧ c ≤ 70 then c.toNat - 55
  else 0

/-- `unescape_component`. The output goes over the input, and never gets ahead of it. -/
def unescapeComponent : List UInt8 → List UInt8
  | [] => []
  | c :: a :: b :: comp =>
    if c = 37 then UInt8.ofNat (hex2int a * 16 + hex2int b) :: unescapeComponent comp
    else c :: unescapeComponent (a :: b :: comp)
  | c :: comp => c :: unescapeComponent comp

/-- The loop of `ccnl_URItoComponents`, which has room for `k` components. -/
def uriComponents : Nat → List UInt8 → List (List UInt8)
  | k + 1, c :: uri =>
    unescapeComponent ((c :: uri).takeWhile (· ≠ 47)) ::
      uriComponents k (((c :: uri).dropWhile (· ≠ 47)).drop 1)
  | _, _ => []

/-- `ccnl_URItoComponents`. -/
def uriToComponents (uri : List UInt8) : List (List UInt8) :=
  uriComponents (maxNameComp - 1) (if uri.head? = some 47 then uri.tail else uri)

/-- `ccnl_pkt_mkComponent`. -/
def pktMkComponent (suite : Suite) (src : List UInt8) : List UInt8 :=
  match suite with
  | .ccntlv => if uint16Max < src.length then [] else wireTLV ccnxTlvNNameSegment src
  | .ccnb | .localrpc | .ndntlv => src

/-- `ccnl_URItoPrefix`. -/
def uriToPrefix (uri : List UInt8) (suite : Suite) (chunknum : Option Nat) : Prefix :=
  let cs := (if uri = [] then [] else uriToComponents uri).map (pktMkComponent suite)
  { mem := cs.flatten, comp := pieces 0 cs, suite, chunknum }

/-! ## There and back, byte by byte -/

section Escape

variable {b c : UInt8} {r s v w x : List UInt8}

/-- A component as it is printed. -/
abbrev escaped (v : List UInt8) : List UInt8 := v.flatMap (printByte true)

/-- The two digits of a byte that is printed with them. -/
def hexHi (b : UInt8) : UInt8 := (printByte true b).getD ((printByte true b).length - 2) 0

def hexLo (b : UInt8) : UInt8 := (printByte true b).getLastD 0

/-- How a byte is printed: as it is, as two digits, or with a sign in front of these. -/
theorem printByte_cases : ∀ b : UInt8,
    (printByte true b = [b] ∧ b < 128) ∨
    (printByte true b = [37, hexHi b, hexLo b] ∧ b < 128 ∧ b ≠ 37 ∧
      UInt8.ofNat (hex2int (hexHi b) * 16 + hex2int (hexLo b)) = b ∧ 37 ∉ [hexHi b, hexLo b]) ∨
    (printByte true b = 37 :: 102 :: 102 :: [102, 102, 102, 102, hexHi b, hexLo b] ∧ 128 ≤ b ∧
      (b = 255 → hexHi b = 102 ∧ hexLo b = 102)) :=
  forall_byte (by decide +kernel)

theorem signed_digits (h : 128 ≤ b) :
    ∀ c ∈ [102, 102, 102, 102, hexHi b, hexLo b], c ≠ 37 ∧ c < 128 := by
  have hall : ∀ b, 128 ≤ b →
      ([102, 102, 102, 102, hexHi b, hexLo b].all fun c => c != 37 && c < 128) = true :=
    forall_byte (by decide +kernel)
  simpa only [List.all_eq_true, Bool.and_eq_true, bne_iff_ne, decide_eq_true_eq] using hall b h

theorem hex2int_eq_two : ∀ c, hex2int c = 2 → c = 50 := forall_byte (by decide +kernel)

theorem hex2int_eq_five : ∀ c, hex2int c = 5 → c = 53 := forall_byte (by decide +kernel)

theorem hex2int_lt : ∀ c, hex2int c < 16 := forall_byte (by decide +kernel)

/-! ### Unescaping -/

theorem unescape_of_ne (h : c ≠ 37) (s : List UInt8) :
    unescapeComponent (c :: s) = c :: unescapeComponent s := by
  match s with
  | [] => rfl
  | [_] => rfl
  | _ :: _ :: _ => rw [unescapeComponent, if_neg h]

/-- Text without a percent sign stays. -/
theorem unescape_append (h : 37 ∉ x) (s : List UInt8) :
    unescapeComponent (x ++ s) = x ++ unescapeComponent s := by
  induction x with
  | nil => rfl
  | cons c x ih =>
    rw [List.mem_cons, not_or] at h
    rw [List.cons_append, unescape_of_ne (Ne.symm h.1), ih h.2, List.cons_append]

theorem unescape_percent (a c : UInt8) (s : List UInt8) :
    unescapeComponent (37 :: a :: c :: s) =
      UInt8.ofNat (hex2int a * 16 + hex2int c) :: unescapeComponent s := by
  rw [unescapeComponent, if_pos rfl]

theorem unescape_short (h : s.length < 2) : unescapeComponent (37 :: s) = 37 :: s := by
  match s with
  | [] => rfl
  | [_] => rfl

/-- A printed character below 128 comes back, but for the percent sign. -/
theorem unescape_printByte (h : b < 128) (hb : b ≠ 37) (s : List UInt8) :
    unescapeComponent (printByte true b ++ s) = b :: unescapeComponent s := by
  rcases printByte_cases b with ⟨hp, -⟩ | ⟨hp, -, -, hx, -⟩ | ⟨-, hge, -⟩
  · rw [hp]
    exact unescape_of_ne hb s
  · rw [hp]
    show unescapeComponent (37 :: hexHi b :: hexLo b :: s) = _
    rw [unescape_percent, hx]
  · exact absurd h (UInt8.not_lt.mpr hge)

/-- A character from 128 on comes back as seven. -/
theorem unescape_printByte_ge (h : 128 ≤ b) (s : List UInt8) :
    unescapeComponent (printByte true b ++ s) =
      255 :: ([102, 102, 102, 102, hexHi b, hexLo b] ++ unescapeComponent s) := by
  rcases printByte_cases b with ⟨-, hlt⟩ | ⟨-, hlt, -⟩ | ⟨hp, -⟩
  · exact absurd hlt (UInt8.not_lt.mpr h)
  · exact absurd hlt (UInt8.not_lt.mpr h)
  · rw [hp]
    show unescapeComponent (37 :: 102 :: 102 :: ([102, 102, 102, 102, hexHi b, hexLo b] ++ s)) = _
    rw [unescape_percent, unescape_append fun hm => (signed_digits h 37 hm).1 rfl]
    rfl

/-! ### The first difference -/

theorem printByte_tail (b : UInt8) :
    printByte true b = [b] ∨ ∃ a x, printByte true b = 37 :: a :: x ∧ 37 ∉ a :: x := by
  rcases printByte_cases b with ⟨hp, -⟩ | ⟨hp, -, -, -, hno⟩ | ⟨hp, hge, -⟩
  · exact .inl hp
  · exact .inr ⟨_, _, hp, hno⟩
  · refine .inr ⟨_, _, hp, fun hm => ?_⟩
    rcases List.mem_cons.mp hm with h | hm
    · exact absurd h (by decide)
    · rcases List.mem_cons.mp hm with h | hm
      · exact absurd h (by decide)
      · exact (signed_digits hge 37 hm).1 rfl

/-- The first two characters of a text, and how it goes on: behind what is left of an escape there is
the text of the bytes `t`. -/
theorem escaped_two (h : 2 ≤ (escaped r).length) : ∃ a c x s t, r = s ++ t ∧ s ≠ [] ∧
    escaped r = a :: c :: (x ++ escaped t) ∧ 37 ∉ x ∧ (a = 50 → c = 53 → s = [50, 53] ∧ x = []) := by
  match r with
  | [] => simp at h
  | b :: r =>
    have hcons : escaped (b :: r) = printByte true b ++ escaped r := List.flatMap_cons
    rcases printByte_tail b with hp | ⟨a, x, hp, hno⟩
    · match r with
      | [] => simp [hp] at h
      | c :: r =>
        have hcons' : escaped (b :: c :: r) = b :: (printByte true c ++ escaped r) := by
          rw [hcons, hp]
          rfl
        rcases printByte_tail c with hq | ⟨a, x, hq, hno⟩
        · exact ⟨b, c, [], [b, c], r, rfl, List.cons_ne_nil _ _, by rw [hcons', hq]; rfl,
            List.not_mem_nil, fun h₁ h₂ => ⟨by rw [h₁, h₂], rfl⟩⟩
        · exact ⟨b, 37, a :: x, [b, c], r, rfl, List.cons_ne_nil _ _, by rw [hcons', hq]; rfl, hno,
            nofun⟩
    · exact ⟨37, a, x, [b], r, rfl, List.cons_ne_nil _ _, by rw [hcons, hp]; rfl,
        fun hm => hno (List.mem_cons_of_mem _ hm), nofun⟩

/-- A text of one character or none is that of the bytes themselves. -/
theorem escaped_short (h : (escaped r).length < 2) : escaped r = r := by
  match r with
  | [] => rfl
  | b :: r =>
    have hcons : escaped (b :: r) = printByte true b ++ escaped r := List.flatMap_cons
    rw [hcons, List.length_append] at h
    rcases printByte_tail b with hp | ⟨a, x, hp, -⟩
    · match r with
      | [] => rw [hcons, hp]; rfl
      | c :: r =>
        have hpos := List.length_pos_iff.mpr (printByte_ne_nil true c)
        rw [hp, escaped, List.flatMap_cons, List.length_append, List.length_singleton] at h
        omega
    · rw [hp] at h
      simp at h
      omega

theorem append_eq_append_cons (h : x ++ s = w ++ c :: v) (hx : c ∉ x) :
    ∃ w', w = x ++ w' ∧ s = w' ++ c :: v := by
  rcases List.append_eq_append_iff.mp h with ⟨w', hw, hs⟩ | ⟨x', hx', hs⟩
  · exact ⟨w', hw, hs⟩
  · cases x' with
    | nil => exact ⟨[], by simpa using hx'.symm, by simpa using hs.symm⟩
    | cons d x' =>
      obtain ⟨rfl, -⟩ := List.cons.inj hs
      exact absurd (hx' ▸ List.mem_append_right w List.mem_cons_self) hx

/-- What comes back of a text that starts with the byte `b`: that byte and a percent sign's short rest
as they are, or a character and some more in front of what comes back of the bytes that are left. -/
theorem unescape_escaped_cons (b : UInt8) (r : List UInt8) :
    (b = 37 ∧ (escaped r).length < 2 ∧ unescapeComponent (escaped (b :: r)) = b :: r) ∨
    ∃ c x s t, r = s ++ t ∧ b ∉ x ∧
      unescapeComponent (escaped (b :: r)) = c :: (x ++ unescapeComponent (escaped t)) := by
  have hcons : escaped (b :: r) = printByte true b ++ escaped r := List.flatMap_cons
  by_cases hge : 128 ≤ b
  · refine .inr ⟨_, _, [], r, rfl, ?_, by rw [hcons, unescape_printByte_ge hge]⟩
    exact fun hm => absurd (signed_digits hge b hm).2 (UInt8.not_lt.mpr hge)
  by_cases hb : b = 37
  · subst hb
    have hp : escaped (37 :: r) = 37 :: escaped r := hcons
    by_cases hlen : (escaped r).length < 2
    · refine .inl ⟨rfl, hlen, ?_⟩
      rw [hp, unescape_short hlen, escaped_short hlen]
    · obtain ⟨a, c, x, s, t, rfl, -, htext, hx, -⟩ := escaped_two (Nat.le_of_not_lt hlen)
      exact .inr ⟨_, x, s, t, rfl, hx, by rw [hp, htext, unescape_percent, unescape_append hx]⟩
  · exact .inr ⟨b, [], [], r, rfl, List.not_mem_nil, by
      rw [hcons, unescape_printByte (UInt8.not_le.mp hge) hb, List.nil_append]⟩

/-- The text never comes back with something in front. -/
theorem unescape_ne_append (hw : w ≠ []) : unescapeComponent (escaped r) ≠ w ++ r := by
  induction hn : r.length using Nat.strongRecOn generalizing r w with
  | ind n ih =>
    intro h
    cases r with
    | nil => exact hw (by simpa [unescapeComponent] using h.symm)
    | cons b r =>
      rcases unescape_escaped_cons b r with ⟨-, -, hback⟩ | ⟨c, x, s, t, rfl, hx, hback⟩
      · rw [hback] at h
        exact hw (List.self_eq_append_left.mp h)
      · obtain ⟨d, w, rfl⟩ := List.exists_cons_of_ne_nil hw
        rw [hback, List.cons_append] at h
        obtain ⟨w', -, ht⟩ := append_eq_append_cons (List.cons.inj h).2 hx
        refine ih t.length ?_ (w := w' ++ b :: s) (by simp) rfl (by rw [ht]; simp)
        rw [← hn, List.length_cons, List.length_append]
        omega

/-- Nor with the sign of a byte from 128 on taken away. -/
theorem ne_append_unescape : r ≠ List.replicate 6 102 ++ unescapeComponent (escaped r) := by
  induction hn : r.length using Nat.strongRecOn generalizing r with
  | ind n ih =>
    intro h
    obtain ⟨s, hs⟩ : ∃ s, s = unescapeComponent (escaped r) := ⟨_, rfl⟩
    rw [← hs] at h
    have htext : escaped r = List.replicate 6 102 ++ escaped s := by
      rw [h, escaped, List.flatMap_append]
      rfl
    rw [htext, unescape_append (by decide)] at hs
    refine ih s.length ?_ rfl hs
    rw [← hn, h, List.length_append, List.length_replicate]
    omega

/-- A component that the way there and back keeps: it has no byte from 128 on, and behind a percent
sign no more than one character is printed. -/
def Survives (v : List UInt8) : Prop :=
  (∀ b ∈ v, b < 128) ∧ ∀ t ∈ v.tails, t.head? = some 37 → (escaped t.tail).length < 2

instance (v : List UInt8) : Decidable (Survives v) := inferInstanceAs (Decidable (_ ∧ _))

theorem survives_cons :
    Survives (b :: v) ↔ b < 128 ∧ (b = 37 → (escaped v).length < 2) ∧ Survives v := by
  unfold Survives
  rw [List.tails, List.forall_mem_cons, List.forall_mem_cons]
  simp only [List.head?_cons, List.tail_cons, Option.some.injEq]
  constructor
  · rintro ⟨⟨hb, hv⟩, hp, ht⟩
    exact ⟨hb, hp, hv, ht⟩
  · rintro ⟨hb, hp, hv, ht⟩
    exact ⟨⟨hb, hv⟩, hp, ht⟩

/-- A short text has no percent sign that could be taken for an escape. -/
theorem survives_short (h : (escaped v).length < 2) : Survives v := by
  have hv := escaped_short h
  rw [hv] at h
  match v with
  | [] => exact ⟨nofun, by simp⟩
  | [b] =>
    refine survives_cons.mpr ⟨?_, fun _ => by simp, nofun, by simp⟩
    rcases printByte_cases b with ⟨-, hlt⟩ | ⟨-, hlt, -⟩ | ⟨hp, -⟩
    · exact hlt
    · exact hlt
    · simp [hp] at hv

/-- A component comes back from its text exactly when it survives. -/
theorem unescape_escaped_iff : unescapeComponent (escaped v) = v ↔ Survives v := by
  induction hn : v.length using Nat.strongRecOn generalizing v with
  | ind n ih =>
    match v with
    | [] => exact iff_of_true rfl ⟨nofun, by simp⟩
    | b :: r =>
      have hcons : escaped (b :: r) = printByte true b ++ escaped r := List.flatMap_cons
      rw [survives_cons]
      by_cases hge : 128 ≤ b
      · refine iff_of_false (fun h => ?_) fun h => UInt8.not_lt.mpr hge h.1
        rw [hcons, unescape_printByte_ge hge] at h
        obtain ⟨hb, hr⟩ := List.cons.inj h
        rcases printByte_cases b with ⟨-, hlt⟩ | ⟨-, hlt, -⟩ | ⟨-, -, hff⟩
        · exact UInt8.not_lt.mpr hge hlt
        · exact UInt8.not_lt.mpr hge hlt
        · obtain ⟨h₁, h₂⟩ := hff hb.symm
          rw [h₁, h₂] at hr
          exact ne_append_unescape hr.symm
      have hlt := UInt8.not_le.mp hge
      by_cases hb : b = 37
      · subst hb
        have hp : escaped (37 :: r) = 37 :: escaped r := hcons
        by_cases hlen : (escaped r).length < 2
        · refine iff_of_true ?_ ⟨hlt, fun _ => hlen, survives_short hlen⟩
          rw [hp, unescape_short hlen, escaped_short hlen]
        · refine iff_of_false (fun h => ?_) fun h => hlen (h.2.1 rfl)
          obtain ⟨a, c, x, s, t, rfl, -, htext, hx, htwo⟩ := escaped_two (Nat.le_of_not_lt hlen)
          rw [hp, htext, unescape_percent, unescape_append hx] at h
          obtain ⟨h37, h⟩ := List.cons.inj h
          -- only the digits 25 stand for a percent sign
          have hnum : hex2int a * 16 + hex2int c = 37 := by
            have := congrArg UInt8.toNat h37
            have h₁ := hex2int_lt a
            have h₂ := hex2int_lt c
            rw [UInt8.toNat_ofNat'] at this
            change _ = 37 at this
            omega
          have h₂ := hex2int_lt c
          obtain ⟨rfl, rfl⟩ := htwo (hex2int_eq_two a (by omega)) (hex2int_eq_five c (by omega))
          exact unescape_ne_append (by simp) h
      · rw [hcons, unescape_printByte hlt hb, List.cons_inj_right,
          ih r.length (by rw [← hn, List.length_cons]; omega) rfl]
        simp [hlt, hb]

end Escape

/-! ## Names -/

section Names

variable {suite : Suite} {v v' uri : List UInt8} {vs : List (List UInt8)} {k : Nat}

theorem slash_notMem_escaped (v : List UInt8) : 47 ∉ escaped v := by
  have hb : ∀ b, 47 ∉ printByte true b := forall_byte (by decide +kernel)
  simp only [escaped, List.mem_flatMap, not_exists, not_and]
  exact fun b _ => hb b

theorem escaped_ne_nil (h : v ≠ []) : escaped v ≠ [] := by
  obtain ⟨b, v, rfl⟩ := List.exists_cons_of_ne_nil h
  simp [escaped, printByte_ne_nil]

theorem length_le_escaped (v : List UInt8) : v.length ≤ (escaped v).length := by
  induction v with
  | nil => exact Nat.le_refl _
  | cons b v ih =>
    have hb := List.length_pos_iff.mpr (printByte_ne_nil true b)
    rw [escaped, List.flatMap_cons, List.length_append, List.length_cons]
    exact Nat.add_comm v.length 1 ▸ Nat.add_le_add hb ih

theorem length_escaped_le (h : v ∈ vs) :
    (escaped v).length ≤ (vs.flatMap (compText true)).length := by
  obtain ⟨as, bs, rfl⟩ := List.append_of_mem h
  have hcomp : (compText true v).length = (escaped v).length + 1 := rfl
  rw [List.flatMap_append, List.flatMap_cons, List.length_append, List.length_append, hcomp]
  omega

theorem length_unescape_le (v : List UInt8) : (unescapeComponent v).length ≤ v.length := by
  fun_induction unescapeComponent v with
  | case1 => exact Nat.le_refl _
  | case2 a b comp ih =>
    simp only [List.length_cons]
    omega
  | case3 c a b comp h ih => simpa using ih
  | case4 c comp h ih => simpa using ih

/-- The components of a printed name, without the slash in front. -/
theorem uriComponents_text (hvs : ∀ v ∈ vs, v ≠ []) (hk : vs.length ≤ k) :
    uriComponents k ((vs.flatMap (compText true)).drop 1) =
      vs.map fun v => unescapeComponent (escaped v) := by
  induction vs generalizing k with
  | nil => cases k <;> rfl
  | cons v vs ih =>
    obtain ⟨k, rfl⟩ : ∃ j, k = j + 1 := ⟨k - 1, by rw [List.length_cons] at hk; omega⟩
    have hdrop : ((v :: vs).flatMap (compText true)).drop 1 =
        escaped v ++ vs.flatMap (compText true) := rfl
    obtain ⟨c, t, ht⟩ := List.exists_cons_of_ne_nil (escaped_ne_nil (hvs v List.mem_cons_self))
    have hall : ∀ b ∈ escaped v, (b ≠ 47 : Bool) = true := fun b hb => by
      have hne : b ≠ 47 := fun h => slash_notMem_escaped v (h ▸ hb)
      simp [hne]
    have hrest : (vs.flatMap (compText true)).takeWhile (· ≠ 47) = [] ∧
        (vs.flatMap (compText true)).dropWhile (· ≠ 47) = vs.flatMap (compText true) := by
      cases vs with
      | nil => exact ⟨rfl, rfl⟩
      | cons w vs => exact ⟨rfl, rfl⟩
    have hsplit : ∀ u, u = escaped v ++ vs.flatMap (compText true) → uriComponents (k + 1) u =
        unescapeComponent (u.takeWhile (· ≠ 47)) :: uriComponents k ((u.dropWhile (· ≠ 47)).drop 1) := by
      rintro u hu
      rw [ht] at hu
      subst hu
      rfl
    rw [hdrop, hsplit _ rfl, List.takeWhile_append_of_pos hall, List.dropWhile_append_of_pos hall,
      hrest.1, hrest.2, List.append_nil, ih (fun w hw => hvs w (List.mem_cons_of_mem _ hw))
        (by rw [List.length_cons] at hk; omega)]
    rfl

theorem comps_uriToPrefix (num : Option Nat) : (uriToPrefix uri suite num).comps =
    (if uri = [] then [] else uriToComponents uri).map (pktMkComponent suite) :=
  bytes_pieces (List.prefix_rfl)

/-- Only the empty string and a single slash have no components. -/
theorem comps_uriToPrefix_eq_nil :
    (uriToPrefix uri suite none).comps = [] ↔ uri = [] ∨ uri = [47] := by
  rw [comps_uriToPrefix, List.map_eq_nil_iff]
  match uri with
  | [] => simp
  | [c] =>
    by_cases hc : c = 47 <;> simp [uriToComponents, uriComponents, maxNameComp, hc]
  | c :: d :: uri =>
    by_cases hc : c = 47 <;> simp [uriToComponents, uriComponents, maxNameComp, hc]

/-- The value that is printed of a component. -/
theorem drop_pktMkComponent (h : suite = .ccntlv → v.length ≤ uint16Max) :
    (pktMkComponent suite v).drop (printSkip suite true) = v := by
  unfold pktMkComponent printSkip
  cases suite <;> simp only [reduceCtorEq, and_false, and_true, ↓reduceIte, List.drop_zero]
  rw [if_neg (Nat.not_lt.mpr (h rfl)), drop_wireTLV]

theorem pktMkComponent_inj (h : v.length ≤ uint16Max) (h' : v'.length ≤ uint16Max) :
    pktMkComponent suite v = pktMkComponent suite v' ↔ v = v' :=
  ⟨fun heq => by
    rw [← drop_pktMkComponent (v := v) fun _ => h, heq, drop_pktMkComponent fun _ => h'],
    congrArg _⟩

end Names

/-- A CCNx name whose components are "a/" and a zero byte and a percent sign. -/
def slashPercent : Prefix where
  mem := [0, 1, 0, 2, 97, 47, 0, 1, 0, 2, 0, 37]
  comp := [⟨0, 6⟩, ⟨6, 6⟩]
  suite := .ccntlv

end Ccnl
