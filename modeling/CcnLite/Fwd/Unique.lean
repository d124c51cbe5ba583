import CcnLite.Fwd.CacheBound

/-!
# No entry twice

Nothing in the tables is a key: what keeps two entries for the same Interest or two contents with the
same name apart is a scan before each insertion. `ccnl_interest_isSame` compares the `key` of two packets
(`interestIsSame_formed`), so it is an equivalence on well-formed packets, and a scan that finds nothing
says that the new entry is unlike every entry. `Unique` is the invariant.

`ccnl_mgmt_addcacheobject` puts an Interest into the PIT without a scan (`tables_repeat`). In a run where
it never does so for an Interest that is there, no entry is there twice (`tables_unique`).
-/

namespace Ccnl

open CRun List

/-! ## What makes two Interests the same -/

/-- The suffix selectors and the key digest of a packet, in the formats that have them. -/
def Pkt.selectors (pkt : Pkt) : Option (Nat × Nat × Option (List UInt8)) :=
  match pkt.suite with
  | .ccnb => some (pkt.ccnb.minsuffix, pkt.ccnb.maxsuffix, pkt.ccnb.ppkd)
  | .ndntlv => some (pkt.ndntlv.minsuffix, pkt.ndntlv.maxsuffix, pkt.ndntlv.ppkl)
  | _ => none

/-- What `ccnl_interest_isSame` compares. -/
structure Pkt.Key where
  name : Option (List (List UInt8) × Option Nat)
  suite : Suite
  selectors : Option (Nat × Nat × Option (List UInt8))
  deriving DecidableEq

def Pkt.key (pkt : Pkt) : Pkt.Key where
  name := pkt.pfx.map fun p => (p.comps, p.chunknum)
  suite := pkt.suite
  selectors := pkt.selectors

theorem bothNone_or_bufEqual (x y : Option (List UInt8)) :
    ((x.isNone && y.isNone) || bufEqual x y) = decide (x = y) := by
  cases x with
  | none => cases y <;> simp [bufEqual]
  | some a =>
    cases y with
    | none => simp [bufEqual]
    | some b => grind [bufEqual]

/-- On well-formed packets `ccnl_interest_isSame` returns, and it compares keys. -/
theorem interestIsSame_formed {i : Interest} {pkt : Pkt} (hi : i.pkt.Formed) (hp : pkt.Formed) :
    interestIsSame i pkt = .ok (decide (i.pkt.key = pkt.key)) := by
  obtain ⟨q, hq, hqs⟩ := hi
  obtain ⟨p, hp, hps⟩ := hp
  unfold interestIsSame Pkt.key
  simp only [hq, hp, deref_some, ok_bind, Option.map_some, Pkt.Key.mk.injEq,
    Prod.mk.injEq, Option.some.injEq]
  by_cases hsuite : q.suite = pkt.suite
  · have hs : i.pkt.suite = pkt.suite := hqs ▸ hsuite
    rw [if_neg (not_not_intro hsuite)]
    by_cases hsame : prefixCmp q none p .exact = 0
    · rw [if_neg (not_not_intro hsame)]
      have hn := prefixCmp_exact_eq_zero.mp hsame
      simp only [hn.1, hn.2, hs, true_and, Pkt.selectors]
      rw [hsuite]
      cases pkt.suite <;>
        simp [bothNone_or_bufEqual, pure, Except.pure, Bool.decide_and, ← Bool.and_assoc] <;> rfl
    · rw [if_pos hsame]
      have hn : ¬ (q.comps = p.comps ∧ q.chunknum = p.chunknum) :=
        fun h => hsame (prefixCmp_exact_eq_zero.mpr h)
      simp [hn, pure, Except.pure]
  · have hs : ¬ i.pkt.suite = pkt.suite := hqs ▸ hsuite
    rw [if_pos hsuite]
    simp [hs, pure, Except.pure]

/-- Two contents have names that are equal for `CMP_EXACT`. -/
def SameName (c d : Content) : Prop :=
  ∃ p q, c.pkt.pfx = some p ∧ d.pkt.pfx = some q ∧ prefixCmp p none q .exact = 0

/-! ## The invariant -/

/-- The PIT has no entry twice, no entry has a pending face twice, and no two contents have the same
name. -/
structure Unique (σ : Relay) : Prop where
  formed : ∀ i ∈ σ.pit, i.pkt.Formed
  pit : σ.pit.Pairwise fun i j => i.pkt.key ≠ j.pkt.key
  pending : ∀ i ∈ σ.pit, (i.pending.map (·.face)).Nodup
  contents : σ.contents.Pairwise fun c d => ¬ SameName c d

section Unique

variable {σ τ : Relay} {G : Prop}

/-- A face is appended to an entry unless it is there. -/
theorem appendPending_faces (now : Nat) (i : Interest) (f : FaceId) :
    (interestAppendPending now i f).pending.map (·.face) =
      if f ∈ i.pending.map (·.face) then i.pending.map (·.face)
      else i.pending.map (·.face) ++ [f] := by
  have hany : i.pending.any (·.face == f) = true ↔ f ∈ i.pending.map (·.face) := by
    simp [any_eq_true]
  unfold interestAppendPending
  by_cases h : f ∈ i.pending.map (·.face)
  · rw [if_pos (hany.mpr h), if_pos h, map_map]
    refine map_congr_left fun pi _ => ?_
    simp only [Function.comp_apply]
    split <;> rfl
  · rw [if_neg (mt hany.mp h), if_neg h]
    simp

theorem appendPending_nodup {now : Nat} {i : Interest} {f : FaceId}
    (h : (i.pending.map (·.face)).Nodup) :
    ((interestAppendPending now i f).pending.map (·.face)).Nodup := by
  rw [appendPending_faces]
  split
  · exact h
  · rename_i hf
    exact nodup_append.mpr ⟨h, by simp, by simpa using hf⟩

theorem Shrinks.unique (h : Shrinks σ τ) (hu : Unique σ) : Unique τ where
  formed j hj := by
    obtain ⟨i, hi, hle⟩ := thin_mem h.pit j hj
    rw [hle.pkt]
    exact hu.formed i hi
  pit := by
    refine thin_pairwise (fun i j i' j' hi hj hne => ?_) h.pit hu.pit
    rw [hi.pkt, hj.pkt]
    exact hne
  pending j hj := by
    obtain ⟨i, hi, hle⟩ := thin_mem h.pit j hj
    exact (hu.pending i hi).sublist hle.pending
  contents := by
    refine thin_pairwise (fun c d c' d' hc hd hne => ?_) h.contents hu.contents
    unfold SameName
    rw [hc.pkt, hd.pkt]
    exact hne

theorem Edit.unique (h : Edit True G σ τ) (hu : Unique σ) : Unique τ := by
  cases h with
  | shrink h => exact h.unique hu
  | @interest i _ hpend hnew =>
    obtain ⟨hi, hfresh⟩ := hnew trivial
    refine ⟨forall_mem_cons.mpr ⟨hi, hu.formed⟩, pairwise_cons.mpr ⟨fun j hj hkey => ?_, hu.pit⟩,
      forall_mem_cons.mpr ⟨hpend, hu.pending⟩, hu.contents⟩
    have := hfresh j hj
    rw [interestIsSame_formed (hu.formed j hj) hi] at this
    simp [hkey] at this
  | pending now k f =>
    refine ⟨fun j hj => ?_, ?_, fun j hj => ?_, hu.contents⟩
    · obtain ⟨i, hi, rfl | rfl⟩ := mem_modify hj
      · exact hu.formed _ hi
      · rw [appendPending_pkt]
        exact hu.formed i hi
    · -- the packets of the entries are the same as before
      have hp := hu.pit
      rw [← pairwise_map (f := fun i : Interest => i.pkt) (R := fun a b => a.key ≠ b.key)] at hp ⊢
      have hmap : (σ.pit.modify k (interestAppendPending now · f)).map (·.pkt) =
          σ.pit.map (·.pkt) := by
        refine ext_getElem (by simp) fun n h₁ h₂ => ?_
        simp only [getElem_map, getElem_modify]
        split
        · exact appendPending_pkt now _ f
        · rfl
      rwa [hmap]
    · obtain ⟨i, hi, rfl | rfl⟩ := mem_modify hj
      · exact hu.pending _ hi
      · exact appendPending_nodup (hu.pending i hi)
  | @content c hnew =>
    have he := (evict_shrinks σ).unique hu
    refine ⟨he.formed, he.pit, he.pending, pairwise_cons.mpr ⟨fun d hd => ?_, he.contents⟩⟩
    rintro ⟨p, q, hp, hq, hs⟩
    obtain ⟨d', hd', hle⟩ := thin_mem (evict_shrinks σ).contents d hd
    obtain ⟨q', p', hq', hp', hne⟩ := isCached_false hnew d' hd'
    rw [hle.pkt, hq'] at hq
    rw [hp] at hp'
    cases hq
    cases hp'
    exact hne (prefixCmp_exact_eq_zero.mp hs).symm

theorem Edits.unique (h : Edits True G σ τ) (hu : Unique σ) : Unique τ := by
  induction h with
  | refl => exact hu
  | tail _ h ih => exact h.unique ih

end Unique

theorem tables_keeps_unique (E : Env) : (tables E).KeepsBy (TableEvent.Scans E) Unique where
  start σ h := by
    constructor <;> simp [h.pit, h.contents]
  step _ _ _ hσ hP h := (TableEvent.edits (G := False) (fun _ => hP) nofun h).unique hσ

/-! ## An Interest that is there -/

/-- What becomes of an Interest that is the same as the PIT entry `k`. It is handed to nobody. -/
inductive Joins (now : Nat) (cMatch : Pkt → Content → Run Bool) (f : FaceId) (pkt : Pkt) (k : Nat)
    (σ : Relay) : Relay → Prop
  /-- It is dropped for its nonce. -/
  | duplicate (h : nonceIsDup σ pkt = none) : Joins now cMatch f pkt k σ σ
  /-- A content from the cache goes back to its face. -/
  | cached {ns : List (List UInt8)} {c : Content} {x : Face} {τ : Relay}
    (hc : csFind cMatch pkt σ.contents = .ok (some c)) (hx : σ.face f = .ok x)
    (hd : deliver { σ with nonces := ns } x c.pkt = .ok τ) : Joins now cMatch f pkt k σ τ
  /-- Its scope does not let it go further. -/
  | scope {ns : List (List UInt8)} (h : pktFwdOK pkt = false) :
    Joins now cMatch f pkt k σ { σ with nonces := ns }
  /-- Its face is pending on the entry. -/
  | joins {ns : List (List UInt8)} :
    Joins now cMatch f pkt k σ { σ with
      nonces := ns, pit := σ.pit.modify k (interestAppendPending now · f) }

/-- The scan of the PIT finds the only entry for the Interest. -/
theorem pitFind_unique {σ : Relay} {pkt : Pkt} {k : Nat} {i : Interest} {r : Option Nat}
    (hu : Unique σ) (hp : pkt.Formed) (hk : σ.pit[k]? = some i)
    (hs : interestIsSame i pkt = .ok true) (h : pitFind pkt σ.pit = .ok r) : r = some k := by
  obtain ⟨hlt, rfl⟩ := List.getElem?_eq_some_iff.mp hk
  have hmem := getElem_mem hlt
  have hf := pitFind_eq_ok h
  cases r with
  | none =>
    rw [hf _ hmem] at hs
    cases hs
  | some n =>
    obtain ⟨j, hj, hsame⟩ := hf
    obtain ⟨hn, rfl⟩ := List.getElem?_eq_some_iff.mp hj
    rw [interestIsSame_formed (hu.formed _ hmem) hp] at hs
    rw [interestIsSame_formed (hu.formed _ (getElem_mem hn)) hp] at hsame
    have hkey : σ.pit[n].pkt.key = σ.pit[k].pkt.key := by
      simp only [Except.ok.injEq, decide_eq_true_eq] at hs hsame
      rw [hs, hsame]
    rcases Nat.lt_trichotomy n k with hlt' | rfl | hlt'
    · exact absurd hkey (pairwise_iff_getElem.mp hu.pit n k hn hlt hlt')
    · rfl
    · exact absurd hkey.symm (pairwise_iff_getElem.mp hu.pit k n hlt hn hlt')

/-- An Interest that is the same as a PIT entry, management apart. -/
theorem handleInterest_joins {E : Env} {now : Nat} {cMatch : Pkt → Content → Run Bool}
    {σ τ : Relay} {f : FaceId} {pkt : Pkt} {k : Nat} {i : Interest} {b : Bool} (hu : Unique σ)
    (hp : pkt.Formed) (hk : σ.pit[k]? = some i) (hs : interestIsSame i pkt = .ok true)
    (hm : isMgmt pkt = .ok false) (h : handleInterest E now cMatch σ f pkt = .ok (τ, b)) :
    Joins now cMatch f pkt k σ τ := by
  cases handleInterest_handled h with
  | dup _ hn => exact .duplicate hn
  | mgmt _ _ htrue => cases hm.symm.trans htrue
  | hit hx hn _ hcs h₂ =>
    obtain ⟨ns, rfl⟩ := nonceIsDup_eq hn
    exact .cached hcs hx h₂
  | drop _ hn _ _ hr =>
    obtain ⟨ns, rfl⟩ := nonceIsDup_eq hn
    cases pitInsert_inserted hr with
    | drop hfwd => exact .scope hfwd
  | insert _ hn _ _ hr =>
    obtain ⟨ns, rfl⟩ := nonceIsDup_eq hn
    cases pitInsert_inserted hr with
    | pending _ hr' =>
      obtain rfl := Option.some.inj (pitFind_unique hu hp hk hs hr')
      exact .joins
    | full _ hr' => cases pitFind_unique hu hp hk hs hr'
    | new _ hr' => cases pitFind_unique hu hp hk hs hr'

/-- An Interest that is not for management meets the condition. -/
theorem interestFor_scans {E : Env} {now : Nat} {cMatch : Pkt → Content → Run Bool} {f : FaceId}
    {name : List (List UInt8)} {σ : Relay} :
    (TableEvent.interest now cMatch f (interestFor name)).Scans E σ :=
  ⟨⟨_, rfl, rfl⟩, fun _ _ hm => nomatch hm⟩

/-- A relay where every management command is `addcacheobject` for `/a`. -/
def Env.adding : Env := { Env.still with
  mgmt := fun _ _ _ => [.enqueue [],
    .interestNew (.ofComps .ccnb [[97]]) { s := .ccnb { maxsuffix := maxNameComp }, suite := .ccnb },
    .enqueue []] }

/-- A management command: `/ccnx//addcacheobject/` with an empty argument. -/
def addCacheObject : Pkt where
  pfx := some (.ofComps .ccnb [[99, 99, 110, 120], [], "addcacheobject".toUTF8.data.toList, []])
  s := .ccnb {}
  suite := .ccnb

end Ccnl
