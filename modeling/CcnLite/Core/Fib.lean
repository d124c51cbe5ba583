import CcnLite.Core.Relay
import CcnLite.Lib.Keyed
import Mathlib.Logic.Function.Basic

/-!
# The FIB is a finite map

Three functions change the FIB: `ccnl_fib_add_entry`, `ccnl_fib_rem_entry` and `ccnl_set_tap`. The
FIB is a linked list that they search by suite and by name with `CMP_EXACT`. What it is for is
`FibMap`: a name of a suite has an entry with a tap and a face, or none (`FibOp.spec`).

`fib_isMap`: after any calls the list holds at most one entry for a name, maps every name as the
calls on a `FibMap` do, and one more call returns what it should and leaves the entries of other
names as they are and in order.
-/

namespace Ccnl

open CRun Keyed

/-- `ccnl_set_tap` (`ccnl-fwd.c`). -/
def setTap (σ : Relay) (p : Prefix) (callback : Option Nat) : Relay :=
  match σ.fib.findIdx? fun fwd =>
      fwd.suite == p.suite && fwd.pfx.any (fun q => prefixCmp q none p .exact == 0) with
  | some k => { σ with fib := σ.fib.modify k fun fwd => { fwd with pfx := p, tap := callback } }
  | none => { σ with fib := σ.fib ++ [{ pfx := p, suite := p.suite, tap := callback }] }

/-- `ccnl_fib_rem_entry` with a prefix, and what it returns. -/
def fibRem (σ : Relay) (p : Prefix) (f : Option FaceId) : Relay × Int :=
  (fibRemEntry σ p f,
    if σ.fib.any fun fwd => fwd.suite == p.suite &&
        fwd.pfx.any (fun q => prefixCmp q none p .exact == 0) && (f.isNone || fwd.face == f)
    then 0 else -1)

/-- A call that changes the FIB. -/
inductive FibOp where
  | add (p : Prefix) (f : Option FaceId)
  | setTap (p : Prefix) (t : Option Nat)
  | rem (p : Prefix) (f : Option FaceId)

/-- The call, and what it returns. Allocation succeeds. -/
def FibOp.run (σ : Relay) : FibOp → Relay × Int
  | add p f => (fibAddEntry σ p f, 0)
  | setTap p t => (Ccnl.setTap σ p t, 0)
  | rem p f => fibRem σ p f

/-! ## The map -/

/-- What the FIB distinguishes: the suite, and the name up to `CMP_EXACT`. -/
structure FibKey where
  suite : Suite
  comps : List (List UInt8)
  chunknum : Option Nat
  deriving DecidableEq

def Prefix.fibKey (p : Prefix) : FibKey := ⟨p.suite, p.comps, p.chunknum⟩

/-- What a name is mapped to. -/
structure FibEntry where
  tap : Option Nat
  face : Option FaceId

/-- What the FIB is for. -/
abbrev FibMap := FibKey → Option FibEntry

/-- The name that a call is about. -/
def FibOp.key : FibOp → FibKey
  | add p _ => p.fibKey
  | setTap p _ => p.fibKey
  | rem p _ => p.fibKey

/-- The call on the map. -/
def FibOp.spec (m : FibMap) (op : FibOp) : FibMap × Int :=
  match op with
  | add _ f => (Function.update m op.key (some ⟨(m op.key).bind (·.tap), f⟩), 0)
  | setTap _ t => (Function.update m op.key (some ⟨t, (m op.key).bind (·.face)⟩), 0)
  | rem _ f =>
    if (m op.key).any fun e => f.isNone || e.face == f then (Function.update m op.key none, 0)
    else (m, -1)

/-! ## The list -/

/-- The key of an entry, `none` without a prefix. -/
def Forward.key (fwd : Forward) : Option FibKey :=
  fwd.pfx.map fun q => ⟨fwd.suite, q.comps, q.chunknum⟩

/-- The entry of a name. -/
def fibLookup (fib : List Forward) (k : FibKey) : Option Forward :=
  Keyed.lookup Forward.key fib (some k)

/-- The map that the list stands for. -/
def fibMap (fib : List Forward) : FibMap := fun k =>
  (fibLookup fib k).map fun fwd => ⟨fwd.tap, fwd.face⟩

/-- The entries of other names, in order. -/
def fibOthers (fib : List Forward) (k : FibKey) : List Forward :=
  Keyed.others Forward.key fib (some k)

/-- Two entries for one name: the same suite, and names that are equal for `CMP_EXACT`. -/
def Forward.Clash (a b : Forward) : Prop :=
  a.suite = b.suite ∧ ∃ p q, a.pfx = some p ∧ b.pfx = some q ∧ prefixCmp p none q .exact = 0

/-- Every entry has a prefix, and there is one entry at most for each name. -/
structure FibOk (fib : List Forward) : Prop where
  named : ∀ fwd ∈ fib, ∃ p, fwd.pfx = some p
  distinct : Distinct Forward.key fib

/-- The test of the three searches. -/
theorem forward_test (fwd : Forward) (p : Prefix) :
    (fwd.suite == p.suite && fwd.pfx.any (fun q => prefixCmp q none p .exact == 0)) =
      decide (fwd.key = some p.fibKey) := by
  cases h : fwd.pfx with
  | none => simp [Forward.key, h]
  | some q =>
    rw [Bool.eq_iff_iff]
    simp [Forward.key, h, Prefix.fibKey, prefixCmp_exact_eq_zero, Prefix.Same]

theorem Forward.clash_iff {a b : Forward} :
    a.Clash b ↔ ∃ k, a.key = some k ∧ b.key = some k := by
  unfold Forward.Clash Forward.key
  constructor
  · rintro ⟨hs, p, q, hp, hq, h⟩
    obtain ⟨hc, hn⟩ := prefixCmp_exact_eq_zero.mp h
    exact ⟨⟨a.suite, p.comps, p.chunknum⟩, by simp [hp], by simp [hq, hs, hc, hn]⟩
  · rintro ⟨k, ha, hb⟩
    obtain ⟨p, hp, rfl⟩ := Option.map_eq_some_iff.mp ha
    obtain ⟨q, hq, hk⟩ := Option.map_eq_some_iff.mp hb
    simp only [FibKey.mk.injEq] at hk
    exact ⟨hk.1.symm, p, q, hp, hq, prefixCmp_exact_eq_zero.mpr ⟨hk.2.1.symm, hk.2.2.symm⟩⟩

/-- With distinct keys no two entries of the list clash. -/
theorem FibOk.pairwise {fib : List Forward} (h : FibOk fib) :
    fib.Pairwise fun a b => ¬ a.Clash b := by
  refine (List.pairwise_map.mp h.distinct).imp ?_
  intro a b hne hab
  obtain ⟨k, ha, hb⟩ := Forward.clash_iff.mp hab
  exact hne (ha.trans hb.symm)

/-! ## One call -/

section Call

variable {σ : Relay} {p : Prefix}

theorem fibAddEntry_fib (σ : Relay) (p : Prefix) (f : Option FaceId) :
    (fibAddEntry σ p f).fib = upsert Forward.key (some p.fibKey)
      { pfx := p, suite := p.suite, face := f } (fun fwd => { fwd with pfx := p, face := f })
      σ.fib := by
  unfold fibAddEntry upsert
  simp only [forward_test]
  cases σ.fib.findIdx? fun fwd => decide (fwd.key = some p.fibKey) <;> rfl

theorem setTap_fib (σ : Relay) (p : Prefix) (t : Option Nat) :
    (setTap σ p t).fib = upsert Forward.key (some p.fibKey)
      { pfx := p, suite := p.suite, tap := t } (fun fwd => { fwd with pfx := p, tap := t })
      σ.fib := by
  unfold setTap upsert
  simp only [forward_test]
  cases σ.fib.findIdx? fun fwd => decide (fwd.key = some p.fibKey) <;> rfl

theorem fibRemEntry_fib (σ : Relay) (p : Prefix) (f : Option FaceId) :
    (fibRemEntry σ p f).fib = eraseFirst
      (fun fwd => decide (fwd.key = some p.fibKey) && (f.isNone || fwd.face == f)) σ.fib := by
  unfold fibRemEntry eraseFirst
  simp only [Option.all_some, forward_test]
  cases σ.fib.findIdx? fun fwd =>
    decide (fwd.key = some p.fibKey) && (f.isNone || fwd.face == f) <;> rfl

/-- An overwritten entry keeps the key that it was found by. -/
theorem key_overwrite {fwd : Forward} (h : fwd.key = some p.fibKey) (t : Option Nat)
    (f : Option FaceId) :
    Forward.key { pfx := some p, suite := fwd.suite, tap := t, face := f } = some p.fibKey := by
  unfold Forward.key at h
  obtain ⟨q, -, hq⟩ := Option.map_eq_some_iff.mp h
  rw [Prefix.fibKey, FibKey.mk.injEq] at hq
  simp only [Forward.key, Option.map_some, hq.1]
  rfl

/-- The map after an `upsert` at the key `k`. -/
theorem fibMap_upsert {k : FibKey} {new : Forward} {g : Forward → Forward} {fib : List Forward}
    (hnew : new.key = some k) (hg : ∀ fwd, Forward.key fwd = some k → (g fwd).key = some k) :
    fibMap (upsert Forward.key (some k) new g fib) = Function.update (fibMap fib) k
      (some ⟨((fibLookup fib k).elim new g).tap, ((fibLookup fib k).elim new g).face⟩) := by
  funext k'
  by_cases hk : k' = k
  · subst hk
    simp only [fibMap, fibLookup, lookup_upsert hnew hg, Option.map_some, Function.update_self]
  · have hne : some k' ≠ some k := by simpa using hk
    rw [Function.update_of_ne hk]
    simp only [fibMap, fibLookup]
    rw [← lookup_others hne, others_upsert hnew hg, lookup_others hne]

/-- The map without the key `k`. -/
theorem fibMap_others (fib : List Forward) (k : FibKey) :
    fibMap (fibOthers fib k) = Function.update (fibMap fib) k none := by
  funext k'
  by_cases hk : k' = k
  · subst hk
    simp only [fibMap, fibLookup, fibOthers, lookup_others_self, Option.map_none,
      Function.update_self]
  · have hne : some k' ≠ some k := by simpa using hk
    simp only [Function.update_of_ne hk, fibMap, fibLookup, fibOthers, lookup_others hne]

/-- What a call does to a FIB that is a map. -/
structure FibStep (σ : Relay) (op : FibOp) : Prop where
  ok : FibOk (op.run σ).1.fib
  map : fibMap (op.run σ).1.fib = (op.spec (fibMap σ.fib)).1
  returns : (op.run σ).2 = (op.spec (fibMap σ.fib)).2
  others : fibOthers (op.run σ).1.fib op.key = fibOthers σ.fib op.key

/-- An `upsert` keeps the FIB a map. -/
theorem FibOk.upsert {k : FibKey} {new : Forward} {g : Forward → Forward} {fib : List Forward}
    (h : FibOk fib) (hnew : new.key = some k)
    (hg : ∀ fwd, Forward.key fwd = some k → (g fwd).key = some k) :
    FibOk (upsert Forward.key (some k) new g fib) where
  named := by
    have hkey : ∀ fwd : Forward, fwd.key = some k → ∃ p, fwd.pfx = some p := by
      intro fwd hfwd
      obtain ⟨p, hp, -⟩ := Option.map_eq_some_iff.mp hfwd
      exact ⟨p, hp⟩
    intro fwd hfwd
    rcases upsert_split Forward.key (some k) new g fib with
      ⟨l₁, a, l₂, rfl, ha, -, he⟩ | ⟨-, he⟩
    · rw [he] at hfwd
      rcases List.mem_append.mp hfwd with hm | hm
      · exact h.named fwd (by simp [hm])
      · rcases List.mem_cons.mp hm with rfl | hm
        · exact hkey _ (hg a ha)
        · exact h.named fwd (by simp [hm])
    · rw [he] at hfwd
      rcases List.mem_append.mp hfwd with hm | hm
      · exact h.named fwd hm
      · rw [List.mem_singleton.mp hm]
        exact hkey new hnew
  distinct := distinct_upsert hnew hg h.distinct

theorem FibOk.others {fib : List Forward} (h : FibOk fib) (k : FibKey) : FibOk (fibOthers fib k) where
  named := fun fwd hfwd => h.named fwd (List.mem_filter.mp hfwd).1
  distinct := distinct_others _ h.distinct

/-- A call that overwrites the entry of its name, or makes it. -/
theorem FibStep.upsert {op : FibOp} {e : FibEntry} {new : Forward} {g : Forward → Forward}
    (h : FibOk σ.fib)
    (hfib : (op.run σ).1.fib = Keyed.upsert Forward.key (some op.key) new g σ.fib)
    (hspec : op.spec (fibMap σ.fib) = (Function.update (fibMap σ.fib) op.key (some e), (op.run σ).2))
    (hnew : new.key = some op.key) (hg : ∀ fwd, fwd.key = some op.key → (g fwd).key = some op.key)
    (he : e = ⟨((fibLookup σ.fib op.key).elim new g).tap,
      ((fibLookup σ.fib op.key).elim new g).face⟩) : FibStep σ op where
  ok := hfib ▸ h.upsert hnew hg
  map := by rw [hfib, fibMap_upsert hnew hg, hspec, he]
  returns := by rw [hspec]
  others := by
    rw [hfib]
    exact others_upsert hnew hg

theorem fibAddEntry_step (h : FibOk σ.fib) (p : Prefix) (f : Option FaceId) :
    FibStep σ (.add p f) := by
  refine FibStep.upsert h (fibAddEntry_fib σ p f) rfl rfl
    (fun fwd hfwd => key_overwrite hfwd _ _) ?_
  simp only [FibOp.key, fibMap]
  cases fibLookup σ.fib p.fibKey <;> rfl

theorem setTap_step (h : FibOk σ.fib) (p : Prefix) (t : Option Nat) :
    FibStep σ (.setTap p t) := by
  refine FibStep.upsert h (setTap_fib σ p t) rfl rfl (fun fwd hfwd => key_overwrite hfwd _ _) ?_
  simp only [FibOp.key, fibMap]
  cases fibLookup σ.fib p.fibKey <;> rfl

/-- The entry that a removal unlinks is the one of the name, if its face is the right one. -/
theorem fibRemEntry_eq (h : FibOk σ.fib) (p : Prefix) (f : Option FaceId) :
    (fibRemEntry σ p f).fib =
      if (fibMap σ.fib p.fibKey).any fun e => f.isNone || e.face == f
      then fibOthers σ.fib p.fibKey else σ.fib := by
  have hq : ∀ fwd : Forward, (decide (fwd.key = some p.fibKey) && (f.isNone || fwd.face == f)) = true →
      fwd.key = some p.fibKey := by
    intro fwd hfwd
    simpa using (Bool.and_eq_true_iff.mp hfwd).1
  have hany : ((Keyed.lookup Forward.key σ.fib (some p.fibKey)).any fun fwd =>
      decide (fwd.key = some p.fibKey) && (f.isNone || fwd.face == f)) =
      (fibMap σ.fib p.fibKey).any fun e => f.isNone || e.face == f := by
    cases hl : Keyed.lookup Forward.key σ.fib (some p.fibKey) with
    | none => simp [fibMap, fibLookup, hl]
    | some fwd => simp [fibMap, fibLookup, hl, key_of_lookup hl]
  rw [fibRemEntry_fib, eraseFirst_eq hq h.distinct, hany]
  rfl

/-- A removal returns 0 exactly when the name has an entry with the right face. -/
theorem fibRem_returns (h : FibOk σ.fib) (p : Prefix) (f : Option FaceId) :
    (fibRem σ p f).2 =
      if (fibMap σ.fib p.fibKey).any fun e => f.isNone || e.face == f then 0 else -1 := by
  simp only [fibRem, forward_test]
  congr 1
  rw [eq_iff_iff, List.any_eq_true]
  constructor
  · rintro ⟨fwd, hfwd, hq⟩
    simp only [Bool.and_eq_true, decide_eq_true_eq] at hq
    have hl : fibLookup σ.fib p.fibKey = some fwd := lookup_of_mem h.distinct hfwd hq.1
    simpa [fibMap, hl] using hq.2
  · intro hany
    cases hl : fibLookup σ.fib p.fibKey with
    | none => simp [fibMap, hl] at hany
    | some fwd =>
      have hf : (f.isNone || fwd.face == f) = true := by
        simpa only [fibMap, hl, Option.map_some, Option.any_some] using hany
      exact ⟨fwd, mem_of_lookup hl, by simpa [key_of_lookup hl] using hf⟩

theorem fibRem_step (h : FibOk σ.fib) (p : Prefix) (f : Option FaceId) :
    FibStep σ (.rem p f) := by
  have hfib : (FibOp.run σ (.rem p f)).1.fib = _ := fibRemEntry_eq h p f
  have hret : (FibOp.run σ (.rem p f)).2 = _ := fibRem_returns h p f
  by_cases hany : ((fibMap σ.fib p.fibKey).any fun e => f.isNone || e.face == f) = true
  · have hspec : FibOp.spec (fibMap σ.fib) (.rem p f) =
        (Function.update (fibMap σ.fib) p.fibKey none, 0) := if_pos hany
    rw [if_pos hany] at hfib hret
    refine ⟨?_, ?_, by rw [hret, hspec], ?_⟩
    · rw [hfib]
      exact h.others _
    · rw [hfib, hspec]
      exact fibMap_others _ _
    · rw [hfib]
      exact others_others _ _
  · have hspec : FibOp.spec (fibMap σ.fib) (.rem p f) = (fibMap σ.fib, -1) := if_neg hany
    rw [if_neg hany] at hfib hret
    refine ⟨?_, by rw [hfib, hspec], by rw [hret, hspec], by rw [hfib]⟩
    rw [hfib]
    exact h

/-- Each of the three calls does to the list what it does to the map. -/
theorem FibOp.step (h : FibOk σ.fib) (op : FibOp) : FibStep σ op := by
  cases op with
  | add p f => exact fibAddEntry_step h p f
  | setTap p t => exact setTap_step h p t
  | rem p f => exact fibRem_step h p f

end Call

/-! ## Any calls -/

/-- The relay after some calls. -/
def FibOp.runs (σ : Relay) (ops : List FibOp) : Relay := ops.foldl (fun σ op => (op.run σ).1) σ

theorem FibOp.runs_spec {σ : Relay} (h : FibOk σ.fib) (ops : List FibOp) :
    FibOk (FibOp.runs σ ops).fib ∧
      fibMap (FibOp.runs σ ops).fib = ops.foldl (fun m op => (op.spec m).1) (fibMap σ.fib) := by
  induction ops generalizing σ with
  | nil => exact ⟨h, rfl⟩
  | cons op ops ih =>
    have hop := op.step h
    have := ih hop.ok
    rw [hop.map] at this
    exact this

/-- The FIB is a finite map. After any calls that start from an empty FIB there is at most one entry
for a name, and the list maps the names as the calls on the empty map do; and one more call returns
what the call on the map returns, and leaves the entries of the other names as they are and in
order. -/
theorem fib_isMap (σ : Relay) (ops : List FibOp) :
    let τ := FibOp.runs { σ with fib := [] } ops
    (∀ fwd ∈ τ.fib, fwd.pfx ≠ none) ∧ τ.fib.Pairwise (fun a b => ¬ a.Clash b) ∧
    fibMap τ.fib = ops.foldl (fun m op => (op.spec m).1) (fun _ => none) ∧
    ∀ op : FibOp,
      fibMap (op.run τ).1.fib = (op.spec (fibMap τ.fib)).1 ∧
      (op.run τ).2 = (op.spec (fibMap τ.fib)).2 ∧
      fibOthers (op.run τ).1.fib op.key = fibOthers τ.fib op.key := by
  intro τ
  have hempty : FibOk ({ σ with fib := [] } : Relay).fib := ⟨by simp, List.nodup_nil⟩
  obtain ⟨hok, hmap⟩ := FibOp.runs_spec hempty ops
  refine ⟨?_, hok.pairwise, hmap, ?_⟩
  · intro fwd hfwd
    obtain ⟨p, hp⟩ := hok.named fwd hfwd
    simp [hp]
  · intro op
    have hop := op.step hok
    exact ⟨hop.map, hop.returns, hop.others⟩

end Ccnl
