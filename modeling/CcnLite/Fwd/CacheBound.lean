import CcnLite.Fwd.Counters

/-!
# The limit of the cache

`ccnl_content_add2cache` evicts the oldest content that is not static when the cache is full, and then
inserts while `contentcnt <= max_cache_entries`. When every content is static nothing is evicted, and
the cache grows past its limit. In a run where each content that comes in finds room the limit holds
(`tables_bounded`).
-/

namespace Ccnl

open CRun List Relation

/-- The cache is within its limit, if it has one. -/
def Bounded (σ : Relay) : Prop :=
  0 < σ.maxCacheEntries → (σ.contents.length : Int) ≤ σ.maxCacheEntries

/-- The content `c` is in the list after the call: the list has it once more than before. -/
def Entered (σ τ : Relay) (c : Content) : Prop := τ.contents.count c = σ.contents.count c + 1

section Bound

variable {σ τ : Relay} {F : Prop}

theorem Shrinks.bounded (h : Shrinks σ τ) (hb : Bounded σ) : Bounded τ := by
  intro hM
  have hle := thin_length_le h.contents
  rw [h.maxCacheEntries] at hM ⊢
  have := hb hM
  omega

/-- After eviction there is a place free when there was room. -/
theorem evict_room (hc : Counted σ) (hb : Bounded σ) (hM : 0 < σ.maxCacheEntries) (hr : Room σ) :
    ((evict σ).contents.length : Int) < σ.maxCacheEntries := by
  have hle := hb hM
  have hcnt := hc.contentcnt
  unfold evict
  split
  · rename_i hfull
    have hex : ∃ c ∈ σ.contents, c.static = false := hr.resolve_left (by omega)
    split
    · rename_i k hk
      have hlt : k < σ.contents.length := (oldestFrom_lt hk).elim nofun fun h => by omega
      simp only [contentRemove, length_eraseIdx_of_lt hlt]
      omega
    · rename_i hnone
      exact absurd hnone (oldestFrom_isSome (by simp) (.inr hex))
  · omega

/-- Without room nothing is evicted. -/
theorem evict_full (hr : ¬ Room σ) : evict σ = σ := by
  unfold Room at hr
  push Not at hr
  unfold evict
  split
  · split
    · rename_i k hk
      have hnone : ∀ (cs : List Content) k age, (∀ c ∈ cs, c.static ≠ false) →
          oldestFrom cs k age none = none := by
        intro cs
        induction cs with
        | nil => intros; rfl
        | cons c cs ih =>
          intro k age h
          rw [oldestFrom, if_neg fun hs => h c mem_cons_self (by simpa using hs.1)]
          exact ih _ _ fun d hd => h d (mem_cons_of_mem _ hd)
      rw [hnone _ _ _ hr.2] at hk
      cases hk
    · rfl
  · rfl

theorem Edit.bounded (h : Edit F True σ τ) (hc : Counted σ) (hb : Bounded σ) : Bounded τ := by
  cases h with
  | shrink h => exact h.bounded hb
  | interest => exact hb
  | pending => exact hb
  | content _ hroom =>
    intro hM
    have hmax := (evict_shrinks σ).maxCacheEntries
    simp only [length_cons] at hM ⊢
    rw [hmax] at hM ⊢
    have := evict_room hc hb hM (hroom trivial)
    omega

theorem Edits.bounded (h : Edits F True σ τ) (hc : Counted σ) (hb : Bounded σ) :
    Counted τ ∧ Bounded τ := by
  induction h with
  | refl => exact ⟨hc, hb⟩
  | tail _ h ih => exact ⟨h.counted ih.1, h.bounded ih.1 ih.2⟩

theorem tables_keeps_bounded (E : Env) :
    (tables E).KeepsBy (TableEvent.Fits E) fun σ => Counted σ ∧ Bounded σ where
  start σ h := by
    refine ⟨h.counted, fun hM => ?_⟩
    rw [h.contents]
    exact Int.le_of_lt hM
  step _ _ _ hσ hP h := (TableEvent.edits (F := False) nofun (fun _ => hP) h).bounded hσ.1 hσ.2

/-- The scan of the cache has looked at every name. -/
theorem isCached_false {pfx : Option Prefix} {cs : List Content} (h : isCached pfx cs = .ok false) :
    ∀ c ∈ cs, ∃ q p, c.pkt.pfx = some q ∧ pfx = some p ∧ ¬ q.Same p := by
  induction cs with
  | nil => simp
  | cons c cs ih =>
    obtain ⟨q, hq, h⟩ := (bind_eq_ok _ _ _).mp h
    obtain ⟨p, hp, h⟩ := (bind_eq_ok _ _ _).mp h
    simp only [prefixCmp_exact_eq_zero] at h
    split at h
    · cases h
    rename_i hs
    intro d hd
    rcases mem_cons.mp hd with rfl | hd
    · exact ⟨q, p, deref_eq_ok.mp hq, deref_eq_ok.mp hp, hs⟩
    · exact ih h d hd

/-- What `ccnl_content_add2cache` does in a relay within its limits: a content with a new name comes
into the cache and is returned, and it keeps the limit if there was room. -/
theorem add2cache_bounded {c : Content} {b : Bool} (hc : Counted σ) (hb : Bounded σ)
    (hM : 0 < σ.maxCacheEntries) (h : add2cache σ c = .ok (τ, b)) :
    ((τ.contents.length : Int) ≤ σ.maxCacheEntries ↔ σ.Fits c.pkt.pfx) ∧
      (b = true ↔ Entered σ τ c) := by
  obtain ⟨known, hk, h⟩ := (bind_eq_ok _ _ _).mp h
  obtain ⟨σ₁, h₁, h⟩ := (bind_eq_ok _ _ _).mp h
  cases h
  cases known with
  | true =>
    simp only [contentAdd2cache, hk, ok_bind, ↓reduceIte] at h₁
    cases h₁
    refine ⟨iff_of_true (hb hM) fun hn => ?_, by simp [Entered]⟩
    rw [hk] at hn
    cases hn
  | false =>
    have hshr := evict_shrinks σ
    have htakes : (evict σ).Takes := by
      have := hshr.bounded hb (by rwa [hshr.maxCacheEntries])
      exact .inr (by rwa [(hshr.counted hc).contentcnt])
    have hτ : τ.contents = c :: (evict σ).contents := by
      refine add2cache_takes (c := c) ?_ htakes
      simp [add2cache, hk, h₁, pure, Except.pure]
    have hnew : c ∉ σ.contents := fun hmem => by
      obtain ⟨q, p, hq, hp, hs⟩ := isCached_false hk c hmem
      rw [hq] at hp
      cases hp
      exact hs ⟨rfl, rfl⟩
    have hsub : c ∉ (evict σ).contents := by
      unfold evict
      split
      · split
        · exact fun hmem => hnew (mem_of_mem_eraseIdx hmem)
        · exact hnew
      · exact hnew
    refine ⟨⟨fun hle _ => ?_, fun hfit => ?_⟩, iff_of_true rfl ?_⟩
    · by_contra hr
      rw [hτ, evict_full hr, length_cons] at hle
      exact hr (.inl (by omega))
    · have := evict_room hc hb hM (hfit hk)
      rw [hτ, length_cons]
      omega
    · rw [Entered, hτ, count_cons_self, count_eq_zero_of_not_mem hsub,
        count_eq_zero_of_not_mem hnew]

end Bound

/-- In a run where every content that comes into the cache finds room, the cache is within its limit
in every state. There the next content keeps the limit exactly when it finds room, and
`ccnl_content_add2cache` returns it exactly when it is in the list afterwards. -/
theorem tables_bounded {E : Env} {σ : Relay}
    (hr : (tables E).ReachableBy (TableEvent.Fits E) σ) (hM : 0 < σ.maxCacheEntries) :
    (σ.contents.length : Int) ≤ σ.maxCacheEntries ∧
      ∀ c τ b, add2cache σ c = .ok (τ, b) →
        ((τ.contents.length : Int) ≤ σ.maxCacheEntries ↔ σ.Fits c.pkt.pfx) ∧
        (b = true ↔ Entered σ τ c) := by
  obtain ⟨hc, hb⟩ := (tables_keeps_bounded E).reachable hr
  exact ⟨hb hM, fun c τ b h => add2cache_bounded hc hb hM h⟩

/-- A content with a name. -/
def contentFor (name : List (List UInt8)) : Content := contentNew 0 (interestFor name)

/-- A cache with one place: `/a` comes in and then goes for `/b`. -/
theorem tables_bounded_evicts :
    ∃ σ τ, (tables .still).Reachable σ ∧ σ.contents.length = 1 ∧
      add2cache σ (contentFor [[98]]) = .ok (τ, true) ∧ (τ.contents.length : Int) ≤ 1 ∧
      Entered σ τ (contentFor [[98]]) := by
  have hstart : ({ Relay.plain with maxCacheEntries := 1 } : Relay).Empty :=
    ⟨rfl, rfl, rfl, rfl, by decide⟩
  have hfit : TableEvent.Fits .still (.add2cache (contentFor [[97]]))
      { Relay.plain with maxCacheEntries := 1 } := fun _ => by decide
  obtain ⟨⟨σ, τ, b⟩, hrun, hlen, hroom, hmax, rfl⟩ := exists_ok
    (x := do
      let σ ← (tables .still).step (.add2cache (contentFor [[97]]))
        { Relay.plain with maxCacheEntries := 1 }
      let r ← add2cache σ (contentFor [[98]])
      return (σ, r))
    (p := fun r => r.1.contents.length = 1 ∧ Room r.1 ∧ r.1.maxCacheEntries = 1 ∧ r.2.2 = true)
    (by decide +kernel)
  obtain ⟨σ', hσ, hrun⟩ := (bind_eq_ok _ _ _).mp hrun
  obtain ⟨r, ha, hrun⟩ := (bind_eq_ok _ _ _).mp hrun
  cases hrun
  have h := tables_bounded ((Sys.ReachableBy.start hstart).next _ hfit hσ) (by rw [hmax]; decide)
  obtain ⟨hle, hent⟩ := h.2 _ _ _ ha
  rw [hmax] at hle
  exact ⟨σ, τ, hstart.reachable.next _ hσ, hlen, ha, hle.mpr fun _ => hroom,
    hent.mp rfl⟩

/-- A cache with one place: `/a` comes in and is made static, and then `/b` comes in as well. -/
theorem tables_outgrow :
    ∃ σ, (tables .still).Reachable σ ∧ 0 < σ.maxCacheEntries ∧
      ¬ (σ.contents.length : Int) ≤ σ.maxCacheEntries := by
  obtain ⟨σ, hσ, hp⟩ := exists_ok
    (x := [.add2cache (contentFor [[97]]), .static 0 true, .add2cache (contentFor [[98]])].foldlM
      (fun σ e => (tables .still).step e σ) { Relay.plain with maxCacheEntries := 1 })
    (p := fun σ => 0 < σ.maxCacheEntries ∧ ¬ (σ.contents.length : Int) ≤ σ.maxCacheEntries)
    (by decide +kernel)
  exact ⟨σ, (Relay.Empty.reachable ⟨rfl, rfl, rfl, rfl, by decide⟩).run hσ, hp⟩

end Ccnl
