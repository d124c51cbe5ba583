import CcnLite.Core.Tables

/-!
# Which content goes (`ccnl_content_add2cache`)

When the cache is full, `ccnl_content_add2cache` looks for the content that was used longest ago. The
scan keeps the time of the oldest content so far, and takes the time 0 for "none seen". A content that
was last used at 0 is therefore given up for the next one that may go, whatever its time is.

`Scan` says what the scan has found in the contents that it went through (`oldestFrom_scan`): the
oldest one behind the last content with the time 0. It is the oldest of all exactly when no content
has the time 0 or nothing comes behind the last such content (`evicts_oldest_iff`).
-/

namespace Ccnl

open CRun List

/-- The contents that may go. -/
def evictable (cs : List Content) : List Content := cs.filter fun c => !c.static

/-- From `cs` to `left` one content is gone that may go and is as old as all of these, if there is
one. -/
inductive OldestGone : List Content → List Content → Prop
  | kept {cs : List Content} (h : evictable cs = []) : OldestGone cs cs
  | gone {c : Content} {before after : List Content} (hc : c.static = false)
      (h : ∀ d ∈ evictable (before ++ c :: after), c.lastUsed ≤ d.lastUsed) :
      OldestGone (before ++ c :: after) (before ++ after)

/-- `ccnl_content_add2cache` takes an oldest content out of the list, and otherwise leaves it as it
is before the new content comes in. -/
def EvictsOldest (σ : Relay) (c : Content) : Prop :=
  ∃ τ left, contentAdd2cache σ c = .ok τ ∧ OldestGone σ.contents left ∧
    τ.contents = if (evict σ).Takes then c :: left else left

/-- If a content that may go was last used at 0, the last one that may go was. -/
def ZeroLast (cs : List Content) : Prop :=
  (∃ c ∈ evictable cs, c.lastUsed = 0) → ∃ c ∈ (evictable cs).getLast?, c.lastUsed = 0

instance (cs : List Content) : Decidable (ZeroLast cs) :=
  inferInstanceAs (Decidable ((∃ c ∈ evictable cs, c.lastUsed = 0) → _))

section Scan

variable {cs seen before after : List Content} {c d : Content} {k age : Nat}
  {oldest : Option Nat}

theorem evictable_append : evictable (before ++ after) = evictable before ++ evictable after :=
  filter_append _ _

theorem evictable_cons (hc : c.static = false) : evictable (c :: after) = c :: evictable after := by
  simp [evictable, hc]

theorem evictable_snoc (hc : c.static = true) : evictable (before ++ [c]) = evictable before := by
  simp [evictable, hc]

/-- What the scan has after the contents `seen`. -/
inductive Scan : List Content → Nat → Option Nat → Prop
  | fresh {seen : List Content} (h : evictable seen = []) : Scan seen 0 none
  | found {c : Content} {before after : List Content} (hc : c.static = false)
      -- Behind `c` nothing is older, and nothing may go at all if `c` was last used at 0.
      (hafter : ∀ d ∈ evictable after, c.lastUsed ≤ d.lastUsed ∧ c.lastUsed ≠ 0)
      -- An older content in front of `c` was given up because of one that was last used at 0.
      (hbefore : (∀ d ∈ evictable before, c.lastUsed ≤ d.lastUsed) ∨
        ∃ d ∈ evictable before, d.lastUsed = 0) :
      Scan (before ++ c :: after) c.lastUsed (some before.length)

/-- The scan takes the next content. -/
theorem Scan.take (h : Scan seen age oldest) (hc : c.static = false)
    (hage : age = 0 ∨ c.lastUsed < age) : Scan (seen ++ [c]) c.lastUsed (some seen.length) := by
  refine .found hc (fun d hd => by simp [evictable] at hd) ?_
  cases h with
  | fresh h => exact .inl fun d hd => by simp [h] at hd
  | @found b before after hb hafter hbefore =>
    rw [evictable_append, evictable_cons hb]
    rcases hage with hzero | hlt
    · exact .inr ⟨b, by simp, hzero⟩
    · rcases hbefore with hle | ⟨d, hd, hzero⟩
      · refine .inl fun d hd => ?_
        rcases mem_append.mp hd with hd | hd
        · exact Nat.le_trans (Nat.le_of_lt hlt) (hle d hd)
        · rcases mem_cons.mp hd with rfl | hd
          · exact Nat.le_of_lt hlt
          · exact Nat.le_trans (Nat.le_of_lt hlt) (hafter d hd).1
      · exact .inr ⟨d, mem_append_left _ hd, hzero⟩

/-- The scan goes past the next content. -/
theorem Scan.leave (h : Scan seen age oldest)
    (hc : ¬ (¬ c.static ∧ (age = 0 ∨ c.lastUsed < age))) : Scan (seen ++ [c]) age oldest := by
  cases hs : c.static with
  | true =>
    cases h with
    | fresh h => exact .fresh ((evictable_snoc hs).trans h)
    | found hb hafter hbefore =>
      rw [append_assoc, cons_append]
      exact .found hb (by rwa [evictable_snoc hs]) hbefore
  | false =>
    obtain ⟨hage, hle⟩ : age ≠ 0 ∧ age ≤ c.lastUsed := by simpa [hs] using hc
    cases h with
    | fresh h => exact absurd rfl hage
    | found hb hafter hbefore =>
      rw [append_assoc, cons_append]
      refine .found hb (fun d hd => ?_) hbefore
      rw [evictable_append] at hd
      rcases mem_append.mp hd with hd | hd
      · exact hafter d hd
      · obtain rfl := mem_singleton.mp (mem_of_mem_filter hd)
        exact ⟨hle, hage⟩

theorem oldestFrom_scan (h : Scan seen age oldest) :
    ∃ age', Scan (seen ++ cs) age' (oldestFrom cs seen.length age oldest) := by
  induction cs generalizing seen age oldest with
  | nil => exact ⟨age, by rwa [append_nil]⟩
  | cons c cs ih =>
    have hlen : seen.length + 1 = (seen ++ [c]).length := by simp
    rw [oldestFrom, append_cons, hlen]
    split
    · rename_i hc
      exact ih (h.take (by simpa using hc.1) hc.2)
    · rename_i hc
      exact ih (h.leave hc)

theorem getLast?_evictable (hc : c.static = false) :
    (evictable (before ++ c :: after)).getLast? = (c :: evictable after).getLast? := by
  rw [evictable_append, evictable_cons hc, getLast?_append_cons]

/-- The content that the scan has found is the oldest one exactly when nothing that may go is behind
a content that was last used at 0. -/
theorem scan_oldest_iff (hc : c.static = false)
    (hafter : ∀ d ∈ evictable after, c.lastUsed ≤ d.lastUsed ∧ c.lastUsed ≠ 0)
    (hbefore : (∀ d ∈ evictable before, c.lastUsed ≤ d.lastUsed) ∨
      ∃ d ∈ evictable before, d.lastUsed = 0) :
    (∀ d ∈ evictable (before ++ c :: after), c.lastUsed ≤ d.lastUsed) ↔
      ZeroLast (before ++ c :: after) := by
  unfold ZeroLast
  rw [getLast?_evictable hc, evictable_append, evictable_cons hc]
  constructor
  · rintro hall ⟨d, hd, hzero⟩
    have hc0 : c.lastUsed = 0 := Nat.le_zero.mp (hzero ▸ hall d hd)
    have hnil : evictable after = [] := eq_nil_iff_forall_not_mem.mpr fun e he => (hafter e he).2 hc0
    exact ⟨c, by simp [hnil], hc0⟩
  · intro hlast d hd
    rcases mem_append.mp hd with hd | hd
    · rcases hbefore with hle | ⟨e, he, hzero⟩
      · exact hle d hd
      · obtain ⟨l, hl, hl0⟩ := hlast ⟨e, mem_append_left _ he, hzero⟩
        rcases mem_cons.mp (mem_of_getLast? hl) with rfl | hl
        · exact hl0 ▸ Nat.zero_le _
        · exact Nat.le_trans (hl0 ▸ (hafter l hl).1) (Nat.zero_le _)
    · rcases mem_cons.mp hd with rfl | hd
      · exact Nat.le_refl _
      · exact (hafter d hd).1

/-- What is gone can be read off what is left. -/
theorem oldestGone_iff (hc : c.static = false) :
    OldestGone (before ++ c :: after) (before ++ after) ↔
      ∀ d ∈ evictable (before ++ c :: after), c.lastUsed ≤ d.lastUsed := by
  refine ⟨fun h => ?_, .gone hc⟩
  generalize hcs : before ++ c :: after = cs, hleft : before ++ after = left at h
  have hperm : cs ~ c :: left := hcs ▸ hleft ▸ perm_middle
  cases h with
  | kept h => exact absurd hperm.length_eq (by simp)
  | @gone d before' after' hd h =>
    have hsame : [d] ++ (before' ++ after') ~ [c] ++ (before' ++ after') :=
      (@perm_middle _ d before' after').symm.trans hperm
    obtain rfl : d = c := by simpa using (perm_append_right_iff _).mp hsame
    exact h

/-- The contents that are left when the scan has gone through all of them. -/
theorem oldestGone_scan (h : Scan cs age oldest) :
    OldestGone cs (oldest.elim cs cs.eraseIdx) ↔ ZeroLast cs := by
  cases h with
  | fresh h => exact iff_of_true (.kept h) fun ⟨c, hc, _⟩ => by simp [h] at hc
  | @found c before after hc hafter hbefore =>
    have herase : (before ++ c :: after).eraseIdx before.length = before ++ after := by
      rw [eraseIdx_append_of_length_le (Nat.le_refl _), Nat.sub_self, eraseIdx_cons_zero]
    rw [Option.elim_some, herase, oldestGone_iff hc]
    exact scan_oldest_iff hc hafter hbefore

end Scan

section Evicts

variable {σ : Relay} {c : Content}

theorem evict_contents (hmax : 0 < σ.maxCacheEntries) (hfull : σ.maxCacheEntries ≤ σ.contentcnt) :
    (evict σ).contents =
      (oldestFrom σ.contents 0 0 none).elim σ.contents σ.contents.eraseIdx := by
  unfold evict
  rw [if_pos ⟨hmax, hfull⟩]
  cases oldestFrom σ.contents 0 0 none <;> rfl

theorem contentAdd2cache_contents (hnew : isCached c.pkt.pfx σ.contents = .ok false) :
    ∃ τ, contentAdd2cache σ c = .ok τ ∧
      τ.contents = if (evict σ).Takes then c :: (evict σ).contents else (evict σ).contents := by
  have hrun : contentAdd2cache σ c = if (evict σ).Takes
      then .ok { evict σ with contents := c :: (evict σ).contents
                              contentcnt := (evict σ).contentcnt + 1 }
      else .ok (evict σ) := by
    simp only [contentAdd2cache, hnew, ok_bind, Bool.false_eq_true, ↓reduceIte, Relay.Takes]
    rfl
  rw [hrun]
  split
  · exact ⟨_, rfl, rfl⟩
  · exact ⟨_, rfl, rfl⟩

/-- What `EvictsOldest` says is about the contents that `evict` leaves. -/
theorem evictsOldest_iff_gone (hnew : isCached c.pkt.pfx σ.contents = .ok false) :
    EvictsOldest σ c ↔ OldestGone σ.contents (evict σ).contents := by
  obtain ⟨τ, hτ, hcontents⟩ := contentAdd2cache_contents hnew
  refine ⟨?_, fun h => ⟨τ, _, hτ, h, hcontents⟩⟩
  rintro ⟨τ', left, hτ', hleft, hcontents'⟩
  obtain rfl : τ = τ' := Except.ok.inj (hτ.symm.trans hτ')
  have hsame : left = (evict σ).contents := by
    rw [hcontents] at hcontents'
    split at hcontents'
    · exact (List.cons.inj hcontents').2.symm
    · exact hcontents'.symm
  exact hsame ▸ hleft

theorem oldestGone_evict (hmax : 0 < σ.maxCacheEntries)
    (hfull : σ.maxCacheEntries ≤ σ.contentcnt) :
    OldestGone σ.contents (evict σ).contents ↔ ZeroLast σ.contents := by
  obtain ⟨age, hscan⟩ := @oldestFrom_scan σ.contents [] 0 none (.fresh rfl)
  rw [evict_contents hmax hfull]
  exact oldestGone_scan hscan

/-- The cache is full, and a content with a new name comes: an oldest content is evicted exactly when
no content that may go was last used at 0, or the last one was. -/
theorem evicts_oldest_iff (hmax : 0 < σ.maxCacheEntries) (hfull : σ.maxCacheEntries ≤ σ.contentcnt)
    (hnew : isCached c.pkt.pfx σ.contents = .ok false) :
    EvictsOldest σ c ↔ ZeroLast σ.contents :=
  (evictsOldest_iff_gone hnew).trans (oldestGone_evict hmax hfull)

/-- A full cache with the contents `/0`, `/1` and so on, and the times of their last use. -/
def Relay.caching (times : List Nat) : Relay where
  contents := times.zipIdx.map fun t =>
    { pkt := { pfx := some (.ofComps .ccntlv [[.ofNat t.2]]), s := .ccntlv none, suite := .ccntlv }
      lastUsed := t.1 }
  contentcnt := times.length
  maxCacheEntries := times.length

/-- The content `/b`. -/
def contentB : Content where
  pkt := { pfx := some (.ofComps .ccntlv [[98]]), s := .ccntlv none, suite := .ccntlv }
  lastUsed := 6

/-- The oldest content is the last one. -/
theorem evicts_oldest_last : EvictsOldest (.caching [5, 3, 0]) contentB :=
  (evicts_oldest_iff (σ := .caching [5, 3, 0]) (by decide) (by decide) (by decide)).mpr
    (by decide)

/-- The clock has come round to 0, and the content of that time is in front of the one before. -/
theorem evicts_newest : ¬ ∀ (σ : Relay) (c : Content), 0 < σ.maxCacheEntries →
    σ.maxCacheEntries ≤ σ.contentcnt → isCached c.pkt.pfx σ.contents = .ok false →
    EvictsOldest σ c := by
  intro h
  have hgone := (evictsOldest_iff_gone (by decide)).mp
    (h (.caching [0, 4294967295]) contentB (by decide) (by decide) (by decide))
  exact absurd ((oldestGone_evict (by decide) (by decide)).mp hgone) (by decide)

end Evicts

end Ccnl
