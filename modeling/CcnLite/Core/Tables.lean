import CcnLite.Core.Invariant
import CcnLite.Lib.Thin
import Mathlib.Logic.Relation

/-!
# What can happen to the tables

`add2cache`, `csAdd` and `csRemove` are the functions of the content store that a program calls
outside of forwarding. Whatever the core does, it changes the PIT, the content store and their
counts by `Edit`s only:

* `Shrinks`: entries are removed, by serving, ageing, eviction or with a face; what stays keeps its
  packet.
* A new PIT entry, a face appended to an entry, a new content.

One lemma for each function says so (`faceRemove_shrinks`, `servePending_shrinks`,
`contentAdd2cache_edits`, `doAgeing_shrinks`), and an invariant of the tables is a fact about an
`Edit`.
-/

namespace Ccnl

open CRun List Relation

/-! ## The content store (`ccnl_cs_add`, `ccnl_cs_remove`) -/

/-- The test of `ccnl_content_add2cache` before it puts a content into the list. -/
def Relay.Takes (σ : Relay) : Prop := σ.maxCacheEntries ≤ 0 ∨ σ.contentcnt ≤ σ.maxCacheEntries

instance (σ : Relay) : Decidable σ.Takes := inferInstanceAs (Decidable (_ ∨ _))

/-- `ccnl_content_add2cache`, and whether it returns the content: otherwise it returns NULL. -/
def add2cache (σ : Relay) (c : Content) : Run (Relay × Bool) := do
  let known ← isCached c.pkt.pfx σ.contents
  return (← contentAdd2cache σ c, !known)

/-- `ccnl_cs_add`, and whether it returns 0. The walk over the PIT sets the flags of the content,
which is at the head of the list if it has been put there. -/
def csAdd (digest : List UInt8 → Digest) (σ : Relay) (c : Content) : Run (Relay × Bool) := do
  match ← add2cache σ c with
  | (σ', false) => return (σ', false)
  | (σ', true) =>
    let s ← servePending digest σ' c
    if (evict σ).Takes then
      return ({ s.relay with contents := s.relay.contents.modify 0 fun _ => s.c }, true)
    else return (s.relay, true)

/-- The search of `ccnl_cs_remove`: the index of the content, or the value to return. `path` is
`ccnl_prefix_to_path`, which returns NULL for a NULL argument or without memory. -/
def csRemoveFind (path : Option Prefix → Option (List UInt8)) (pfx : List UInt8) :
    List Content → Except Int Nat
  | [] => .error (-3)
  | c :: cs =>
    match path c.pkt.pfx with
    | none => .error (-2)
    | some spref => if spref <+: pfx then .ok 0 else (csRemoveFind path pfx cs).map (· + 1)

/-- `ccnl_cs_remove`. -/
def csRemove (path : Option Prefix → Option (List UInt8)) (σ : Relay) (pfx : List UInt8) :
    Relay × Int :=
  match csRemoveFind path pfx σ.contents with
  | .ok k => (contentRemove σ k, 0)
  | .error e => (σ, e)

/-! ## Edits -/

/-- The PIT, the content store, their counts and limits. -/
structure Tables where
  pit : List Interest
  pitcnt : Int
  contents : List Content
  contentcnt : Int
  maxPitEntries : Int
  maxCacheEntries : Int

def Relay.tables (σ : Relay) : Tables where
  pit := σ.pit
  pitcnt := σ.pitcnt
  contents := σ.contents
  contentcnt := σ.contentcnt
  maxPitEntries := σ.maxPitEntries
  maxCacheEntries := σ.maxCacheEntries

/-- The entry `j` is the entry `i` with some of its pending faces. -/
structure Interest.Le (j i : Interest) : Prop where
  pkt : j.pkt = i.pkt
  pending : j.pending.map (·.face) <+ i.pending.map (·.face)

theorem Interest.Le.refl (i : Interest) : i.Le i := ⟨rfl, .refl _⟩

theorem Interest.Le.trans {i j k : Interest} (h : i.Le j) (h' : j.Le k) : i.Le k :=
  ⟨h.pkt.trans h'.pkt, h.pending.trans h'.pending⟩

/-- The content `d` is the content `c`, its flags apart. -/
structure Content.Le (d c : Content) : Prop where
  pkt : d.pkt = c.pkt

theorem Content.Le.refl (c : Content) : c.Le c := ⟨rfl⟩

theorem Content.Le.trans {c d e : Content} (h : c.Le d) (h' : d.Le e) : c.Le e :=
  ⟨h.pkt.trans h'.pkt⟩

/-- Entries are removed and counted. -/
structure Shrinks (σ τ : Relay) : Prop where
  pit : SublistForall₂ Interest.Le τ.pit σ.pit
  pitcnt : τ.pitcnt - τ.pit.length = σ.pitcnt - σ.pit.length
  contents : SublistForall₂ Content.Le τ.contents σ.contents
  contentcnt : τ.contentcnt - τ.contents.length = σ.contentcnt - σ.contents.length
  maxPitEntries : τ.maxPitEntries = σ.maxPitEntries
  maxCacheEntries : τ.maxCacheEntries = σ.maxCacheEntries

/-- There is room for a content: the cache is not full, or it has something to evict. -/
def Room (σ : Relay) : Prop :=
  (σ.contents.length : Int) < σ.maxCacheEntries ∨ ∃ c ∈ σ.contents, c.static = false

instance (σ : Relay) : Decidable (Room σ) :=
  inferInstanceAs (Decidable (_ ∨ ∃ c ∈ σ.contents, c.static = false))

/-- A packet with a name, of the suite of the name. -/
def Pkt.Formed (pkt : Pkt) : Prop := ∃ p, pkt.pfx = some p ∧ p.suite = pkt.suite

/-- No PIT entry is for the same Interest. -/
def Fresh (σ : Relay) (pkt : Pkt) : Prop := ∀ j ∈ σ.pit, interestIsSame j pkt = .ok false

/-- One change of the tables. `F` stands for: a new PIT entry is well formed, and the PIT has been
searched for it; `G` for: there is room for a new content. -/
inductive Edit (F G : Prop) (σ : Relay) : Relay → Prop
  | shrink {τ : Relay} (h : Shrinks σ τ) : Edit F G σ τ
  | interest {i : Interest} (hfull : σ.maxPitEntries = -1 ∨ σ.pitcnt < σ.maxPitEntries)
    (hpend : (i.pending.map (·.face)).Nodup) (hnew : F → i.pkt.Formed ∧ Fresh σ i.pkt) :
    Edit F G σ { σ with pit := i :: σ.pit, pitcnt := σ.pitcnt + 1 }
  | pending (now k : Nat) (f : FaceId) :
    Edit F G σ { σ with pit := σ.pit.modify k (interestAppendPending now · f) }
  | content {c : Content} (hnew : isCached c.pkt.pfx σ.contents = .ok false) (hroom : G → Room σ)
    (htakes : (evict σ).Takes) :
    Edit F G σ { evict σ with
      contents := c :: (evict σ).contents, contentcnt := (evict σ).contentcnt + 1 }

/-- Some changes of the tables. -/
abbrev Edits (F G : Prop) : Relay → Relay → Prop := ReflTransGen (Edit F G)

section Shrinks

variable {σ τ υ : Relay}

theorem Shrinks.of_tables (h : τ.tables = σ.tables) : Shrinks σ τ := by
  simp only [Relay.tables, Tables.mk.injEq] at h
  obtain ⟨h₁, h₂, h₃, h₄, h₅, h₆⟩ := h
  exact ⟨h₁ ▸ thin_refl Interest.Le.refl _, by rw [h₁, h₂], h₃ ▸ thin_refl Content.Le.refl _,
    by rw [h₃, h₄], h₅, h₆⟩

theorem Shrinks.refl (σ : Relay) : Shrinks σ σ := .of_tables rfl

theorem Shrinks.trans (h : Shrinks σ τ) (h' : Shrinks τ υ) : Shrinks σ υ where
  pit := thin_trans (R := Interest.Le) (fun _ _ _ => Interest.Le.trans) h'.pit h.pit
  pitcnt := h'.pitcnt.trans h.pitcnt
  contents := thin_trans (R := Content.Le) (fun _ _ _ => Content.Le.trans) h'.contents h.contents
  contentcnt := h'.contentcnt.trans h.contentcnt
  maxPitEntries := h'.maxPitEntries.trans h.maxPitEntries
  maxCacheEntries := h'.maxCacheEntries.trans h.maxCacheEntries

theorem Shrinks.edits {F G : Prop} (h : Shrinks σ τ) : Edits F G σ τ := .single (.shrink h)

end Shrinks

/-! ## What each function does -/

section Ops

variable {σ τ : Relay}

theorem appendPending_pkt (now : Nat) (i : Interest) (f : FaceId) :
    (interestAppendPending now i f).pkt = i.pkt := by
  unfold interestAppendPending
  split <;> rfl

theorem faceClean_le {f : FaceId} {i j : Interest} (h : faceClean f i = some j) : j.Le i := by
  unfold faceClean at h
  simp only [Option.ite_none_left_eq_some, Option.some.injEq] at h
  obtain ⟨-, rfl⟩ := h
  exact ⟨rfl, filter_sublist.map _⟩

theorem faceRemove_shrinks (σ : Relay) (f : FaceId) : Shrinks σ (faceRemove σ f) where
  pit := thin_filterMap (fun _ _ => faceClean_le) _
  pitcnt := by
    have := length_filterMap_le (faceClean f) σ.pit
    simp only [faceRemove]
    omega
  contents := thin_refl Content.Le.refl _
  contentcnt := rfl
  maxPitEntries := rfl
  maxCacheEntries := rfl

theorem getFaceOrCreate_tables {now : Nat} {ifndx : Int} {sa : Option SockAddr} :
    (getFaceOrCreate now σ ifndx sa).1.tables = σ.tables := by
  rcases getFaceOrCreate_relay now σ ifndx sa with heq | ⟨f, heq⟩ | ⟨j, -, heq⟩ <;> rw [heq] <;> rfl

theorem faceEnqueue_tables {dst : FaceId} {buf : List UInt8} (h : faceEnqueue σ dst buf = .ok τ) :
    τ.tables = σ.tables := by
  rw [faceEnqueue_eq h]
  rfl

theorem deliver_eq {x : Face} {pkt : Pkt} (h : deliver σ x pkt = .ok τ) :
    ∃ o, τ = { σ with out := σ.out ++ o } := by
  unfold deliver at h
  split at h
  · exact ⟨_, faceEnqueue_eq h⟩
  · cases h
    exact ⟨[], by simp⟩

theorem deliver_tables {x : Face} {pkt : Pkt} (h : deliver σ x pkt = .ok τ) :
    τ.tables = σ.tables := by
  obtain ⟨o, rfl⟩ := deliver_eq h
  rfl

theorem interestPropagate_tables {i : Interest} (h : interestPropagate σ i = .ok τ) :
    τ.tables = σ.tables := by
  obtain ⟨o, rfl⟩ := interestPropagate_out h
  rfl

theorem nonceIsDup_eq {pkt : Pkt} (h : nonceIsDup σ pkt = some τ) :
    ∃ ns, τ = { σ with nonces := ns } := by
  unfold nonceIsDup at h
  split at h
  · cases h
    exact ⟨σ.nonces, rfl⟩
  · obtain ⟨ns, -, rfl⟩ := Option.map_eq_some_iff.mp h
    exact ⟨ns, rfl⟩

theorem nonceIsDup_tables {pkt : Pkt} (h : nonceIsDup σ pkt = some τ) : τ.tables = σ.tables := by
  obtain ⟨ns, rfl⟩ := nonceIsDup_eq h
  rfl

theorem fibAddEntry_tables (p : Prefix) (f : FaceId) : (fibAddEntry σ p f).tables = σ.tables := by
  unfold fibAddEntry
  split <;> rfl

theorem fibRemEntry_tables (p : Option Prefix) (f : Option FaceId) :
    (fibRemEntry σ p f).tables = σ.tables := by
  unfold fibRemEntry
  split <;> rfl

/-! ### Serving -/

theorem serveFace_tables {s s' : Serving} {f : FaceId} (h : serveFace s f = .ok s') :
    s'.relay.tables = s.relay.tables ∧ s'.c.pkt = s.c.pkt := by
  obtain ⟨x, -, h⟩ := (bind_eq_ok _ _ _).mp h
  split at h
  · cases h
    exact ⟨rfl, rfl⟩
  · obtain ⟨σ', hd, h⟩ := (bind_eq_ok _ _ _).mp h
    cases h
    exact ⟨(deliver_tables hd).trans rfl, rfl⟩

theorem serveEntry_tables {s s' : Serving} {i : Interest} (h : serveEntry s i = .ok s') :
    s'.relay.tables = s.relay.tables ∧ s'.c.pkt = s.c.pkt := by
  refine serveEntry_inv (I := fun t : Serving =>
    t.relay.tables = s.relay.tables ∧ t.c.pkt = s.c.pkt) ?_ ?_ ⟨rfl, rfl⟩ h
  · intro s₁ f s₂ h₁ h₂
    obtain ⟨ht, hc⟩ := serveFace_tables h₂
    exact ⟨ht.trans h₁.1, hc.trans h₁.2⟩
  · intro s₁ c n h₁ hc
    exact ⟨h₁.1, hc.trans h₁.2⟩

/-- The walk keeps some of the entries, as they are, and counts the others. -/
theorem serveFrom_tables {digest : List UInt8 → Digest} {pit kept : List Interest}
    {s s' : Serving} (h : serveFrom digest pit s = .ok (kept, s')) :
    kept <+ pit ∧
      s'.relay.tables = { s.relay.tables with
        pitcnt := s.relay.pitcnt - (pit.length - kept.length) } ∧
      s'.c.pkt = s.c.pkt := by
  induction pit generalizing s kept with
  | nil =>
    cases h
    exact ⟨.slnil, by simp [Relay.tables], rfl⟩
  | cons i pit ih =>
    rw [serveFrom] at h
    split at h
    · cases h
    obtain ⟨b, -, h⟩ := (bind_eq_ok _ _ _).mp h
    split at h
    · obtain ⟨s₁, h₁, h⟩ := (bind_eq_ok _ _ _).mp h
      obtain ⟨ht₁, hc₁⟩ := serveEntry_tables h₁
      obtain ⟨hsub, ht, hc⟩ := ih h
      refine ⟨hsub.cons i, ?_, hc.trans hc₁⟩
      rw [ht]
      simp only [Relay.tables, Tables.mk.injEq, length_cons] at ht₁ ⊢
      obtain ⟨h₁, h₂, h₃, h₄, h₅, h₆⟩ := ht₁
      refine ⟨h₁, ?_, h₃, h₄, h₅, h₆⟩
      omega
    · obtain ⟨⟨rest, s₁⟩, h₁, h⟩ := (bind_eq_ok _ _ _).mp h
      cases h
      obtain ⟨hsub, ht, hc⟩ := ih h₁
      refine ⟨hsub.cons_cons i, ?_, hc⟩
      rw [ht]
      simp only [length_cons, Tables.mk.injEq, true_and, and_true]
      omega

/-- Serving a content: PIT entries are removed, and the content store stays. -/
theorem servePending_shrinks {digest : List UInt8 → Digest} {c : Content} {s : Serving}
    (h : servePending digest σ c = .ok s) :
    Shrinks σ s.relay ∧ s.relay.contents = σ.contents ∧ s.c.pkt = c.pkt := by
  obtain ⟨⟨kept, s₁⟩, h₁, h⟩ := (bind_eq_ok _ _ _).mp h
  cases h
  obtain ⟨hsub, ht, hc⟩ := serveFrom_tables h₁
  simp only [Relay.tables, Tables.mk.injEq] at ht
  obtain ⟨-, hpitcnt, hcontents, hcnt, hmaxp, hmaxc⟩ := ht
  refine ⟨⟨sublistForall₂_iff.mpr ⟨kept, forall₂_same.mpr fun i _ => .refl i, hsub⟩, ?_,
    hcontents ▸ thin_refl Content.Le.refl _, ?_, hmaxp, hmaxc⟩, hcontents, hc⟩
  · simp only [hpitcnt]
    omega
  · rw [hcontents, hcnt]

/-! ### The content store -/

/-- The scan finds one of the contents that it goes through. -/
theorem oldestFrom_lt {cs : List Content} {k age j : Nat} {oldest : Option Nat}
    (h : oldestFrom cs k age oldest = some j) : oldest = some j ∨ (k ≤ j ∧ j < k + cs.length) := by
  induction cs generalizing k age oldest with
  | nil => exact .inl h
  | cons c cs ih =>
    rw [oldestFrom] at h
    split at h
    · rcases ih h with h | h
      · cases h
        exact .inr ⟨Nat.le_refl _, by simp⟩
      · exact .inr ⟨by omega, by simp only [length_cons]; omega⟩
    · rcases ih h with h | h
      · exact .inl h
      · exact .inr ⟨by omega, by simp only [length_cons]; omega⟩

/-- It finds one when there is one that is not static. -/
theorem oldestFrom_isSome {cs : List Content} {k age : Nat} {oldest : Option Nat}
    (hage : age ≠ 0 → oldest ≠ none)
    (h : oldest ≠ none ∨ ∃ c ∈ cs, c.static = false) : oldestFrom cs k age oldest ≠ none := by
  induction cs generalizing k age oldest with
  | nil => simpa [oldestFrom] using h
  | cons c cs ih =>
    rw [oldestFrom]
    split
    · exact ih (by simp) (.inl (by simp))
    · rename_i hc
      refine ih hage ?_
      rcases h with h | ⟨d, hd, hs⟩
      · exact .inl h
      · rcases mem_cons.mp hd with rfl | hd
        · simp only [hs, Bool.false_eq_true, not_false_eq_true, true_and, not_or] at hc
          exact .inl (hage hc.1)
        · exact .inr ⟨d, hd, hs⟩

theorem contentRemove_shrinks {k : Nat} (h : k < σ.contents.length) :
    Shrinks σ (contentRemove σ k) where
  pit := thin_refl Interest.Le.refl _
  pitcnt := rfl
  contents := thin_eraseIdx Content.Le.refl _ k
  contentcnt := by
    simp only [contentRemove, length_eraseIdx_of_lt h]
    omega
  maxPitEntries := rfl
  maxCacheEntries := rfl

theorem evict_shrinks (σ : Relay) : Shrinks σ (evict σ) := by
  unfold evict
  split
  · split
    · rename_i k hk
      refine contentRemove_shrinks ?_
      rcases oldestFrom_lt hk with h | h
      · cases h
      · omega
    · exact .refl σ
  · exact .refl σ

/-- `ccnl_content_add2cache`, when the run knows that there is room for a content with a new
name. -/
theorem contentAdd2cache_edits {F G : Prop} {c : Content}
    (hroom : G → isCached c.pkt.pfx σ.contents = .ok false → Room σ)
    (h : contentAdd2cache σ c = .ok τ) : Edits F G σ τ := by
  obtain ⟨known, hk, h⟩ := (bind_eq_ok _ _ _).mp h
  split at h
  · cases h
    exact .refl
  rename_i hnew
  obtain rfl : known = false := by simpa using hnew
  simp only at h
  split at h
  · rename_i ht
    cases h
    exact .single (.content hk (fun hG => hroom hG hk) ht)
  · cases h
    exact (evict_shrinks σ).edits

/-- A change of the flags of a content. -/
theorem modify_shrinks (k : Nat) (g : Content → Content) (hg : ∀ d, (g d).pkt = d.pkt) :
    Shrinks σ { σ with contents := σ.contents.modify k g } where
  pit := thin_refl Interest.Le.refl _
  pitcnt := rfl
  contents := thin_modify Content.Le.refl (fun d => ⟨hg d⟩) _ k
  contentcnt := by simp
  maxPitEntries := rfl
  maxCacheEntries := rfl

theorem csRemove_shrinks {path : Option Prefix → Option (List UInt8)} {pfx : List UInt8} :
    Shrinks σ (csRemove path σ pfx).1 := by
  have hlt : ∀ cs k, csRemoveFind path pfx cs = .ok k → k < cs.length := by
    intro cs
    induction cs with
    | nil => simp [csRemoveFind]
    | cons c cs ih =>
      intro k hk
      rw [csRemoveFind] at hk
      split at hk
      · cases hk
      split at hk
      · cases hk
        simp
      · cases hn : csRemoveFind path pfx cs with
        | error e => simp [hn, Except.map] at hk
        | ok n =>
          obtain rfl : n + 1 = k := by simpa [hn, Except.map] using hk
          exact Nat.succ_lt_succ (ih n hn)
  unfold csRemove
  split
  · rename_i k hk
    exact contentRemove_shrinks (hlt _ _ hk)
  · exact .refl σ

/-! ### Ageing -/

/-- The pass of the timer over the PIT keeps some of the entries and counts the others. -/
theorem agePit_tables {t : Nat} {pit kept : List Interest} (h : agePit t pit σ = .ok (kept, τ)) :
    SublistForall₂ Interest.Le kept pit ∧
      τ.tables = { σ.tables with pitcnt := σ.pitcnt - (pit.length - kept.length) } := by
  induction pit generalizing σ kept with
  | nil =>
    cases h
    exact ⟨.nil, by simp [Relay.tables]⟩
  | cons i pit ih =>
    rw [agePit] at h
    split at h
    · obtain ⟨hthin, ht⟩ := ih h
      refine ⟨.cons_right hthin, ht.trans ?_⟩
      simp only [Relay.tables, length_cons, Tables.mk.injEq, true_and, and_true]
      omega
    · obtain ⟨σ₁, h₁, h⟩ := (bind_eq_ok _ _ _).mp h
      obtain ⟨⟨rest, σ₂⟩, h₂, h⟩ := (bind_eq_ok _ _ _).mp h
      cases h
      obtain ⟨hthin, ht⟩ := ih h₂
      have hσ₁ := interestPropagate_tables h₁
      refine ⟨.cons ⟨rfl, .refl _⟩ hthin, ht.trans ?_⟩
      simp only [Relay.tables, length_cons, Tables.mk.injEq] at hσ₁ ⊢
      obtain ⟨e₁, e₂, e₃, e₄, e₅, e₆⟩ := hσ₁
      refine ⟨e₁, ?_, e₃, e₄, e₅, e₆⟩
      omega

theorem ageContents_shrinks (t : Nat) (σ : Relay) :
    Shrinks σ { σ with
      contents := σ.contents.filterMap (ageContent t)
      contentcnt := σ.contentcnt -
        (σ.contents.length - (σ.contents.filterMap (ageContent t)).length : Nat) } where
  pit := thin_refl Interest.Le.refl _
  pitcnt := rfl
  contents := thin_filterMap (fun _ _ h => ⟨ageContent_pkt h⟩) _
  contentcnt := by
    have := length_filterMap_le (ageContent t) σ.contents
    simp only
    omega
  maxPitEntries := rfl
  maxCacheEntries := rfl

/-- The timer removes entries. -/
theorem doAgeing_shrinks {now : Nat} (h : doAgeing now σ = .ok τ) : Shrinks σ τ := by
  obtain ⟨⟨pit, σ₂⟩, h₂, h⟩ := (bind_eq_ok _ _ _).mp h
  cases h
  obtain ⟨hthin, ht⟩ := agePit_tables h₂
  have hpit : Shrinks σ { σ₂ with pit := pit } := by
    refine (ageContents_shrinks (u32 now) σ).trans ?_
    simp only [Relay.tables, Tables.mk.injEq] at ht
    obtain ⟨-, hpitcnt, hcontents, hcnt, hmaxp, hmaxc⟩ := ht
    refine ⟨hthin, ?_, hcontents ▸ thin_refl Content.Le.refl _, by rw [hcontents, hcnt], hmaxp,
      hmaxc⟩
    simp only [hpitcnt]
    omega
  generalize σ₂.faces.filter (·.expired (u32 now)) = l
  generalize ({ σ₂ with pit := pit } : Relay) = σ₃ at hpit
  induction l generalizing σ₃ with
  | nil => exact hpit
  | cons x l ih => exact ih _ (hpit.trans (faceRemove_shrinks σ₃ _))

end Ops

end Ccnl
