import CcnLite.Core.Tables
import CcnLite.Fwd.Forward
import CcnLite.Lib.Sys

/-!
# The tables as a system

`tables E` is what a program can do to the tables of a relay, one call after another: hand in an
Interest or a Data, let the timer run, make or remove a face, and call the functions of the content
store. A management Interest does to them what `E` says.

`TableEvent.edits` says that each event makes `Edit`s. Which ones depends on two conditions in the
state where the event comes:

* `TableEvent.Scans`: an Interest is well formed, and a management command puts no entry into the
  PIT that is the same as one in there.
* `TableEvent.Fits`: there is room for a content with a new name.
-/

namespace Ccnl

open CRun List Relation

/-! ## The events -/

/-- A call. -/
inductive TableEvent where
  /-- `ccnl_fwd_handleInterest`. -/
  | interest (now : Nat) (cMatch : Pkt → Content → Run Bool) («from» : FaceId) (pkt : Pkt)
  /-- `ccnl_fwd_handleContent`. -/
  | content (now : Nat) (pkt : Pkt)
  /-- `ccnl_do_ageing`. -/
  | ageing (now : Nat)
  /-- `ccnl_get_face_or_create`. -/
  | face (now : Nat) (ifndx : Int) (sa : Option SockAddr)
  /-- `ccnl_face_remove`. -/
  | faceRemove (f : FaceId)
  /-- `ccnl_cs_add`. -/
  | csAdd (c : Content)
  /-- `ccnl_cs_remove`. -/
  | csRemove (path : Option Prefix → Option (List UInt8)) (pfx : List UInt8)
  /-- `ccnl_content_add2cache`. -/
  | add2cache (c : Content)
  /-- `ccnl_content_remove` of a content in the list. -/
  | contentRemove (k : Nat)
  /-- The static flag of a content in the list is set or cleared. -/
  | static (k : Nat) (b : Bool)

def TableEvent.run (E : Env) : TableEvent → Relay → Run Relay
  | interest now cMatch f pkt, σ => Prod.fst <$> handleInterest E now cMatch σ f pkt
  | content now pkt, σ => handleContent E now σ pkt
  | ageing now, σ => doAgeing now σ
  | face now ifndx sa, σ => return (getFaceOrCreate now σ ifndx sa).1
  | faceRemove f, σ => return Ccnl.faceRemove σ f
  | csAdd c, σ => Prod.fst <$> Ccnl.csAdd E.digest σ c
  | csRemove path pfx, σ => return (Ccnl.csRemove path σ pfx).1
  | add2cache c, σ => Prod.fst <$> Ccnl.add2cache σ c
  | contentRemove k, σ => return if k < σ.contents.length then Ccnl.contentRemove σ k else σ
  | static k b, σ =>
    return { σ with contents := σ.contents.modify k fun c => { c with static := b } }

/-- The PIT and the content store are empty. -/
structure Relay.Empty (σ : Relay) : Prop where
  pit : σ.pit = []
  pitcnt : σ.pitcnt = 0
  contents : σ.contents = []
  contentcnt : σ.contentcnt = 0
  /-- The limit is -1 or not negative. -/
  maxPitEntries : -1 ≤ σ.maxPitEntries

/-- The tables as a system. -/
def tables (E : Env) : Sys Relay TableEvent where
  Start := Relay.Empty
  step := TableEvent.run E

theorem Relay.Empty.reachable {E : Env} {σ : Relay} (h : σ.Empty) : (Ccnl.tables E).Reachable σ :=
  .start h

/-! ## Conditions -/

/-- A content with the name `pfx` fits in: it is in the cache already, or there is room. -/
def Relay.Fits (σ : Relay) (pfx : Option Prefix) : Prop :=
  isCached pfx σ.contents = .ok false → Room σ

/-- The management operation puts no Interest into the PIT that is there already. -/
def MgmtOp.Scans (σ : Relay) : MgmtOp → Prop
  | interestNew p pkt => Pkt.Formed { pkt with pfx := some p } ∧ Fresh σ { pkt with pfx := some p }
  | _ => True

/-- The management operation puts no content into a cache without room. -/
def MgmtOp.Fits (σ : Relay) : MgmtOp → Prop
  | contentAdd p _ => σ.Fits (some p)
  | _ => True

/-- A condition on the operations that the Interest leads to if it is a management Interest. -/
def MgmtAlong (E : Env) (now : Nat) (f : FaceId) (pkt : Pkt) (P : Relay → MgmtOp → Prop)
    (σ : Relay) : Prop :=
  ∀ σ', nonceIsDup σ pkt = some σ' → isMgmt pkt = .ok true →
    Along (MgmtOp.run E now f) P (E.mgmt σ' pkt f) σ'

/-- An Interest is well formed, and management puts no Interest into the PIT that is there. -/
def TableEvent.Scans (E : Env) : TableEvent → Relay → Prop
  | interest now _ f pkt, σ => pkt.Formed ∧ MgmtAlong E now f pkt MgmtOp.Scans σ
  | _, _ => True

/-- A content that would come into the cache fits in. -/
def TableEvent.Fits (E : Env) : TableEvent → Relay → Prop
  | interest now _ f pkt, σ => MgmtAlong E now f pkt MgmtOp.Fits σ
  | content now pkt, σ => (∃ i ∈ σ.pit, Matches E.digest i (contentNew now pkt)) → σ.Fits pkt.pfx
  | csAdd c, σ => σ.Fits c.pkt.pfx
  | add2cache c, σ => σ.Fits c.pkt.pfx
  | _, _ => True

/-! ## What an event does -/

section Events

variable {E : Env} {now : Nat} {σ τ : Relay} {F G : Prop}

theorem Room.of_contents (hc : τ.contents = σ.contents) (hm : τ.maxCacheEntries = σ.maxCacheEntries)
    (h : Room σ) : Room τ := by
  unfold Room at h ⊢
  rwa [hc, hm]

/-- Serving a content and putting it into the cache. -/
theorem serve_add_edits {c : Content} {s : Serving} (hG : G → σ.Fits c.pkt.pfx)
    (hs : servePending E.digest σ c = .ok s) (ha : contentAdd2cache s.relay s.c = .ok τ) :
    Edits F G σ τ := by
  obtain ⟨hshr, hcs, hpkt⟩ := servePending_shrinks hs
  refine hshr.edits.trans (contentAdd2cache_edits (fun hg hk => ?_) ha)
  rw [hpkt, hcs] at hk
  exact (hG hg hk).of_contents hcs hshr.maxCacheEntries

theorem interestNew_edits {pkt : Pkt} {f : Option FaceId} {i : Interest}
    (hF : F → pkt.Formed ∧ Fresh σ pkt) (h : interestNew now σ f pkt = some (τ, i)) :
    Edit F G σ τ ∧ i.pkt = pkt ∧ i.pending = [] := by
  obtain ⟨hfull, rfl, rfl⟩ := interestNew_some h
  exact ⟨.interest (by omega) .nil hF, rfl, rfl⟩

theorem mgmtOp_edits {op : MgmtOp} {f : FaceId} (hF : F → op.Scans σ) (hG : G → op.Fits σ)
    (h : op.run E now f σ = .ok τ) : Edits F G σ τ := by
  cases op <;> simp only [MgmtOp.run] at h
  case faceNew sa static reflect =>
    have ht := @getFaceOrCreate_tables σ now (-1) (some sa)
    split at h
    · rename_i σ₁ g hg
      rw [hg] at ht
      cases h
      exact (Shrinks.of_tables (τ := σ₁.setFace g _) ht).edits
    · rename_i σ₁ hg
      rw [hg] at ht
      cases h
      exact (Shrinks.of_tables ht).edits
  case faceRemove g => cases h; exact (faceRemove_shrinks σ g).edits
  case fibAdd p g =>
    split at h
    · cases h
      exact (Shrinks.of_tables (fibAddEntry_tables p g)).edits
    · cases h
      exact .refl
  case fibRem p g => cases h; exact (Shrinks.of_tables (fibRemEntry_tables _ _)).edits
  case contentAdd p pkt =>
    obtain ⟨s, hs, h⟩ := (bind_eq_ok _ _ _).mp h
    exact serve_add_edits (c := contentNew now { pkt with pfx := some p }) hG hs h
  case contentRemove k =>
    split at h
    · rename_i hk
      cases h
      exact (contentRemove_shrinks hk).edits
    · cases h
      exact .refl
  case interestNew p pkt =>
    cases h
    cases hn : interestNew now σ (some f) { pkt with pfx := some p } with
    | none => exact .refl
    | some r => exact .single (interestNew_edits (fun hf => hF hf) hn).1
  case enqueue buf => exact (Shrinks.of_tables (faceEnqueue_tables h)).edits

theorem mgmt_edits {f : FaceId} {pkt : Pkt}
    (hF : F → Along (MgmtOp.run E now f) MgmtOp.Scans (E.mgmt σ pkt f) σ)
    (hG : G → Along (MgmtOp.run E now f) MgmtOp.Fits (E.mgmt σ pkt f) σ)
    (h : mgmt E now σ pkt f = .ok τ) : Edits F G σ τ :=
  ((Along.imp hF).and (Along.imp hG)).foldlM (R := Edits F G) (fun _ => .refl)
    (fun _ _ _ => ReflTransGen.trans) (fun _ _ _ hP ho => mgmtOp_edits hP.1 hP.2 ho) h

/-- The scan of the PIT: an entry for the same Interest, or none. -/
theorem pitFind_eq_ok {pkt : Pkt} {pit : List Interest} {r : Option Nat}
    (h : pitFind pkt pit = .ok r) :
    match r with
    | none => ∀ j ∈ pit, interestIsSame j pkt = .ok false
    | some k => ∃ i, pit[k]? = some i ∧ interestIsSame i pkt = .ok true := by
  induction pit generalizing r with
  | nil => cases h; simp
  | cons i pit ih =>
    obtain ⟨b, hb, h⟩ := (bind_eq_ok _ _ _).mp h
    split at h
    · rename_i htrue
      cases h
      exact ⟨i, rfl, by rw [hb, htrue]⟩
    · rename_i hfalse
      obtain ⟨r', hr', h⟩ := (bind_eq_ok _ _ _).mp h
      cases h
      have := ih hr'
      cases r' with
      | none =>
        intro j hj
        rcases mem_cons.mp hj with rfl | hj
        · rw [hb, Bool.eq_false_iff.mpr hfalse]
        · exact this j hj
      | some k => exact this

theorem appendPending_nil {i : Interest} {f : FaceId} (h : i.pending = []) :
    (interestAppendPending now i f).pkt = i.pkt ∧
      (interestAppendPending now i f).pending.map (·.face) = [f] := by
  simp [interestAppendPending, h]

/-- Steps 2 and 3 of `ccnl_fwd_handleInterest`. -/
theorem pitInsert_edits {f : FaceId} {pkt : Pkt} (hF : F → pkt.Formed)
    (h : pitInsert now σ f pkt = .ok (some τ)) : Edits F G σ τ := by
  cases pitInsert_inserted h with
  | pending => exact .single (.pending now _ f)
  | full => exact .refl
  | new _ hk hn h₂ =>
    have hfresh : Fresh σ pkt := pitFind_eq_ok hk
    obtain ⟨hfull, rfl, rfl⟩ := interestNew_some hn
    refine .tail (.single (.interest (by omega) ?_ ?_))
      (.shrink (.of_tables (interestPropagate_tables h₂)))
    · rw [(appendPending_nil rfl).2]
      simp
    · rw [(appendPending_nil rfl).1]
      exact fun hf => ⟨hF hf, hfresh⟩

theorem handleInterest_edits {cMatch : Pkt → Content → Run Bool} {f : FaceId} {pkt : Pkt} {b : Bool}
    (hF : F → pkt.Formed ∧ MgmtAlong E now f pkt MgmtOp.Scans σ)
    (hG : G → MgmtAlong E now f pkt MgmtOp.Fits σ)
    (h : handleInterest E now cMatch σ f pkt = .ok (τ, b)) : Edits F G σ τ := by
  have hnonce : ∀ {σ₁}, nonceIsDup σ pkt = some σ₁ → Edits F G σ σ₁ := fun hn =>
    (Shrinks.of_tables (nonceIsDup_tables hn)).edits
  cases handleInterest_handled h with
  | dup => exact .refl
  | mgmt _ hn hm h₂ =>
    exact (hnonce hn).trans (mgmt_edits (fun hf => (hF hf).2 _ hn hm) (fun hg => hG hg _ hn hm) h₂)
  | hit _ hn _ _ h₂ => exact (hnonce hn).trans (Shrinks.of_tables (deliver_tables h₂)).edits
  | drop _ hn => exact hnonce hn
  | insert _ hn _ _ hr => exact (hnonce hn).trans (pitInsert_edits (fun hf => (hF hf).1) hr)

/-- The walk over the PIT counts nothing when no entry matches. -/
theorem serveFrom_none {digest : List UInt8 → Digest} {c : Content} {pit kept : List Interest}
    {s s' : Serving} (h : serveFrom digest pit s = .ok (kept, s')) (hc : s.c.pkt = c.pkt)
    (hno : ∀ i ∈ pit, ¬ Matches digest i c) : s'.cnt = s.cnt := by
  induction pit generalizing kept s' with
  | nil => cases h; rfl
  | cons i pit ih =>
    rw [serveFrom] at h
    split at h
    · cases h
    rename_i p hp
    obtain ⟨b, hb, h⟩ := (bind_eq_ok _ _ _).mp h
    split at h
    · rename_i htrue
      rw [pitMatch_congr hc, htrue] at hb
      exact absurd ⟨p, hp, hb⟩ (hno i mem_cons_self)
    · obtain ⟨⟨rest, s₁⟩, h₁, h⟩ := (bind_eq_ok _ _ _).mp h
      cases h
      exact ih h₁ fun j hj => hno j (mem_cons_of_mem _ hj)

theorem handleContent_edits {pkt : Pkt}
    (hG : G → (∃ i ∈ σ.pit, Matches E.digest i (contentNew now pkt)) → σ.Fits pkt.pfx)
    (h : handleContent E now σ pkt = .ok τ) : Edits F G σ τ := by
  cases handleContent_handled h with
  | dup => exact .refl
  | unsolicited _ hs | served _ hs => exact (servePending_shrinks hs).1.edits
  | cached _ hs hcnt hc =>
    refine serve_add_edits (c := contentNew now pkt) (fun hg => hG hg ?_) hs hc
    by_contra hno
    push Not at hno
    obtain ⟨⟨kept, s₁⟩, h₁, hs⟩ := (bind_eq_ok _ _ _).mp hs
    cases hs
    exact hcnt (serveFrom_none h₁ rfl hno)

theorem add2cache_edits {c : Content} {b : Bool} (hG : G → σ.Fits c.pkt.pfx)
    (h : add2cache σ c = .ok (τ, b)) : Edits F G σ τ := by
  obtain ⟨known, -, h⟩ := (bind_eq_ok _ _ _).mp h
  obtain ⟨σ₁, h₁, h⟩ := (bind_eq_ok _ _ _).mp h
  cases h
  exact contentAdd2cache_edits hG h₁

/-- What `add2cache` has done when it returns the content. -/
theorem add2cache_takes {c : Content} (h : add2cache σ c = .ok (τ, true))
    (ht : (evict σ).Takes) : τ.contents = c :: (evict σ).contents := by
  obtain ⟨known, hk, h⟩ := (bind_eq_ok _ _ _).mp h
  obtain ⟨σ₁, h₁, h⟩ := (bind_eq_ok _ _ _).mp h
  simp only [pure_eq_ok, Prod.mk.injEq, Bool.not_eq_true'] at h
  obtain ⟨rfl, rfl⟩ := h
  simp only [contentAdd2cache, hk, ok_bind, Bool.false_eq_true, ↓reduceIte] at h₁
  unfold Relay.Takes at ht
  rw [if_pos ht] at h₁
  cases h₁
  rfl

theorem csAdd_edits {c : Content} {b : Bool} (hG : G → σ.Fits c.pkt.pfx)
    (h : csAdd E.digest σ c = .ok (τ, b)) : Edits F G σ τ := by
  obtain ⟨⟨σ₁, r⟩, h₁, h⟩ := (bind_eq_ok _ _ _).mp h
  refine (add2cache_edits hG h₁).trans ?_
  cases r with
  | false => cases h; exact .refl
  | true =>
    obtain ⟨s, hs, h⟩ := (bind_eq_ok _ _ _).mp h
    obtain ⟨hshr, hcs, hpkt⟩ := servePending_shrinks hs
    refine hshr.edits.trans ?_
    split at h
    · rename_i ht
      cases h
      -- the head of the list is the content itself
      have hhead : s.relay.contents.modify 0 (fun _ => s.c) =
          s.relay.contents.modify 0 fun d => { s.c with pkt := d.pkt } := by
        rw [hcs, add2cache_takes h₁ ht, modify_zero_cons, modify_zero_cons, ← hpkt]
      rw [hhead]
      exact (modify_shrinks 0 (fun d => { s.c with pkt := d.pkt }) fun _ => rfl).edits
    · cases h
      exact .refl

/-- What an event can do to the tables. -/
theorem TableEvent.edits {e : TableEvent} (hF : F → e.Scans E σ) (hG : G → e.Fits E σ)
    (h : (tables E).step e σ = .ok τ) : Edits F G σ τ := by
  cases e <;> simp only [tables, TableEvent.run] at h
  case interest now cMatch f pkt =>
    obtain ⟨⟨σ₁, b⟩, h₁, rfl⟩ := (map_eq_ok _ _ _).mp h
    exact handleInterest_edits hF hG h₁
  case content now pkt => exact handleContent_edits hG h
  case ageing now => exact (doAgeing_shrinks h).edits
  case face now ifndx sa => cases h; exact (Shrinks.of_tables getFaceOrCreate_tables).edits
  case faceRemove f => cases h; exact (faceRemove_shrinks σ f).edits
  case csAdd c =>
    obtain ⟨⟨σ₁, b⟩, h₁, rfl⟩ := (map_eq_ok _ _ _).mp h
    exact csAdd_edits hG h₁
  case csRemove path pfx => cases h; exact csRemove_shrinks.edits
  case add2cache c =>
    obtain ⟨⟨σ₁, b⟩, h₁, rfl⟩ := (map_eq_ok _ _ _).mp h
    exact add2cache_edits hG h₁
  case contentRemove k =>
    split at h
    · rename_i hk
      cases h
      exact (contentRemove_shrinks hk).edits
    · cases h
      exact .refl
  case static k b =>
    cases h
    exact (modify_shrinks k (fun c => { c with static := b }) fun _ => rfl).edits

end Events

end Ccnl
