import CcnLite.Core.Ageing
import CcnLite.Fwd.Faces
import CcnLite.Fwd.Tables
import CcnLite.Lib.Roster

/-!
# A run of the relay as calls into the core

`calls E` is the relay as what a program does to it, one call after another, in any order: the calls
that `tables E` has, and those that change the FIB or enqueue a reply. A frame is some of these
calls (`coreRX_calls`), so what holds in every run of calls holds whatever frames come.

`Call.pitEdits` is what a call does to the nodes of the PIT: which entries it puts in front, writes
to and unlinks (`Call.pit`).
-/

namespace Ccnl

open CRun

/-- A call. -/
inductive Call where
  /-- A call that the tables are about. -/
  | table (e : TableEvent)
  /-- `ccnl_fib_add_entry`. -/
  | fibAdd (p : Prefix) (f : Option FaceId)
  /-- `ccnl_fib_rem_entry`. -/
  | fibRem (p : Option Prefix) (f : Option FaceId)
  /-- `ccnl_face_enqueue`. -/
  | enqueue (f : FaceId) (buf : List UInt8)

namespace Call

/-- `ccnl_do_ageing`. -/
def ageing (now : Nat) : Call := .table (.ageing now)

def run (E : Env) : Call → Relay → Run Relay
  | table e, σ => e.run E σ
  | fibAdd p f, σ => return fibAddEntry σ p f
  | fibRem p f, σ => return fibRemEntry σ p f
  | enqueue f buf, σ => faceEnqueue σ f buf

end Call

/-- The relay, called from an empty PIT on. -/
def calls (E : Env) : Sys Relay Call where
  Start σ := σ.pit = []
  step := Call.run E

/-! ## Frames -/

/-- The relay comes from `σ` to `τ` by calls other than `ccnl_do_ageing`. -/
def CallsTo (E : Env) (σ τ : Relay) : Prop :=
  ∃ cs : List Call, (∀ c ∈ cs, ∀ now, c ≠ .ageing now) ∧
    cs.foldlM (fun σ c => (calls E).step c σ) σ = .ok τ

section Frames

variable {E : Env} {σ τ υ : Relay}

theorem CallsTo.refl (E : Env) (σ : Relay) : CallsTo E σ σ := ⟨[], by simp, rfl⟩

theorem CallsTo.next (h : CallsTo E σ τ) {c : Call} (hc : ∀ now, c ≠ .ageing now)
    (hs : c.run E τ = .ok υ) : CallsTo E σ υ := by
  obtain ⟨cs, hcs, hrun⟩ := h
  refine ⟨cs ++ [c], fun d hd => ?_, ?_⟩
  · rcases List.mem_append.mp hd with hd | hd
    · exact hcs d hd
    · exact List.mem_singleton.mp hd ▸ hc
  · rw [List.foldlM_append, hrun, ok_bind, List.foldlM_cons]
    show (c.run E τ >>= _) = _
    rw [hs, ok_bind]
    rfl

/-- What the forwarders do for the packets of a frame. -/
theorem handlersKeep_calls (E : Env) (now : Nat) (f : FaceId) (σ : Relay) :
    HandlersKeep E now f (CallsTo E σ) where
  interest {cMatch _ _ pkt _} h _ hi :=
    h.next (c := .table (.interest now cMatch f pkt)) (by simp [Call.ageing])
      ((map_eq_ok _ _ _).mpr ⟨_, hi, rfl⟩)
  content {_ _ pkt} h hc := h.next (c := .table (.content now pkt)) (by simp [Call.ageing]) hc
  contentRemove {_ k} h hk :=
    h.next (c := .table (.contentRemove k)) (by simp [Call.ageing])
      (by simp [Call.run, TableEvent.run, hk, pure, Except.pure])
  enqueue {_ _ buf} h he := h.next (c := .enqueue f buf) (by simp [Call.ageing]) he

/-- A frame is a series of calls. -/
theorem coreRX_calls {now len : Nat} {ifndx : Int} {sa : Option SockAddr} {mem : List UInt8}
    (h : coreRX E now σ ifndx sa mem len = .ok τ) : CallsTo E σ τ := by
  have hface : CallsTo E σ (getFaceOrCreate now σ ifndx sa).1 :=
    (CallsTo.refl E σ).next (c := .table (.face now ifndx sa)) (by simp [Call.ageing]) rfl
  exact coreRX_keeps (fun f => handlersKeep_calls E now f σ) hface h

theorem CallsTo.reachable (h : CallsTo E σ τ) (hr : (calls E).Reachable σ) :
    (calls E).Reachable τ := by
  obtain ⟨cs, -, hcs⟩ := h
  exact hr.run hcs

/-- The main loop makes calls. -/
theorem system_calls (hr : (system E).Reachable σ) : (calls E).Reachable σ := by
  induction hr with
  | start hs => exact .start hs.pit
  | next _ e hs ih =>
    cases e with
    | rx now ifndx sa frame => exact (coreRX_calls hs).reachable ih
    | ageing now => exact ih.next (.ageing now) hs

end Frames

/-! ## The PIT -/

/-- The nodes of the PIT that `ccnl_content_serve_pending` unlinks. -/
def servedEdit (digest : List UInt8 → Digest) (c : Content) : ListEdit Interest :=
  .filterMap (Option.guard fun i => ¬ Matches digest i c)

/-- The nodes that `ccnl_face_remove` unlinks or writes to. -/
def faceCleanEdit (f : FaceId) : ListEdit Interest := .filterMap (faceClean f)

/-- `ccnl_interest_new`, with what the caller writes to the new node. -/
def interestNewEdits (now : Nat) (σ : Relay) («from» : FaceId) (pkt : Pkt)
    (write : Interest → Interest) : List (ListEdit Interest) :=
  match interestNew now σ «from» pkt with
  | some (_, i) => [.cons (write i)]
  | none => []

/-- Steps 2 and 3 of `ccnl_fwd_handleInterest`. -/
def pitInsertEdits (now : Nat) (σ : Relay) («from» : FaceId) (pkt : Pkt) :
    List (ListEdit Interest) :=
  if !pktFwdOK pkt then []
  else match pitFind pkt σ.pit with
    | .ok (some k) => [.modify k (interestAppendPending now · «from»)]
    | _ => interestNewEdits now σ «from» pkt (interestAppendPending now · «from»)

def MgmtOp.pitEdits (E : Env) (now : Nat) («from» : FaceId) (σ : Relay) :
    MgmtOp → List (ListEdit Interest)
  | faceRemove f => [faceCleanEdit f]
  | contentAdd p pkt => [servedEdit E.digest (contentNew now { pkt with pfx := some p })]
  | interestNew p pkt => interestNewEdits now σ «from» { pkt with pfx := some p } id
  | _ => []

def mgmtPitEdits (E : Env) (now : Nat) («from» : FaceId) :
    List MgmtOp → Relay → List (ListEdit Interest)
  | [], _ => []
  | op :: ops, σ => op.pitEdits E now «from» σ ++
    match op.run E now «from» σ with
    | .ok τ => mgmtPitEdits E now «from» ops τ
    | .error _ => []

/-- `ccnl_fwd_handleInterest`. -/
def interestPitEdits (E : Env) (now : Nat) (cMatch : Pkt → Content → Run Bool) (σ : Relay)
    («from» : FaceId) (pkt : Pkt) : List (ListEdit Interest) :=
  match nonceIsDup σ pkt with
  | none => []
  | some σ =>
    match isMgmt pkt, csFind cMatch pkt σ.contents with
    | .ok true, _ => mgmtPitEdits E now «from» (E.mgmt σ pkt «from») σ
    | _, .ok none => pitInsertEdits now σ «from» pkt
    | _, _ => []

/-- `ccnl_do_ageing`: the walk over the PIT, and a walk for each face that goes. -/
def ageingEdits (t : Nat) (σ : Relay) : List (ListEdit Interest) :=
  .filterMap (ageInterest t) :: (σ.faces.filter (·.expired t)).map (faceCleanEdit ·.faceid)

def TableEvent.pitEdits (E : Env) (σ : Relay) : TableEvent → List (ListEdit Interest)
  | interest now cMatch f pkt => interestPitEdits E now cMatch σ f pkt
  | content now pkt =>
    if isCached pkt.pfx σ.contents = .ok true then []
    else [servedEdit E.digest (contentNew now pkt)]
  | ageing now => ageingEdits (u32 now) σ
  | faceRemove f => [faceCleanEdit f]
  | csAdd c =>
    if isCached c.pkt.pfx σ.contents = .ok true then [] else [servedEdit E.digest c]
  | _ => []

/-- What a call does to the nodes of the PIT. -/
def Call.pitEdits (E : Env) (σ : Relay) : Call → List (ListEdit Interest)
  | table e => e.pitEdits E σ
  | _ => []

/-- What the edits make of the PIT. -/
def edited (es : List (ListEdit Interest)) (pit : List Interest) : List Interest :=
  es.foldl (fun l e => e.run l) pit

section Edits

variable {E : Env} {now : Nat} {σ τ : Relay} {f : FaceId} {pkt : Pkt}

@[simp] theorem edited_nil (pit : List Interest) : edited [] pit = pit := rfl

theorem edited_append (es es' : List (ListEdit Interest)) (pit : List Interest) :
    edited (es ++ es') pit = edited es' (edited es pit) := List.foldl_append

theorem serveFrom_kept {digest : List UInt8 → Digest} {c : Content} {pit kept : List Interest}
    {s s' : Serving} (hc : s.c.pkt = c.pkt) (h : serveFrom digest pit s = .ok (kept, s')) :
    kept = pit.filter fun i => ¬ Matches digest i c := by
  induction pit generalizing s kept with
  | nil =>
    cases h
    rfl
  | cons i pit ih =>
    rw [serveFrom] at h
    split at h
    · cases h
    rename_i p hp
    obtain ⟨b, hb, h⟩ := (bind_eq_ok _ _ _).mp h
    rw [pitMatch_congr hc] at hb
    have hm : Matches digest i c ↔ b = true := by simp [Matches, hp, hb]
    split at h
    · rename_i htrue
      obtain ⟨s₁, h₁, h⟩ := (bind_eq_ok _ _ _).mp h
      rw [ih (by exact (serveEntry_pkt h₁).trans hc) h]
      simp [hm, htrue]
    · rename_i hfalse
      obtain ⟨⟨rest, s₁⟩, h₁, h⟩ := (bind_eq_ok _ _ _).mp h
      cases h
      rw [ih hc h₁]
      simp [hm, hfalse]

theorem servePending_pit {digest : List UInt8 → Digest} {c : Content} {s : Serving}
    (h : servePending digest σ c = .ok s) : s.relay.pit = edited [servedEdit digest c] σ.pit := by
  obtain ⟨⟨kept, s₁⟩, h₁, h⟩ := (bind_eq_ok _ _ _).mp h
  cases h
  rw [show edited [servedEdit digest c] σ.pit = σ.pit.filterMap _ from rfl,
    List.filterMap_eq_filter]
  exact serveFrom_kept rfl h₁

theorem contentAdd2cache_pit {c : Content} (h : contentAdd2cache σ c = .ok τ) : τ.pit = σ.pit :=
  (contentAdd2cache_roots h).2.2

theorem mgmtOp_pit {op : MgmtOp} (h : op.run E now f σ = .ok τ) :
    τ.pit = edited (op.pitEdits E now f σ) σ.pit := by
  cases op <;> simp only [MgmtOp.run] at h
  case faceNew sa static reflect =>
    have ht := congrArg Tables.pit (@getFaceOrCreate_tables σ now (-1) (some sa))
    split at h <;> rename_i hg <;> rw [hg] at ht <;> cases h <;> exact ht
  case faceRemove g => cases h; rfl
  case fibAdd p g =>
    split at h <;> cases h
    · exact congrArg Tables.pit (fibAddEntry_tables p g)
    · rfl
  case fibRem p g =>
    cases h
    exact congrArg Tables.pit (fibRemEntry_tables _ _)
  case contentAdd p pkt =>
    obtain ⟨s, hs, h⟩ := (bind_eq_ok _ _ _).mp h
    rw [contentAdd2cache_pit h, servePending_pit hs]
    rfl
  case contentRemove k => split at h <;> cases h <;> rfl
  case interestNew p pkt =>
    cases h
    simp only [MgmtOp.pitEdits, interestNewEdits]
    cases hn : interestNew now σ (some f) { pkt with pfx := some p } with
    | none => rfl
    | some r =>
      show r.1.pit = r.2 :: σ.pit
      exact (interestNew_eq hn).2.2.1
  case enqueue buf =>
    rw [faceEnqueue_eq h]
    rfl

theorem mgmt_pit {ops : List MgmtOp} (h : ops.foldlM (MgmtOp.run E now f) σ = .ok τ) :
    τ.pit = edited (mgmtPitEdits E now f ops σ) σ.pit := by
  induction ops generalizing σ with
  | nil =>
    cases h
    rfl
  | cons op ops ih =>
    rw [List.foldlM_cons] at h
    obtain ⟨σ₁, h₁, h⟩ := (bind_eq_ok _ _ _).mp h
    rw [mgmtPitEdits, h₁, edited_append, ← mgmtOp_pit h₁]
    exact ih h

theorem pitInsert_pit {r : Option Relay} (h : pitInsert now σ f pkt = .ok r) :
    (r.getD σ).pit = edited (pitInsertEdits now σ f pkt) σ.pit := by
  unfold pitInsertEdits
  cases pitInsert_inserted h with
  | drop hfwd =>
    rw [hfwd]
    rfl
  | pending hfwd hk =>
    rw [hfwd, hk]
    rfl
  | full hfwd hk hn =>
    rw [hfwd, hk]
    simp only [interestNewEdits, hn]
    rfl
  | @new σ₁ τ i hfwd hk hn h₂ =>
    have hprop : τ.pit = _ := congrArg Tables.pit (interestPropagate_tables h₂)
    rw [hfwd, hk]
    simp only [interestNewEdits, hn, Option.getD_some, hprop]
    show _ :: σ₁.pit.tail = _ :: σ.pit
    rw [(interestNew_eq hn).2.2.1, List.tail_cons]

theorem handleInterest_pit {cMatch : Pkt → Content → Run Bool} {b : Bool}
    (h : handleInterest E now cMatch σ f pkt = .ok (τ, b)) :
    τ.pit = edited (interestPitEdits E now cMatch σ f pkt) σ.pit := by
  have hnonce : ∀ σ₁, nonceIsDup σ pkt = some σ₁ → σ₁.pit = σ.pit := fun σ₁ hn => by
    obtain ⟨ns, rfl⟩ := nonceIsDup_eq hn
    rfl
  unfold interestPitEdits
  cases handleInterest_handled h with
  | dup _ hn =>
    rw [hn]
    rfl
  | mgmt _ hn hm h₂ =>
    rw [hn, hm, ← hnonce _ hn]
    exact mgmt_pit h₂
  | hit _ hn hm hc h₂ =>
    rw [hn, ← hnonce _ hn]
    simp only [hm, hc]
    exact congrArg Tables.pit (deliver_tables h₂)
  | drop _ hn hm hc hr | insert _ hn hm hc hr =>
    rw [hn, ← hnonce _ hn]
    simp only [hm, hc]
    exact pitInsert_pit hr

theorem handleContent_pit (h : handleContent E now σ pkt = .ok τ) :
    τ.pit = edited ((TableEvent.content now pkt).pitEdits E σ) σ.pit := by
  cases handleContent_handled h with
  | dup hk => simp [TableEvent.pitEdits, hk]
  | unsolicited hk hs | served hk hs => simpa [TableEvent.pitEdits, hk] using servePending_pit hs
  | cached hk hs _ hc =>
    simpa [TableEvent.pitEdits, hk] using (contentAdd2cache_pit hc).trans (servePending_pit hs)

theorem csAdd_pit {c : Content} {b : Bool} (h : csAdd E.digest σ c = .ok (τ, b)) :
    τ.pit = edited ((TableEvent.csAdd c).pitEdits E σ) σ.pit := by
  obtain ⟨⟨σ₁, r⟩, h₁, h⟩ := (bind_eq_ok _ _ _).mp h
  obtain ⟨known, hk, h₁⟩ := (bind_eq_ok _ _ _).mp h₁
  obtain ⟨σ₂, h₂, h₁⟩ := (bind_eq_ok _ _ _).mp h₁
  cases h₁
  have hpit := contentAdd2cache_pit h₂
  simp only [TableEvent.pitEdits, hk, Except.ok.injEq]
  cases known with
  | true =>
    cases h
    exact hpit
  | false =>
    obtain ⟨s, hs, h⟩ := (bind_eq_ok _ _ _).mp h
    have hserved := servePending_pit hs
    rw [hpit] at hserved
    simp only at h
    split at h <;> cases h <;> exact hserved

theorem faceRemoves_pit (fs : List Face) (σ : Relay) :
    (faceRemoves fs σ).pit = edited (fs.map (faceCleanEdit ·.faceid)) σ.pit := by
  induction fs generalizing σ with
  | nil => rfl
  | cons f fs ih => exact ih (faceRemove σ f.faceid)

theorem doAgeing_pit (h : doAgeing now σ = .ok τ) :
    τ.pit = edited (ageingEdits (u32 now) σ) σ.pit := by
  rw [doAgeing_eq h, faceRemoves_pit]
  rfl

/-- What a call makes of the PIT. -/
theorem Call.pit {c : Call} (h : (calls E).step c σ = .ok τ) :
    τ.pit = edited (c.pitEdits E σ) σ.pit := by
  cases c with
  | table e =>
    cases e with
    | interest now cMatch f pkt =>
      obtain ⟨⟨σ₁, b⟩, h₁, rfl⟩ := (map_eq_ok _ _ _).mp h
      exact handleInterest_pit h₁
    | content now pkt => exact handleContent_pit h
    | ageing now => exact doAgeing_pit h
    | face now ifndx sa =>
      cases h
      exact congrArg Tables.pit getFaceOrCreate_tables
    | faceRemove f =>
      cases h
      rfl
    | csAdd c =>
      obtain ⟨⟨σ₁, b⟩, h₁, rfl⟩ := (map_eq_ok _ _ _).mp h
      exact csAdd_pit h₁
    | csRemove path pfx =>
      cases h
      show (csRemove path σ pfx).1.pit = σ.pit
      unfold csRemove
      split <;> rfl
    | add2cache c =>
      obtain ⟨⟨σ₁, b⟩, h₁, rfl⟩ := (map_eq_ok _ _ _).mp h
      obtain ⟨known, hk, h₁⟩ := (bind_eq_ok _ _ _).mp h₁
      obtain ⟨σ₂, h₂, h₁⟩ := (bind_eq_ok _ _ _).mp h₁
      cases h₁
      exact contentAdd2cache_pit h₂
    | contentRemove k =>
      change (pure _ : Run Relay) = _ at h
      split at h <;> cases h <;> rfl
    | static k b =>
      cases h
      rfl
  | fibAdd p f =>
    cases h
    show (fibAddEntry σ p f).pit = σ.pit
    unfold fibAddEntry
    split <;> rfl
  | fibRem p f =>
    cases h
    exact congrArg Tables.pit (fibRemEntry_tables p f)
  | enqueue f buf => exact congrArg Tables.pit (faceEnqueue_tables h)

end Edits

/-! ## What an edit keeps -/

/-- `j` is the entry `i`, its faces apart. -/
structure Interest.Same (i j : Interest) : Prop where
  pkt : j.pkt = i.pkt
  lifetime : j.lifetime = i.lifetime
  lastUsed : j.lastUsed = i.lastUsed
  retries : j.retries = i.retries

/-- The entry is as `ccnl_interest_new` makes it, its faces apart. -/
structure Interest.New (i : Interest) : Prop where
  lifetime : i.lifetime = u32 (pktInterestLifetime i.pkt)
  lastUsed : i.lastUsed < 2 ^ 32
  retries : i.retries = 0

/-- The edit keeps the entries as they are, their faces apart, and makes new ones only. -/
structure Quiet (e : ListEdit Interest) : Prop where
  turns : ∀ i j, e.Turns i j → i.Same j
  new : ∀ i, e = .cons i → i.New

section Quiet

variable {E : Env} {now : Nat} {σ : Relay} {f : FaceId} {pkt : Pkt}

theorem Interest.Same.refl (i : Interest) : i.Same i := ⟨rfl, rfl, rfl, rfl⟩

theorem appendPending_same (now : Nat) (i : Interest) (f : FaceId) :
    i.Same (interestAppendPending now i f) := by
  unfold interestAppendPending
  split <;> exact ⟨rfl, rfl, rfl, rfl⟩

theorem Interest.New.same {i j : Interest} (h : i.New) (hs : i.Same j) : j.New where
  lifetime := by rw [hs.lifetime, hs.pkt, h.lifetime]
  lastUsed := hs.lastUsed ▸ h.lastUsed
  retries := hs.retries.trans h.retries

theorem servedEdit_quiet (digest : List UInt8 → Digest) (c : Content) :
    Quiet (servedEdit digest c) where
  turns i j h := by
    obtain ⟨rfl, -⟩ := Option.guard_eq_some_iff.mp h
    exact .refl i
  new i h := by cases h

theorem faceCleanEdit_quiet (f : FaceId) : Quiet (faceCleanEdit f) where
  turns i j h := by
    change faceClean f i = some j at h
    simp only [faceClean, Option.ite_none_left_eq_some, Option.some.injEq] at h
    obtain ⟨-, rfl⟩ := h
    exact ⟨rfl, rfl, rfl, rfl⟩
  new i h := by cases h

theorem interestNewEdits_quiet {write : Interest → Interest} (hw : ∀ i : Interest, i.Same (write i)) :
    ∀ e ∈ interestNewEdits now σ f pkt write, Quiet e := by
  intro e he
  unfold interestNewEdits at he
  split at he
  · rename_i σ₁ i hn
    obtain rfl := List.mem_singleton.mp he
    refine ⟨fun i j h => h ▸ .refl i, fun j hj => ?_⟩
    obtain rfl := ListEdit.cons.inj hj
    simp only [interestNew, Option.ite_none_left_eq_some, Option.some.injEq, Prod.mk.injEq] at hn
    obtain ⟨-, -, hi⟩ := hn
    have hnew : i.New := hi ▸ ⟨rfl, Nat.mod_lt _ (by decide), rfl⟩
    exact hnew.same (hw i)
  · cases he

theorem pitInsertEdits_quiet : ∀ e ∈ pitInsertEdits now σ f pkt, Quiet e := by
  intro e he
  unfold pitInsertEdits at he
  split at he
  · cases he
  split at he
  · obtain rfl := List.mem_singleton.mp he
    refine ⟨fun i j h => ?_, fun i h => by cases h⟩
    rcases h with rfl | rfl
    · exact .refl _
    · exact appendPending_same now i f
  · exact interestNewEdits_quiet (appendPending_same now · f) e he

theorem mgmtOp_quiet (op : MgmtOp) : ∀ e ∈ op.pitEdits E now f σ, Quiet e := by
  intro e he
  cases op with
  | faceRemove g => exact List.mem_singleton.mp he ▸ faceCleanEdit_quiet g
  | contentAdd p pkt => exact List.mem_singleton.mp he ▸ servedEdit_quiet _ _
  | interestNew p pkt => 
    exact interestNewEdits_quiet (Interest.Same.refl : ∀ i : Interest, i.Same (id i)) e he
  | _ => cases he

theorem mgmtPitEdits_quiet {ops : List MgmtOp} : ∀ e ∈ mgmtPitEdits E now f ops σ, Quiet e := by
  induction ops generalizing σ with
  | nil =>
    intro e he
    cases he
  | cons op ops ih =>
    intro e he
    rw [mgmtPitEdits] at he
    rcases List.mem_append.mp he with he | he
    · exact mgmtOp_quiet op e he
    · split at he
      · exact ih e he
      · cases he

theorem interestPitEdits_quiet {cMatch : Pkt → Content → Run Bool} :
    ∀ e ∈ interestPitEdits E now cMatch σ f pkt, Quiet e := by
  intro e he
  unfold interestPitEdits at he
  split at he
  · cases he
  split at he
  · exact mgmtPitEdits_quiet e he
  · exact pitInsertEdits_quiet e he
  · cases he

/-- Only `ccnl_do_ageing` changes an entry, its faces apart, and only `ccnl_interest_new` makes
one. -/
theorem Call.pitEdits_quiet {c : Call} (hc : ∀ now, c ≠ .ageing now) :
    ∀ e ∈ c.pitEdits E σ, Quiet e := by
  intro e he
  cases c with
  | table t =>
    cases t with
    | interest now cMatch f pkt => exact interestPitEdits_quiet e he
    | content now pkt =>
      change e ∈ (if _ then _ else _ : List (ListEdit Interest)) at he
      split at he
      · cases he
      · exact List.mem_singleton.mp he ▸ servedEdit_quiet _ _
    | ageing now => exact absurd rfl (hc now)
    | faceRemove f => exact List.mem_singleton.mp he ▸ faceCleanEdit_quiet f
    | csAdd c =>
      change e ∈ (if _ then _ else _ : List (ListEdit Interest)) at he
      split at he
      · cases he
      · exact List.mem_singleton.mp he ▸ servedEdit_quiet _ _
    | _ => cases he
  | _ => cases he

end Quiet

end Ccnl
