import CcnLite.Fwd.Calls
import CcnLite.Lib.Log

/-!
# What the relay hands out, and why

The relay writes down the buffers that it hands out (`Relay.out`). A buffer does not say whether it
is an Interest that goes on, Data for a face that has asked, or a reply. `Handout` says it, and
`Call.hands` are the handouts of a call. They are the buffers of the call, in order (`Call.out`), so
`history`, the handouts of a run, is what the run has handed out (`history_out`).
-/

namespace Ccnl

open CRun

/-- Something that the relay hands out. -/
inductive Handout where
  /-- An Interest goes to a face, for the first time or again. -/
  | interest (dst : FaceId) (pkt : Pkt)
  /-- A tap is called with an Interest. -/
  | tap (t : Nat) (pkt : Pkt)
  /-- Data goes to a face that has asked for it. -/
  | data (dst : FaceId) (pkt : Pkt)
  /-- A reply of management or of an RPC. -/
  | reply (dst : FaceId) (buf : List UInt8)
  deriving DecidableEq

namespace Handout

/-- What is handed out. -/
def out : Handout → Out
  | interest f pkt | data f pkt => .send f pkt.buf
  | tap t pkt => .tap t pkt.buf
  | reply f buf => .send f buf

/-- It is Data for the face. -/
def isDataTo (f : FaceId) : Handout → Bool
  | data g _ => g == f
  | _ => false

/-- It is an Interest to a face. -/
def isInterest : Handout → Bool
  | interest .. => true
  | _ => false

@[simp] theorem isDataTo_iff {f : FaceId} {h : Handout} :
    h.isDataTo f = true ↔ ∃ pkt, h = .data f pkt := by
  cases h <;> simp [isDataTo]

end Handout

/-! ## The Data of a walk over the PIT -/

/-- The faces that a call has sent something to. -/
def sentSince (σ τ : Relay) : List FaceId :=
  (τ.out.drop σ.out.length).filterMap fun
    | .send f _ => some f
    | .tap .. => none

/-- The Data that `ccnl_content_serve_pending` hands out. -/
def served (digest : List UInt8 → Digest) (σ : Relay) (c : Content) : List Handout :=
  match servePending digest σ c with
  | .ok s => (sentSince σ s.relay).map (.data · c.pkt)
  | .error _ => []

section Served

variable {digest : List UInt8 → Digest} {σ : Relay} {c : Content}

/-- A face that the walk visits is in the face list. -/
theorem serveFace_visits {f : FaceId} {v sent : List FaceId} {k : Nat} {s s' : Serving}
    (h : Progress σ c v k sent s) (hs : serveFace s f = .ok s') :
    ∃ sent', Progress σ c (v ++ [f]) k sent' s' := by
  have hl : σ.Listed f := by
    obtain ⟨x, hx, -⟩ := (bind_eq_ok _ _ _).mp hs
    rw [h.face] at hx
    cases hy : σ.face f with
    | ok y => exact Relay.listed_of_face hy
    | error e => simp [hy, Except.map] at hx
  obtain ⟨s₁, sent', hs₁, h'⟩ := serveFace_progress hl h
  rw [hs] at hs₁
  cases hs₁
  exact ⟨sent', h'⟩

theorem serveFaces_visits {pend : List Pendint} {v sent : List FaceId} {k : Nat} {s s' : Serving}
    (h : Progress σ c v k sent s)
    (hs : pend.foldlM (fun s pi => serveFace s pi.face) s = .ok s') :
    ∃ sent', Progress σ c (v ++ pend.map (·.face)) k sent' s' := by
  induction pend generalizing v sent s with
  | nil =>
    cases hs
    exact ⟨sent, by simpa using h⟩
  | cons pi pend ih =>
    obtain ⟨s₁, hs₁, hs⟩ := foldlM_cons_eq_ok hs
    obtain ⟨sent₁, h₁⟩ := serveFace_visits h hs₁
    obtain ⟨sent', h'⟩ := ih h₁ hs
    exact ⟨sent', by simpa using h'⟩

theorem serveEntry_visits {i : Interest} {v sent : List FaceId} {k : Nat} {s s' : Serving}
    (h : Progress σ c v k sent s) (hs : serveEntry s i = .ok s') :
    ∃ sent', Progress σ c (v ++ i.pending.map (·.face)) (k + 1) sent'
      { s' with relay := { s'.relay with pitcnt := s'.relay.pitcnt - 1 } } := by
  unfold serveEntry at hs
  split at hs
  · rename_i hpend
    cases hs
    rw [hpend, List.map_nil, List.append_nil]
    exact ⟨sent, h.removed rfl (Nat.succ_ne_zero _) rfl⟩
  · rename_i hpend
    obtain ⟨sent', h'⟩ := serveFaces_visits h hs
    refine ⟨sent', h'.removed rfl ?_ rfl⟩
    rw [ne_eq, h'.cnt]
    simp [hpend]

/-- The walk over the PIT, when it ends. -/
theorem serveFrom_visits {pit kept : List Interest} {v sent : List FaceId} {k : Nat}
    {s s' : Serving} (h : Progress σ c v k sent s) (hs : serveFrom digest pit s = .ok (kept, s')) :
    ∃ sent' k', Progress σ c (v ++ answered digest c pit) k' sent' s' := by
  induction pit generalizing v sent k s kept with
  | nil =>
    cases hs
    exact ⟨sent, k, by simpa [answered] using h⟩
  | cons i pit ih =>
    rw [serveFrom] at hs
    split at hs
    · cases hs
    rename_i p hp
    obtain ⟨b, hb, hs⟩ := (bind_eq_ok _ _ _).mp hs
    rw [pitMatch_congr h.pkt] at hb
    have hm : Matches digest i c ↔ b = true := by simp [Matches, hp, hb]
    cases b with
    | true =>
      obtain ⟨s₁, hs₁, hs⟩ := (bind_eq_ok _ _ _).mp hs
      obtain ⟨sent₁, h₁⟩ := serveEntry_visits h hs₁
      obtain ⟨sent', k', h'⟩ := ih h₁ hs
      exact ⟨sent', k', by simpa [answered, hm] using h'⟩
    | false =>
      obtain ⟨⟨rest, s₁⟩, hs₁, hs⟩ := (bind_eq_ok _ _ _).mp hs
      cases hs
      obtain ⟨sent', k', h'⟩ := ih h hs₁
      exact ⟨sent', k', by simpa [answered, hm] using h'⟩

/-- A walk that ends has sent the content, once each, to the faces that wait for it and have an
interface. -/
theorem servePending_visits {s : Serving} (hs : servePending digest σ c = .ok s) :
    ∃ sent : List FaceId, sent.Nodup ∧
      (∀ f, f ∈ sent ↔ f ∈ answered digest c σ.pit ∧ σ.Remote f) ∧
      s.relay.out = σ.out ++ sent.map (.send · c.pkt.buf) := by
  obtain ⟨⟨kept, s₁⟩, h₁, hs⟩ := (bind_eq_ok _ _ _).mp hs
  cases hs
  have hstart : Progress σ c [] 0 []
      { relay := { σ with faces := σ.faces.map fun x => { x with served := false } }, c := c } :=
    { relay := by simp [Face.mark]
      nodup := .nil
      mem_sent := by simp
      pkt := rfl
      cnt := by simp }
  obtain ⟨sent, k, h⟩ := serveFrom_visits hstart h₁
  exact ⟨sent, h.nodup, by simpa using h.mem_sent, by simp [h.relay]⟩

/-- What the walk hands out is Data, once each, for the faces that wait for it. -/
theorem served_eq {s : Serving} (hs : servePending digest σ c = .ok s) :
    ∃ sent : List FaceId, served digest σ c = sent.map (.data · c.pkt) ∧ sent.Nodup ∧
      (∀ f, f ∈ sent ↔ f ∈ answered digest c σ.pit ∧ σ.Remote f) ∧
      s.relay.out = σ.out ++ (served digest σ c).map Handout.out := by
  obtain ⟨sent, hnd, hmem, hout⟩ := servePending_visits hs
  have hsent : served digest σ c = sent.map (.data · c.pkt) := by
    simp only [served, hs, sentSince, hout, List.drop_left, List.filterMap_map]
    congr 1
    induction sent with
    | nil => rfl
    | cons f sent ih => simp
  refine ⟨sent, hsent, hnd, hmem, ?_⟩
  rw [hout, hsent, List.map_map]
  rfl

end Served

/-! ## The handouts of a call -/

/-- What a FIB entry that an Interest goes to gets: its tap, then its face. -/
def forwarded (pkt : Pkt) (fwd : Forward) : List Handout :=
  (fwd.tap.map (.tap · pkt)).toList ++ (fwd.face.map (.interest · pkt)).toList

/-- What `ccnl_interest_propagate` hands out. -/
def forwards (σ : Relay) (i : Interest) : List Handout :=
  (σ.fib.filter fun fwd => fwd.serves σ i).flatMap (forwarded i.pkt)

/-- What a hit in the content store hands out. -/
def delivered (x : Face) (pkt : Pkt) : List Handout :=
  if 0 ≤ x.ifndx then [.data x.faceid pkt] else []

def MgmtOp.hands (E : Env) (now : Nat) («from» : FaceId) (σ : Relay) : MgmtOp → List Handout
  | contentAdd p pkt => served E.digest σ (contentNew now { pkt with pfx := some p })
  | enqueue buf => [.reply «from» buf]
  | _ => []

/-- What a management command hands out. -/
def mgmtHands (E : Env) (now : Nat) («from» : FaceId) (ops : List MgmtOp) (σ : Relay) :
    List Handout :=
  written (MgmtOp.run E now «from») (MgmtOp.hands E now «from») ops σ

/-- Steps 2 and 3 of `ccnl_fwd_handleInterest`: only a new entry is forwarded. -/
def pitInsertHands (now : Nat) (σ : Relay) («from» : FaceId) (pkt : Pkt) : List Handout :=
  if !pktFwdOK pkt then []
  else match pitFind pkt σ.pit, interestNew now σ «from» pkt with
    | .ok none, some (σ, i) => forwards σ i
    | _, _ => []

/-- `ccnl_fwd_handleInterest`. -/
def interestHands (E : Env) (now : Nat) (cMatch : Pkt → Content → Run Bool) (σ : Relay)
    («from» : FaceId) (pkt : Pkt) : List Handout :=
  match σ.face «from», nonceIsDup σ pkt with
  | .ok x, some σ =>
    match isMgmt pkt, csFind cMatch pkt σ.contents with
    | .ok true, _ => mgmtHands E now «from» (E.mgmt σ pkt «from») σ
    | _, .ok (some c) => delivered x c.pkt
    | _, .ok none => pitInsertHands now σ «from» pkt
    | _, _ => []
  | _, _ => []

def TableEvent.hands (E : Env) (σ : Relay) : TableEvent → List Handout
  | interest now cMatch f pkt => interestHands E now cMatch σ f pkt
  | content now pkt =>
    if isCached pkt.pfx σ.contents = .ok true then [] else served E.digest σ (contentNew now pkt)
  | ageing now => (resends (u32 now) σ.pit).flatMap (forwards σ)
  | csAdd c =>
    match Ccnl.add2cache σ c with
    | .ok (σ, true) => served E.digest σ c
    | _ => []
  | _ => []

/-- The handouts of a call. -/
def Call.hands (E : Env) (σ : Relay) : Call → List Handout
  | table e => e.hands E σ
  | enqueue f buf => [.reply f buf]
  | _ => []

/-- The handouts of a run. -/
def history (E : Env) (cs : List Call) (σ : Relay) : List Handout :=
  written (fun σ c => (calls E).step c σ) (Call.hands E) cs σ

/-! ## They are what is handed out -/

section Out

variable {E : Env} {now : Nat} {σ τ : Relay} {f : FaceId} {pkt : Pkt}

theorem forwards_out (σ : Relay) (i : Interest) :
    (forwards σ i).map Handout.out = propagated σ i := by
  have hone : ∀ fwd : Forward, (forwarded i.pkt fwd).map Handout.out = handed i fwd := fun fwd => by
    unfold forwarded handed
    cases fwd.tap <;> cases fwd.face <;> rfl
  simp only [forwards, propagated, List.map_flatMap, hone]

theorem deliver_hands {x : Face} (h : deliver σ x pkt = .ok τ) :
    τ.out = σ.out ++ (delivered x pkt).map Handout.out := by
  unfold deliver at h
  unfold delivered
  split at h <;> rename_i hx
  · rw [faceEnqueue_eq h, if_pos hx]
    rfl
  · cases h
    simp [hx]

theorem evict_out (σ : Relay) : (evict σ).out = σ.out := by
  unfold evict
  split
  · split <;> rfl
  · rfl

theorem contentAdd2cache_out {c : Content} (h : contentAdd2cache σ c = .ok τ) : τ.out = σ.out := by
  obtain ⟨b, -, h⟩ := (bind_eq_ok _ _ _).mp h
  split at h
  · cases h
    rfl
  · simp only at h
    split at h <;> cases h <;> exact evict_out σ

theorem getFaceOrCreate_sends (now : Nat) (σ : Relay) (ifndx : Int) (sa : Option SockAddr) :
    (getFaceOrCreate now σ ifndx sa).1.out = σ.out := by
  unfold getFaceOrCreate
  split
  · split <;> rfl
  · split
    · rfl
    · split
      · split <;> rfl
      · rfl

theorem mgmtOp_out {op : MgmtOp} (h : op.run E now f σ = .ok τ) :
    τ.out = σ.out ++ (op.hands E now f σ).map Handout.out := by
  cases op <;> simp only [MgmtOp.run] at h
  case faceNew sa static reflect =>
    have ho := getFaceOrCreate_sends now σ (-1) (some sa)
    split at h <;> rename_i hg <;> rw [hg] at ho <;> cases h <;>
      simpa [MgmtOp.hands, Relay.setFace] using ho
  case faceRemove g =>
    cases h
    simp [MgmtOp.hands, faceRemove]
  case fibAdd p g =>
    cases h
    unfold fibAddEntry
    split
    · split <;> simp [MgmtOp.hands]
    · simp [MgmtOp.hands]
  case fibRem p g =>
    cases h
    unfold fibRemEntry
    split <;> simp [MgmtOp.hands]
  case contentAdd p pkt =>
    obtain ⟨s, hs, h⟩ := (bind_eq_ok _ _ _).mp h
    obtain ⟨-, -, -, -, hout⟩ := served_eq hs
    rw [contentAdd2cache_out h, hout]
    rfl
  case contentRemove k =>
    split at h <;> cases h <;> simp [MgmtOp.hands, contentRemove]
  case interestNew p pkt =>
    cases h
    cases hn : interestNew now σ (some f) { pkt with pfx := some p } with
    | none => simp [MgmtOp.hands]
    | some r =>
      obtain ⟨-, -, hr⟩ := interestNew_some hn
      simp [MgmtOp.hands, hr]
  case enqueue buf =>
    rw [faceEnqueue_eq h]
    rfl

theorem mgmt_out {ops : List MgmtOp} (h : ops.foldlM (MgmtOp.run E now f) σ = .ok τ) :
    τ.out = σ.out ++ (mgmtHands E now f ops σ).map Handout.out :=
  written_collects (fun _ _ _ => mgmtOp_out) h

theorem pitInsert_out {r : Option Relay} (h : pitInsert now σ f pkt = .ok r) :
    (r.getD σ).out = σ.out ++ (pitInsertHands now σ f pkt).map Handout.out := by
  unfold pitInsertHands
  cases pitInsert_inserted h with
  | drop hfwd => simp [hfwd]
  | pending hfwd hk => simp [hfwd, hk]
  | full hfwd hk hn => simp [hfwd, hk, hn]
  | @new σ₁ τ i hfwd hk hn hp =>
    obtain ⟨-, rfl, rfl⟩ := interestNew_some hn
    simp only [hfwd, hk, hn, Bool.not_true, Bool.false_eq_true, ↓reduceIte, Option.getD_some]
    rw [interestPropagate_eq hp, ← forwards_out]
    rfl

theorem handleInterest_out {cMatch : Pkt → Content → Run Bool} {b : Bool}
    (h : handleInterest E now cMatch σ f pkt = .ok (τ, b)) :
    τ.out = σ.out ++ (interestHands E now cMatch σ f pkt).map Handout.out := by
  have hnonce : ∀ σ₁, nonceIsDup σ pkt = some σ₁ → σ₁.out = σ.out := fun σ₁ hn => by
    obtain ⟨ns, rfl⟩ := nonceIsDup_eq hn
    rfl
  unfold interestHands
  cases handleInterest_handled h with
  | dup hx hn => simp [hx, hn]
  | mgmt hx hn hm h₂ =>
    simp only [hx, hn, hm, ← hnonce _ hn]
    exact mgmt_out h₂
  | hit hx hn hm hc h₂ =>
    simp only [hx, hn, hm, hc, ← hnonce _ hn]
    exact deliver_hands h₂
  | drop hx hn hm hc hr =>
    simp only [hx, hn, hm, hc, ← hnonce _ hn]
    exact pitInsert_out hr
  | insert hx hn hm hc hr =>
    simp only [hx, hn, hm, hc, ← hnonce _ hn]
    exact pitInsert_out hr

theorem handleContent_out (h : handleContent E now σ pkt = .ok τ) :
    τ.out = σ.out ++ ((TableEvent.content now pkt).hands E σ).map Handout.out := by
  cases handleContent_handled h with
  | dup hk => simp [TableEvent.hands, hk]
  | unsolicited hk hs | served hk hs =>
    obtain ⟨-, -, -, -, hout⟩ := served_eq hs
    simpa [TableEvent.hands, hk] using hout
  | cached hk hs _ hc =>
    obtain ⟨-, -, -, -, hout⟩ := served_eq hs
    simpa [TableEvent.hands, hk, contentAdd2cache_out hc] using hout

theorem csAdd_out {c : Content} {b : Bool} (h : csAdd E.digest σ c = .ok (τ, b)) :
    τ.out = σ.out ++ ((TableEvent.csAdd c).hands E σ).map Handout.out := by
  obtain ⟨⟨σ₁, known⟩, h₁, h⟩ := (bind_eq_ok _ _ _).mp h
  have hout₁ : σ₁.out = σ.out := by
    obtain ⟨known', -, h₁⟩ := (bind_eq_ok _ _ _).mp h₁
    obtain ⟨σ₂, h₂, h₁⟩ := (bind_eq_ok _ _ _).mp h₁
    cases h₁
    exact contentAdd2cache_out h₂
  simp only [TableEvent.hands, h₁]
  cases known with
  | false =>
    cases h
    simpa using hout₁
  | true =>
    obtain ⟨s, hs, h⟩ := (bind_eq_ok _ _ _).mp h
    obtain ⟨-, -, -, -, hout⟩ := served_eq hs
    rw [hout₁] at hout
    simp only at h
    split at h <;> cases h <;> exact hout

theorem doAgeing_out (h : doAgeing now σ = .ok τ) :
    τ.out = σ.out ++ ((TableEvent.ageing now).hands E σ).map Handout.out := by
  rw [doAgeing_eq h, faceRemoves_out, TableEvent.hands, List.map_flatMap]
  simp only [forwards_out]
  rfl

/-- The handouts of a call are what it hands out. -/
theorem Call.out {c : Call} (h : (calls E).step c σ = .ok τ) :
    τ.out = σ.out ++ (c.hands E σ).map Handout.out := by
  cases c with
  | table e =>
    cases e with
    | interest now cMatch f pkt =>
      obtain ⟨⟨σ₁, b⟩, h₁, rfl⟩ := (map_eq_ok _ _ _).mp h
      exact handleInterest_out h₁
    | content now pkt => exact handleContent_out h
    | ageing now => exact doAgeing_out (E := E) h
    | face now ifndx sa =>
      cases h
      simpa [Call.hands, TableEvent.hands] using getFaceOrCreate_sends now σ ifndx sa
    | faceRemove f =>
      cases h
      simp [Call.hands, TableEvent.hands, faceRemove]
    | csAdd c =>
      obtain ⟨⟨σ₁, b⟩, h₁, rfl⟩ := (map_eq_ok _ _ _).mp h
      exact csAdd_out h₁
    | csRemove path pfx =>
      cases h
      show (csRemove path σ pfx).1.out = σ.out ++ []
      unfold csRemove
      split <;> simp [contentRemove]
    | add2cache c =>
      obtain ⟨⟨σ₁, b⟩, h₁, rfl⟩ := (map_eq_ok _ _ _).mp h
      obtain ⟨known, -, h₁⟩ := (bind_eq_ok _ _ _).mp h₁
      obtain ⟨σ₂, h₂, h₁⟩ := (bind_eq_ok _ _ _).mp h₁
      cases h₁
      simpa [Call.hands, TableEvent.hands] using contentAdd2cache_out h₂
    | contentRemove k =>
      change (pure _ : Run Relay) = _ at h
      split at h <;> cases h <;> simp [Call.hands, TableEvent.hands, contentRemove]
    | static k b =>
      cases h
      simp [Call.hands, TableEvent.hands]
  | fibAdd p f =>
    cases h
    show (fibAddEntry σ p f).out = σ.out ++ []
    unfold fibAddEntry
    split <;> simp
  | fibRem p f =>
    cases h
    show (fibRemEntry σ p f).out = σ.out ++ []
    unfold fibRemEntry
    split <;> simp
  | enqueue f buf =>
    rw [faceEnqueue_eq h]
    rfl

/-- The handouts of a run are what it hands out. -/
theorem history_out {cs : List Call} (h : cs.foldlM (fun σ c => (calls E).step c σ) σ = .ok τ) :
    τ.out = σ.out ++ (history E cs σ).map Handout.out :=
  written_collects (fun _ _ _ => Call.out) h

end Out

end Ccnl
