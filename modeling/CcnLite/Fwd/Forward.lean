import CcnLite.Core.Serve

/-!
# Handling Interests and Data (`ccnl-fwd.c`)

`handleContent` and `handleInterest` are `ccnl_fwd_handleContent` and `ccnl_fwd_handleInterest`;
the `cMatch` functions are the ones that each suite registers for its content store lookup.

The management protocol (`ccnl-mgmt.c`) and the local RPC (`ccnl-localrpc.c`) parse commands of
their own. What they can do to the tables is `MgmtOp` and `RpcOp`; which operations a command leads
to is a parameter of the model (`Env`).
-/

namespace Ccnl

open CRun

/-! ## Management operations -/

/-- What a management command does to the relay, one call into the core at a time. A packet that
management makes always has a name. -/
inductive MgmtOp where
  /-- `newface`. -/
  | faceNew (sa : SockAddr) (static reflect : Bool)
  /-- `destroyface`. -/
  | faceRemove (f : FaceId)
  /-- `prefixreg`. -/
  | fibAdd (p : Prefix) (f : FaceId)
  /-- `prefixunreg`. -/
  | fibRem (p : Prefix) (f : FaceId)
  /-- A segment of a long reply, served and put into the cache. -/
  | contentAdd (p : Prefix) (pkt : Pkt)
  /-- `removecacheobject`, by the index of the content. -/
  | contentRemove (k : Nat)
  /-- `addcacheobject`: an Interest without a pending face. -/
  | interestNew (p : Prefix) (pkt : Pkt)
  /-- A reply. -/
  | enqueue (buf : List UInt8)

/-- What a local RPC does to the relay, one call at a time. -/
inductive RpcOp where
  /-- `rpc_cacheRemove`, by the index of the content. -/
  | contentRemove (k : Nat)
  /-- `rpc_forward`: a packet inside the RPC goes to the forwarder of a suite. -/
  | forward (suite : Suite) (mem : List UInt8) (c : Cursor)
  /-- `ccnl_emit_RpcReturn`. -/
  | enqueue (buf : List UInt8)

/-- What the model takes from outside the forwarding code. -/
structure Env where
  /-- `compute_ccnx_digest`. -/
  digest : List UInt8 → Digest
  /-- `ccnl_mgmt`: the operations that a management Interest leads to. -/
  mgmt : Relay → Pkt → FaceId → List MgmtOp
  /-- `ccnl_localrpc_exec`: the operations that the RPC at the cursor leads to, and the cursor after
  it, `none` for an error. -/
  rpc : Relay → List UInt8 → Cursor → FaceId → List RpcOp × Option Cursor

/-- One management operation; `from` is the face of the client. -/
def MgmtOp.run (E : Env) (now : Nat) («from» : FaceId) (σ : Relay) : MgmtOp → Run Relay
  | faceNew sa static reflect =>
    match getFaceOrCreate now σ (-1) (some sa) with
    | (σ, some f) => return σ.setFace f fun x =>
        { x with static := static, reflect := reflect, served := false, fwdalli := false }
    | (σ, none) => return σ
  | faceRemove f => return Ccnl.faceRemove σ f
  | fibAdd p f => return if (σ.face f).toOption.isSome then fibAddEntry σ p f else σ
  | fibRem p f => return fibRemEntry σ (some p) (some f)
  | contentAdd p pkt => do
    let s ← servePending E.digest σ (contentNew now { pkt with pfx := some p })
    contentAdd2cache s.relay s.c
  | contentRemove k => return if k < σ.contents.length then Ccnl.contentRemove σ k else σ
  | interestNew p pkt =>
    return ((Ccnl.interestNew now σ «from» { pkt with pfx := some p }).map Prod.fst).getD σ
  | enqueue buf => faceEnqueue σ «from» buf

/-- A management command. -/
def mgmt (E : Env) (now : Nat) (σ : Relay) (pkt : Pkt) («from» : FaceId) : Run Relay :=
  (E.mgmt σ pkt «from»).foldlM (MgmtOp.run E now «from») σ

/-! ## Content store lookup -/

/-- `ccnl_ccnb_cMatch` returns 0. -/
def ccnbCMatch (digest : List UInt8 → Digest) (p : Pkt) (c : Content) : Run Bool := do
  let v ← iPrefixofC digest (← deref p.pfx) p.ccnb.minsuffix p.ccnb.maxsuffix c
  if v < 0 then return false
  if p.ccnb.ppkd.isSome && !bufEqual p.ccnb.ppkd c.pkt.ccnb.ppkd then return false
  return true

/-- `ccnl_ccntlv_cMatch` returns 0. -/
def ccntlvCMatch (p : Pkt) (c : Content) : Run Bool := do
  let cp ← deref c.pkt.pfx
  let name ← deref p.pfx
  return prefixCmp cp none name .exact = 0

/-- `ccnl_ndntlv_cMatch` returns 0. -/
def ndntlvCMatch (digest : List UInt8 → Digest) (p : Pkt) (c : Content) : Run Bool := do
  let v ← iPrefixofC digest (← deref p.pfx) p.ndntlv.minsuffix p.ndntlv.maxsuffix c
  if v < 0 then return false
  if p.ndntlv.mbf && c.stale then return false
  return true

/-- The table `ccnl_core_suites[suite].cMatch`. -/
def cMatch (digest : List UInt8 → Digest) : Suite → Pkt → Content → Run Bool
  | .ccnb => ccnbCMatch digest
  | .ccntlv => ccntlvCMatch
  | .ndntlv => ndntlvCMatch digest
  | .localrpc => fun _ _ => .error .null

/-- Step 1 of `ccnl_fwd_handleInterest`: the first content that matches. -/
def csFind (cMatch : Pkt → Content → Run Bool) (pkt : Pkt) :
    List Content → Run (Option Content)
  | [] => .ok none
  | c :: cs => do
    let cp ← deref c.pkt.pfx
    let p ← deref pkt.pfx
    if cp.suite ≠ p.suite then csFind cMatch pkt cs
    else if ← cMatch pkt c then return some c
    else csFind cMatch pkt cs

/-- Step 2: the index of the first PIT entry for the same Interest. -/
def pitFind (pkt : Pkt) : List Interest → Run (Option Nat)
  | [] => .ok none
  | i :: pit => do
    if ← interestIsSame i pkt then return some 0
    else return (← pitFind pkt pit).map (· + 1)

/-- `ccnl_pkt_fwdOK` is not 0. -/
def pktFwdOK (pkt : Pkt) : Bool :=
  match pkt.suite with
  | .ndntlv => 2 < pkt.ndntlv.scope
  | _ => true

/-- The test for a management Interest, which reads four bytes at the first name component. -/
def isMgmt (pkt : Pkt) : Run Bool :=
  match pkt.suite with
  | .ccnb | .ndntlv => do
    let p ← deref pkt.pfx
    match p.comp with
    | [c, _, _, _] => return (← rdBytes p.mem c.off 4) = [99, 99, 110, 120] -- "ccnx"
    | _ => return false
  | _ => .ok false

/-! ## The two handlers -/

/-- `ccnl_fwd_handleContent`. It always returns 0. -/
def handleContent (E : Env) (now : Nat) (σ : Relay) (pkt : Pkt) : Run Relay := do
  if ← isCached pkt.pfx σ.contents then return σ -- content is dup, do nothing
  let s ← servePending E.digest σ (contentNew now pkt)
  if s.cnt = 0 then return s.relay -- unsolicited content
  if s.relay.maxCacheEntries ≠ 0 then contentAdd2cache s.relay s.c
  else return s.relay

/-- Steps 2 and 3 of `ccnl_fwd_handleInterest`: `none` when the Interest is not to be forwarded. -/
def pitInsert (now : Nat) (σ : Relay) («from» : FaceId) (pkt : Pkt) : Run (Option Relay) := do
  let k ← pitFind pkt σ.pit
  if !pktFwdOK pkt then return none
  match k with
  | some k => return some { σ with pit := σ.pit.modify k (interestAppendPending now · «from») }
  | none =>
    match interestNew now σ «from» pkt with
    | none => return some σ
    | some (σ, i) =>
      let i := interestAppendPending now i «from»
      return some (← interestPropagate { σ with pit := i :: σ.pit.tail } i)

/-- `ccnl_fwd_handleInterest`: the relay, and whether it returns 0. -/
def handleInterest (E : Env) (now : Nat) (cMatch : Pkt → Content → Run Bool) (σ : Relay)
    («from» : FaceId) (pkt : Pkt) : Run (Relay × Bool) := do
  let x ← σ.face «from»
  match nonceIsDup σ pkt with
  | none => return (σ, true)
  | some σ =>
    if ← isMgmt pkt then return (← mgmt E now σ pkt «from», true)
    match ← csFind cMatch pkt σ.contents with
    | some c => return (← deliver σ x c.pkt, true)
    | none =>
      match ← pitInsert now σ «from» pkt with
      | none => return (σ, false)
      | some σ => return (σ, true)

/-! ## What the handlers do -/

section Handled

variable {E : Env} {now : Nat} {cMatch : Pkt → Content → Run Bool} {σ τ : Relay} {f : FaceId}
  {pkt : Pkt} {b : Bool}

/-- The Data is known already, or the PIT is served; then it was unsolicited, or it goes into the
cache, if there is one. -/
inductive ContentHandled (E : Env) (now : Nat) (σ : Relay) (pkt : Pkt) : Relay → Prop where
  | dup (hd : isCached pkt.pfx σ.contents = .ok true) : ContentHandled E now σ pkt σ
  | unsolicited {s : Serving} (hd : isCached pkt.pfx σ.contents = .ok false)
      (hs : servePending E.digest σ (contentNew now pkt) = .ok s) (hcnt : s.cnt = 0) :
      ContentHandled E now σ pkt s.relay
  | cached {s : Serving} {τ : Relay} (hd : isCached pkt.pfx σ.contents = .ok false)
      (hs : servePending E.digest σ (contentNew now pkt) = .ok s) (hcnt : s.cnt ≠ 0)
      (hc : contentAdd2cache s.relay s.c = .ok τ) : ContentHandled E now σ pkt τ
  | served {s : Serving} (hd : isCached pkt.pfx σ.contents = .ok false)
      (hs : servePending E.digest σ (contentNew now pkt) = .ok s) (hcnt : s.cnt ≠ 0) :
      ContentHandled E now σ pkt s.relay

theorem handleContent_handled (h : handleContent E now σ pkt = .ok τ) :
    ContentHandled E now σ pkt τ := by
  obtain ⟨d, hd, h⟩ := (bind_eq_ok _ _ _).mp h
  cases d with
  | true =>
    cases h
    exact .dup hd
  | false =>
    obtain ⟨s, hs, h⟩ := (bind_eq_ok _ _ _).mp h
    split at h
    · rename_i hcnt
      cases h
      exact .unsolicited hd hs hcnt
    · rename_i hcnt
      split at h
      · exact .cached hd hs hcnt h
      · cases h
        exact .served hd hs hcnt

/-- The Interest is not to be forwarded, or it joins an entry, or the PIT is full, or it gets an
entry and goes out. -/
inductive PitInserted (now : Nat) (σ : Relay) (f : FaceId) (pkt : Pkt) : Option Relay → Prop where
  | drop (hfwd : pktFwdOK pkt = false) : PitInserted now σ f pkt none
  | pending {k : Nat} (hfwd : pktFwdOK pkt = true) (hk : pitFind pkt σ.pit = .ok (some k)) :
      PitInserted now σ f pkt (some { σ with pit := σ.pit.modify k (interestAppendPending now · f) })
  | full (hfwd : pktFwdOK pkt = true) (hk : pitFind pkt σ.pit = .ok none)
      (hn : interestNew now σ f pkt = none) : PitInserted now σ f pkt (some σ)
  | new {σ₁ τ : Relay} {i : Interest} (hfwd : pktFwdOK pkt = true)
      (hk : pitFind pkt σ.pit = .ok none) (hn : interestNew now σ f pkt = some (σ₁, i))
      (hp : interestPropagate { σ₁ with pit := interestAppendPending now i f :: σ₁.pit.tail }
        (interestAppendPending now i f) = .ok τ) : PitInserted now σ f pkt (some τ)

theorem pitInsert_inserted {r : Option Relay} (h : pitInsert now σ f pkt = .ok r) :
    PitInserted now σ f pkt r := by
  obtain ⟨k, hk, h⟩ := (bind_eq_ok _ _ _).mp h
  cases hfwd : pktFwdOK pkt <;> rw [hfwd] at h
  · cases h
    exact .drop hfwd
  cases k with
  | some k =>
    cases h
    exact .pending hfwd hk
  | none =>
    cases hn : interestNew now σ f pkt with
    | none =>
      simp only [hn] at h
      cases h
      exact .full hfwd hk hn
    | some r =>
      simp only [hn] at h
      obtain ⟨τ, hp, h⟩ := (bind_eq_ok _ _ _).mp h
      cases h
      exact .new hfwd hk hn hp

/-- The Interest is a duplicate, or it is for management, or there is content for it, or it is not to
be forwarded, or it gets into the PIT. -/
inductive InterestHandled (E : Env) (now : Nat) (cMatch : Pkt → Content → Run Bool) (σ : Relay)
    (f : FaceId) (pkt : Pkt) : Relay → Bool → Prop where
  | dup {x : Face} (hx : σ.face f = .ok x) (hn : nonceIsDup σ pkt = none) :
      InterestHandled E now cMatch σ f pkt σ true
  | mgmt {x : Face} {σ₁ τ : Relay} (hx : σ.face f = .ok x) (hn : nonceIsDup σ pkt = some σ₁)
      (hm : isMgmt pkt = .ok true) (h : mgmt E now σ₁ pkt f = .ok τ) :
      InterestHandled E now cMatch σ f pkt τ true
  | hit {x : Face} {σ₁ τ : Relay} {c : Content} (hx : σ.face f = .ok x)
      (hn : nonceIsDup σ pkt = some σ₁) (hm : isMgmt pkt = .ok false)
      (hc : csFind cMatch pkt σ₁.contents = .ok (some c)) (h : deliver σ₁ x c.pkt = .ok τ) :
      InterestHandled E now cMatch σ f pkt τ true
  | drop {x : Face} {σ₁ : Relay} (hx : σ.face f = .ok x) (hn : nonceIsDup σ pkt = some σ₁)
      (hm : isMgmt pkt = .ok false) (hc : csFind cMatch pkt σ₁.contents = .ok none)
      (h : pitInsert now σ₁ f pkt = .ok none) : InterestHandled E now cMatch σ f pkt σ₁ false
  | insert {x : Face} {σ₁ τ : Relay} (hx : σ.face f = .ok x) (hn : nonceIsDup σ pkt = some σ₁)
      (hm : isMgmt pkt = .ok false) (hc : csFind cMatch pkt σ₁.contents = .ok none)
      (h : pitInsert now σ₁ f pkt = .ok (some τ)) : InterestHandled E now cMatch σ f pkt τ true

theorem handleInterest_handled (h : handleInterest E now cMatch σ f pkt = .ok (τ, b)) :
    InterestHandled E now cMatch σ f pkt τ b := by
  obtain ⟨x, hx, h⟩ := (bind_eq_ok _ _ _).mp h
  cases hn : nonceIsDup σ pkt with
  | none =>
    simp only [hn] at h
    cases h
    exact .dup hx hn
  | some σ₁ =>
    simp only [hn] at h
    obtain ⟨m, hm, h⟩ := (bind_eq_ok _ _ _).mp h
    cases m with
    | true =>
      obtain ⟨τ, ht, h⟩ := (bind_eq_ok _ _ _).mp h
      cases h
      exact .mgmt hx hn hm ht
    | false =>
      obtain ⟨r, hr, h⟩ := (bind_eq_ok _ _ _).mp h
      cases r with
      | some c =>
        obtain ⟨τ, ht, h⟩ := (bind_eq_ok _ _ _).mp h
        cases h
        exact .hit hx hn hm hr ht
      | none =>
        obtain ⟨r, hi, h⟩ := (bind_eq_ok _ _ _).mp h
        cases r <;> cases h
        · exact .drop hx hn hm hr hi
        · exact .insert hx hn hm hr hi

end Handled

end Ccnl
