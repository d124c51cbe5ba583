import CcnLite.Core.Prefix

/-!
# The relay's tables (`ccnl-relay.c`, `ccnl-interest.c`, `ccnl-content.c`)

One definition per function of the source, on the state `Relay`. A pointer to a face is a
`FaceId`; following it is `Relay.face`, which fails with `Stop.dangling` when the face has been
freed. `CCNL_NOW()` is the argument `now`.

The callback hooks (`local_producer`, `ccnl_callback_rx_on_data`, the cache strategies) are never
set in the Unix relay, so their defaults stand here: no local producer, every content is cached,
no strategy removes one.
-/

namespace Ccnl

open CRun

/-! ## Faces -/

/-- `ccnl_addr_cmp` returns 0. -/
def addrSame : SockAddr → SockAddr → Bool
  | .packet a n, .packet b _ => a.take n == b.take n
  | .inet a p, .inet b q => a == b && p == q
  | .inet6 a p, .inet6 b q => a == b && p == q
  | .unix a, .unix b => a == b
  | _, _ => false

namespace Relay

/-- Follow a face pointer. -/
def face (σ : Relay) (f : FaceId) : Run Face :=
  match σ.faces.find? (·.faceid == f) with
  | some x => .ok x
  | none => .error .dangling

/-- Write to the face that a pointer points to. -/
def setFace (σ : Relay) (f : FaceId) (g : Face → Face) : Relay :=
  { σ with faces := σ.faces.map fun x => if x.faceid = f then g x else x }

end Relay

/-- The face that `ccnl_get_face_or_create` makes once the interface is known. -/
def faceNew (now : Nat) (σ : Relay) (ifndx : Int) (sa : Option SockAddr) : Relay × FaceId :=
  let ifc := if 0 ≤ ifndx then σ.ifs[ifndx.toNat]? else none
  let f : Face :=
    { faceid := σ.seqno + 1, ifndx := if sa.isSome then ifndx else -1, peer := sa,
      reflect := ifc.any (·.reflect), fwdalli := ifc.any (·.fwdalli), lastUsed := u32 now }
  ({ σ with faces := f :: σ.faces, seqno := σ.seqno + 1 }, f.faceid)

/-- `ccnl_get_face_or_create`. -/
def getFaceOrCreate (now : Nat) (σ : Relay) (ifndx : Int) (sa : Option SockAddr) :
    Relay × Option FaceId :=
  match sa with
  | none =>
    -- a local client shares the face with `ifndx` -1
    match σ.faces.find? (·.ifndx == -1) with
    | some f => (σ, f.faceid)
    | none => (faceNew now σ ifndx none).map id some
  | some a =>
    match σ.faces.find? fun f => ifndx != -1 && f.ifndx == ifndx && f.peer.any (addrSame · a) with
    | some f => (σ.setFace f.faceid fun x => { x with lastUsed := u32 now }, f.faceid)
    | none =>
      if ifndx = -1 then
        match σ.ifs.findIdx? (·.addr.family == a.family) with
        | none => (σ, none)
        | some i => (faceNew now σ i a).map id some
      else (faceNew now σ ifndx a).map id some

/-- `ccnl_face_enqueue`. -/
def faceEnqueue (σ : Relay) (dst : FaceId) (buf : List UInt8) : Run Relay := do
  let _ ← σ.face dst
  return { σ with out := σ.out ++ [.send dst buf] }

/-- `ccnl_send_pkt`. -/
def sendPkt (σ : Relay) (dst : FaceId) (pkt : Pkt) : Run Relay := faceEnqueue σ dst pkt.buf

/-- What `ccnl_face_remove` makes of a PIT entry: it leaves the pending list, and an entry with no
pending face left is removed. -/
def faceClean (f : FaceId) (i : Interest) : Option Interest :=
  let i := { i with
    «from» := if i.from = some f then none else i.from,
    pending := i.pending.filter (·.face != f) }
  if i.pending = [] then none else some i

/-- `ccnl_face_remove`. -/
def faceRemove (σ : Relay) (f : FaceId) : Relay :=
  let pit := σ.pit.filterMap (faceClean f)
  { σ with
    pit := pit
    pitcnt := σ.pitcnt - (σ.pit.length - pit.length : Nat)
    fib := σ.fib.filter (·.face != some f)
    faces := σ.faces.filter (·.faceid != f) }

/-! ## Interests -/

/-- `ccnl_pkt_interest_lifetime`, in seconds. -/
def pktInterestLifetime (pkt : Pkt) : Nat :=
  match pkt.suite with
  | .ccntlv => interestTimeout
  | .ndntlv => pkt.ndntlv.interestlifetime / 1000
  | _ => interestTimeout

/-- `ccnl_interest_new`: `none` when the PIT is full. -/
def interestNew (now : Nat) (σ : Relay) («from» : Option FaceId) (pkt : Pkt) :
    Option (Relay × Interest) :=
  let i : Interest :=
    { pkt := pkt, «from» := «from», lifetime := u32 (pktInterestLifetime pkt), lastUsed := u32 now }
  if σ.maxPitEntries ≠ -1 ∧ σ.maxPitEntries ≤ σ.pitcnt then none
  else some ({ σ with pit := i :: σ.pit, pitcnt := σ.pitcnt + 1 }, i)

/-- `ccnl_interest_isSame`. -/
def interestIsSame (i : Interest) (pkt : Pkt) : Run Bool := do
  let ip ← deref i.pkt.pfx
  if ip.suite ≠ pkt.suite then return false
  let p ← deref pkt.pfx
  if prefixCmp ip none p .exact ≠ 0 then return false
  match ip.suite with
  | .ccnb =>
    let a := i.pkt.ccnb
    let b := pkt.ccnb
    return a.minsuffix == b.minsuffix && a.maxsuffix == b.maxsuffix &&
      ((a.ppkd.isNone && b.ppkd.isNone) || bufEqual a.ppkd b.ppkd)
  | .ndntlv =>
    let a := i.pkt.ndntlv
    let b := pkt.ndntlv
    return a.minsuffix == b.minsuffix && a.maxsuffix == b.maxsuffix &&
      ((a.ppkl.isNone && b.ppkl.isNone) || bufEqual a.ppkl b.ppkl)
  | _ => return true

/-- `ccnl_interest_append_pending`. -/
def interestAppendPending (now : Nat) (i : Interest) (f : FaceId) : Interest :=
  if i.pending.any (·.face == f) then
    { i with pending := i.pending.map fun pi =>
        if pi.face = f then { pi with lastUsed := u32 now } else pi }
  else { i with pending := i.pending ++ [⟨f, u32 now⟩] }

/-- An Interest is not forwarded to the face that it came from, except to a wireless one. -/
def towardsOrigin (σ : Relay) (i : Interest) (fwd : Forward) : Run Bool := do
  match i.from with
  | none => return false
  | some f =>
    if fwd.face ≠ some f then return false
    let x ← σ.face f
    return !x.reflect

/-- The pass of `ccnl_interest_propagate` over one FIB entry. -/
def propagateTo (i : Interest) (σ : Relay) (fwd : Forward) : Run Relay := do
  match fwd.pfx, i.pkt.pfx with
  | some fp, some p =>
    if fwd.suite ≠ p.suite then return σ
    if prefixCmp fp none p .longest < fp.compcnt then return σ
    if ← towardsOrigin σ i fwd then return σ
    let σ := match fwd.tap with
      | some t => { σ with out := σ.out ++ [.tap t i.pkt.buf] }
      | none => σ
    match fwd.face with
    | some f => sendPkt σ f i.pkt
    | none => return σ
  | _, _ => return σ

/-- `ccnl_interest_propagate`. -/
def interestPropagate (σ : Relay) (i : Interest) : Run Relay := σ.fib.foldlM (propagateTo i) σ

/-! ## Contents -/

/-- `ccnl_content_new`. -/
def contentNew (now : Nat) (pkt : Pkt) : Content := { pkt := pkt, lastUsed := u32 now }

/-- `ccnl_content_remove` of the content at index `k`. -/
def contentRemove (σ : Relay) (k : Nat) : Relay :=
  { σ with contents := σ.contents.eraseIdx k, contentcnt := σ.contentcnt - 1 }

/-- Some cached content has the name `p` for `CMP_EXACT`: the scan of `ccnl_fwd_handleContent` and
`ccnl_content_add2cache`. Each call puts its own name on one side of the comparison, which makes
no difference to it. -/
def isCached (p : Option Prefix) : List Content → Run Bool
  | [] => .ok false
  | c :: cs => do
    if prefixCmp (← deref c.pkt.pfx) none (← deref p) .exact = 0 then return true
    else isCached p cs

/-- The scan for the oldest content that may be evicted. `age` 0 stands for "none seen". -/
def oldestFrom : List Content → Nat → Nat → Option Nat → Option Nat
  | [], _, _, oldest => oldest
  | c :: cs, k, age, oldest =>
    if ¬ c.static ∧ (age = 0 ∨ c.lastUsed < age) then oldestFrom cs (k + 1) c.lastUsed (some k)
    else oldestFrom cs (k + 1) age oldest

/-- Remove the oldest content when the cache is full. -/
def evict (σ : Relay) : Relay :=
  if 0 < σ.maxCacheEntries ∧ σ.maxCacheEntries ≤ σ.contentcnt then
    match oldestFrom σ.contents 0 0 none with
    | some k => contentRemove σ k
    | none => σ
  else σ

/-- `ccnl_content_add2cache`. -/
def contentAdd2cache (σ : Relay) (c : Content) : Run Relay := do
  if ← isCached c.pkt.pfx σ.contents then return σ
  let σ := evict σ
  if σ.maxCacheEntries ≤ 0 ∨ σ.contentcnt ≤ σ.maxCacheEntries then
    return { σ with contents := c :: σ.contents, contentcnt := σ.contentcnt + 1 }
  else return σ

/-! ## Ageing -/

/-- What `ccnl_do_ageing` makes of a content. -/
def ageContent (t : Nat) (c : Content) : Option Content :=
  if u32 (c.lastUsed + contentTimeout) ≤ t ∧ ¬ c.static then none
  else if c.pkt.suite = .ndntlv ∧ u64 (c.lastUsed + c.pkt.ndntlv.freshnessperiod / 1000) ≤ t ∧
      ¬ c.static then
    some { c with stale := true }
  else some c

/-- The pass of `ccnl_do_ageing` over the PIT; the entries it keeps. -/
def agePit (t : Nat) : List Interest → Relay → Run (List Interest × Relay)
  | [], σ => .ok ([], σ)
  | i :: pit, σ =>
    if u32 (i.lastUsed + i.lifetime) ≤ t ∨ maxInterestRetransmit ≤ i.retries then
      agePit t pit { σ with pitcnt := σ.pitcnt - 1 }
    else do
      let σ ← interestPropagate σ i
      let (kept, σ) ← agePit t pit σ
      return ({ i with retries := i.retries + 1 } :: kept, σ)

/-- A face that `ccnl_do_ageing` removes. -/
def Face.expired (t : Nat) (f : Face) : Bool := !f.static && u32 (f.lastUsed + faceTimeout) ≤ t

/-- `ccnl_do_ageing`. -/
def doAgeing (now : Nat) (σ : Relay) : Run Relay := do
  let t := u32 now
  let contents := σ.contents.filterMap (ageContent t)
  let σ := { σ with
    contents := contents
    contentcnt := σ.contentcnt - (σ.contents.length - contents.length : Nat) }
  let (pit, σ) ← agePit t σ.pit σ
  let σ := { σ with pit := pit }
  return (σ.faces.filter (·.expired t)).foldl (fun σ f => faceRemove σ f.faceid) σ

/-! ## Nonces -/

/-- `ccnl_nonce_find_or_append`: `none` when the nonce is known. The oldest nonce goes when the
list is full. -/
def nonceFindOrAppend (nonces : List (List UInt8)) (nonce : List UInt8) :
    Option (List (List UInt8)) :=
  if nonces.any (fun n => bufEqual (some n) (some nonce)) then none
  else if maxNonces ≤ nonces.length ∧ 2 ≤ nonces.length then some (nonce :: nonces.dropLast)
  else some (nonce :: nonces)

/-- The nonce that `ccnl_nonce_isDup` looks up. -/
def Pkt.nonce (pkt : Pkt) : Option (List UInt8) :=
  match pkt.suite with
  | .ccnb => pkt.ccnb.nonce
  | .ndntlv => pkt.ndntlv.nonce
  | _ => none

/-- `ccnl_nonce_isDup`: `none` when the Interest is a duplicate. -/
def nonceIsDup (σ : Relay) (pkt : Pkt) : Option Relay :=
  match pkt.nonce with
  | none => some σ
  | some n => (nonceFindOrAppend σ.nonces n).map fun ns => { σ with nonces := ns }

/-! ## The FIB -/

/-- `ccnl_fib_add_entry`. -/
def fibAddEntry (σ : Relay) (p : Prefix) (f : Option FaceId) : Relay :=
  match σ.fib.findIdx? fun fwd =>
      fwd.suite == p.suite && fwd.pfx.any (fun q => prefixCmp q none p .exact == 0) with
  | some k => { σ with fib := σ.fib.modify k fun fwd => { fwd with pfx := p, face := f } }
  | none => { σ with fib := σ.fib ++ [{ pfx := p, suite := p.suite, face := f }] }

/-- `ccnl_fib_rem_entry`; a NULL argument matches every entry. -/
def fibRemEntry (σ : Relay) (p : Option Prefix) (f : Option FaceId) : Relay :=
  match σ.fib.findIdx? fun fwd =>
      p.all (fun p => fwd.suite == p.suite &&
        fwd.pfx.any (fun q => prefixCmp q none p .exact == 0)) &&
      (f.isNone || fwd.face == f) with
  | some k => { σ with fib := σ.fib.eraseIdx k }
  | none => σ

end Ccnl
