import CcnLite.Fwd.Faces
import Mathlib.Data.List.Sort
import Mathlib.Logic.Function.Basic

/-!
# Schedulers (`ccnl-sched.c`, `ccnl-os-time.c`, `ccnl-relay.c` with `USE_SCHEDULER`)

With `USE_SCHEDULER` a buffer waits in the queue of its face until the scheduler of the face gives
the clearance to send (`ccnl_face_CTS`), and then in the queue of the interface until the scheduler of
the interface does (`ccnl_interface_CTS`). A scheduler that has to wait sets a timer with the callback.
`State` is the relay with its queues, schedulers and timers; `State.base` are the tables, on which the
functions of `Core.Relay` work. There is no fragmentation (`USE_FRAG`), and no `USE_CHEMFLOW`.

The callbacks call each other. Each function takes the callback as its parameter `cts`, and `cts`
itself is by recursion on fuel. Each callback takes a buffer out of a queue, so `State.work` is fuel
enough (`cts_serves` in `Sched.Outlive`).
-/

namespace Ccnl.UseScheduler

open CRun Function

/-! ## The data -/

/-- `CCNL_MAX_IF_QLEN`. -/
def maxIfQlen : Nat := 64

/-- The owner of a scheduler. The callback of the scheduler of a face is `ccnl_face_CTS` with the
face, the one of an interface `ccnl_interface_CTS` with the interface. -/
inductive Target where
  | face (f : FaceId)
  | iface (i : Nat)
  deriving DecidableEq, Repr

/-- What a timer calls: a callback of a scheduler, or `ccnl_ageing`. -/
inductive Callback where
  | cts (t : Target)
  | ageing
  deriving DecidableEq, Repr

/-- `struct ccnl_timer_s`. Times are in microseconds. -/
structure Timer where
  id : Nat
  timeout : Int
  call : Callback
  deriving DecidableEq, Repr

/-- `mode` of `struct ccnl_sched_s`. -/
inductive Mode where
  | dummy
  | pktrate
  deriving DecidableEq, Repr

/-- `struct ccnl_sched_s`. -/
structure Sched where
  mode : Mode
  aux2 : Option Target := none
  cnt : Int := 0
  pendingTimer : Option Nat := none
  nextTX : Int := 0
  /-- The inter-packet interval. -/
  ipi : Int := 0
  deriving DecidableEq, Repr

/-- `struct ccnl_txrequest_s`. The only `txdone` is `ccnl_face_CTS_done`. -/
structure TxRequest where
  buf : List UInt8
  dst : Option SockAddr
  txdoneFace : FaceId
  deriving DecidableEq, Repr

/-- The relay with its queues, schedulers and timers. -/
structure State where
  base : Relay
  /-- The `sched` of each face and interface. -/
  sched : Target → Option Sched
  /-- The `outq` of each face. -/
  outq : FaceId → List (List UInt8)
  /-- The `queue` of each interface. -/
  queue : Nat → List TxRequest
  eventqueue : List Timer
  /-- The number of timers that have been set. -/
  timers : Nat
  /-- The number of times that the clock has been read. -/
  reads : Nat
  /-- What `ccnl_ll_TX` has been given. -/
  sent : List (Nat × Option SockAddr × List UInt8)

/-- What the relay runs on. -/
structure Platform where
  /-- What `gettimeofday` gives, one call after another. -/
  clock : Nat → Int
  /-- What `defaultFaceScheduler` makes, if it is set. -/
  defaultFaceScheduler : Option (Mode × Int)

/-! ## Time -/

variable (E : Platform)

namespace State

/-- `gettimeofday`. -/
def gettimeofday (σ : State) : Int × State := (E.clock σ.reads, { σ with reads := σ.reads + 1 })

def setSched (σ : State) (t : Target) (s : Option Sched) : State :=
  { σ with sched := update σ.sched t s }

def setOutq (σ : State) (f : FaceId) (q : List (List UInt8)) : State :=
  { σ with outq := update σ.outq f q }

def setQueue (σ : State) (i : Nat) (q : List TxRequest) : State :=
  { σ with queue := update σ.queue i q }

end State

/-- `ccnl_set_timer`: the timer comes before the first one with a later timeout. -/
def setTimer (σ : State) (usec : Int) (call : Callback) : Nat × State :=
  let (now, σ) := σ.gettimeofday E
  let t : Timer := { id := σ.timers, timeout := now + usec, call := call }
  (t.id, { σ with
    timers := σ.timers + 1
    eventqueue := σ.eventqueue.orderedInsert (fun t u => t.timeout < u.timeout) t })

/-! ## Schedulers -/

/-- `ccnl_sched_dummy_new` and `ccnl_sched_pktrate_new`. -/
def schedNew (σ : State) : Mode × Int → Sched × State
  | (.dummy, _) => ({ mode := .dummy }, σ)
  | (.pktrate, ipi) =>
    let (now, σ) := σ.gettimeofday E
    ({ mode := .pktrate, nextTX := now, ipi := ipi }, σ)

section Callbacks

variable (cts : Target → State → Run State)

/-- The end of `ccnl_sched_RTS` and of `ccnl_sched_CTS_done`: the callback is called now, or a timer
is set for it. -/
def schedServe (σ : State) (t : Target) (s : Sched) : Run State := do
  let aux2 ← deref s.aux2
  match s.mode with
  | .dummy => cts aux2 (σ.setSched t s)
  | .pktrate =>
    let (now, σ) := σ.gettimeofday E
    let since := s.nextTX - now
    if since ≤ 0 then
      cts aux2 (σ.setSched t (some { s with nextTX := now + s.ipi }))
    else
      let (id, σ) := setTimer E σ since (.cts aux2)
      return σ.setSched t (some { s with pendingTimer := some id, nextTX := s.nextTX + s.ipi })

/-- `ccnl_sched_RTS` of the scheduler of `t`, with `t` as `aux2`. -/
def schedRTS (σ : State) (t : Target) (cnt : Int) : Run State :=
  match σ.sched t with
  | none => .ok σ
  | some s => schedServe E cts σ t { s with cnt := s.cnt + cnt, aux2 := some t }

/-- `ccnl_sched_CTS_done` of the scheduler of `t`. -/
def schedCTSDone (σ : State) (t : Target) (cnt : Int) : Run State :=
  match σ.sched t with
  | none => .ok σ
  | some s =>
    let s := { s with cnt := s.cnt - cnt }
    if s.cnt ≤ 0 then .ok (σ.setSched t (some s)) else schedServe E cts σ t s

/-! ## Queues -/

/-- `ccnl->ifs + ifndx`. -/
def ifs (σ : State) (ifndx : Int) : Run Nat :=
  if 0 ≤ ifndx ∧ ifndx < σ.base.ifs.length then .ok ifndx.toNat else .error (.oob σ.base.ifs.length)

/-- `ccnl_interface_enqueue`. A buffer that finds the queue full is dropped. -/
def interfaceEnqueue (σ : State) (ifndx : Int) (r : TxRequest) : Run State := do
  let i ← ifs σ ifndx
  if maxIfQlen ≤ (σ.queue i).length then return σ
  schedRTS E cts (σ.setQueue i (σ.queue i ++ [r])) (.iface i) 1

/-- `ccnl_face_CTS_done`. -/
def faceCTSDone (σ : State) (f : FaceId) (cnt : Int) : Run State := do
  let _ ← σ.base.face f
  schedCTSDone E cts σ (.face f) cnt

/-- `ccnl_face_CTS`. -/
def faceCTS (σ : State) (f : FaceId) : Run State := do
  let x ← σ.base.face f
  match σ.outq f with
  | [] => return σ
  | buf :: outq => interfaceEnqueue E cts (σ.setOutq f outq) x.ifndx ⟨buf, x.peer, f⟩

/-- `ccnl_interface_CTS`. -/
def interfaceCTS (σ : State) (i : Nat) : Run State := do
  let i ← ifs σ i
  match σ.queue i with
  | [] => return σ
  | req :: queue =>
    let σ := { σ.setQueue i queue with sent := σ.sent ++ [(i, req.dst, req.buf)] }
    let σ ← schedCTSDone E cts σ (.iface i) 1
    faceCTSDone E cts σ req.txdoneFace 1

end Callbacks

/-- The callbacks of the schedulers. -/
def cts : Nat → Target → State → Run State
  | 0, _, _ => .error .fuel
  | n + 1, .face f, σ => faceCTS E (cts n) σ f
  | n + 1, .iface i, σ => interfaceCTS E (cts n) σ i

/-- The number of elements of some queues. -/
def total {ι β : Type} (q : ι → List β) (l : List ι) : Nat := (l.map fun i => (q i).length).sum

/-- How many callbacks the queued buffers can lead to: one for each queue that a buffer goes
through. -/
def State.work (σ : State) : Nat :=
  2 * total σ.outq (σ.base.faces.map (·.faceid)) + total σ.queue (List.range σ.base.ifs.length)

/-- A callback with enough fuel. -/
def callback (t : Target) (σ : State) : Run State := cts E (σ.work + 1) t σ

/-! ## Faces -/

/-- `ccnl_face_enqueue` after the tables have recorded the call. -/
def outqEnqueue (σ : State) (f : FaceId) (buf : List UInt8) : Run State := do
  if (σ.outq f).any fun msg => bufEqual (some msg) (some buf) then return σ
  let σ := σ.setOutq f (σ.outq f ++ [buf])
  if (σ.sched (.face f)).isSome then schedRTS E (callback E) σ (.face f) 1
  else callback E (.face f) σ

/-- `ccnl_face_enqueue`. -/
def faceEnqueue (σ : State) (f : FaceId) (buf : List UInt8) : Run State := do
  let base ← Ccnl.faceEnqueue σ.base f buf
  outqEnqueue E { σ with base := base } f buf

/-- The face that `ccnl_get_face_or_create` makes once the interface is known. -/
def faceNew (now : Nat) (σ : State) (ifndx : Int) (sa : Option SockAddr) : State × FaceId :=
  let (base, f) := Ccnl.faceNew now σ.base ifndx sa
  let σ := { σ with base := base }
  match E.defaultFaceScheduler with
  | some d =>
    if 0 ≤ ifndx then
      let (s, σ) := schedNew E σ d
      (σ.setSched (.face f) s, f)
    else (σ, f)
  | none => (σ, f)

/-- `ccnl_get_face_or_create`. -/
def getFaceOrCreate (now : Nat) (σ : State) (ifndx : Int) (sa : Option SockAddr) :
    State × Option FaceId :=
  match sa with
  | none =>
    match σ.base.faces.find? (·.ifndx == -1) with
    | some f => (σ, f.faceid)
    | none => (faceNew E now σ ifndx none).map id some
  | some a =>
    match σ.base.faces.find? fun f =>
        ifndx != -1 && f.ifndx == ifndx && f.peer.any (addrSame · a) with
    | some f =>
      ({ σ with base := σ.base.setFace f.faceid fun x => { x with lastUsed := u32 now } }, f.faceid)
    | none =>
      if ifndx = -1 then
        match σ.base.ifs.findIdx? (·.addr.family == a.family) with
        | none => (σ, none)
        | some i => (faceNew E now σ i a).map id some
      else (faceNew E now σ ifndx a).map id some

/-- `ccnl_face_remove`. The scheduler is freed and the queue of the face is emptied; the timers and
the queues of the interfaces stay. -/
def faceRemove (σ : State) (f : FaceId) : State :=
  ({ σ with base := Ccnl.faceRemove σ.base f }.setSched (.face f) none).setOutq f []

/-! ## Ageing -/

/-- What the tables record of a call. -/
def handOut (σ : State) : Out → Run State
  | .send f buf => outqEnqueue E σ f buf
  | .tap _ _ => .ok σ

/-- The pass of `ccnl_interest_propagate` over one FIB entry. -/
def propagateTo (i : Interest) (σ : State) (fwd : Forward) : Run State := do
  let base ← Ccnl.propagateTo i σ.base fwd
  (base.out.drop σ.base.out.length).foldlM (handOut E) { σ with base := base }

/-- `ccnl_interest_propagate`. -/
def interestPropagate (σ : State) (i : Interest) : Run State :=
  σ.base.fib.foldlM (propagateTo E i) σ

/-- The pass of `ccnl_do_ageing` over the PIT; the entries it keeps. -/
def agePit (t : Nat) : List Interest → State → Run (List Interest × State)
  | [], σ => .ok ([], σ)
  | i :: pit, σ =>
    if u32 (i.lastUsed + i.lifetime) ≤ t ∨ maxInterestRetransmit ≤ i.retries then
      agePit t pit { σ with base := { σ.base with pitcnt := σ.base.pitcnt - 1 } }
    else do
      let σ ← interestPropagate E σ i
      let (kept, σ) ← agePit t pit σ
      return ({ i with retries := i.retries + 1 } :: kept, σ)

/-- The passes of `ccnl_do_ageing` over the contents and the PIT. -/
def ageTables (now : Nat) (σ : State) : Run State := do
  let t := u32 now
  let contents := σ.base.contents.filterMap (ageContent t)
  let σ := { σ with base := { σ.base with
    contents := contents
    contentcnt := σ.base.contentcnt - (σ.base.contents.length - contents.length : Nat) } }
  let (pit, σ) ← agePit E t σ.base.pit σ
  return { σ with base := { σ.base with pit := pit } }

/-- The faces that `ccnl_do_ageing` removes. -/
def expiredFaces (now : Nat) (σ : State) : List FaceId :=
  (σ.base.faces.filter (·.expired (u32 now))).map (·.faceid)

/-- `ccnl_do_ageing`. -/
def doAgeing (now : Nat) (σ : State) : Run State := do
  let σ ← ageTables E now σ
  return (expiredFaces now σ).foldl faceRemove σ

/-- `ccnl_ageing`. -/
def ageing (now : Nat) (σ : State) : Run State := do
  let σ ← doAgeing E now σ
  return (setTimer E σ 1000000 .ageing).2

/-! ## Timers -/

/-- A timer calls. -/
def Callback.run (now : Nat) : Callback → State → Run State
  | cts t, σ => callback E t σ
  | ageing, σ => UseScheduler.ageing E now σ

/-- A pass of the loop of `ccnl_run_events`, which has read the clock once. The loop is left with the
time until the next timer. -/
def runEventsStep (clock : Int) (now : Nat) (σ : State) : Run (State ⊕ State × Int) :=
  match σ.eventqueue with
  | [] => .ok (.inr (σ, -1))
  | t :: _ =>
    let usec := t.timeout - clock
    if 0 ≤ usec then .ok (.inr (σ, usec))
    else do
      let σ ← t.call.run E now σ
      -- `t->next`: what comes after the timer when the call has ended
      return .inl { σ with eventqueue := (σ.eventqueue.dropWhile (·.id != t.id)).tail }

end Ccnl.UseScheduler
