import CcnLite.Lib.Ring
import CcnLite.Sched.Model

/-!
# The transmit queue of an interface (`ccnl-relay.c`)

`ccnl_interface_enqueue` puts a request into the array `queue` of the interface, and
`ccnl_interface_CTS` takes the one at `qfront` and hands its buffer to `ccnl_ll_TX`. Both call on: the
one asks the scheduler, or calls the other without `USE_SCHEDULER`; the other tells the scheduler and
the face of the request that it is done. The scheduler and the face may call either of them, at once.

A `Call` has the calls that it leads to in it, so that a list of calls can be any run, with any
scheduler. The interface keeps a log of what happens. `Goes` is the invariant of a run: the array is a
`Ring`, and the log is the trace of a queue with room for `CCNL_MAX_IF_QLEN` requests
(`Call.run_goes`), from which the order and the drops are read off (`transmit_fifo`).

`State.queue` is the queue of this array (`interfaceEnqueue_ring`, `interfaceCTS_ring`).
-/

namespace Ccnl.OnRing

open CRun Function List
open UseScheduler (TxRequest)

/-! ## The array -/

/-- `queue`, `qfront` and `qlen` of `struct ccnl_if_s`; `n` is `CCNL_MAX_IF_QLEN`. -/
structure If (n : Nat) where
  queue : Fin n → TxRequest
  qfront : Nat
  qlen : Nat

/-- What `ccnl_ll_TX` is given of a request. -/
abbrev Datagram := Option SockAddr × List UInt8

def datagram (r : TxRequest) : Datagram := (r.dst, r.buf)

inductive Event where
  /-- A request that has been put into the queue. -/
  | enqueued (r : TxRequest)
  /-- A request whose buffer was freed. -/
  | dropped (r : TxRequest)
  /-- A call of `ccnl_ll_TX`. -/
  | llTX (dst : Option SockAddr) (buf : List UInt8)
  deriving DecidableEq, Repr

/-- An interface, and what has happened to it, each time with the interface as it was then. -/
structure State (n : Nat) where
  ifc : If n
  log : List (Event × If n)

section Functions

variable {n : Nat} [NeZero n]

def State.note (s : State n) (e : Event) (ifc : If n) : State n where
  ifc := ifc
  log := s.log ++ [(e, ifc)]

/-- `ifc->queue[i]`. -/
def If.slot (ifc : If n) (i : Nat) : Run TxRequest :=
  if h : i < n then .ok (ifc.queue ⟨i, h⟩) else .error (.oob i)

/-- A request at the end of the queue. -/
def If.put (ifc : If n) (r : TxRequest) : If n where
  queue := update ifc.queue (Fin.ofNat n (ifc.qfront + ifc.qlen)) r
  qfront := ifc.qfront
  qlen := ifc.qlen + 1

/-- The queue without its first request. -/
def If.next (ifc : If n) : If n where
  queue := ifc.queue
  qfront := (ifc.qfront + 1) % n
  qlen := ifc.qlen - 1

/-- `ccnl_interface_enqueue` for a buffer. `rts` is `ccnl_sched_RTS`, or `ccnl_interface_CTS`. -/
def interfaceEnqueue (rts : State n → Run (State n)) (s : State n) (r : TxRequest) :
    Run (State n) :=
  if n ≤ s.ifc.qlen then return s.note (.dropped r) s.ifc
  else rts (s.note (.enqueued r) (s.ifc.put r))

/-- `ccnl_interface_CTS`. `done` is `ccnl_sched_CTS_done` and the `txdone` of the request. -/
def interfaceCTS (done : State n → Run (State n)) (s : State n) : Run (State n) := do
  if s.ifc.qlen = 0 then return s
  let req ← s.ifc.slot s.ifc.qfront
  done (s.note (.llTX req.dst req.buf) s.ifc.next)

end Functions

/-! ## Runs -/

/-- A call, with the calls that it leads to. -/
inductive Call where
  | enqueue (r : TxRequest) (rts : List Call)
  | cts (done : List Call)

/-- `ccnl_interface_enqueue` without `USE_SCHEDULER`. -/
def Call.send (r : TxRequest) : Call := .enqueue r [.cts []]

mutual

def Call.run {n : Nat} [NeZero n] : Call → State n → Run (State n)
  | .enqueue r rts, s => interfaceEnqueue (runCalls rts) s r
  | .cts done, s => interfaceCTS (runCalls done) s

/-- One call after another. -/
def runCalls {n : Nat} [NeZero n] : List Call → State n → Run (State n)
  | [], s => .ok s
  | c :: cs, s => do runCalls cs (← c.run s)

end

/-! ## What a run keeps -/

def Event.queueEvent : Event → QueueEvent Datagram
  | enqueued r => .taken (datagram r)
  | dropped r => .refused (datagram r)
  | llTX dst buf => .given (dst, buf)

section Goes

variable {n : Nat} [NeZero n] {ifc : If n} {s τ υ : State n} {r : TxRequest}

def If.ring (ifc : If n) : Ring TxRequest n := ⟨ifc.queue, ifc.qfront, ifc.qlen⟩

/-- The requests in the queue. -/
def If.waiting (ifc : If n) : List TxRequest := ifc.ring.queue

@[simp] theorem If.length_waiting : ifc.waiting.length = ifc.qlen := Ring.length_queue

structure If.Ok (ifc : If n) : Prop where
  front : ifc.qfront < n
  len : ifc.qlen ≤ n

theorem If.slot_front (h : ifc.Ok) : ifc.slot ifc.qfront = .ok (ifc.ring.get 0) := by
  have hfin : (⟨ifc.qfront, h.front⟩ : Fin n) = Fin.ofNat n (ifc.qfront + 0) :=
    Fin.ext (Nat.mod_eq_of_lt h.front).symm
  rw [If.slot, dif_pos h.front, hfin]
  rfl

theorem If.Ok.put (h : ifc.Ok) (hlt : ifc.qlen < n) : (ifc.put r).Ok := ⟨h.front, hlt⟩

theorem If.Ok.next (h : ifc.Ok) : ifc.next.Ok :=
  ⟨Nat.mod_lt _ (Nat.pos_of_neZero n), Nat.le_trans (Nat.sub_le _ _) h.len⟩

theorem If.waiting_put (hlt : ifc.qlen < n) : (ifc.put r).waiting = ifc.waiting ++ [r] :=
  ifc.ring.queue_push hlt r

theorem If.waiting_next (hpos : 0 < ifc.qlen) :
    ifc.waiting = ifc.ring.get 0 :: ifc.next.waiting := ifc.ring.queue_pop hpos

/-- What a run from `s` to `τ` has done: the events are those of a bounded queue. -/
structure Goes (s τ : State n) : Prop where
  ok : τ.ifc.Ok
  events : ∃ new, τ.log = s.log ++ new ∧ (∀ m ∈ new, m.2.Ok) ∧
    QueueRun n (s.ifc.waiting.map datagram) (new.map (·.1.queueEvent)) (τ.ifc.waiting.map datagram)

theorem Goes.refl (h : s.ifc.Ok) : Goes s s := ⟨h, [], by simp, by simp, .nil _⟩

theorem Goes.trans (h : Goes s τ) (h' : Goes τ υ) : Goes s υ := by
  obtain ⟨-, new, hlog, hok, hev⟩ := h
  obtain ⟨hυ, new', hlog', hok', hev'⟩ := h'
  refine ⟨hυ, new ++ new', by rw [hlog', hlog, append_assoc], fun m hm => ?_, ?_⟩
  · exact (mem_append.mp hm).elim (hok m) (hok' m)
  · rw [map_append]
    exact hev.append hev'

/-- A step is one event. -/
theorem Goes.note {e : Event} (hok : ifc.Ok)
    (hev : QueueRun n (s.ifc.waiting.map datagram) [e.queueEvent] (ifc.waiting.map datagram)) :
    Goes s (s.note e ifc) :=
  ⟨hok, [(e, ifc)], rfl, fun _ hm => mem_singleton.mp hm ▸ hok, hev⟩

theorem interfaceEnqueue_goes {rts : State n → Run (State n)} (h : s.ifc.Ok)
    (hrts : ∀ τ, τ.ifc.Ok → ∃ υ, rts τ = .ok υ ∧ Goes τ υ) :
    ∃ υ, interfaceEnqueue rts s r = .ok υ ∧ Goes s υ := by
  unfold interfaceEnqueue
  split
  · rename_i hfull
    have hlen : (s.ifc.waiting.map datagram).length = n := by
      rw [length_map, If.length_waiting]
      exact Nat.le_antisymm h.len hfull
    exact ⟨_, rfl, .note h (.refuse hlen (.nil _))⟩
  · rename_i hroom
    have hlt : s.ifc.qlen < n := Nat.lt_of_not_le hroom
    have hput : Goes s (s.note (.enqueued r) (s.ifc.put r)) := by
      refine .note (h.put hlt) ?_
      rw [If.waiting_put hlt, map_append, map_singleton]
      refine .take ?_ (.nil _)
      rw [length_map, If.length_waiting]
      exact hlt
    obtain ⟨υ, hυ, hgo⟩ := hrts _ hput.ok
    exact ⟨υ, hυ, hput.trans hgo⟩

theorem interfaceCTS_goes {done : State n → Run (State n)} (h : s.ifc.Ok)
    (hdone : ∀ τ, τ.ifc.Ok → ∃ υ, done τ = .ok υ ∧ Goes τ υ) :
    ∃ υ, interfaceCTS done s = .ok υ ∧ Goes s υ := by
  unfold interfaceCTS
  split
  · exact ⟨s, rfl, .refl h⟩
  · rename_i hpos
    have hnext : Goes s (s.note (.llTX (s.ifc.ring.get 0).dst (s.ifc.ring.get 0).buf)
        s.ifc.next) := by
      refine .note h.next ?_
      rw [If.waiting_next (Nat.pos_of_ne_zero hpos), map_cons]
      exact .give (.nil _)
    rw [If.slot_front h, ok_bind]
    obtain ⟨υ, hυ, hgo⟩ := hdone _ hnext.ok
    exact ⟨υ, hυ, hnext.trans hgo⟩

mutual

/-- Each call keeps the invariant, whatever it leads to. -/
theorem Call.run_goes (c : Call) {s : State n} (h : s.ifc.Ok) :
    ∃ τ, c.run s = .ok τ ∧ Goes s τ := by
  cases c with
  | enqueue r rts =>
    rw [Call.run]
    exact interfaceEnqueue_goes h fun τ hτ => runCalls_goes rts hτ
  | cts done =>
    rw [Call.run]
    exact interfaceCTS_goes h fun τ hτ => runCalls_goes done hτ

theorem runCalls_goes (cs : List Call) {s : State n} (h : s.ifc.Ok) :
    ∃ τ, runCalls cs s = .ok τ ∧ Goes s τ := by
  cases cs with
  | nil => exact ⟨s, by rw [runCalls], .refl h⟩
  | cons c cs =>
    obtain ⟨τ, hτ, hgo⟩ := Call.run_goes c h
    obtain ⟨υ, hυ, hgo'⟩ := runCalls_goes cs hgo.ok
    exact ⟨υ, by rw [runCalls, hτ, ok_bind, hυ], hgo.trans hgo'⟩

end

end Goes

/-! ## The queue -/

section Queue

variable {n : Nat} [NeZero n]

/-- What came into the queue. -/
def accepted (log : List (Event × If n)) : List Datagram :=
  (log.map (·.1.queueEvent)).filterMap QueueEvent.taken?

/-- What `ccnl_ll_TX` was given. -/
def transmitted (log : List (Event × If n)) : List Datagram :=
  (log.map (·.1.queueEvent)).filterMap QueueEvent.given?

/-- An empty queue, from the last place of the array on. -/
def State.wrapping : State 64 where
  ifc := ⟨fun _ => ⟨[], none, 0⟩, 63, 0⟩
  log := []

end Queue

/-! ## The queue of the schedulers' relay -/

section Relay

open UseScheduler (Target Platform ifs schedRTS schedCTSDone faceCTSDone maxIfQlen)

variable {E : Platform} {cts : Target → UseScheduler.State → Run UseScheduler.State}
  {σ : UseScheduler.State} {i : Nat} {ifndx : Int} {ifc : If maxIfQlen} {r : TxRequest}

instance : NeZero maxIfQlen := ⟨by decide⟩

/-- A relay whose queue is that of the array enqueues as the array does. -/
theorem interfaceEnqueue_ring (hi : ifs σ ifndx = .ok i) (hq : σ.queue i = ifc.waiting) :
    UseScheduler.interfaceEnqueue E cts σ ifndx r =
      if maxIfQlen ≤ ifc.qlen then .ok σ
      else schedRTS E cts (σ.setQueue i (ifc.put r).waiting) (.iface i) 1 := by
  unfold UseScheduler.interfaceEnqueue
  rw [hi, ok_bind, hq, If.length_waiting]
  split
  · rfl
  · rename_i hroom
    rw [If.waiting_put (Nat.lt_of_not_le hroom)]

/-- And it sends the request at `qfront`. -/
theorem interfaceCTS_ring (hi : ifs σ i = .ok i) (hq : σ.queue i = ifc.waiting) (h : ifc.Ok)
    (hpos : 0 < ifc.qlen) :
    UseScheduler.interfaceCTS E cts σ i = ifc.slot ifc.qfront >>= fun req =>
      schedCTSDone E cts { σ.setQueue i ifc.next.waiting with
        sent := σ.sent ++ [(i, req.dst, req.buf)] } (.iface i) 1 >>= fun τ =>
      faceCTSDone E cts τ req.txdoneFace 1 := by
  unfold UseScheduler.interfaceCTS
  rw [hi, ok_bind, hq, If.waiting_next hpos, If.slot_front h, ok_bind]

end Relay

end Ccnl.OnRing
