import CcnLite.Lib.Chain
import CcnLite.Sched.Model

/-!
# The output queue of a face (`ccnl-relay.c`)

`ccnl_face_enqueue` links a buffer to the last one in the queue of the face, which `outqend` points
to, unless an equal one is waiting. `ccnl_face_dequeue` takes the first one. The buffers lie in a heap
where those that the callers have may be freed and overwritten.

`Ok` is the invariant of a run (`run_ok`), from which the order and the rejections are read off
(`outq_fifo`). `UseScheduler.State.outq` is the queue of this face (`outqEnqueue_chain`,
`faceCTS_chain`).
-/

namespace Ccnl.OnChain

open CRun

/-! ## The functions -/

/-- `struct ccnl_buf_s`; `datalen` is the length of `data`. -/
structure Buf where
  next : Option Nat
  data : List UInt8
  deriving DecidableEq, Repr

/-- The fields of `struct ccnl_face_s` for the queue, and the memory with the buffers. -/
structure Face where
  heap : Heap Buf
  outq : Option Nat
  outqend : Option Nat

/-- The loop of `ccnl_face_enqueue` over the queue. -/
def alreadyQueued (heap : Heap Buf) (buf : Buf) : Nat → Option Nat → Run Bool
  | _, none => return false
  | 0, some _ => throw .fuel
  | k + 1, some a => do
    let msg ← heap.get (some a)
    if bufEqual (some msg.data) (some buf.data) then return true
    else alreadyQueued heap buf k msg.next

/-- `if (to->outqend) to->outqend->next = buf; else to->outq = buf;`. -/
def Face.link (f : Face) (heap : Heap Buf) (a : Nat) : Run Face :=
  match f.outqend with
  | some e => do
    let last ← heap.get (some e)
    let heap ← heap.set (some e) { last with next := some a }
    return { f with heap := heap }
  | none => return { f with heap := heap, outq := some a }

/-- `ccnl_face_enqueue`. `cts` is `ccnl_sched_RTS` or `ccnl_face_CTS`, with what it leads to. -/
def faceEnqueue (cts : Face → Run Face) (f : Face) (buf : Option Nat) : Run (Int × Face) :=
  match buf with
  | none => return (-1, f)
  | some a => do
    let b ← f.heap.get (some a)
    if ← alreadyQueued f.heap b f.heap.next f.outq then
      let heap ← f.heap.free (some a)
      return (-1, { f with heap := heap })
    else
      let heap ← f.heap.set (some a) { b with next := none }
      let f ← f.link heap a
      let f ← cts { f with outqend := some a }
      return (0, f)

/-- `ccnl_face_dequeue`. -/
def faceDequeue (f : Face) : Run (Option Nat × Face) :=
  match f.outq with
  | none => return (none, f)
  | some a => do
    let pkt ← f.heap.get (some a)
    let heap ← f.heap.set (some a) { pkt with next := none }
    return (some a, {
      heap := heap
      outq := pkt.next
      outqend := if pkt.next = none then none else f.outqend })

/-! ## The queue -/

section Queue

variable {f : Face} {xs : List (Nat × Buf)} {cts : Face → Run Face} {a : Nat} {b : Buf}
  {p : Option Nat} {k : Nat}

/-- The buffers in the queue, with their addresses. -/
structure Holds (f : Face) (xs : List (Nat × Buf)) : Prop where
  chain : Seg f.heap Buf.next f.outq xs none
  last : f.outqend = (xs.map Prod.fst).getLast?
  distinct : (xs.map fun x => x.2.data).Nodup

theorem alreadyQueued_eq {heap : Heap Buf} (hs : Seg heap Buf.next p xs none) (hk : xs.length ≤ k) :
    alreadyQueued heap b k p = .ok (decide (b.data ∈ xs.map fun x => x.2.data)) := by
  induction xs generalizing p k with
  | nil =>
    obtain rfl : p = none := hs
    cases k <;> rfl
  | cons x xs ih =>
    obtain ⟨rfl, hb, hs⟩ := hs
    obtain ⟨k, rfl⟩ : ∃ j, k = j + 1 := ⟨k - 1, by simp only [List.length_cons] at hk; omega⟩
    rw [alreadyQueued, Heap.get_eq hb, ok_bind, List.map_cons]
    split
    · rename_i heq
      obtain ⟨d, hd, hd'⟩ := bufEqual_iff.mp heq
      obtain rfl := Option.some.inj hd
      obtain hd' := Option.some.inj hd'
      exact congrArg Except.ok (decide_eq_true (hd' ▸ List.mem_cons_self)).symm
    · rename_i hne
      have hne' : b.data ≠ x.2.data := fun h => hne (bufEqual_iff.mpr ⟨_, rfl, congrArg some h⟩)
      rw [ih hs (Nat.le_of_succ_le_succ hk)]
      simp only [List.mem_cons, hne', false_or]

/-- A call of the last function that `ccnl_face_enqueue` calls is the last thing that it does. -/
theorem faceEnqueue_cts (cts : Face → Run Face) (f : Face) (buf : Option Nat) :
    faceEnqueue cts f buf = faceEnqueue pure f buf >>= fun r =>
      if r.1 = 0 then cts r.2 >>= fun f' => pure (0, f') else pure r := by
  cases buf with
  | none => rfl
  | some a =>
    unfold faceEnqueue
    simp only [bind_assoc]
    refine bind_congr fun b => bind_congr fun queued => ?_
    split
    · simp only [bind_assoc, pure_bind]
      rfl
    · simp only [bind_assoc, pure_bind]
      rfl

/-- A buffer like one in the queue is freed. -/
theorem faceEnqueue_dup (h : Holds f xs) (ha : f.heap.blocks a = some b)
    (hdup : b.data ∈ xs.map fun x => x.2.data) :
    faceEnqueue pure f (some a) = .ok (-1, { f with heap := f.heap.drop a }) := by
  rw [faceEnqueue, Heap.get_eq ha, ok_bind, alreadyQueued_eq h.chain h.chain.length_le, ok_bind,
    if_pos (decide_eq_true hdup), Heap.free_eq ha]
  rfl

/-- What `f->outq` and `f->outqend` are when a buffer has been linked to the end of the queue. -/
theorem link_eq {heap : Heap Buf} (h : Holds f xs) (hs : Seg heap Buf.next f.outq xs none)
    (ha : heap.blocks a = some b) (hb : b.next = none) (hnew : a ∉ xs.map Prod.fst) :
    ∃ g xs', f.link heap a = .ok g ∧ Seg g.heap Buf.next g.outq xs' none ∧
      xs'.map Prod.fst = xs.map Prod.fst ++ [a] ∧
      (xs'.map fun x => x.2.data) = (xs.map fun x => x.2.data) ++ [b.data] ∧
      ∀ c, c ∉ xs'.map Prod.fst → g.heap.blocks c = heap.blocks c := by
  have hlast := h.last
  rcases xs.eq_nil_or_concat' with rfl | ⟨ys, ⟨e, last⟩, rfl⟩
  · have hlink : f.link heap a = .ok { f with heap := heap, outq := some a } := by
      rw [Face.link, show f.outqend = none from hlast]
      rfl
    exact ⟨_, [(a, b)], hlink, ⟨rfl, ha, hb⟩, rfl, rfl, fun _ _ => rfl⟩
  · rw [List.map_append, List.map_singleton, List.getLast?_append, List.getLast?_singleton,
      Option.some_or] at hlast
    obtain ⟨r, hys, rfl, he, -⟩ := seg_append.mp hs
    have hnodup := hs.nodup
    rw [List.map_append, List.map_singleton] at hnodup hnew
    have hfresh : e ∉ ys.map Prod.fst := by
      simpa only [List.append_nil] using (List.nodup_middle.mp hnodup).notMem
    have hae : a ≠ e := fun heq => hnew (by rw [heq]; exact List.mem_append_right _ List.mem_cons_self)
    have hsome : (heap.blocks e).isSome := by rw [he]; rfl
    have hlink : f.link heap a = .ok { f with
        heap := heap.put e { last with next := some a } hsome } := by
      rw [Face.link, hlast]
      dsimp only
      rw [Heap.get_eq he, ok_bind, Heap.set_eq he]
      rfl
    refine ⟨_, ys ++ [(e, { last with next := some a }), (a, b)], hlink, ?_, ?_, ?_, fun c hc => ?_⟩
    · refine seg_append.mpr ⟨some e, hys.put hfresh hsome, rfl, ?_, rfl, ?_, hb⟩
      · rw [Heap.blocks_put, if_pos rfl]
      · rw [Heap.blocks_put, if_neg hae]
        exact ha
    · simp
    · simp
    · have hce : c ≠ e := fun heq => hc (by rw [heq]; simp)
      rw [Heap.blocks_put, if_neg hce]

/-- Any other one is linked to the end of the queue. -/
theorem faceEnqueue_new (h : Holds f xs) (ha : f.heap.blocks a = some b)
    (hnew : a ∉ xs.map Prod.fst) (hdiff : b.data ∉ xs.map fun x => x.2.data) :
    ∃ f' xs', faceEnqueue pure f (some a) = .ok (0, f') ∧ Holds f' xs' ∧
      xs'.map Prod.fst = xs.map Prod.fst ++ [a] ∧
      (xs'.map fun x => x.2.data) = (xs.map fun x => x.2.data) ++ [b.data] ∧
      ∀ c, c ∉ xs'.map Prod.fst → f'.heap.blocks c = f.heap.blocks c := by
  have hsome : (f.heap.blocks a).isSome := by rw [ha]; rfl
  have hput : (f.heap.put a { b with next := none } hsome).blocks a =
      some { b with next := none } := by rw [Heap.blocks_put, if_pos rfl]
  obtain ⟨g, xs', hlink, hs', haddr, hdata, hframe⟩ := link_eq h (h.chain.put hnew hsome) hput rfl hnew
  refine ⟨{ g with outqend := some a }, xs', ?_, ⟨hs', ?_, ?_⟩, haddr, hdata, fun c hc => ?_⟩
  · rw [faceEnqueue, Heap.get_eq ha, ok_bind, alreadyQueued_eq h.chain h.chain.length_le, ok_bind,
      if_neg (fun hdup => hdiff (of_decide_eq_true hdup)), Heap.set_eq ha, ok_bind, hlink]
    rfl
  · rw [haddr, List.getLast?_append]
    rfl
  · rw [hdata]
    exact List.nodup_append.mpr ⟨h.distinct, List.nodup_singleton _, fun d hd d' hd' heq =>
      hdiff (List.mem_singleton.mp hd' ▸ heq ▸ hd)⟩
  · have hca : c ≠ a := fun heq => hc (by rw [haddr, heq]; simp)
    rw [hframe c hc, Heap.blocks_put, if_neg hca]

/-- The first buffer is taken off. -/
theorem faceDequeue_cons {x : Nat × Buf} (h : Holds f (x :: xs)) :
    ∃ f', faceDequeue f = .ok (some x.1, f') ∧ Holds f' xs ∧
      f'.heap.blocks x.1 = some { x.2 with next := none } ∧
      ∀ c, c ≠ x.1 → f'.heap.blocks c = f.heap.blocks c := by
  obtain ⟨hp, hb, hs⟩ := h.chain
  have hlast := h.last
  have hfresh : x.1 ∉ xs.map Prod.fst := (List.nodup_cons.mp h.chain.nodup).1
  have hsome : (f.heap.blocks x.1).isSome := by rw [hb]; rfl
  have hrun : faceDequeue f = .ok (some x.1, {
      heap := f.heap.put x.1 { x.2 with next := none } hsome
      outq := x.2.next
      outqend := if x.2.next = none then none else f.outqend }) := by
    rw [faceDequeue, hp]
    dsimp only
    rw [Heap.get_eq hb, ok_bind, Heap.set_eq hb]
    rfl
  refine ⟨_, hrun, ⟨hs.put hfresh hsome, ?_, (List.nodup_cons.mp h.distinct).2⟩, ?_, fun c hc => ?_⟩
  · -- the queue has become empty when the buffer points to no other one
    cases xs with
    | nil => exact if_pos hs
    | cons y ys =>
      have hnext : x.2.next ≠ none := by rw [hs.1]; nofun
      exact (if_neg hnext).trans hlast
  · rw [Heap.blocks_put, if_pos rfl]
  · rw [Heap.blocks_put, if_neg hc]

theorem faceDequeue_nil (h : Holds f []) : faceDequeue f = .ok (none, f) := by
  rw [faceDequeue, show f.outq = none from h.chain]
  rfl

end Queue

/-! ## Runs -/

/-- A call on the face, with what it was given and what it returned. -/
inductive Event where
  | enqueue (buf : Option (List UInt8)) (rc : Int)
  | dequeue (pkt : Option (List UInt8))
  deriving DecidableEq, Repr

/-- The face, the buffers that its callers have, and the calls so far. -/
structure State where
  face : Face
  held : List Nat
  log : List Event

/-- What happens: a caller makes, overwrites or frees a buffer that it has, or passes it to the face,
or calls `ccnl_face_dequeue` and then has the buffer that is returned. -/
inductive Call where
  | alloc (b : Buf)
  | write (k : Nat) (b : Buf)
  | free (k : Nat)
  | enqueue (k : Option Nat)
  | dequeue
  deriving DecidableEq, Repr

/-- Where there is no `k`-th buffer, nothing happens. The calls that `ccnl_face_enqueue` leads to come
next in a run (`faceEnqueue_cts`). -/
def step (s : State) : Call → Run State
  | .alloc b => return { s with
      face := { s.face with heap := s.face.heap.add b }
      held := s.held ++ [s.face.heap.next] }
  | .write k b =>
    match s.held[k]? with
    | some a => do
      let heap ← s.face.heap.set (some a) b
      return { s with face := { s.face with heap := heap } }
    | none => return s
  | .free k =>
    match s.held[k]? with
    | some a => do
      let heap ← s.face.heap.free (some a)
      return { s with face := { s.face with heap := heap }, held := s.held.erase a }
    | none => return s
  | .enqueue none => do
    let (rc, f) ← faceEnqueue pure s.face none
    return { s with face := f, log := s.log ++ [.enqueue none rc] }
  | .enqueue (some k) =>
    match s.held[k]? with
    | some a => do
      let b ← s.face.heap.get (some a)
      let (rc, f) ← faceEnqueue pure s.face (some a)
      return ⟨f, s.held.erase a, s.log ++ [.enqueue (some b.data) rc]⟩
    | none => return s
  | .dequeue => do
    let (p, f) ← faceDequeue s.face
    match p with
    | some a => do
      let b ← f.heap.get (some a)
      return ⟨f, s.held ++ [a], s.log ++ [.dequeue (some b.data)]⟩
    | none => return ⟨f, s.held, s.log ++ [.dequeue none]⟩

/-- A new face, and some memory. -/
def init (heap : Heap Buf) : State := ⟨⟨heap, none, none⟩, [], []⟩

/-! ## What a run keeps -/

/-- A buffer that `ccnl_face_enqueue` took. -/
def Event.accepted? : Event → Option (List UInt8)
  | .enqueue buf rc => if rc = -1 then none else buf
  | .dequeue _ => none

/-- A buffer that `ccnl_face_dequeue` returned. -/
def Event.returned? : Event → Option (List UInt8)
  | .enqueue .. => none
  | .dequeue pkt => pkt

def accepted (log : List Event) : List (List UInt8) := log.filterMap Event.accepted?

def returned (log : List Event) : List (List UInt8) := log.filterMap Event.returned?

/-- The buffers that were accepted and have not been returned. -/
def waiting (log : List Event) : List (List UInt8) := (accepted log).drop (returned log).length

/-- A buffer is rejected when it is NULL or an equal one is waiting, and the first one that is waiting
is returned. -/
def Event.Fits (before : List Event) : Event → Prop
  | .enqueue buf rc => rc = if ∀ d ∈ buf, d ∈ waiting before then -1 else 0
  | .dequeue pkt => pkt = (waiting before).head?

/-- Each event fits what came before it. -/
def Fitting (log : List Event) : Prop := ∀ before e after, log = before ++ e :: after → e.Fits before

section Run

variable {s : State} {xs : List (Nat × Buf)} {log : List Event} {e : Event}

@[simp] theorem accepted_snoc : accepted (log ++ [e]) = accepted log ++ e.accepted?.toList := by
  rw [accepted, List.filterMap_append]
  cases he : e.accepted? <;> simp [accepted, he]

@[simp] theorem returned_snoc : returned (log ++ [e]) = returned log ++ e.returned?.toList := by
  rw [returned, List.filterMap_append]
  cases he : e.returned? <;> simp [returned, he]

theorem Fitting.snoc (h : Fitting log) (he : e.Fits log) : Fitting (log ++ [e]) := by
  intro before e' after heq
  rcases List.eq_nil_or_concat' after with rfl | ⟨after, e'', rfl⟩
  · obtain ⟨rfl, h'⟩ := List.append_inj' heq rfl
    obtain rfl := List.singleton_inj.mp h'
    exact he
  · rw [← List.cons_append, ← List.append_assoc] at heq
    exact h before e' after (List.append_inj' heq rfl).1

/-- The invariant: the queue holds what is waiting, and the callers have other buffers. -/
structure Ok (s : State) (xs : List (Nat × Buf)) : Prop where
  queue : Holds s.face xs
  log : accepted s.log = returned s.log ++ xs.map fun x => x.2.data
  fits : Fitting s.log
  held : ∀ a ∈ s.held, (s.face.heap.blocks a).isSome ∧ a ∉ xs.map Prod.fst
  nodup : s.held.Nodup

theorem Ok.waiting (h : Ok s xs) : waiting s.log = xs.map fun x => x.2.data := by
  rw [OnChain.waiting, h.log, List.drop_left]

/-- A caller has a buffer that is not in the queue. -/
theorem Ok.get {k a : Nat} (h : Ok s xs) (hk : s.held[k]? = some a) :
    (∃ b, s.face.heap.blocks a = some b) ∧ a ∉ xs.map Prod.fst := by
  obtain ⟨hsome, hnew⟩ := h.held a (List.mem_of_getElem? hk)
  exact ⟨Option.isSome_iff_exists.mp hsome, hnew⟩

/-- What the callers do with their own buffers does not touch the queue. -/
theorem Ok.elsewhere {heap : Heap Buf} {held : List Nat} (h : Ok s xs)
    (hs : Seg heap Buf.next s.face.outq xs none)
    (hheld : ∀ a ∈ held, (heap.blocks a).isSome ∧ a ∉ xs.map Prod.fst) (hnodup : held.Nodup) :
    Ok { s with face := { s.face with heap := heap }, held := held } xs :=
  ⟨⟨hs, h.queue.last, h.queue.distinct⟩, h.log, h.fits, hheld, hnodup⟩

theorem step_alloc (h : Ok s xs) (b : Buf) : ∃ s', step s (.alloc b) = .ok s' ∧ Ok s' xs := by
  refine ⟨_, rfl, h.elsewhere h.queue.chain.add (fun a ha => ?_) ?_⟩
  · rw [Heap.blocks_add]
    rcases List.mem_append.mp ha with ha | ha
    · obtain ⟨hsome, hnew⟩ := h.held a ha
      split
      · exact ⟨rfl, hnew⟩
      · exact ⟨hsome, hnew⟩
    · rw [if_pos (List.mem_singleton.mp ha)]
      refine ⟨rfl, fun hmem => ?_⟩
      obtain ⟨x, hx, hxa⟩ := List.mem_map.mp hmem
      have := Heap.lt_next (h.queue.chain.block hx)
      rw [hxa, List.mem_singleton.mp ha] at this
      exact Nat.lt_irrefl _ this
  · refine List.nodup_append.mpr ⟨h.nodup, List.nodup_singleton _, fun a ha c hc heq => ?_⟩
    obtain ⟨d, hd⟩ := Option.isSome_iff_exists.mp (h.held a ha).1
    have := Heap.lt_next hd
    rw [heq, List.mem_singleton.mp hc] at this
    exact Nat.lt_irrefl _ this

theorem step_write (h : Ok s xs) (k : Nat) (b : Buf) :
    ∃ s', step s (.write k b) = .ok s' ∧ Ok s' xs := by
  rw [step]
  cases hk : s.held[k]? with
  | none => exact ⟨s, rfl, h⟩
  | some a =>
    obtain ⟨⟨b', hb'⟩, hnew⟩ := h.get hk
    dsimp only
    rw [Heap.set_eq hb']
    refine ⟨_, rfl, h.elsewhere (h.queue.chain.put hnew _) (fun c hc => ?_) h.nodup⟩
    obtain ⟨hsome, hnew'⟩ := h.held c hc
    rw [Heap.blocks_put]
    split
    · exact ⟨rfl, hnew'⟩
    · exact ⟨hsome, hnew'⟩

/-- What is left to the callers when one of them has freed a buffer. -/
theorem Ok.held_erase (h : Ok s xs) {a c : Nat} (hc : c ∈ s.held.erase a) :
    c ≠ a ∧ (s.face.heap.blocks c).isSome ∧ c ∉ xs.map Prod.fst := by
  obtain ⟨hne, hmem⟩ := h.nodup.mem_erase_iff.mp hc
  exact ⟨hne, h.held c hmem⟩

theorem Ok.drop (h : Ok s xs) {a : Nat} (hnew : a ∉ xs.map Prod.fst) :
    Ok { s with face := { s.face with heap := s.face.heap.drop a }, held := s.held.erase a } xs := by
  refine h.elsewhere (h.queue.chain.drop hnew) (fun c hc => ?_) (h.nodup.erase a)
  obtain ⟨hne, hsome, hnew'⟩ := h.held_erase hc
  rw [Heap.blocks_drop, if_neg hne]
  exact ⟨hsome, hnew'⟩

theorem step_free (h : Ok s xs) (k : Nat) : ∃ s', step s (.free k) = .ok s' ∧ Ok s' xs := by
  rw [step]
  cases hk : s.held[k]? with
  | none => exact ⟨s, rfl, h⟩
  | some a =>
    obtain ⟨⟨b, hb⟩, hnew⟩ := h.get hk
    dsimp only
    rw [Heap.free_eq hb]
    exact ⟨_, rfl, h.drop hnew⟩

/-- A call that is written into the log. -/
theorem Ok.note (h : Ok s xs) {log : List Event} (hlog : log = s.log ++ [e]) (he : e.Fits s.log)
    (hq : accepted log = returned log ++ xs.map fun x => x.2.data) : Ok { s with log := log } xs :=
  ⟨h.queue, hq, by rw [hlog]; exact h.fits.snoc he, h.held, h.nodup⟩

theorem step_enqueue_null (h : Ok s xs) : ∃ s', step s (.enqueue none) = .ok s' ∧ Ok s' xs := by
  refine ⟨_, rfl, h.note rfl ?_ ?_⟩
  · exact (if_pos (by simp)).symm
  · simpa [Event.accepted?, Event.returned?] using h.log

theorem step_enqueue (h : Ok s xs) (k : Nat) :
    ∃ s' xs', step s (.enqueue (some k)) = .ok s' ∧ Ok s' xs' := by
  rw [step]
  cases hk : s.held[k]? with
  | none => exact ⟨s, xs, rfl, h⟩
  | some a =>
    obtain ⟨⟨b, hb⟩, hnew⟩ := h.get hk
    dsimp only
    rw [Heap.get_eq hb, ok_bind]
    by_cases hdup : b.data ∈ xs.map fun x => x.2.data
    · rw [faceEnqueue_dup h.queue hb hdup]
      refine ⟨_, xs, rfl, (h.drop hnew).note rfl ?_ ?_⟩
      · refine (if_pos fun d hd => ?_).symm
        rw [h.waiting, ← Option.some.inj hd]
        exact hdup
      · simpa [Event.accepted?, Event.returned?] using h.log
    · obtain ⟨f', xs', hrun, hq, haddr, hdata, hframe⟩ := faceEnqueue_new h.queue hb hnew hdup
      rw [hrun]
      refine ⟨_, xs', rfl, hq, ?_, h.fits.snoc ?_, fun c hc => ?_, h.nodup.erase a⟩
      · simp [Event.accepted?, Event.returned?, hdata, h.log]
      · refine (if_neg fun hall => hdup ?_).symm
        rw [← h.waiting]
        exact hall b.data rfl
      · obtain ⟨hne, hsome, hnew'⟩ := h.held_erase hc
        have hout : c ∉ xs'.map Prod.fst := by
          rw [haddr, List.mem_append, List.mem_singleton]
          exact fun hor => hor.elim hnew' hne
        exact ⟨by rw [hframe c hout]; exact hsome, hout⟩

theorem step_dequeue (h : Ok s xs) : ∃ s' xs', step s .dequeue = .ok s' ∧ Ok s' xs' := by
  rw [step]
  have hlog := h.log
  cases xs with
  | nil =>
    rw [faceDequeue_nil h.queue]
    refine ⟨_, [], rfl, h.note rfl ?_ ?_⟩
    · rw [Event.Fits, h.waiting]
      rfl
    · simpa [Event.accepted?, Event.returned?] using hlog
  | cons x xs =>
    obtain ⟨f', hrun, hq, hb, hframe⟩ := faceDequeue_cons h.queue
    have hnodup := List.nodup_cons.mp h.queue.chain.nodup
    rw [hrun, ok_bind]
    dsimp only
    rw [Heap.get_eq hb]
    refine ⟨_, xs, rfl, hq, ?_, h.fits.snoc ?_, fun c hc => ?_, ?_⟩
    · simp [Event.accepted?, Event.returned?, hlog]
    · rw [Event.Fits, h.waiting]
      rfl
    · rcases List.mem_append.mp hc with hc | hc
      · obtain ⟨hsome, hnew⟩ := h.held c hc
        rw [List.map_cons, List.mem_cons, not_or] at hnew
        rw [hframe c hnew.1]
        exact ⟨hsome, hnew.2⟩
      · rw [List.mem_singleton.mp hc, hb]
        exact ⟨rfl, hnodup.1⟩
    · refine List.nodup_append.mpr ⟨h.nodup, List.nodup_singleton _, fun c hc d hd heq => ?_⟩
      rw [heq, List.mem_singleton.mp hd] at hc
      exact (h.held _ hc).2 List.mem_cons_self

/-- Each call keeps the invariant. -/
theorem step_ok (h : Ok s xs) (c : Call) : ∃ s' xs', step s c = .ok s' ∧ Ok s' xs' := by
  cases c with
  | alloc b => exact (step_alloc h b).imp fun _ h' => ⟨xs, h'⟩
  | write k b => exact (step_write h k b).imp fun _ h' => ⟨xs, h'⟩
  | free k => exact (step_free h k).imp fun _ h' => ⟨xs, h'⟩
  | enqueue k =>
    cases k with
    | none => exact (step_enqueue_null h).imp fun _ h' => ⟨xs, h'⟩
    | some k => exact step_enqueue h k
  | dequeue => exact step_dequeue h

theorem run_ok (h : Ok s xs) (calls : List Call) :
    ∃ s' xs', calls.foldlM step s = .ok s' ∧ Ok s' xs' := by
  induction calls generalizing s xs with
  | nil => exact ⟨s, xs, rfl, h⟩
  | cons c calls ih =>
    obtain ⟨s', xs', hstep, h'⟩ := step_ok h c
    obtain ⟨s'', xs'', hrun, h''⟩ := ih h'
    exact ⟨s'', xs'', by rw [List.foldlM_cons, hstep, ok_bind, hrun], h''⟩

theorem init_ok (heap : Heap Buf) : Ok (init heap) [] where
  queue := ⟨rfl, rfl, List.nodup_nil⟩
  log := rfl
  fits _ _ _ h := by simp [init] at h
  held _ h := by cases h
  nodup := List.nodup_nil

/-- Whatever is called on a face, and whatever the callers do with their own buffers, no call
follows a pointer to freed memory. `outqend` is the last buffer in the queue, the buffers in it are
distinct, and they are the ones that were accepted and have not been returned. A buffer is rejected
exactly when it is NULL or an equal one is waiting, and the buffer that has waited longest is
returned. -/
theorem outq_fifo (heap : Heap Buf) (calls : List Call) :
    ∃ s xs, calls.foldlM step (init heap) = .ok s ∧ Seg s.face.heap Buf.next s.face.outq xs none ∧
      s.face.outqend = (xs.map Prod.fst).getLast? ∧ (xs.map fun x => x.2.data).Nodup ∧
      accepted s.log = returned s.log ++ (xs.map fun x => x.2.data) ∧
      ∀ before e after, s.log = before ++ e :: after → e.Fits before := by
  obtain ⟨s, xs, hrun, h⟩ := run_ok (init_ok heap) calls
  exact ⟨s, xs, hrun, h.queue.chain, h.queue.last, h.queue.distinct, h.log, h.fits⟩

end Run

/-! ## The queue of the schedulers' relay -/

section Relay

open UseScheduler (Target Platform schedRTS callback)

variable {E : Platform} {cts : Target → UseScheduler.State → Run UseScheduler.State}
  {σ : UseScheduler.State} {i : FaceId} {f : Face} {xs : List (Nat × Buf)} {a : Nat} {b : Buf}

/-- A relay whose queue is that of the face enqueues as the face does. -/
theorem outqEnqueue_chain (h : Holds f xs) (hq : σ.outq i = xs.map fun x => x.2.data)
    (ha : f.heap.blocks a = some b) (hnew : a ∉ xs.map Prod.fst) :
    ∃ rc f' xs', faceEnqueue pure f (some a) = .ok (rc, f') ∧ Holds f' xs' ∧
      UseScheduler.outqEnqueue E σ i b.data =
        if rc = -1 then .ok σ
        else if (σ.sched (.face i)).isSome then
          schedRTS E (callback E) (σ.setOutq i (xs'.map fun x => x.2.data)) (.face i) 1
        else callback E (.face i) (σ.setOutq i (xs'.map fun x => x.2.data)) := by
  have hany : ((σ.outq i).any fun msg => bufEqual (some msg) (some b.data)) = true ↔
      b.data ∈ xs.map fun x => x.2.data := by
    rw [hq, List.any_eq_true]
    constructor
    · rintro ⟨d, hd, heq⟩
      obtain ⟨d', hd', hd''⟩ := bufEqual_iff.mp heq
      rw [Option.some.inj hd'', ← Option.some.inj hd']
      exact hd
    · exact fun hd => ⟨b.data, hd, bufEqual_iff.mpr ⟨_, rfl, rfl⟩⟩
  by_cases hdup : b.data ∈ xs.map fun x => x.2.data
  · refine ⟨_, _, xs, faceEnqueue_dup h ha hdup, ⟨h.chain.drop hnew, h.last, h.distinct⟩, ?_⟩
    rw [UseScheduler.outqEnqueue, if_pos (hany.mpr hdup), if_pos rfl]
    rfl
  · obtain ⟨f', xs', hrun, hholds, -, hdata, -⟩ := faceEnqueue_new h ha hnew hdup
    refine ⟨_, f', xs', hrun, hholds, ?_⟩
    have hrc : ¬ (0 : Int) = -1 := by decide
    rw [UseScheduler.outqEnqueue, if_neg (mt hany.mp hdup), if_neg hrc, hdata, hq]
    rfl

/-- And it takes the buffer that `ccnl_face_dequeue` returns. -/
theorem faceCTS_chain {x : Nat × Buf} (h : Holds f (x :: xs))
    (hq : σ.outq i = (x :: xs).map fun x => x.2.data) :
    ∃ f', faceDequeue f = .ok (some x.1, f') ∧ Holds f' xs ∧
      UseScheduler.faceCTS E cts σ i = σ.base.face i >>= fun face =>
        UseScheduler.interfaceEnqueue E cts (σ.setOutq i (xs.map fun x => x.2.data)) face.ifndx
          ⟨x.2.data, face.peer, i⟩ := by
  obtain ⟨f', hrun, hholds, -⟩ := faceDequeue_cons h
  refine ⟨f', hrun, hholds, ?_⟩
  unfold UseScheduler.faceCTS
  rw [hq]
  rfl

end Relay

end Ccnl.OnChain
