import CcnLite.Lib.Sys
import Mathlib.Data.List.Perm.Basic

/-!
# The event queue (`ccnl_set_timer`, `ccnl_rem_timer`, `ccnl_run_events`)

The looper calls a timer while it is still the first of the queue, and unlinks it when the callback is
back. `State` therefore also says where the program is (`Point`), and an event is a call of the program
or of a callback, or what the looper does next. `system` are all these runs.

A deadline is kept as seconds and microseconds in 64 bits, and the looper returns an `int`. So a delay
can be too long for the sum in `ccnl_set_timer`, and the time to the first deadline too long for the
result of `ccnl_run_events`.

* `Event.Fits`: the condition on an event.
* `State.Right`: what is said of a state, over the deadlines that were asked for.
* `system_good`: the runs of events that fit keep the invariant, from which `State.Right` is read off.
* `passes_le`: a call of the looper ends.
-/

namespace Ccnl.OsTime

open CRun List

/-! ## Time -/

/-- `struct timeval`. -/
structure Timeval where
  sec : Int64
  usec : Int64
  deriving DecidableEq, Repr

/-- The time in microseconds. -/
def Timeval.micros (t : Timeval) : Int := 1000000 * t.sec.toInt + t.usec.toInt

/-- `timevaldelta`. -/
def timevaldelta (a b : Timeval) : Int64 := 1000000 * (a.sec - b.sec) + a.usec - b.usec

/-! ## Timers -/

/-- `struct ccnl_timer_s`, as `ccnl_set_timer` fills it. The address is the handle. `id` counts the
timers, and `due` is the deadline that was asked for; the program has neither of them. -/
structure Timer where
  id : Nat
  addr : Nat
  timeout : Timeval
  fct2 : Option Nat
  due : Int
  deriving DecidableEq, Repr

/-- Where the program is. -/
inductive Point where
  /-- Outside of `ccnl_run_events`. -/
  | idle
  /-- At the head of the loop. -/
  | looping (now : Timeval)
  /-- In the callback of the timer. -/
  | calling (now : Timeval) (t : Timer)
  /-- `ccnl_run_events` has just returned. -/
  | returned (now : Timeval) (r : Int32)
  deriving DecidableEq, Repr

/-- The queue, and what has happened. -/
structure State where
  eventqueue : List Timer := []
  point : Point := .idle
  /-- How often the clock has been read. -/
  reads : Nat := 0
  /-- The timers that have been set. -/
  set : List Timer := []
  /-- The timers that have been called, with the time that the looper had read. -/
  fired : List (Timer × Timeval) := []
  /-- The timers that `ccnl_rem_timer` has removed. -/
  removed : List Timer := []
  deriving DecidableEq, Repr

/-- The program goes on there. -/
def State.goto (σ : State) (p : Point) : State := { σ with point := p }

/-- The looper calls the timer. -/
def State.fire (σ : State) (now : Timeval) (t : Timer) : State :=
  { σ.goto (.calling now t) with fired := σ.fired ++ [(t, now)] }

/-- What the loop of `ccnl_set_timer` stops at: a timer with a later timeout. -/
def Later (u t : Timer) : Prop :=
  u.timeout.sec > t.timeout.sec ∨
    u.timeout.sec = t.timeout.sec ∧ u.timeout.usec > t.timeout.usec

instance (u t : Timer) : Decidable (Later u t) := inferInstanceAs (Decidable (_ ∨ _))

/-- The loop of `ccnl_set_timer`. -/
def link (t : Timer) : List Timer → List Timer
  | [] => [t]
  | u :: q => if Later u t then t :: u :: q else u :: link t q

/-- The deadline of `ccnl_set_timer` from the time that it reads. -/
def timeoutAt (now : Timeval) (usec : UInt64) : Timeval :=
  let usec := usec + now.usec.toUInt64
  { sec := (now.sec.toUInt64 + usec / 1000000).toInt64, usec := (usec % 1000000).toInt64 }

/-- The timer comes into the queue. -/
def State.add (σ : State) (t : Timer) : State :=
  { σ with eventqueue := link t σ.eventqueue, reads := σ.reads + 1, set := σ.set ++ [t] }

@[simp] theorem State.add_point (σ : State) (t : Timer) : (σ.add t).point = σ.point := rfl
@[simp] theorem State.add_reads (σ : State) (t : Timer) : (σ.add t).reads = σ.reads + 1 := rfl
@[simp] theorem State.add_set (σ : State) (t : Timer) : (σ.add t).set = σ.set ++ [t] := rfl
@[simp] theorem State.add_fired (σ : State) (t : Timer) : (σ.add t).fired = σ.fired := rfl
@[simp] theorem State.add_removed (σ : State) (t : Timer) : (σ.add t).removed = σ.removed := rfl

@[simp] theorem State.add_eventqueue (σ : State) (t : Timer) :
    (σ.add t).eventqueue = link t σ.eventqueue := rfl

/-- `ccnl_set_timer`. `mem` is what `ccnl_calloc` gives. -/
def setTimer (clock : Nat → Timeval) (σ : State) (usec : UInt64) (fct : Option Nat)
    (mem : Option Nat) : State :=
  match mem with
  | none => σ
  | some addr =>
    let now := clock σ.reads
    σ.add {
      id := σ.set.length
      addr := addr
      timeout := timeoutAt now usec
      fct2 := fct
      due := now.micros + usec.toNat }

/-- The loop of `ccnl_rem_timer`: the timer that it finds, and the queue without it. -/
def unlink (h : Nat) : List Timer → Option (Timer × List Timer)
  | [] => none
  | t :: q => if t.addr = h then some (t, q) else (unlink h q).map fun (e, q) => (e, t :: q)

/-- A timer is removed, and `q` is left. -/
def State.remove (σ : State) (e : Timer) (q : List Timer) : State :=
  { σ with eventqueue := q, removed := σ.removed ++ [e] }

@[simp] theorem State.remove_point (σ : State) (e : Timer) (q : List Timer) :
    (σ.remove e q).point = σ.point := rfl

/-- `ccnl_rem_timer`. -/
def remTimer (σ : State) (h : Nat) : State :=
  match unlink h σ.eventqueue with
  | none => σ
  | some (e, q) => σ.remove e q

/-! ## The looper -/

/-- `ccnl_run_events` up to its loop. -/
def runEvents (clock : Nat → Timeval) (σ : State) : State :=
  { σ.goto (.looping (clock σ.reads)) with reads := σ.reads + 1 }

@[simp] theorem runEvents_reads (clock : Nat → Timeval) (σ : State) :
    (runEvents clock σ).reads = σ.reads + 1 := rfl

@[simp] theorem runEvents_fired (clock : Nat → Timeval) (σ : State) :
    (runEvents clock σ).fired = σ.fired := rfl

/-- The loop up to the callback. A result is an `int`. -/
def runEventsPass (now : Timeval) (σ : State) : State :=
  match σ.eventqueue with
  | [] => σ.goto (.returned now (-1))
  | t :: _ =>
    let usec := timevaldelta t.timeout now
    if usec ≥ 0 then σ.goto (.returned now usec.toInt32) else σ.fire now t

/-- The loop behind the callback: `eventqueue = t->next`. -/
def runEventsNext (now : Timeval) (t : Timer) (σ : State) : State :=
  { σ.goto (.looping now) with eventqueue := (σ.eventqueue.dropWhile (·.id ≠ t.id)).tail }

/-- What happens next. -/
inductive Event where
  /-- The program sets a timer, or a callback does. -/
  | set (usec : UInt64) (fct : Option Nat) (mem : Option Nat)
  | rem (h : Nat)
  /-- `ccnl_run_events` is called. -/
  | run
  /-- The looper looks at the first timer. -/
  | pass
  /-- The callback is back. -/
  | back
  deriving DecidableEq, Repr

/-- An event, where it can come. -/
def step (clock : Nat → Timeval) : Event → State → Run State
  | .set usec fct mem, σ =>
    match σ.point with
    | .looping _ => .error .bail
    | .calling _ t =>
      if t.fct2.isSome then .ok (setTimer clock σ usec fct mem) else .error .bail
    | _ => .ok (setTimer clock (σ.goto .idle) usec fct mem)
  | .rem h, σ =>
    match σ.point with
    | .looping _ | .calling _ _ => .error .bail
    | _ => .ok (remTimer (σ.goto .idle) h)
  | .run, σ =>
    match σ.point with
    | .looping _ | .calling _ _ => .error .bail
    | _ => .ok (runEvents clock σ)
  | .pass, σ =>
    match σ.point with
    | .looping now => .ok (runEventsPass now σ)
    | _ => .error .bail
  | .back, σ =>
    match σ.point with
    | .calling now t => .ok (runEventsNext now t σ)
    | _ => .error .bail

/-- All runs, from the empty queue. -/
def system (clock : Nat → Timeval) : Sys State Event where
  Start σ := σ = {}
  step := step clock

/-! ## What is said of them -/

/-- `gettimeofday` gives microseconds below a second. -/
structure Timeval.Normal (t : Timeval) : Prop where
  pos : 0 ≤ t.usec.toInt
  lt : t.usec.toInt < 1000000

/-- A clock that does not go back. -/
structure Ordered (clock : Nat → Timeval) : Prop where
  normal : ∀ n, (clock n).Normal
  mono : ∀ {m n}, m ≤ n → (clock m).micros ≤ (clock n).micros

/-- The first timer comes before the second: by deadline, and equal deadlines in the order of
setting. -/
def Before (t u : Timer) : Prop := t.due < u.due ∨ t.due = u.due ∧ t.id < u.id

/-- The timers that are still queued: while a timer is called it is still the first of the queue. -/
def State.queued (σ : State) : List Timer :=
  match σ.point with
  | .calling _ t => σ.eventqueue.filter (·.id ≠ t.id)
  | _ => σ.eventqueue

/-- The timers that have been called. -/
def State.called (σ : State) : List Timer := σ.fired.map (·.1)

@[simp] theorem State.add_called (σ : State) (t : Timer) : (σ.add t).called = σ.called := rfl

structure State.Right (σ : State) : Prop where
  sorted : σ.eventqueue.Pairwise Before
  /-- The timers are numbered as they are set, so they are different. -/
  ids : σ.set.map (·.id) = range σ.set.length
  /-- Each is queued, has been called, or was removed, and this once. -/
  once : σ.set ~ σ.called ++ (σ.queued ++ σ.removed)
  inTime : ∀ x ∈ σ.fired, x.1.due < x.2.micros
  inOrder : (σ.called ++ σ.queued).Pairwise Before
  /-- Nothing is left that is due, and the result is the time to the first deadline. -/
  result : ∀ now r, σ.point = .returned now r → (∀ t ∈ σ.eventqueue, now.micros ≤ t.due) ∧
    r.toInt = (σ.eventqueue.head?.map fun t => t.due - now.micros).getD (-1)

/-- The time to the first deadline fits the result of the looper. -/
def HeadFits : Point → List Timer → Prop
  | .looping now, t :: _ => -2 ^ 63 ≤ t.due - now.micros ∧ t.due - now.micros < 2 ^ 31
  | _, _ => True

instance decidableHeadFits : ∀ p q, Decidable (HeadFits p q)
  | .looping _, _ :: _ => inferInstanceAs (Decidable (_ ∧ _))
  | .looping _, [] | .idle, _ | .calling _ _, _ | .returned _ _, _ => .isTrue trivial

/-- The times that an event meets fit their types: the deadline as it is computed, and the time to
the first deadline when the looper looks at it. -/
def Event.Fits (clock : Nat → Timeval) : Event → State → Prop
  | .set usec _ (some _), σ =>
    usec.toNat + (clock σ.reads).usec.toInt < 2 ^ 64 ∧
      (clock σ.reads).micros + usec.toNat < 1000000 * 2 ^ 63
  | .pass, σ => HeadFits σ.point σ.eventqueue
  | _, _ => True

instance Event.decidableFits (clock : Nat → Timeval) : ∀ e σ, Decidable (Event.Fits clock e σ)
  | .set _ _ (some _), _ => inferInstanceAs (Decidable (_ ∧ _))
  | .pass, σ => inferInstanceAs (Decidable (HeadFits σ.point σ.eventqueue))
  | .set _ _ none, _ | .rem _, _ | .run, _ | .back, _ => .isTrue trivial

/-- How often the looper looks at the queue until it returns: once for each timer that is due, and
once more. -/
def State.left (σ : State) : Nat :=
  match σ.point with
  | .looping now | .calling now _ => σ.queued.countP (·.due < now.micros) + 1
  | _ => 0

/-- A call of the looper goes on, and ends. -/
structure State.Ends (clock : Nat → Timeval) (σ : State) : Prop where
  pass : ∀ now, σ.point = .looping now → ∃ τ, step clock .pass σ = .ok τ
  back : ∀ now t, σ.point = .calling now t → ∃ τ, step clock .back σ = .ok τ
  passes : ∀ es τ, .run ∉ es →
    Along (fun σ e => step clock e σ) (fun σ e => e.Fits clock σ) es σ →
    es.foldlM (fun σ e => step clock e σ) σ = .ok τ → es.count .pass ≤ σ.left

/-! ## Arithmetic -/

section Time

variable {a b now : Timeval} {t u : Timer} {usec : UInt64}

theorem toInt_toInt64 {x : UInt64} (h : x.toNat < 2 ^ 63) : x.toInt64.toInt = x.toNat := by
  have hx : x.toInt64.toInt = (x.toNat : Int).bmod (2 ^ 64) := BitVec.toInt_eq_toNat_bmod x.toBitVec
  rw [hx, Int.bmod_eq_of_le] <;> omega

theorem toNat_toUInt64 {x : Int64} (h : 0 ≤ x.toInt) : (x.toUInt64.toNat : Int) = x.toInt := by
  rw [Int64.toNat_toUInt64_of_le (Int64.le_iff_toInt_le.mpr h), ← Int64.toNat_toInt]
  omega

theorem timevaldelta_eq (h : -2 ^ 63 ≤ a.micros - b.micros) (h' : a.micros - b.micros < 2 ^ 63) :
    (timevaldelta a b).toInt = a.micros - b.micros := by
  have hsum : (timevaldelta a b).toInt = (a.micros - b.micros).bmod (2 ^ 64) := by
    rw [timevaldelta, Int64.toInt_sub, Int64.toInt_add, Int64.toInt_mul, Int64.toInt_sub,
      show (1000000 : Int64).toInt = 1000000 from rfl, Int.mul_bmod_bmod, Int.bmod_add_bmod,
      Int.bmod_sub_bmod]
    congr 1
    unfold Timeval.micros
    omega
  rw [hsum, Int.bmod_eq_of_le] <;> omega

/-- A deadline that fits is the one that was asked for. -/
theorem timeoutAt_eq (hn : now.Normal) (h : usec.toNat + now.usec.toInt < 2 ^ 64)
    (h' : now.micros + usec.toNat < 1000000 * 2 ^ 63) :
    (timeoutAt now usec).Normal ∧ (timeoutAt now usec).micros = now.micros + usec.toNat := by
  obtain ⟨hpos, hlt⟩ := hn
  have husec := toNat_toUInt64 hpos
  have hsum : (usec + now.usec.toUInt64).toNat = usec.toNat + now.usec.toUInt64.toNat := by
    rw [UInt64.toNat_add, Nat.mod_eq_of_lt (by omega)]
  have hmod : (timeoutAt now usec).usec.toInt = ((usec + now.usec.toUInt64).toNat % 1000000 : Nat) :=
    toInt_toInt64 (by rw [UInt64.toNat_mod]; exact Nat.lt_trans (Nat.mod_lt _ (by decide)) (by decide))
  have hquot : ((usec + now.usec.toUInt64) / 1000000).toInt64.toInt =
      ((usec + now.usec.toUInt64).toNat / 1000000 : Nat) :=
    toInt_toInt64 (by
      rw [UInt64.toNat_div]
      have := (usec + now.usec.toUInt64).toNat_lt
      show _ / 1000000 < _
      omega)
  have hlow := now.sec.le_toInt
  unfold Timeval.micros at h'
  have hsec : (timeoutAt now usec).sec.toInt =
      now.sec.toInt + ((usec + now.usec.toUInt64).toNat / 1000000 : Nat) := by
    unfold timeoutAt
    dsimp only
    rw [UInt64.toInt64_add, Int64.toInt64_toUInt64, Int64.toInt_add, hquot, Int.bmod_eq_of_le] <;>
      omega
  refine ⟨⟨?_, ?_⟩, ?_⟩
  · omega
  · omega
  · unfold Timeval.micros
    omega

theorem later_iff (ht : t.timeout.Normal) (hu : u.timeout.Normal) :
    Later u t ↔ t.timeout.micros < u.timeout.micros := by
  obtain ⟨h₁, h₂⟩ := ht
  obtain ⟨h₃, h₄⟩ := hu
  simp only [Later, gt_iff_lt, Int64.lt_iff_toInt_lt, ← Int64.toInt_inj, Timeval.micros]
  omega

end Time

/-! ## The queue -/

/-- The deadline is kept as it was asked for. -/
structure Timer.Exact (t : Timer) : Prop where
  normal : t.timeout.Normal
  micros : t.timeout.micros = t.due

section Queue

variable {t u v : Timer} {q q' l : List Timer} {h : Nat}

theorem Before.trans (h : Before t u) (h' : Before u v) : Before t v := by
  unfold Before at *
  omega

theorem Before.le (h : Before t u) : t.due ≤ u.due := by
  unfold Before at h
  omega

theorem perm_link (t : Timer) (q : List Timer) : link t q ~ t :: q := by
  induction q with
  | nil => exact .refl _
  | cons u q ih =>
    rw [link]
    split
    · exact .refl _
    · exact (ih.cons u).trans (.swap t u q)

/-- A timer comes behind those that are not later. -/
theorem link_cons (h : ¬ Later u t) : link t (u :: q) = u :: link t q := if_neg h

/-- A new timer finds its place: behind what has been called, and by its deadline among the rest. -/
theorem pairwise_link (ht : t.Exact) (hq : ∀ u ∈ q, u.Exact ∧ u.id < t.id) (hl : ∀ u ∈ l, Before u t)
    (h : (l ++ q).Pairwise Before) : (l ++ link t q).Pairwise Before := by
  induction q generalizing l with
  | nil =>
    rw [append_nil] at h
    exact pairwise_append.mpr ⟨h, pairwise_singleton _ _, fun u hu v hv => mem_singleton.mp hv ▸ hl u hu⟩
  | cons u q ih =>
    obtain ⟨hu, hid⟩ := hq u mem_cons_self
    have hlater := later_iff ht.normal hu.normal
    rw [ht.micros, hu.micros] at hlater
    obtain ⟨hll, hlq, hc⟩ := pairwise_append.mp h
    by_cases hlt : t.due < u.due
    · -- the timer comes in front of this one, and so in front of all that follow
      rw [link, if_pos (hlater.mpr hlt)]
      have htu : Before t u := .inl hlt
      refine pairwise_append.mpr ⟨hll, pairwise_cons.mpr ⟨fun v hv => ?_, hlq⟩, fun v hv w hw => ?_⟩
      · rcases mem_cons.mp hv with rfl | hv
        · exact htu
        · exact htu.trans ((pairwise_cons.mp hlq).1 v hv)
      · rcases mem_cons.mp hw with rfl | hw
        · exact hl v hv
        · exact hc v hv w hw
    · rw [link_cons fun hL => hlt (hlater.mp hL)]
      have hut : Before u t := by
        unfold Before
        omega
      have hassoc : l ++ u :: q = l ++ [u] ++ q := (append_assoc l [u] q).symm
      rw [hassoc] at h
      rw [← singleton_append, ← append_assoc]
      refine ih (fun v hv => hq v (mem_cons_of_mem _ hv)) (fun v hv => ?_) h
      rcases mem_append.mp hv with hv | hv
      · exact hl v hv
      · exact mem_singleton.mp hv ▸ hut

/-- `ccnl_rem_timer` takes one timer out. -/
theorem unlink_eq_some (hu : unlink h q = some (t, q')) : ∃ q₁ q₂, q = q₁ ++ t :: q₂ ∧ q' = q₁ ++ q₂ := by
  induction q generalizing q' with
  | nil => cases hu
  | cons u q ih =>
    rw [unlink] at hu
    split at hu
    · cases hu
      exact ⟨[], _, rfl, rfl⟩
    · obtain ⟨⟨e, q₀⟩, he, hu⟩ := Option.map_eq_some_iff.mp hu
      cases hu
      obtain ⟨q₁, q₂, rfl, rfl⟩ := ih he
      exact ⟨u :: q₁, q₂, rfl, rfl⟩

end Queue

/-! ## The invariant -/

/-- What holds where the program is. -/
def State.At (clock : Nat → Timeval) (σ : State) : Prop :=
  match σ.point with
  | .idle => True
  | .looping now => now.Normal ∧ now.micros ≤ (clock σ.reads).micros
  | .calling now t => (now.Normal ∧ now.micros ≤ (clock σ.reads).micros) ∧ t ∈ σ.called ∧
    σ.eventqueue = t :: σ.queued
  | .returned now r => (∀ t ∈ σ.eventqueue, now.micros ≤ t.due) ∧
    r.toInt = (σ.eventqueue.head?.map fun t => t.due - now.micros).getD (-1)

structure State.Good (clock : Nat → Timeval) (σ : State) : Prop where
  exact : ∀ t ∈ σ.set, t.Exact
  ids : σ.set.map (·.id) = range σ.set.length
  once : σ.set ~ σ.called ++ (σ.queued ++ σ.removed)
  order : (σ.called ++ σ.queued).Pairwise Before
  past : ∀ x ∈ σ.fired, x.1.due < x.2.micros ∧ x.2.micros ≤ (clock σ.reads).micros
  point : σ.At clock

section Good

variable {clock : Nat → Timeval} {σ τ : State} {t : Timer} {q : List Timer} {now : Timeval}

theorem State.queued_idle (hp : σ.point = .idle) : σ.queued = σ.eventqueue := by
  rw [State.queued, hp]

theorem State.queued_looping (hp : σ.point = .looping now) : σ.queued = σ.eventqueue := by
  rw [State.queued, hp]

theorem State.queued_calling (hp : σ.point = .calling now t) :
    σ.queued = σ.eventqueue.filter (·.id ≠ t.id) := by
  rw [State.queued, hp]

theorem State.queued_returned {r : Int32} (hp : σ.point = .returned now r) : σ.queued = σ.eventqueue := by
  rw [State.queued, hp]

theorem State.at_idle (hp : σ.point = .idle) : σ.At clock ↔ True := by
  rw [State.At, hp]

theorem State.at_looping (hp : σ.point = .looping now) :
    σ.At clock ↔ now.Normal ∧ now.micros ≤ (clock σ.reads).micros := by
  rw [State.At, hp]

theorem State.at_calling (hp : σ.point = .calling now t) :
    σ.At clock ↔ (now.Normal ∧ now.micros ≤ (clock σ.reads).micros) ∧ t ∈ σ.called ∧
      σ.eventqueue = t :: σ.queued := by
  rw [State.At, hp]

theorem State.at_returned {r : Int32} (hp : σ.point = .returned now r) :
    σ.At clock ↔ (∀ t ∈ σ.eventqueue, now.micros ≤ t.due) ∧
      r.toInt = (σ.eventqueue.head?.map fun t => t.due - now.micros).getD (-1) := by
  rw [State.At, hp]

theorem State.Good.id_lt (h : σ.Good clock) {t : Timer} (ht : t ∈ σ.set) : t.id < σ.set.length := by
  have hid := mem_map_of_mem (f := (·.id)) ht
  rw [h.ids] at hid
  exact mem_range.mp hid

theorem State.Good.mem_set (h : σ.Good clock) (ht : t ∈ σ.called ∨ t ∈ σ.queued) : t ∈ σ.set := by
  rw [h.once.mem_iff, mem_append, mem_append]
  tauto

/-- Two timers that are queued are different. -/
theorem State.Good.nodup (h : σ.Good clock) : (σ.queued.map (·.id)).Nodup := by
  have hall : ((σ.called ++ (σ.queued ++ σ.removed)).map (·.id)).Nodup := by
    rw [(h.once.map _).symm.nodup_iff, h.ids]
    exact nodup_range
  rw [map_append, map_append] at hall
  exact (nodup_append.mp (nodup_append.mp hall).2.1).1

theorem State.Good.right (h : σ.Good clock) : σ.Right where
  sorted := by
    obtain ⟨-, hq, hc⟩ := pairwise_append.mp h.order
    cases hp : σ.point with
    | idle => exact State.queued_idle hp ▸ hq
    | looping now => exact State.queued_looping hp ▸ hq
    | calling now t =>
      obtain ⟨-, ht, hcons⟩ := (State.at_calling hp).mp h.point
      rw [hcons]
      exact pairwise_cons.mpr ⟨hc t ht, hq⟩
    | returned now r => exact State.queued_returned hp ▸ hq
  ids := h.ids
  once := h.once
  inTime x hx := (h.past x hx).1
  inOrder := h.order
  result now r hp := (State.at_returned hp).mp h.point

/-- The clock has been read once more. -/
theorem State.Good.past_read (hc : Ordered clock) (h : σ.Good clock) :
    ∀ x ∈ σ.fired, x.1.due < x.2.micros ∧ x.2.micros ≤ (clock (σ.reads + 1)).micros :=
  fun x hx => ⟨(h.past x hx).1, Int.le_trans (h.past x hx).2 (hc.mono (Nat.le_succ _))⟩

/-- What has been called was due before the clock shows what it does now. -/
theorem State.Good.called_lt (h : σ.Good clock) (ht : t ∈ σ.called) : t.due < (clock σ.reads).micros := by
  obtain ⟨x, hx, rfl⟩ := mem_map.mp ht
  have := h.past x hx
  omega

/-- A timer that is set while another one is called is linked behind it. -/
theorem State.Good.add_calling {t₀ : Timer} (h : σ.Good clock) (hp : σ.point = .calling now t₀)
    (ht : t.Exact) (hid : t.id = σ.set.length) (hdue : (clock σ.reads).micros ≤ t.due) :
    (σ.add t).eventqueue = t₀ :: link t σ.queued ∧ (σ.add t).queued = link t σ.queued := by
  obtain ⟨-, ht₀, hq⟩ := (State.at_calling hp).mp h.point
  have hset₀ := h.mem_set (.inl ht₀)
  have hexact₀ := h.exact t₀ hset₀
  have hlater : ¬ Later t₀ t := by
    rw [later_iff ht.normal hexact₀.normal, ht.micros, hexact₀.micros]
    have := h.called_lt ht₀
    omega
  have hcons : (σ.add t).eventqueue = t₀ :: link t σ.queued := by
    rw [State.add_eventqueue, hq, link_cons hlater]
  have hout : ∀ u ∈ link t σ.queued, u.id ≠ t₀.id := by
    intro u hu
    rcases mem_cons.mp ((perm_link t σ.queued).mem_iff.mp hu) with rfl | hu
    · have := h.id_lt hset₀
      omega
    · rw [State.queued_calling hp] at hu
      exact of_decide_eq_true (mem_filter.mp hu).2
  refine ⟨hcons, ?_⟩
  have hp' : (σ.add t).point = .calling now t₀ := hp
  rw [State.queued_calling hp', hcons, filter_cons_of_neg (by simp), filter_eq_self]
  exact fun u hu => decide_eq_true (hout u hu)

/-- A timer is set, by the program or by a callback. -/
theorem State.Good.add (hc : Ordered clock) (h : σ.Good clock)
    (hp : σ.point = .idle ∨ ∃ now t, σ.point = .calling now t) (ht : t.Exact)
    (hid : t.id = σ.set.length) (hdue : (clock σ.reads).micros ≤ t.due) : (σ.add t).Good clock := by
  have hqueued : (σ.add t).queued = link t σ.queued := by
    rcases hp with hp | ⟨now, t₀, hp⟩
    · rw [State.queued_idle hp, State.queued_idle ((σ.add_point t).trans hp), State.add_eventqueue]
    · exact (h.add_calling hp ht hid hdue).2
  constructor
  case exact =>
    intro u hu
    rcases mem_append.mp hu with hu | hu
    · exact h.exact u hu
    · exact mem_singleton.mp hu ▸ ht
  case ids =>
    rw [State.add_set, map_append, length_append, h.ids, length_singleton, range_succ, map_singleton, hid]
  case once =>
    rw [hqueued]
    calc σ.set ++ [t]
      _ ~ t :: σ.set := perm_append_singleton t σ.set
      _ ~ t :: (σ.called ++ (σ.queued ++ σ.removed)) := h.once.cons t
      _ ~ σ.called ++ (t :: σ.queued ++ σ.removed) := perm_middle.symm
      _ ~ σ.called ++ (link t σ.queued ++ σ.removed) :=
        ((perm_link t σ.queued).symm.append_right _).append_left _
  case order =>
    rw [hqueued, State.add_called]
    refine pairwise_link ht (fun u hu => ?_) (fun u hu => ?_) h.order
    · have hu := h.mem_set (.inr hu)
      exact ⟨h.exact u hu, hid ▸ h.id_lt hu⟩
    · exact .inl (Int.lt_of_lt_of_le (h.called_lt hu) hdue)
  case past =>
    rw [State.add_fired, State.add_reads]
    exact h.past_read hc
  case point =>
    rcases hp with hp | ⟨now, t₀, hp⟩
    · exact (State.at_idle ((σ.add_point t).trans hp)).mpr trivial
    · obtain ⟨hnow, ht₀, -⟩ := (State.at_calling hp).mp h.point
      obtain ⟨hcons, hq⟩ := h.add_calling hp ht hid hdue
      refine (State.at_calling ((σ.add_point t).trans hp)).mpr ⟨⟨hnow.1, ?_⟩, ht₀, hq ▸ hcons⟩
      exact Int.le_trans hnow.2 (hc.mono (Nat.le_succ _))

/-- What `ccnl_set_timer` does with a delay that fits. -/
theorem setTimer_cases (hc : Ordered clock) {usec : UInt64} {fct mem : Option Nat}
    (hf : (Event.set usec fct mem).Fits clock σ) : setTimer clock σ usec fct mem = σ ∨
    ∃ t : Timer, t.Exact ∧ t.id = σ.set.length ∧ (clock σ.reads).micros ≤ t.due ∧
      setTimer clock σ usec fct mem = σ.add t := by
  cases mem with
  | none => exact .inl rfl
  | some addr =>
    obtain ⟨hn, hm⟩ := timeoutAt_eq (hc.normal _) hf.1 hf.2
    obtain ⟨t, heq, hid, htimeout, hdue⟩ : ∃ t : Timer, setTimer clock σ usec fct (some addr) = σ.add t ∧
        t.id = σ.set.length ∧ t.timeout = timeoutAt (clock σ.reads) usec ∧
        t.due = (clock σ.reads).micros + usec.toNat := ⟨_, rfl, rfl, rfl, rfl⟩
    refine .inr ⟨t, ⟨htimeout ▸ hn, ?_⟩, hid, ?_, heq⟩
    · rw [htimeout, hm, hdue]
    · omega

theorem setTimer_good (hc : Ordered clock) {usec : UInt64} {fct mem : Option Nat} (h : σ.Good clock)
    (hp : σ.point = .idle ∨ ∃ now t, σ.point = .calling now t)
    (hf : (Event.set usec fct mem).Fits clock σ) : (setTimer clock σ usec fct mem).Good clock := by
  rcases setTimer_cases hc hf with heq | ⟨t, ht, hid, hdue, heq⟩
  · rw [heq]
    exact h
  · rw [heq]
    exact h.add hc hp ht hid hdue

/-- Only the program has gone on. -/
theorem State.Good.goto {p : Point} (h : σ.Good clock) (hq : (σ.goto p).queued = σ.queued)
    (hat : (σ.goto p).At clock) : (σ.goto p).Good clock where
  exact := h.exact
  ids := h.ids
  once := hq ▸ h.once
  order := hq ▸ h.order
  past := h.past
  point := hat

/-- Where no callback runs, the queue is what it is. -/
theorem State.queued_eq (hp : ∀ now t, σ.point ≠ .calling now t) : σ.queued = σ.eventqueue := by
  unfold State.queued
  split
  · exact absurd ‹_› (hp _ _)
  · rfl

/-- The program goes on after a round. -/
theorem State.Good.idle (h : σ.Good clock) (hp : ∀ now t, σ.point ≠ .calling now t) :
    (σ.goto .idle).Good clock :=
  h.goto (State.queued_eq hp).symm trivial

theorem remTimer_good (h : σ.Good clock) (hp : σ.point = .idle) (a : Nat) :
    (remTimer σ a).Good clock := by
  unfold remTimer
  split
  · exact h
  · rename_i e q hu
    obtain ⟨q₁, q₂, hq, rfl⟩ := unlink_eq_some hu
    have hsplit : σ.queued = q₁ ++ e :: q₂ := (State.queued_idle hp).trans hq
    have honce := h.once
    have horder := h.order
    rw [hsplit] at honce horder
    have hpoint : (σ.remove e (q₁ ++ q₂)).point = .idle := hp
    have hqueue : (σ.remove e (q₁ ++ q₂)).queued = q₁ ++ q₂ := State.queued_idle hpoint
    constructor
    case exact => exact h.exact
    case ids => exact h.ids
    case once =>
      rw [hqueue]
      calc σ.set
        _ ~ σ.called ++ (q₁ ++ e :: q₂ ++ σ.removed) := honce
        _ ~ σ.called ++ (e :: (q₁ ++ q₂) ++ σ.removed) := (perm_middle.append_right _).append_left _
        _ ~ σ.called ++ (q₁ ++ q₂ ++ e :: σ.removed) := perm_middle.symm.append_left _
        _ ~ σ.called ++ (q₁ ++ q₂ ++ (σ.removed ++ [e])) :=
          ((perm_append_singleton e _).symm.append_left _).append_left _
    case order =>
      rw [hqueue]
      exact horder.sublist (((sublist_cons_self e q₂).append_left q₁).append_left σ.called)
    case past => exact h.past
    case point => exact (State.at_idle hpoint).mpr trivial

theorem runEvents_good (hc : Ordered clock) (h : σ.Good clock) (hp : ∀ now t, σ.point ≠ .calling now t) :
    (runEvents clock σ).Good clock := by
  have hqueue : (runEvents clock σ).queued = σ.queued :=
    (State.queued_looping rfl).trans (State.queued_eq hp).symm
  constructor
  case exact => exact h.exact
  case ids => exact h.ids
  case once => exact hqueue ▸ h.once
  case order => exact hqueue ▸ h.order
  case past =>
    rw [runEvents_fired, runEvents_reads]
    exact h.past_read hc
  case point =>
    refine (State.at_looping rfl).mpr ⟨hc.normal _, ?_⟩
    rw [runEvents_reads]
    exact hc.mono (Nat.le_succ _)

/-- While a timer is called, what is behind it is queued. -/
theorem State.Good.queued_fire (h : σ.Good clock) (hp : σ.point = .looping now)
    (hq : σ.eventqueue = t :: q) : (σ.fire now t).queued = q := by
  have hcalling : (σ.fire now t).queued = σ.eventqueue.filter (·.id ≠ t.id) := State.queued_calling rfl
  have hnd := h.nodup
  rw [State.queued_looping hp, hq, map_cons, nodup_cons] at hnd
  rw [hcalling, hq, filter_cons_of_neg (by simp), filter_eq_self]
  exact fun u hu => decide_eq_true fun heq => hnd.1 (heq ▸ mem_map_of_mem hu)

/-- The first timer is due, and its callback is called. -/
theorem State.Good.fire (h : σ.Good clock) (hp : σ.point = .looping now) (hq : σ.eventqueue = t :: q)
    (hdue : t.due < now.micros) : (σ.fire now t).Good clock := by
  have hqueued := (State.queued_looping hp).trans hq
  have hat := (State.at_looping hp).mp h.point
  have hqueue := h.queued_fire hp hq
  have hcalled : (σ.fire now t).called = σ.called ++ [t] := map_append
  constructor
  case exact => exact h.exact
  case ids => exact h.ids
  case once =>
    have honce := h.once
    rw [hqueued] at honce
    rw [hcalled, hqueue, append_assoc, singleton_append, ← cons_append]
    exact honce
  case order =>
    rw [hcalled, hqueue, append_assoc, singleton_append, ← hqueued]
    exact h.order
  case past =>
    intro x hx
    rcases mem_append.mp hx with hx | hx
    · exact h.past x hx
    · obtain rfl := mem_singleton.mp hx
      exact ⟨hdue, hat.2⟩
  case point =>
    refine (State.at_calling rfl).mpr ⟨hat, ?_, ?_⟩
    · rw [hcalled]
      exact mem_append_right _ (mem_singleton_self t)
    · rw [hqueue]
      exact hq

/-- What the looper does when it looks at the first timer and the times fit. -/
theorem runEventsPass_cases (h : σ.Good clock) (hp : σ.point = .looping now)
    (hf : Event.pass.Fits clock σ) :
    (∃ r : Int32, runEventsPass now σ = σ.goto (.returned now r) ∧
      (∀ t ∈ σ.eventqueue, now.micros ≤ t.due) ∧
      r.toInt = (σ.eventqueue.head?.map fun t => t.due - now.micros).getD (-1)) ∨
    ∃ t q, σ.eventqueue = t :: q ∧ t.due < now.micros ∧ runEventsPass now σ = σ.fire now t := by
  have hqueued := State.queued_looping hp
  unfold runEventsPass
  split
  · rename_i hq
    refine .inl ⟨-1, rfl, fun t ht => ?_, ?_⟩
    · cases hq ▸ ht
    · rw [hq]
      rfl
  · rename_i t q hq
    obtain ⟨hlow, hhigh⟩ : HeadFits (.looping now) (t :: q) := hp ▸ hq ▸ hf
    have ht := h.exact t (h.mem_set (.inr (by rw [hqueued, hq]; exact mem_cons_self)))
    have hdelta : (timevaldelta t.timeout now).toInt = t.due - now.micros := by
      rw [timevaldelta_eq (by rw [ht.micros]; omega) (by rw [ht.micros]; omega), ht.micros]
    have hsign : timevaldelta t.timeout now ≥ 0 ↔ 0 ≤ t.due - now.micros := by
      rw [ge_iff_le, Int64.le_iff_toInt_le, hdelta]
      rfl
    by_cases hge : 0 ≤ t.due - now.micros
    · -- the first timer is not due, and so none is
      refine .inl ⟨_, if_pos (hsign.mpr hge), fun u hu => ?_, ?_⟩
      · obtain ⟨-, hpw, -⟩ := pairwise_append.mp h.order
        rw [hqueued, hq] at hpw
        rcases mem_cons.mp (hq ▸ hu) with rfl | hu
        · omega
        · have := ((pairwise_cons.mp hpw).1 u hu).le
          omega
      · rw [Int64.toInt_toInt32, hdelta, Int.bmod_eq_of_le (by omega) (by omega), hq]
        rfl
    · exact .inr ⟨t, q, hq, by omega, if_neg fun hle => hge (hsign.mp hle)⟩

theorem runEventsPass_good (h : σ.Good clock) (hp : σ.point = .looping now)
    (hf : Event.pass.Fits clock σ) : (runEventsPass now σ).Good clock := by
  rcases runEventsPass_cases h hp hf with ⟨r, heq, hres⟩ | ⟨t, q, hq, hdue, heq⟩
  · rw [heq]
    exact h.goto (State.queued_looping hp).symm ((State.at_returned rfl).mpr hres)
  · rw [heq]
    exact h.fire hp hq hdue

/-- What follows the timer that was called is what is queued. -/
theorem runEventsNext_queued (h : σ.Good clock) (hp : σ.point = .calling now t) :
    (runEventsNext now t σ).queued = σ.queued := by
  obtain ⟨-, -, hcons⟩ := (State.at_calling hp).mp h.point
  have hlooping : (runEventsNext now t σ).queued = (σ.eventqueue.dropWhile (·.id ≠ t.id)).tail :=
    State.queued_looping rfl
  rw [hlooping, hcons, dropWhile_cons_of_neg (by simp), tail_cons]

theorem runEventsNext_good (h : σ.Good clock) (hp : σ.point = .calling now t) :
    (runEventsNext now t σ).Good clock where
  exact := h.exact
  ids := h.ids
  once := runEventsNext_queued h hp ▸ h.once
  order := runEventsNext_queued h hp ▸ h.order
  past := h.past
  point := (State.at_looping rfl).mpr ((State.at_calling hp).mp h.point).1

/-- What an event can do. -/
theorem step_cases {e : Event} (hs : step clock e σ = .ok τ) :
    (∃ usec fct mem, e = .set usec fct mem ∧
      ((∃ now t, σ.point = .calling now t) ∧ τ = setTimer clock σ usec fct mem ∨
        (∀ now t, σ.point ≠ .calling now t) ∧ τ = setTimer clock (σ.goto .idle) usec fct mem)) ∨
    (∃ a, e = .rem a ∧ (∀ now t, σ.point ≠ .calling now t) ∧ τ = remTimer (σ.goto .idle) a) ∨
    (e = .run ∧ (∀ now t, σ.point ≠ .calling now t) ∧ τ = runEvents clock σ) ∨
    (∃ now, e = .pass ∧ σ.point = .looping now ∧ τ = runEventsPass now σ) ∨
    ∃ now t, e = .back ∧ σ.point = .calling now t ∧ τ = runEventsNext now t σ := by
  cases e <;> cases hp : σ.point <;> simp only [step, hp] at hs <;> try cases hs
  case set.calling usec fct mem now t =>
    split at hs
    · cases hs
      exact .inl ⟨usec, fct, mem, rfl, .inl ⟨⟨now, t, rfl⟩, rfl⟩⟩
    · cases hs
  case set.idle usec fct mem | set.returned usec fct mem _ _ =>
    exact .inl ⟨usec, fct, mem, rfl, .inr ⟨by rintro _ _ ⟨⟩, rfl⟩⟩
  case rem.idle a | rem.returned a _ _ => exact .inr (.inl ⟨a, rfl, by rintro _ _ ⟨⟩, rfl⟩)
  case run.idle | run.returned => exact .inr (.inr (.inl ⟨rfl, by rintro _ _ ⟨⟩, rfl⟩))
  case pass.looping now => exact .inr (.inr (.inr (.inl ⟨now, rfl, rfl, rfl⟩)))
  case back.calling now t => exact .inr (.inr (.inr (.inr ⟨now, t, rfl, rfl, rfl⟩)))

/-- What an event that fits keeps. -/
theorem step_good (hc : Ordered clock) {e : Event} (h : σ.Good clock) (hf : e.Fits clock σ)
    (hs : step clock e σ = .ok τ) : τ.Good clock := by
  rcases step_cases hs with ⟨usec, fct, mem, rfl, ⟨hp, rfl⟩ | ⟨hp, rfl⟩⟩ | ⟨a, rfl, hp, rfl⟩ |
    ⟨rfl, hp, rfl⟩ | ⟨now, rfl, hp, rfl⟩ | ⟨now, t, rfl, hp, rfl⟩
  · exact setTimer_good hc h (.inr hp) hf
  · exact setTimer_good hc (h.idle hp) (.inl rfl) (by cases mem <;> exact hf)
  · exact remTimer_good (h.idle hp) rfl a
  · exact runEvents_good hc h hp
  · exact runEventsPass_good h hp hf
  · exact runEventsNext_good h hp

theorem system_good (hc : Ordered clock) :
    (system clock).KeepsBy (fun e σ => e.Fits clock σ) (State.Good clock) where
  start σ hσ := by
    cases hσ
    exact {
      exact := fun _ ht => by cases ht
      ids := rfl
      once := .refl _
      order := .nil
      past := fun _ hx => by cases hx
      point := trivial }
  step _ _ _ h hf hs := step_good hc h hf hs

/-! ## The end of a round -/

theorem State.left_looping (hp : σ.point = .looping now) :
    σ.left = σ.queued.countP (·.due < now.micros) + 1 := by
  rw [State.left, hp]

theorem State.left_calling (hp : σ.point = .calling now t) :
    σ.left = σ.queued.countP (·.due < now.micros) + 1 := by
  rw [State.left, hp]

theorem State.left_returned {r : Int32} (hp : σ.point = .returned now r) : σ.left = 0 := by
  rw [State.left, hp]

theorem State.left_idle (hp : σ.point = .idle) : σ.left = 0 := by
  rw [State.left, hp]

/-- A timer that a callback sets is not due in this round. -/
theorem setTimer_left (hc : Ordered clock) {usec : UInt64} {fct mem : Option Nat} (h : σ.Good clock)
    (hp : σ.point = .calling now t) (hf : (Event.set usec fct mem).Fits clock σ) :
    (setTimer clock σ usec fct mem).left = σ.left := by
  rcases setTimer_cases hc hf with heq | ⟨u, hu, hid, hdue, heq⟩
  · rw [heq]
  · have hnow := ((State.at_calling hp).mp h.point).1.2
    rw [heq, State.left_calling hp, State.left_calling ((σ.add_point u).trans hp),
      (h.add_calling hp hu hid hdue).2, (perm_link _ _).countP_eq, countP_cons_of_neg]
    rw [decide_eq_true_eq]
    omega

/-- Each look at the queue is one of those that are left. -/
theorem runEventsPass_left (h : σ.Good clock) (hp : σ.point = .looping now)
    (hf : Event.pass.Fits clock σ) : (runEventsPass now σ).left + 1 ≤ σ.left := by
  rw [State.left_looping hp]
  rcases runEventsPass_cases h hp hf with ⟨r, heq, -⟩ | ⟨t, q, hq, hdue, heq⟩
  · rw [heq, State.left_returned rfl]
    exact Nat.le_add_left _ _
  · have hcount : (t :: q).countP (·.due < now.micros) = q.countP (·.due < now.micros) + 1 := by
      rw [countP_cons_of_pos]
      exact decide_eq_true hdue
    rw [heq, State.left_calling rfl, h.queued_fire hp hq, State.queued_looping hp, hq, hcount]

/-- What an event leaves of the looks at the queue. -/
theorem step_left (hc : Ordered clock) {e : Event} (h : σ.Good clock) (hf : e.Fits clock σ)
    (he : e ≠ .run) (hs : step clock e σ = .ok τ) :
    τ.left + (if e = .pass then 1 else 0) ≤ σ.left := by
  rcases step_cases hs with ⟨usec, fct, mem, rfl, ⟨⟨now, t, hp⟩, rfl⟩ | ⟨hp, rfl⟩⟩ | ⟨a, rfl, hp, rfl⟩ |
    ⟨rfl, hp, rfl⟩ | ⟨now, rfl, hp, rfl⟩ | ⟨now, t, rfl, hp, rfl⟩
  · exact Nat.le_of_eq (setTimer_left hc h hp hf)
  · have hpoint : (setTimer clock (σ.goto .idle) usec fct mem).point = .idle := by
      cases mem <;> rfl
    rw [State.left_idle hpoint]
    exact Nat.zero_le _
  · have hpoint : (remTimer (σ.goto .idle) a).point = .idle := by
      unfold remTimer
      split <;> rfl
    rw [State.left_idle hpoint]
    exact Nat.zero_le _
  · exact absurd rfl he
  · exact runEventsPass_left h hp hf
  · rw [State.left_calling hp, State.left_looping rfl, runEventsNext_queued h hp]
    exact Nat.le_refl _

/-- A call of the looper ends. -/
theorem passes_le (hc : Ordered clock) {es : List Event} (h : σ.Good clock) (hrun : .run ∉ es)
    (hf : Along (fun σ e => step clock e σ) (fun σ e => e.Fits clock σ) es σ)
    (hs : es.foldlM (fun σ e => step clock e σ) σ = .ok τ) : es.count .pass ≤ σ.left := by
  induction es generalizing σ with
  | nil => exact Nat.zero_le _
  | cons e es ih =>
    rw [foldlM_cons] at hs
    obtain ⟨σ₁, h₁, hs⟩ := (bind_eq_ok _ _ _).mp hs
    have hleft := step_left hc h hf.1 (fun he => hrun (he ▸ mem_cons_self)) h₁
    have hrest := ih (step_good hc h hf.1 h₁) (fun hm => hrun (mem_cons_of_mem _ hm)) (hf.2 _ h₁) hs
    rw [count_cons]
    simp only [beq_iff_eq]
    omega

theorem State.Good.ends (hc : Ordered clock) (h : σ.Good clock) : σ.Ends clock where
  pass now hp := ⟨_, by simp only [step, hp]; rfl⟩
  back now t hp := ⟨_, by simp only [step, hp]; rfl⟩
  passes _ _ hrun hf hs := passes_le hc h hrun hf hs

end Good

/-- A clock that shows one second from its second reading on. -/
def oneSecond (n : Nat) : Timeval := ⟨if n = 0 then 0 else 1, 0⟩

theorem ordered_oneSecond : Ordered oneSecond where
  normal n := ⟨show (0 : Int) ≤ 0 by decide, show (0 : Int) < 1000000 by decide⟩
  mono {m n} h := by
    unfold oneSecond
    by_cases hn : n = 0
    · exact Int.le_of_eq (by rw [if_pos hn, if_pos (by omega)])
    · rw [if_neg hn]
      split <;> decide

/-- A timer is called half a second late, and sets another one. -/
def oneRound : List Event :=
  [.set 500000 (some 0) (some 8), .run, .pass, .set 2000000 none (some 16), .back, .pass]

end Ccnl.OsTime
