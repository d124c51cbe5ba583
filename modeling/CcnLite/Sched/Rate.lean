import CcnLite.Sched.EventQueue
import CcnLite.Sched.Model

/-!
# The packet rate (`ccnl_sched_RTS`, `ccnl_sched_CTS_done`)

A scheduler calls its callback at once, or sets a timer that does, and moves `nextTX` on. `system`
are the runs of one scheduler. A callback that calls the scheduler again is the last thing that
happens in a call, so what it leads to are events of their own. Of the looper only this is used, that
it calls a timer when its deadline is reached, whenever and in whatever order.

* `Spaced`: callbacks that no timer delays are `ipi` apart.
* `Event.Meets`: the condition on an event. A scheduler of `ccnl_sched_packetratelimiter_new` is a
  dummy and calls back at once. The deadline of a timer is counted from a second reading of the
  clock.
* `system_good`: the runs of such events keep the invariant, from which `Spaced` is read off.
* `schedServe_now`, `schedServe_later`: the scheduler in the model of the relay is this one.
-/

namespace Ccnl.Rate

open CRun List OsTime
open UseScheduler (Mode)

/-! ## The functions -/

/-- `struct ccnl_sched_s`. -/
structure Sched where
  mode : Mode := .dummy
  aux1 : Option Nat := none
  aux2 : Option Nat := none
  cnt : Int32 := 0
  pendingTimer : Option Nat := none
  nextTX : Timeval := ⟨0, 0⟩
  /-- The inter-packet interval. -/
  ipi : Int32 := 0
  deriving DecidableEq, Repr

/-- A timer with the callback of the scheduler. -/
structure Timer where
  timeout : Timeval
  aux1 : Option Nat
  aux2 : Option Nat
  deriving DecidableEq, Repr

/-- A call of `cts`, and when it was due. -/
structure Cts where
  time : Timeval
  due : Timeval
  aux1 : Option Nat
  aux2 : Option Nat
  deriving DecidableEq, Repr

/-- The scheduler, if there is one, and what has happened. -/
structure State where
  sched : Option Sched
  timers : List Timer := []
  /-- How often the clock has been read. -/
  reads : Nat := 1
  log : List Cts := []
  deriving DecidableEq, Repr

/-- `ccnl_sched_pktrate_new`. `mem` is what `ccnl_calloc` gives. -/
def pktrateNew (mem : Option Nat) (ipi : Int32) (now : Timeval) : Option Sched :=
  mem.map fun _ => { mode := .pktrate, nextTX := now, ipi := ipi }

/-- `ccnl_sched_packetratelimiter_new`. -/
def packetratelimiterNew (mem : Option Nat) (ipi : Int32) (aux1 aux2 : Option Nat)
    (now : Timeval) : Option Sched :=
  mem.map fun _ => { aux1 := aux1, aux2 := aux2, nextTX := now, ipi := ipi }

/-- `tv_sec += ipi / 1000000` and `tv_usec += ipi % 1000000`. -/
def after (t : Timeval) (ipi : Int32) : Timeval :=
  { sec := t.sec + (ipi / 1000000).toInt64, usec := t.usec + (ipi % 1000000).toInt64 }

section Functions

variable (clock : Nat → Timeval)

/-- `cts(aux1, aux2)` at the time of the reading. -/
def State.cts (σ : State) (s : Sched) : State :=
  let now := clock σ.reads
  { σ with
    sched := some s
    reads := σ.reads + 1
    log := σ.log ++ [{ time := now, due := now, aux1 := s.aux1, aux2 := s.aux2 }] }

/-- `ccnl_set_timer` for the callback of `s`. -/
def State.setTimer (σ : State) (usec : UInt64) (s : Sched) (mem : Option Nat) : State :=
  match mem with
  | none => { σ with sched := some s }
  | some _ =>
    let t := { timeout := timeoutAt (clock σ.reads) usec, aux1 := s.aux1, aux2 := s.aux2 }
    { σ with sched := some s, timers := σ.timers ++ [t], reads := σ.reads + 1 }

/-- The end of `ccnl_sched_RTS` and of `ccnl_sched_CTS_done`. -/
def State.serve (σ : State) (s : Sched) (mem : Option Nat) : State :=
  match s.mode with
  | .dummy => σ.cts clock s
  | .pktrate =>
    let now := clock σ.reads
    let since := timevaldelta s.nextTX now
    if since ≤ 0 then σ.cts clock { s with nextTX := after now s.ipi }
    else
      let s := { s with pendingTimer := mem, nextTX := after s.nextTX s.ipi }
      { σ with reads := σ.reads + 1 }.setTimer clock since.toUInt64 s mem

/-- `ccnl_sched_RTS`. -/
def schedRTS (σ : State) (cnt : Int32) (aux1 aux2 mem : Option Nat) : State :=
  match σ.sched with
  | none => σ
  | some s => σ.serve clock { s with cnt := s.cnt + cnt, aux1 := aux1, aux2 := aux2 } mem

/-- `ccnl_sched_CTS_done`. -/
def schedCTSDone (σ : State) (cnt : Int32) (mem : Option Nat) : State :=
  match σ.sched with
  | none => σ
  | some s =>
    let s := { s with cnt := s.cnt - cnt }
    if s.cnt ≤ 0 then { σ with sched := some s } else σ.serve clock s mem

/-- The looper calls the timer. -/
def State.fire (σ : State) (k : Nat) (t : Timer) : State :=
  { σ with
    timers := σ.timers.eraseIdx k
    reads := σ.reads + 1
    log := σ.log ++ [{ time := clock σ.reads, due := t.timeout, aux1 := t.aux1, aux2 := t.aux2 }] }

end Functions

/-! ## Runs -/

/-- What happens next. `mem` is what `ccnl_calloc` gives for a timer. -/
inductive Event where
  | rts (cnt : Int32) (aux1 aux2 mem : Option Nat)
  | ctsDone (cnt : Int32) (mem : Option Nat)
  /-- A timer is called. -/
  | fire (k : Nat)
  deriving DecidableEq, Repr

/-- An event, where it can come. -/
def step (clock : Nat → Timeval) : Event → State → Run State
  | .rts cnt aux1 aux2 mem, σ => .ok (schedRTS clock σ cnt aux1 aux2 mem)
  | .ctsDone cnt mem, σ => .ok (schedCTSDone clock σ cnt mem)
  | .fire k, σ =>
    match σ.timers[k]? with
    | none => .error .bail
    | some t =>
      if t.timeout.micros ≤ (clock σ.reads).micros then .ok (σ.fire clock k t) else .error .bail

/-- What the constructors of a rate limiter make. -/
inductive Made (ipi : Int32) (now : Timeval) : Option Sched → Prop
  | pktrate (mem : Option Nat) : Made ipi now (pktrateNew mem ipi now)
  | packetratelimiter (mem aux1 aux2 : Option Nat) :
    Made ipi now (packetratelimiterNew mem ipi aux1 aux2 now)

/-- All runs of a rate limiter. -/
def system (clock : Nat → Timeval) (ipi : Int32) : Sys State Event where
  Start σ := ∃ s, Made ipi (clock 0) s ∧ σ = { sched := s }
  step := step clock

/-- The callback has not been delayed by a late timer. -/
def Cts.OnTime (c : Cts) : Prop := c.time.micros ≤ c.due.micros

instance (c : Cts) : Decidable c.OnTime := inferInstanceAs (Decidable (_ ≤ _))

/-- Any two callbacks that are on time are `ipi` apart. -/
def Spaced (ipi : Int32) (log : List Cts) : Prop :=
  log.Pairwise fun c c' => c.OnTime → c'.OnTime → c.time.micros + ipi.toInt ≤ c'.time.micros

instance (ipi : Int32) (log : List Cts) : Decidable (Spaced ipi log) :=
  inferInstanceAs (Decidable (log.Pairwise _))

/-- In the first 2^62 microseconds after the epoch. -/
structure InRange (t : Timeval) : Prop where
  sec : 0 ≤ t.sec.toInt
  usec : 0 ≤ t.usec.toInt
  micros : t.micros < 2 ^ 62

instance (t : Timeval) : Decidable (InRange t) :=
  decidable_of_iff (0 ≤ t.sec.toInt ∧ 0 ≤ t.usec.toInt ∧ t.micros < 2 ^ 62)
    ⟨fun h => ⟨h.1, h.2.1, h.2.2⟩, fun h => ⟨h.1, h.2, h.3⟩⟩

/-- The condition on a call that serves `s`. A dummy does not look at the clock, so the call has to
come in time. Else the clock must not move on between the two readings of a call that sets a timer,
and its times are in range. -/
def Sched.Meets (clock : Nat → Timeval) (σ : State) (s : Sched) : Prop :=
  match s.mode with
  | .dummy => ∀ c ∈ σ.log, c.time.micros + s.ipi.toInt ≤ (clock σ.reads).micros
  | .pktrate => InRange (clock σ.reads) ∧ InRange s.nextTX ∧
      (0 < timevaldelta s.nextTX (clock σ.reads) → clock (σ.reads + 1) = clock σ.reads)

/-- The condition on an event. -/
def Event.Meets (clock : Nat → Timeval) : Event → State → Prop
  | .rts .., σ => ∀ s ∈ σ.sched, s.Meets clock σ
  | .ctsDone cnt _, σ => ∀ s ∈ σ.sched, 0 < s.cnt - cnt → s.Meets clock σ
  | .fire _, _ => True

instance Sched.decidableMeets (clock : Nat → Timeval) (σ : State) (s : Sched) :
    Decidable (s.Meets clock σ) :=
  match h : s.mode with
  | .dummy => decidable_of_iff (∀ c ∈ σ.log, c.time.micros + s.ipi.toInt ≤ (clock σ.reads).micros)
      (by rw [Sched.Meets, h])
  | .pktrate => decidable_of_iff (InRange (clock σ.reads) ∧ InRange s.nextTX ∧
        (0 < timevaldelta s.nextTX (clock σ.reads) → clock (σ.reads + 1) = clock σ.reads))
      (by rw [Sched.Meets, h])

instance Event.decidableMeets (clock : Nat → Timeval) : ∀ e σ, Decidable (Event.Meets clock e σ)
  | .rts .., σ => inferInstanceAs (Decidable (∀ s ∈ σ.sched, s.Meets clock σ))
  | .ctsDone cnt _, σ =>
    inferInstanceAs (Decidable (∀ s ∈ σ.sched, 0 < s.cnt - cnt → s.Meets clock σ))
  | .fire _, _ => .isTrue trivial

/-! ## Arithmetic -/

section Time

variable {a b now : Timeval} {ipi : Int32}

theorem InRange.nonneg (ha : InRange a) : 0 ≤ a.micros := by
  obtain ⟨hsec, husec, -⟩ := ha
  unfold Timeval.micros
  omega

theorem after_eq (ha : InRange a) (h : 0 ≤ ipi.toInt) :
    (after a ipi).micros = a.micros + ipi.toInt := by
  obtain ⟨hsec, husec, hlt⟩ := ha
  have hhigh := ipi.toInt_lt
  have hquot : (ipi / 1000000).toInt = ipi.toInt / 1000000 := by
    rw [Int32.toInt_div_of_ne_right _ _ (by decide)]
    exact Int.tdiv_eq_ediv_of_nonneg h
  have hrem : (ipi % 1000000).toInt = ipi.toInt % 1000000 := by
    rw [Int32.toInt_mod]
    exact Int.tmod_eq_emod_of_nonneg h
  unfold Timeval.micros at hlt ⊢
  simp only [after, Int64.toInt_add, Int32.toInt_toInt64, hquot, hrem]
  rw [Int.bmod_eq_of_le (by omega) (by omega), Int.bmod_eq_of_le (by omega) (by omega)]
  omega

theorem since_eq (ha : InRange a) (hb : InRange b) :
    (timevaldelta a b).toInt = a.micros - b.micros := by
  have ha₀ := ha.nonneg
  have hb₀ := hb.nonneg
  have ha₁ := ha.micros
  have hb₁ := hb.micros
  exact timevaldelta_eq (by omega) (by omega)

/-- A timer that is set without a delay is due at the time that was asked for. -/
theorem timeout_eq (hn : now.Normal) (hnow : InRange now) (ha : InRange a)
    (h : 0 < timevaldelta a now) :
    (timeoutAt now (timevaldelta a now).toUInt64).micros = a.micros := by
  have hsince := since_eq ha hnow
  have hpos : 0 ≤ (timevaldelta a now).toInt := Int.le_of_lt (Int64.lt_iff_toInt_lt.mp h)
  have hdelay := toNat_toUInt64 hpos
  have hlt := ha.micros
  have hnow₀ := hnow.nonneg
  have husec := hn.lt
  obtain ⟨-, heq⟩ := @timeoutAt_eq now (timevaldelta a now).toUInt64 hn (by omega) (by omega)
  rw [heq]
  omega

end Time

/-! ## The invariant -/

/-- Two times that are `ipi` apart. -/
def Apart (ipi : Int32) (d e : Int) : Prop := d + ipi.toInt ≤ e ∨ e + ipi.toInt ≤ d

/-- When the callbacks were due, and when the pending timers are. -/
def State.dues (σ : State) : List Int :=
  σ.log.map (·.due.micros) ++ σ.timers.map (·.timeout.micros)

/-- A dummy has no timers. Else all that has been granted is before `nextTX`. -/
def Sched.Ready (σ : State) (s : Sched) : Prop :=
  match s.mode with
  | .dummy => σ.timers = []
  | .pktrate => ∀ d ∈ σ.dues, d + s.ipi.toInt ≤ s.nextTX.micros

structure State.Good (clock : Nat → Timeval) (ipi : Int32) (σ : State) : Prop where
  apart : σ.dues.Pairwise (Apart ipi)
  past : ∀ c ∈ σ.log, c.due.micros ≤ c.time.micros ∧ c.time.micros ≤ (clock σ.reads).micros
  order : σ.log.Pairwise fun c c' => c.time.micros ≤ c'.time.micros
  ipi : ∀ s ∈ σ.sched, s.ipi = ipi
  ready : ∀ s ∈ σ.sched, s.Ready σ

section Good

variable {clock : Nat → Timeval} {ipi : Int32} {σ τ : State} {s : Sched} {d : Int} {t : Timer}
  {k : Nat} {mem : Option Nat} {usec : UInt64}

theorem Sched.ready_dummy (hm : s.mode = .dummy) : s.Ready σ ↔ σ.timers = [] := by
  rw [Sched.Ready, hm]

theorem Sched.ready_pktrate (hm : s.mode = .pktrate) :
    s.Ready σ ↔ ∀ d ∈ σ.dues, d + s.ipi.toInt ≤ s.nextTX.micros := by
  rw [Sched.Ready, hm]

theorem Apart.symm {d e : Int} (h : Apart ipi d e) : Apart ipi e d := Or.symm h

theorem dues_cts (σ : State) (s : Sched) :
    (σ.cts clock s).dues ~ (clock σ.reads).micros :: σ.dues := by
  unfold State.dues State.cts
  rw [map_append, append_assoc]
  exact perm_middle

theorem dues_setTimer (σ : State) (usec : UInt64) (s : Sched) (a : Nat) :
    (σ.setTimer clock usec s (some a)).dues ~
      (timeoutAt (clock σ.reads) usec).micros :: σ.dues := by
  unfold State.dues State.setTimer
  dsimp only
  rw [map_append, ← append_assoc]
  exact perm_append_comm

theorem mem_dues_setTimer (h : d ∈ (σ.setTimer clock usec s mem).dues) :
    d = (timeoutAt (clock σ.reads) usec).micros ∨ d ∈ σ.dues := by
  cases mem with
  | none => exact .inr h
  | some a => exact mem_cons.mp ((dues_setTimer σ usec s a).mem_iff.mp h)

theorem dues_fire (h : σ.timers[k]? = some t) : (σ.fire clock k t).dues ~ σ.dues := by
  obtain ⟨hk, rfl⟩ := List.getElem?_eq_some_iff.mp h
  unfold State.dues State.fire
  dsimp only
  rw [map_append, append_assoc]
  exact ((getElem_cons_eraseIdx_perm hk).map fun t => t.timeout.micros).append_left _

/-- A callback comes `ipi` behind all that has been granted. -/
theorem apart_cons {l l' : List Int} (h : l.Pairwise (Apart ipi)) (hp : l' ~ d :: l)
    (hd : ∀ e ∈ l, e + ipi.toInt ≤ d) : l'.Pairwise (Apart ipi) :=
  (hp.pairwise_iff Apart.symm).mpr (pairwise_cons.mpr ⟨fun e he => .inr (hd e he), h⟩)

/-- What is logged at the time of a reading. -/
theorem past_append (hc : Ordered clock) {c : Cts}
    (h : ∀ c ∈ σ.log, c.due.micros ≤ c.time.micros ∧ c.time.micros ≤ (clock σ.reads).micros)
    (htime : c.time = clock σ.reads) (hdue : c.due.micros ≤ c.time.micros) :
    ∀ c' ∈ σ.log ++ [c], c'.due.micros ≤ c'.time.micros ∧
      c'.time.micros ≤ (clock (σ.reads + 1)).micros := by
  have hnext := hc.mono (Nat.le_succ σ.reads)
  intro c' hc'
  rcases mem_append.mp hc' with hc' | hc'
  · exact ⟨(h c' hc').1, Int.le_trans (h c' hc').2 hnext⟩
  · obtain rfl := mem_singleton.mp hc'
    exact ⟨hdue, htime ▸ hnext⟩

theorem order_append (h : σ.Good clock ipi) {c : Cts} (htime : c.time = clock σ.reads) :
    (σ.log ++ [c]).Pairwise fun c c' => c.time.micros ≤ c'.time.micros := by
  refine pairwise_append.mpr ⟨h.order, pairwise_singleton _ _, fun c₁ h₁ c₂ h₂ => ?_⟩
  obtain rfl := mem_singleton.mp h₂
  exact htime ▸ (h.past c₁ h₁).2

/-- The callback is called at once. -/
theorem State.Good.cts (hc : Ordered clock) (h : σ.Good clock ipi)
    (hlate : ∀ d ∈ σ.dues, d + ipi.toInt ≤ (clock σ.reads).micros) (hipi : s.ipi = ipi)
    (hready : s.Ready (σ.cts clock s)) : (σ.cts clock s).Good clock ipi where
  apart := apart_cons h.apart (dues_cts σ s) hlate
  past := past_append hc h.past rfl (Int.le_refl _)
  order := order_append h rfl
  ipi := by
    rintro _ ⟨⟩
    exact hipi
  ready := by
    rintro _ ⟨⟩
    exact hready

/-- A timer is set, if there is memory for it. -/
theorem State.Good.setTimer (hc : Ordered clock) (h : σ.Good clock ipi)
    (hlate : ∀ a, mem = some a →
      ∀ d ∈ σ.dues, d + ipi.toInt ≤ (timeoutAt (clock σ.reads) usec).micros)
    (hipi : s.ipi = ipi) (hready : s.Ready (σ.setTimer clock usec s mem)) :
    (σ.setTimer clock usec s mem).Good clock ipi := by
  cases mem with
  | none =>
    refine ⟨h.apart, h.past, h.order, ?_, ?_⟩
    · rintro _ ⟨⟩
      exact hipi
    · rintro _ ⟨⟩
      exact hready
  | some a =>
    refine ⟨apart_cons h.apart (dues_setTimer σ usec s a) (hlate a rfl), fun c hmem => ?_, h.order,
      ?_, ?_⟩
    · exact ⟨(h.past c hmem).1, Int.le_trans (h.past c hmem).2 (hc.mono (Nat.le_succ _))⟩
    · rintro _ ⟨⟩
      exact hipi
    · rintro _ ⟨⟩
      exact hready

/-- A timer is called. -/
theorem State.Good.fire (hc : Ordered clock) (h : σ.Good clock ipi) (hk : σ.timers[k]? = some t)
    (ht : t.timeout.micros ≤ (clock σ.reads).micros) : (σ.fire clock k t).Good clock ipi where
  apart := ((dues_fire hk).pairwise_iff Apart.symm).mpr h.apart
  past := past_append hc h.past rfl ht
  order := order_append h rfl
  ipi := h.ipi
  ready s hs := by
    have hready := h.ready s hs
    cases hm : s.mode with
    | dummy =>
      rw [(Sched.ready_dummy hm).mp hready] at hk
      exact absurd hk (by simp)
    | pktrate =>
      refine (Sched.ready_pktrate hm).mpr fun d hd => ?_
      exact (Sched.ready_pktrate hm).mp hready d ((dues_fire hk).mem_iff.mp hd)

/-- The clock is read. -/
theorem State.Good.read (hc : Ordered clock) (h : σ.Good clock ipi) :
    State.Good clock ipi { σ with reads := σ.reads + 1 } where
  apart := h.apart
  past c hmem := ⟨(h.past c hmem).1, Int.le_trans (h.past c hmem).2 (hc.mono (Nat.le_succ _))⟩
  order := h.order
  ipi := h.ipi
  ready := h.ready

/-- A call that serves a dummy. -/
theorem serve_dummy (hc : Ordered clock) (h : σ.Good clock ipi) (hipi : s.ipi = ipi)
    (hready : s.Ready σ) (hmeets : s.Meets clock σ) (hm : s.mode = .dummy) :
    (σ.serve clock s mem).Good clock ipi := by
  have htimers := (Sched.ready_dummy hm).mp hready
  rw [Sched.Meets, hm] at hmeets
  rw [State.serve, hm]
  refine h.cts hc (fun d hd => ?_) hipi ((Sched.ready_dummy hm).mpr htimers)
  rw [State.dues, htimers, map_nil, append_nil] at hd
  obtain ⟨c, hmem, rfl⟩ := mem_map.mp hd
  have hpast := (h.past c hmem).1
  have htime := hmeets c hmem
  rw [hipi] at htime
  omega

theorem serve_now (hm : s.mode = .pktrate) (h : timevaldelta s.nextTX (clock σ.reads) ≤ 0) :
    σ.serve clock s mem = σ.cts clock { s with nextTX := after (clock σ.reads) s.ipi } := by
  simp only [State.serve, hm, h, if_true]

theorem serve_later (hm : s.mode = .pktrate) (h : 0 < timevaldelta s.nextTX (clock σ.reads)) :
    σ.serve clock s mem = State.setTimer clock { σ with reads := σ.reads + 1 }
      (timevaldelta s.nextTX (clock σ.reads)).toUInt64
      { s with pendingTimer := mem, nextTX := after s.nextTX s.ipi } mem := by
  simp only [State.serve, hm, Int64.not_le.mpr h, if_false]

/-- A call that serves a scheduler with a rate: now, or at `nextTX`. -/
theorem serve_pktrate (hc : Ordered clock) (h0 : 0 < ipi) (h : σ.Good clock ipi)
    (hipi : s.ipi = ipi) (hready : s.Ready σ) (hmeets : s.Meets clock σ) (hm : s.mode = .pktrate) :
    (σ.serve clock s mem).Good clock ipi := by
  have hpos : 0 < ipi.toInt := Int32.lt_iff_toInt_lt.mp h0
  have hdues := (Sched.ready_pktrate hm).mp hready
  rw [Sched.Meets, hm] at hmeets
  obtain ⟨hnow, hnext, hsame⟩ := hmeets
  have hsince := since_eq hnext hnow
  rw [hipi] at hdues
  rcases Int64.le_or_lt (timevaldelta s.nextTX (clock σ.reads)) 0 with hle | hgt
  · have hle' : (timevaldelta s.nextTX (clock σ.reads)).toInt ≤ 0 := Int64.le_iff_toInt_le.mp hle
    rw [serve_now hm hle]
    refine h.cts hc (fun d hd => ?_) hipi ((Sched.ready_pktrate ?_).mpr fun d hd => ?_)
    · have := hdues d hd
      omega
    · exact hm
    · rw [hipi, after_eq hnow (Int.le_of_lt hpos)]
      rcases mem_cons.mp ((dues_cts σ _).mem_iff.mp hd) with rfl | hd
      · exact Int.le_refl _
      · have := hdues d hd
        omega
  · have htimeout : (timeoutAt (clock (σ.reads + 1))
        (timevaldelta s.nextTX (clock σ.reads)).toUInt64).micros = s.nextTX.micros := by
      rw [hsame hgt]
      exact timeout_eq (hc.normal _) hnow hnext hgt
    rw [serve_later hm hgt]
    refine (h.read hc).setTimer hc (fun a _ d hd => ?_) hipi
      ((Sched.ready_pktrate ?_).mpr fun d hd => ?_)
    · rw [htimeout]
      exact hdues d hd
    · exact hm
    · rw [hipi, after_eq hnext (Int.le_of_lt hpos)]
      rcases mem_dues_setTimer hd with rfl | hd
      · rw [htimeout]
      · have := hdues d hd
        omega

theorem serve_good (hc : Ordered clock) (h0 : 0 < ipi) (h : σ.Good clock ipi) (hipi : s.ipi = ipi)
    (hready : s.Ready σ) (hmeets : s.Meets clock σ) : (σ.serve clock s mem).Good clock ipi := by
  cases hm : s.mode with
  | dummy => exact serve_dummy hc h hipi hready hmeets hm
  | pktrate => exact serve_pktrate hc h0 h hipi hready hmeets hm

/-- An event that meets the condition keeps the invariant. -/
theorem step_good (hc : Ordered clock) (h0 : 0 < ipi) {e : Event} (h : σ.Good clock ipi)
    (hmeets : e.Meets clock σ) (hs : step clock e σ = .ok τ) : τ.Good clock ipi := by
  cases e with
  | rts cnt aux1 aux2 mem =>
    cases hs
    unfold schedRTS
    cases hsched : σ.sched with
    | none => exact h
    | some s => exact serve_good hc h0 h (h.ipi s hsched) (h.ready s hsched) (hmeets s hsched)
  | ctsDone cnt mem =>
    cases hs
    unfold schedCTSDone
    cases hsched : σ.sched with
    | none => exact h
    | some s =>
      dsimp only
      split
      · refine ⟨h.apart, h.past, h.order, ?_, ?_⟩
        · rintro _ ⟨⟩
          exact h.ipi s hsched
        · rintro _ ⟨⟩
          exact h.ready s hsched
      · rename_i hcnt
        exact serve_good hc h0 h (h.ipi s hsched) (h.ready s hsched)
          (hmeets s hsched (Int32.not_le.mp hcnt))
  | fire k =>
    rw [step] at hs
    split at hs
    · cases hs
    · split at hs
      · cases hs
        exact h.fire hc ‹_› ‹_›
      · cases hs

theorem start_good {new : Option Sched} (h : Made ipi (clock 0) new) :
    State.Good clock ipi { sched := new } where
  apart := Pairwise.nil
  past _ h := absurd h not_mem_nil
  order := Pairwise.nil
  ipi s hs := by
    cases h with
    | pktrate mem => obtain ⟨_, -, rfl⟩ := Option.map_eq_some_iff.mp hs; rfl
    | packetratelimiter mem => obtain ⟨_, -, rfl⟩ := Option.map_eq_some_iff.mp hs; rfl
  ready s hs := by
    cases h with
    | pktrate mem =>
      obtain ⟨_, -, rfl⟩ := Option.map_eq_some_iff.mp hs
      exact fun _ h => absurd h not_mem_nil
    | packetratelimiter mem =>
      obtain ⟨_, -, rfl⟩ := Option.map_eq_some_iff.mp hs
      rfl

/-- The runs of a rate limiter whose events meet the condition. -/
theorem system_good (hc : Ordered clock) (h0 : 0 < ipi) :
    (system clock ipi).KeepsBy (Event.Meets clock) (State.Good clock ipi) where
  start := by
    rintro _ ⟨new, hnew, rfl⟩
    exact start_good hnew
  step _ _ _ h hmeets hs := step_good hc h0 h hmeets hs

/-- What is on time is spaced. -/
theorem State.Good.spaced (h : σ.Good clock ipi) (h0 : 0 < ipi) : Spaced ipi σ.log := by
  have hpos : 0 < ipi.toInt := Int32.lt_iff_toInt_lt.mp h0
  have happart : σ.log.Pairwise fun c c' => Apart ipi c.due.micros c'.due.micros :=
    pairwise_map.mp (pairwise_append.mp h.apart).1
  refine (happart.and h.order).imp_of_mem fun {c c'} hmem hmem' ⟨hd, hle⟩ hon hon' => ?_
  have hpast := (h.past c hmem).1
  have hpast' := (h.past c' hmem').1
  unfold Cts.OnTime at hon hon'
  rcases hd with hd | hd
  · omega
  · -- the other order is that of the calls
    omega

end Good

/-! ## The scheduler of the relay -/

/-- The scheduler in the model of the relay, which counts in microseconds. -/
structure Sched.Counts (s : Sched) (u : UseScheduler.Sched) : Prop where
  mode : u.mode = s.mode
  nextTX : u.nextTX = s.nextTX.micros
  ipi : u.ipi = s.ipi.toInt

section Relay

variable {clock : Nat → Timeval} {σ : State} {s : Sched} {mem : Option Nat}
  {E : UseScheduler.Platform} {ω : UseScheduler.State} {t t' : UseScheduler.Target}
  {u : UseScheduler.Sched}
  {cts : UseScheduler.Target → UseScheduler.State → Run UseScheduler.State}

/-- The relay calls back where the scheduler does, with the same `nextTX`. -/
theorem schedServe_now (hu : s.Counts u) (haux : u.aux2 = some t') (hm : s.mode = .pktrate)
    (hclock : E.clock ω.reads = (clock σ.reads).micros) (hipi : 0 ≤ s.ipi.toInt)
    (hnow : InRange (clock σ.reads)) (hnext : InRange s.nextTX)
    (h : timevaldelta s.nextTX (clock σ.reads) ≤ 0) :
    ∃ s' u', (σ.serve clock s mem).sched = some s' ∧ s'.Counts u' ∧
      UseScheduler.schedServe E cts ω t u =
        cts t' ({ ω with reads := ω.reads + 1 }.setSched t (some u')) := by
  have hsince := since_eq hnext hnow
  have hle : (timevaldelta s.nextTX (clock σ.reads)).toInt ≤ 0 := Int64.le_iff_toInt_le.mp h
  refine ⟨_, { u with nextTX := E.clock ω.reads + u.ipi }, congrArg _ (serve_now hm h),
    ⟨hu.mode, ?_, hu.ipi⟩, ?_⟩
  · rw [after_eq hnow hipi, hclock, hu.ipi]
  · have hdue : u.nextTX - E.clock ω.reads ≤ 0 := by
      rw [hu.nextTX, hclock]
      omega
    simp only [UseScheduler.schedServe, haux, deref_some, ok_bind, hu.mode, hm,
      UseScheduler.State.gettimeofday, hdue, if_true]

/-- The relay sets a timer where the scheduler does, with the same `nextTX`. -/
theorem schedServe_later (hu : s.Counts u) (haux : u.aux2 = some t') (hm : s.mode = .pktrate)
    (hclock : E.clock ω.reads = (clock σ.reads).micros) (hipi : 0 ≤ s.ipi.toInt)
    (hnow : InRange (clock σ.reads)) (hnext : InRange s.nextTX)
    (h : 0 < timevaldelta s.nextTX (clock σ.reads)) :
    ∃ s' u', (σ.serve clock s mem).sched = some s' ∧ s'.Counts u' ∧
      UseScheduler.schedServe E cts ω t u = .ok ((UseScheduler.setTimer E
        { ω with reads := ω.reads + 1 } (s.nextTX.micros - (clock σ.reads).micros)
        (.cts t')).2.setSched t (some u')) := by
  have hsince := since_eq hnext hnow
  have hgt : 0 < (timevaldelta s.nextTX (clock σ.reads)).toInt := Int64.lt_iff_toInt_lt.mp h
  have hsched : (σ.serve clock s mem).sched =
      some { s with pendingTimer := mem, nextTX := after s.nextTX s.ipi } := by
    rw [serve_later hm h]
    cases mem <;> rfl
  refine ⟨_, { u with pendingTimer := some ω.timers, nextTX := u.nextTX + u.ipi }, hsched,
    ⟨hu.mode, ?_, hu.ipi⟩, ?_⟩
  · rw [after_eq hnext hipi, hu.nextTX, hu.ipi]
  · have hdue : ¬ s.nextTX.micros - (clock σ.reads).micros ≤ 0 := by omega
    simp only [UseScheduler.schedServe, haux, deref_some, ok_bind, hu.mode, hm,
      UseScheduler.State.gettimeofday, hu.nextTX, hclock, hdue, if_false]
    rfl

end Relay

/-! ## The dummy -/

/-- What holds of a scheduler that `ccnl_sched_packetratelimiter_new` has made. -/
structure State.Dummy (ipi : Int32) (σ : State) : Prop where
  timers : σ.timers = []
  mode : ∀ s ∈ σ.sched, s.mode = .dummy
  ipi : ∀ s ∈ σ.sched, s.ipi = ipi
  onTime : ∀ c ∈ σ.log, c.OnTime

section Dummy

variable {clock : Nat → Timeval} {ipi : Int32} {σ τ : State} {s : Sched} {mem : Option Nat}

theorem spaced_append {log : List Cts} {c : Cts} (hlog : ∀ c' ∈ log, c'.OnTime) (hc : c.OnTime) :
    Spaced ipi (log ++ [c]) ↔
      Spaced ipi log ∧ ∀ c' ∈ log, c'.time.micros + ipi.toInt ≤ c.time.micros := by
  unfold Spaced
  rw [pairwise_append]
  constructor
  · rintro ⟨h, -, hcross⟩
    exact ⟨h, fun c' hc' => hcross c' hc' c (mem_singleton_self c) (hlog c' hc') hc⟩
  · rintro ⟨h, hcross⟩
    refine ⟨h, pairwise_singleton _ _, fun c' hc' c₁ hc₁ _ _ => ?_⟩
    exact mem_singleton.mp hc₁ ▸ hcross c' hc'

/-- A dummy calls back at once, so the rate is kept if and only if the call comes in time. -/
theorem serve_spaced (h : σ.Dummy ipi) (hm : s.mode = .dummy) (hipi : s.ipi = ipi) :
    (σ.serve clock s mem).Dummy ipi ∧
      (Spaced ipi (σ.serve clock s mem).log ↔ Spaced ipi σ.log ∧ s.Meets clock σ) := by
  have hserve : σ.serve clock s mem = σ.cts clock s := by rw [State.serve, hm]
  have hon : Cts.OnTime ⟨clock σ.reads, clock σ.reads, s.aux1, s.aux2⟩ := Int.le_refl _
  rw [hserve, Sched.Meets, hm]
  dsimp only
  rw [hipi]
  refine ⟨⟨h.timers, ?_, ?_, fun c hc => ?_⟩, spaced_append h.onTime hon⟩
  · rintro _ ⟨⟩
    exact hm
  · rintro _ ⟨⟩
    exact hipi
  · rcases mem_append.mp hc with hc | hc
    · exact h.onTime c hc
    · exact mem_singleton.mp hc ▸ hon

/-- What an event does to a dummy. -/
theorem step_spaced {e : Event} (h : σ.Dummy ipi) (hs : step clock e σ = .ok τ) :
    τ.Dummy ipi ∧ (Spaced ipi τ.log ↔ Spaced ipi σ.log ∧ e.Meets clock σ) := by
  cases e with
  | rts cnt aux1 aux2 mem =>
    cases hs
    cases hsched : σ.sched with
    | none =>
      simp only [schedRTS, Event.Meets, hsched, Option.not_mem_none, false_imp_iff,
        implies_true, and_true, iff_self]
      exact h
    | some s =>
      simp only [schedRTS, Event.Meets, hsched, Option.mem_def, Option.some.injEq, forall_eq']
      refine serve_spaced h ?_ ?_
      · exact h.mode s hsched
      · exact h.ipi s hsched
  | ctsDone cnt mem =>
    cases hs
    cases hsched : σ.sched with
    | none =>
      simp only [schedCTSDone, Event.Meets, hsched, Option.not_mem_none, false_imp_iff,
        implies_true, and_true, iff_self]
      exact h
    | some s =>
      simp only [schedCTSDone, Event.Meets, hsched, Option.mem_def, Option.some.injEq, forall_eq']
      split
      · rename_i hcnt
        refine ⟨⟨h.timers, ?_, ?_, h.onTime⟩, ?_⟩
        · rintro _ ⟨⟩
          exact h.mode s hsched
        · rintro _ ⟨⟩
          exact h.ipi s hsched
        · exact (and_iff_left fun hpos => absurd hpos (Int32.not_lt.mpr hcnt)).symm
      · rename_i hcnt
        rw [forall_prop_of_true (Int32.not_le.mp hcnt)]
        refine serve_spaced h ?_ ?_
        · exact h.mode s hsched
        · exact h.ipi s hsched
  | fire k =>
    rw [step, h.timers] at hs
    cases hs

/-- The runs of a dummy that keep the rate are those whose calls come in time. -/
theorem run_spaced {es : List Event} (h : σ.Dummy ipi)
    (hs : es.foldlM (fun σ e => step clock e σ) σ = .ok τ) :
    Spaced ipi τ.log ↔ Spaced ipi σ.log ∧
      Along (fun σ e => step clock e σ) (fun σ e => e.Meets clock σ) es σ := by
  induction es generalizing σ with
  | nil =>
    cases hs
    exact (and_iff_left trivial).symm
  | cons e es ih =>
    rw [foldlM_cons] at hs
    obtain ⟨σ₁, h₁, hs⟩ := (bind_eq_ok _ _ _).mp hs
    obtain ⟨hd, hiff⟩ := step_spaced h h₁
    rw [ih hd hs, hiff, and_assoc]
    refine and_congr_right fun _ => and_congr_right fun _ => ⟨fun ha σ₂ h₂ => ?_, fun ha => ?_⟩
    · exact Except.ok.inj (h₁.symm.trans h₂) ▸ ha
    · exact ha σ₁ h₁

theorem packetratelimiter_dummy (mem aux1 aux2 : Option Nat) (now : Timeval) :
    State.Dummy ipi { sched := packetratelimiterNew mem ipi aux1 aux2 now } where
  timers := rfl
  mode s hs := by obtain ⟨_, -, rfl⟩ := Option.map_eq_some_iff.mp hs; rfl
  ipi s hs := by obtain ⟨_, -, rfl⟩ := Option.map_eq_some_iff.mp hs; rfl
  onTime _ h := absurd h not_mem_nil

end Dummy

/-- The rate is kept in the runs whose events meet the condition, and in no other runs of a
scheduler that `ccnl_sched_packetratelimiter_new` has made. -/
theorem rate_spaced {clock : Nat → Timeval} {ipi : Int32} (hc : Ordered clock) (h0 : 0 < ipi) :
    (∀ σ, (system clock ipi).ReachableBy (Event.Meets clock) σ → Spaced ipi σ.log) ∧
    ∀ mem aux1 aux2 es σ,
      es.foldlM (fun σ e => step clock e σ)
        { sched := packetratelimiterNew mem ipi aux1 aux2 (clock 0) } = .ok σ →
      (Spaced ipi σ.log ↔ Along (fun σ e => step clock e σ) (fun σ e => e.Meets clock σ) es
        { sched := packetratelimiterNew mem ipi aux1 aux2 (clock 0) }) := by
  refine ⟨fun σ hr => ((system_good hc h0).reachable hr).spaced h0, fun mem aux1 aux2 es σ hs => ?_⟩
  rw [run_spaced (packetratelimiter_dummy mem aux1 aux2 (clock 0)) hs]
  exact and_iff_right Pairwise.nil

/-- A clock that goes on by ten microseconds at the two readings behind the one at `k`. -/
def tens (k n : Nat) : Timeval := ⟨0, if n ≤ k then 0 else if n = k + 1 then 10 else 20⟩

theorem tens_cases (k n : Nat) : n ≤ k ∧ tens k n = ⟨0, 0⟩ ∨ n = k + 1 ∧ tens k n = ⟨0, 10⟩ ∨
    k + 1 < n ∧ tens k n = ⟨0, 20⟩ := by
  grind [tens]

theorem ordered_tens (k : Nat) : Ordered (tens k) where
  normal n := by
    obtain ⟨-, h⟩ | ⟨-, h⟩ | ⟨-, h⟩ := tens_cases k n <;> rw [h] <;> exact ⟨by decide, by decide⟩
  mono {m n} h := by
    obtain ⟨hm, hm'⟩ | ⟨hm, hm'⟩ | ⟨hm, hm'⟩ := tens_cases k m <;>
      obtain ⟨hn, hn'⟩ | ⟨hn, hn'⟩ | ⟨hn, hn'⟩ := tens_cases k n <;>
      rw [hm', hn'] <;> first | decide | omega

/-- Of two requests at the same time the second one is served ten microseconds later. -/
theorem rate_spaced_ten : ∃ σ : State, Spaced 10 σ.log ∧
    (∀ c ∈ σ.log, c.OnTime) ∧ σ.log.map (·.time.micros) = [0, 10] := by
  obtain ⟨σ, hσ, hon, htimes⟩ : ∃ σ,
      [.rts 1 none none none, .rts 1 none none (some 8), .fire 0].foldlM
      (fun σ e => step (tens 3) e σ) { sched := pktrateNew (some 0) 10 (tens 3 0) } = .ok σ ∧
      (∀ c ∈ σ.log, c.OnTime) ∧ σ.log.map (·.time.micros) = [0, 10] := exists_ok (by decide +kernel)
  have hr : (system (tens 3) 10).ReachableBy (Event.Meets (tens 3)) σ :=
    .run (.start ⟨_, .pktrate (some 0), rfl⟩) (by decide +kernel) hσ
  exact ⟨σ, (rate_spaced (ordered_tens 3) (by decide)).1 σ hr, hon, htimes⟩

/-- Neither constructor keeps the rate in all runs. A dummy serves two requests at once. A timer that
is set ten microseconds late is due with the next request. -/
theorem rate_too_fast :
    (¬ ∀ clock ipi mem aux1 aux2 (es : List Event) σ, Ordered clock → 0 < ipi →
      es.foldlM (fun σ e => step clock e σ)
        { sched := packetratelimiterNew mem ipi aux1 aux2 (clock 0) } = .ok σ → Spaced ipi σ.log) ∧
    ¬ ∀ clock ipi mem (es : List Event) σ, Ordered clock → 0 < ipi →
      es.foldlM (fun σ e => step clock e σ) { sched := pktrateNew mem ipi (clock 0) } = .ok σ →
        Spaced ipi σ.log := by
  constructor
  · intro h
    obtain ⟨σ, hσ, hbad⟩ : ∃ σ, [.rts 1 none none none, .rts 1 none none none].foldlM
        (fun σ e => step (tens 2) e σ)
        { sched := packetratelimiterNew (some 0) 10 none none (tens 2 0) } = .ok σ ∧
        ¬ Spaced 10 σ.log := exists_ok (by decide +kernel)
    exact hbad (h (tens 2) 10 (some 0) none none _ σ (ordered_tens 2) (by decide) hσ)
  · intro h
    obtain ⟨σ, hσ, hbad⟩ : ∃ σ, [.rts 1 none none none, .rts 1 none none (some 8), .fire 0,
        .rts 1 none none none].foldlM (fun σ e => step (tens 2) e σ)
        { sched := pktrateNew (some 0) 10 (tens 2 0) } = .ok σ ∧
        ¬ Spaced 10 σ.log := exists_ok (by decide +kernel)
    exact hbad (h (tens 2) 10 (some 0) _ σ (ordered_tens 2) (by decide) hσ)

end Ccnl.Rate
