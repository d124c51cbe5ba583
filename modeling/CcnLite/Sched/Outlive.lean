import CcnLite.Core.Propagate
import CcnLite.Lib.Sys
import CcnLite.Sched.Model

/-!
# Scheduled work and its face

A timer that waits for the scheduler of a face points to the face, and so does a request in the queue
of an interface. `State.Scheduled` says that one of them does. `ccnl_face_remove` touches neither, so
such a reference stays when the face goes, and the callback then follows it.

* `Quiet b w`: what the callbacks keep (`cts_serves`). The tables are `b`, at most `w` callbacks are to
  come, and every scheduled face is in the list.
* `RemovesIdle`: the condition on an event. A face that goes has no work scheduled.
* `no_work_outlives_idle_faces`: what holds of all runs of such events, and where the condition
  fails there is work left over.
-/

namespace Ccnl.UseScheduler

open CRun Function

/-- A pointer to a freed face is followed, or the callbacks do not end. -/
def Stray (s : Stop) : Prop := s = .dangling ∨ s = .fuel

/-- A timer or a request in the queue of an interface points to the face. -/
def State.Scheduled (σ : State) (f : FaceId) : Prop :=
  (∃ t ∈ σ.eventqueue, t.call = .cts (.face f)) ∨ ∃ i, ∃ r ∈ σ.queue i, r.txdoneFace = f

/-- Every face with scheduled work is in the list. -/
def State.NoneOutlives (σ : State) : Prop := ∀ f, σ.Scheduled f → σ.base.Listed f

/-- The invariant. -/
structure State.Ok (σ : State) : Prop where
  faced : σ.base.Faced
  live : σ.NoneOutlives
  /-- A scheduler calls back for its owner. -/
  owner : ∀ t s, σ.sched t = some s → ∀ a ∈ s.aux2, a = t

/-- A face is in the list. -/
def Target.Live (b : Relay) : Target → Prop
  | face f => b.Listed f
  | iface _ => True

/-- What the callbacks keep. -/
structure Quiet (b : Relay) (w : Nat) (σ : State) : Prop where
  base : σ.base = b
  ok : σ.Ok
  work : σ.work ≤ w

/-! ## The parts of the state -/

section State

variable {σ τ : State} {b : Relay} {w : Nat} {E : Platform}

theorem State.Ok.quiet (h : σ.Ok) : Quiet σ.base σ.work σ := ⟨rfl, h, Nat.le_refl _⟩

theorem Quiet.mono {w' : Nat} (h : Quiet b w σ) (hw : w ≤ w') : Quiet b w' σ :=
  ⟨h.base, h.ok, Nat.le_trans h.work hw⟩

/-- The invariant does not depend on the rest of the state. -/
theorem State.Ok.congr (h : σ.Ok) (hb : τ.base = σ.base) (hs : τ.sched = σ.sched)
    (he : τ.eventqueue = σ.eventqueue) (hq : τ.queue = σ.queue) : τ.Ok where
  faced := hb ▸ h.faced
  live f hf := by
    unfold State.Scheduled at hf
    rw [he, hq] at hf
    rw [hb]
    exact h.live f hf
  owner := hs ▸ h.owner

/-- The tables have changed, and no face is gone. -/
theorem State.Ok.with_base (h : σ.Ok) (hb : b.Faced) (hl : ∀ f, σ.base.Listed f → b.Listed f) :
    State.Ok { σ with base := b } :=
  ⟨hb, fun f hf => hl f (h.live f hf), h.owner⟩

theorem setSched_ok {t : Target} {s : Option Sched} (h : σ.Ok)
    (hs : ∀ s' ∈ s, ∀ a ∈ s'.aux2, a = t) : (σ.setSched t s).Ok where
  faced := h.faced
  live := h.live
  owner u s' hu := by
    by_cases ht : u = t
    · subst ht
      exact hs s' (by simpa [State.setSched] using hu)
    · exact h.owner u s' (by simpa [State.setSched, ht] using hu)

theorem setQueue_ok {i : Nat} {q : List TxRequest} (h : σ.Ok)
    (hq : ∀ r ∈ q, r ∈ σ.queue i ∨ σ.base.Listed r.txdoneFace) : (σ.setQueue i q).Ok where
  faced := h.faced
  live f hf := by
    rcases hf with hf | ⟨j, r, hr, rfl⟩
    · exact h.live f (.inl hf)
    · by_cases hj : j = i
      · subst hj
        rcases hq r (by simpa [State.setQueue] using hr) with hr | hr
        · exact h.live _ (.inr ⟨j, r, hr, rfl⟩)
        · exact hr
      · exact h.live _ (.inr ⟨j, r, by simpa [State.setQueue, hj] using hr, rfl⟩)
  owner := h.owner

theorem setTimer_ok {usec : Int} {call : Callback} (h : σ.Ok)
    (hcall : ∀ f, call = .cts (.face f) → σ.base.Listed f) : (setTimer E σ usec call).2.Ok where
  faced := h.faced
  live f hf := by
    rcases hf with ⟨t, ht, htf⟩ | hf
    · rcases (List.mem_orderedInsert _).mp ht with rfl | ht
      · exact hcall f htf
      · exact h.live f (.inl ⟨t, ht, htf⟩)
    · exact h.live f (.inr hf)
  owner := h.owner

/-! ## The work -/

theorem total_update {ι β : Type} [DecidableEq ι] {q : ι → List β} {l : List ι} {i : ι}
    (hl : l.Nodup) (hi : i ∈ l) (x : List β) :
    total (update q i x) l + (q i).length = total q l + x.length := by
  unfold total
  induction l with
  | nil => cases hi
  | cons j l ih =>
    obtain ⟨hj, hl⟩ := List.nodup_cons.mp hl
    simp only [List.map_cons, List.sum_cons]
    rcases List.mem_cons.mp hi with rfl | hi
    · have hrest : l.map (fun j => (update q i x j).length) = l.map fun j => (q j).length := by
        refine List.map_congr_left fun k hk => ?_
        rw [update_of_ne]
        rintro rfl
        exact hj hk
      rw [hrest, update_self]
      omega
    · have hne : j ≠ i := by
        rintro rfl
        exact hj hi
      have hrest := ih hl hi
      rw [update_of_ne hne]
      omega

theorem setOutq_work {f : FaceId} {q : List (List UInt8)} (h : σ.base.Faced)
    (hf : σ.base.Listed f) :
    (σ.setOutq f q).work + 2 * (σ.outq f).length = σ.work + 2 * q.length := by
  have hsum := total_update (q := σ.outq) h.nodup (Relay.listed_iff.mp hf) q
  simp only [State.work, State.setOutq]
  omega

theorem setQueue_work {i : Nat} {q : List TxRequest} (hi : i < σ.base.ifs.length) :
    (σ.setQueue i q).work + (σ.queue i).length = σ.work + q.length := by
  have hsum := total_update (q := σ.queue) List.nodup_range (List.mem_range.mpr hi) q
  simp only [State.work, State.setQueue]
  omega

end State

/-! ## The callbacks -/

/-- The callbacks with the fuel `m` keep what they have to keep. -/
def Serves (m : Nat) (cts : Target → State → Run State) : Prop :=
  ∀ t σ b w, Quiet b w σ → t.Live b → w < m → Meets Stray (Quiet b w) (cts t σ)

section Callbacks

variable {E : Platform} {cts : Target → State → Run State} {σ : State} {b : Relay} {m w : Nat}
  {t : Target}

theorem Quiet.setSched {s : Option Sched} (h : Quiet b w σ) (hs : ∀ s' ∈ s, ∀ a ∈ s'.aux2, a = t) :
    Quiet b w (σ.setSched t s) :=
  ⟨h.base, setSched_ok h.ok hs, h.work⟩

theorem Quiet.gettimeofday (h : Quiet b w σ) : Quiet b w (σ.gettimeofday E).2 :=
  ⟨h.base, h.ok.congr rfl rfl rfl rfl, h.work⟩

theorem Quiet.setTimer {usec : Int} (h : Quiet b w σ) (ht : t.Live b) :
    Quiet b w (UseScheduler.setTimer E σ usec (.cts t)).2 := by
  refine ⟨h.base, setTimer_ok h.ok ?_, h.work⟩
  intro f hf
  cases hf
  rw [h.base]
  exact ht

theorem schedServe_quiet {s : Sched} (hc : Serves m cts) (h : Quiet b w σ) (ht : t.Live b)
    (hw : w < m) (hs : ∀ a ∈ s.aux2, a = t) : Meets Stray (Quiet b w) (schedServe E cts σ t s) := by
  unfold schedServe
  cases haux : s.aux2 with
  | none => exact .error (by simp [Stray])
  | some a =>
    obtain rfl : a = t := hs a haux
    rw [deref_some, ok_bind]
    cases s.mode with
    | dummy => exact hc _ _ _ _ (h.setSched (by simpa using hs)) ht hw
    | pktrate =>
      simp only
      split
      · exact hc _ _ _ _ (h.gettimeofday.setSched (by simp)) ht hw
      · exact .ok ((h.gettimeofday.setTimer ht).setSched (by simp))

theorem schedRTS_quiet {cnt : Int} (hc : Serves m cts) (h : Quiet b w σ) (ht : t.Live b)
    (hw : w < m) : Meets Stray (Quiet b w) (schedRTS E cts σ t cnt) := by
  unfold schedRTS
  split
  · exact .ok h
  · refine schedServe_quiet hc h ht hw ?_
    rintro a ⟨⟩
    rfl

theorem schedCTSDone_quiet {cnt : Int} (hc : Serves m cts) (h : Quiet b w σ) (ht : t.Live b)
    (hw : w < m) : Meets Stray (Quiet b w) (schedCTSDone E cts σ t cnt) := by
  unfold schedCTSDone
  split
  · exact .ok h
  · rename_i s hs
    have howner : ∀ a ∈ s.aux2, a = t := h.ok.owner t s hs
    simp only
    split
    · exact .ok (h.setSched (by simpa using howner))
    · exact schedServe_quiet hc h ht hw howner

/-- The index of an interface that exists. -/
theorem ifs_meets (σ : State) (ifndx : Int) :
    Meets Stray (fun i => i < σ.base.ifs.length) (ifs σ ifndx) := by
  unfold ifs
  split
  · rename_i hi
    exact .ok (by omega)
  · exact .error (by simp [Stray])

/-- A request comes into the queue of an interface. -/
theorem interfaceEnqueue_quiet {ifndx : Int} {r : TxRequest} (hc : Serves m cts) (h : Quiet b w σ)
    (hr : b.Listed r.txdoneFace) (hw : w + 1 < m) :
    Meets Stray (Quiet b (w + 1)) (interfaceEnqueue E cts σ ifndx r) := by
  refine (ifs_meets σ ifndx).bind fun i hi => ?_
  split
  · exact .ok (h.mono (Nat.le_succ w))
  · have hwork := setQueue_work (q := σ.queue i ++ [r]) hi
    have hlen : (σ.queue i ++ [r]).length = (σ.queue i).length + 1 := List.length_append
    refine schedRTS_quiet hc ⟨h.base, setQueue_ok h.ok ?_, ?_⟩ trivial hw
    · intro r' hr'
      rcases List.mem_append.mp hr' with hr' | hr'
      · exact .inl hr'
      · rw [List.mem_singleton.mp hr', h.base]
        exact .inr hr
    · have := h.work
      omega

theorem faceCTSDone_quiet {f : FaceId} {cnt : Int} (hc : Serves m cts) (h : Quiet b w σ)
    (hf : b.Listed f) (hw : w < m) : Meets Stray (Quiet b w) (faceCTSDone E cts σ f cnt) := by
  obtain ⟨x, hx⟩ := hf.face
  rw [faceCTSDone, h.base, hx, ok_bind]
  exact schedCTSDone_quiet hc h hf hw

/-- A buffer goes from the queue of the face into the one of the interface. -/
theorem faceCTS_quiet {f : FaceId} (hc : Serves m cts) (h : Quiet b w σ) (hf : b.Listed f)
    (hw : w < m + 1) : Meets Stray (Quiet b w) (faceCTS E cts σ f) := by
  obtain ⟨x, hx⟩ := hf.face
  rw [faceCTS, h.base, hx, ok_bind]
  split
  · exact .ok h
  · rename_i buf outq hq
    have hwork := setOutq_work (q := outq) h.ok.faced (h.base ▸ hf)
    have hle := h.work
    rw [hq, List.length_cons] at hwork
    have hpop : Quiet b (w - 2) (σ.setOutq f outq) :=
      ⟨h.base, h.ok.congr rfl rfl rfl rfl, by omega⟩
    have hput : Meets Stray (Quiet b (w - 2 + 1))
        (interfaceEnqueue E cts (σ.setOutq f outq) x.ifndx ⟨buf, x.peer, f⟩) :=
      interfaceEnqueue_quiet hc hpop hf (by omega)
    exact hput.mono fun τ hτ => hτ.mono (by omega)

/-- A request goes out, and both schedulers on its way hear of it. -/
theorem interfaceCTS_quiet {i : Nat} (hc : Serves m cts) (h : Quiet b w σ) (hw : w < m + 1) :
    Meets Stray (Quiet b w) (interfaceCTS E cts σ i) := by
  refine (ifs_meets σ i).bind fun i hi => ?_
  split
  · exact .ok h
  · rename_i req queue hq
    have hwork := setQueue_work (q := queue) hi
    have hle := h.work
    rw [hq, List.length_cons] at hwork
    have hreq : b.Listed req.txdoneFace := by
      rw [← h.base]
      exact h.ok.live _ (.inr ⟨i, req, by simp [hq], rfl⟩)
    have hok : (σ.setQueue i queue).Ok := setQueue_ok h.ok fun r hr => .inl (by simp [hq, hr])
    have hpop : Quiet b (w - 1)
        { σ.setQueue i queue with sent := σ.sent ++ [(i, req.dst, req.buf)] } :=
      ⟨h.base, hok.congr rfl rfl rfl rfl, by
        change (σ.setQueue i queue).work ≤ _
        omega⟩
    refine (schedCTSDone_quiet (t := .iface i) hc hpop trivial (by omega)).bind fun τ hτ => ?_
    exact (faceCTSDone_quiet hc hτ hreq (by omega)).mono fun υ hυ => hυ.mono (by omega)

/-- Each callback takes a buffer out of a queue before it leads to another one. -/
theorem cts_serves (E : Platform) (m : Nat) : Serves m (UseScheduler.cts E m) := by
  induction m with
  | zero => exact fun _ _ _ w _ _ hw => absurd hw (Nat.not_lt_zero w)
  | succ m ih =>
    intro t σ b w h ht hw
    cases t with
    | face f => exact faceCTS_quiet ih h ht hw
    | iface i => exact interfaceCTS_quiet ih h hw

/-- A callback has fuel enough. -/
theorem callback_serves (E : Platform) (m : Nat) : Serves m (callback E) := by
  intro t σ b w h ht _
  have hself : Quiet b σ.work σ := ⟨h.base, h.ok, Nat.le_refl _⟩
  have hcts := cts_serves E (σ.work + 1) t σ b σ.work hself ht (Nat.lt_succ_self _)
  exact hcts.mono fun τ hτ => hτ.mono h.work

/-- A callback for a live face ends, and follows no pointer to a freed one. -/
theorem callback_quiet (h : σ.Ok) (ht : t.Live σ.base) :
    Meets Stray (Quiet σ.base σ.work) (callback E t σ) :=
  callback_serves E (σ.work + 1) t σ _ _ h.quiet ht (Nat.lt_succ_self _)

end Callbacks

/-! ## Faces -/

section Faces

variable {E : Platform} {σ τ : State} {f : FaceId} {now : Nat}

/-- `ccnl_face_enqueue` to a live face ends, and leaves the tables alone. -/
theorem outqEnqueue_meets {buf : List UInt8} (h : σ.Ok) (hf : σ.base.Listed f) :
    Meets Stray (fun τ => τ.Ok ∧ τ.base = σ.base) (outqEnqueue E σ f buf) := by
  unfold outqEnqueue
  split
  · exact .ok ⟨h, rfl⟩
  · have hput : (σ.setOutq f (σ.outq f ++ [buf])).Ok := h.congr rfl rfl rfl rfl
    have hgo : ∀ r : Run State, Meets Stray (Quiet σ.base (σ.setOutq f (σ.outq f ++ [buf])).work) r →
        Meets Stray (fun τ => τ.Ok ∧ τ.base = σ.base) r :=
      fun r hr => hr.mono fun τ hτ => ⟨hτ.ok, hτ.base⟩
    simp only
    split
    · exact hgo _ (schedRTS_quiet (callback_serves E _) hput.quiet hf (Nat.lt_succ_self _))
    · exact hgo _ (callback_quiet (t := .face f) hput hf)

theorem faceEnqueue_meets {buf : List UInt8} (h : σ.Ok) (hf : σ.base.Listed f) :
    Meets Stray (fun τ => τ.Ok ∧ Ccnl.faceEnqueue σ.base f buf = .ok τ.base)
      (faceEnqueue E σ f buf) := by
  obtain ⟨b, hb⟩ : ∃ b, Ccnl.faceEnqueue σ.base f buf = .ok b := faceEnqueue_returns hf
  have hfaced := faceEnqueue_faced h.faced hb
  rw [faceEnqueue, hb, ok_bind]
  obtain rfl := faceEnqueue_eq hb
  exact (outqEnqueue_meets (h.with_base hfaced fun _ => id) hf).mono fun τ hτ => ⟨hτ.1, by rw [hτ.2]⟩

/-- The scheduler of a new face has not been asked yet. -/
theorem schedNew_eq (σ : State) (d : Mode × Int) :
    (schedNew E σ d).1.aux2 = none ∧ ∃ n, (schedNew E σ d).2 = { σ with reads := n } := by
  obtain ⟨mode, ipi⟩ := d
  cases mode with
  | dummy => exact ⟨rfl, σ.reads, rfl⟩
  | pktrate => exact ⟨rfl, σ.reads + 1, rfl⟩

theorem faceNew_ok (h : σ.Ok) (ifndx : Int) (sa : Option SockAddr) :
    (faceNew E now σ ifndx sa).1.Ok ∧
      (faceNew E now σ ifndx sa).map State.base id = Ccnl.faceNew now σ.base ifndx sa := by
  have hbase : State.Ok { σ with base := (Ccnl.faceNew now σ.base ifndx sa).1 } := by
    refine h.with_base (faceNew_faced h.faced now ifndx sa) ?_
    rintro g ⟨x, hx, hxg⟩
    exact ⟨x, List.mem_cons_of_mem _ hx, hxg⟩
  unfold faceNew
  simp only
  split
  · rename_i d _
    split
    · obtain ⟨haux, n, hσ⟩ := schedNew_eq (E := E)
        { σ with base := (Ccnl.faceNew now σ.base ifndx sa).1 } d
      rw [hσ]
      refine ⟨setSched_ok (hbase.congr rfl rfl rfl rfl) ?_, rfl⟩
      rintro s ⟨⟩ a ha
      rw [haux] at ha
      cases ha
    · exact ⟨hbase, rfl⟩
  · exact ⟨hbase, rfl⟩

/-- `ccnl_get_face_or_create` does to the tables what it does without schedulers. -/
theorem getFaceOrCreate_ok (h : σ.Ok) (ifndx : Int) (sa : Option SockAddr) :
    (getFaceOrCreate E now σ ifndx sa).1.Ok ∧
      (getFaceOrCreate E now σ ifndx sa).map State.base id =
        Ccnl.getFaceOrCreate now σ.base ifndx sa := by
  have hnew : ∀ i a, ((faceNew E now σ i a).map id some).1.Ok ∧
      ((faceNew E now σ i a).map id some).map State.base id =
        (Ccnl.faceNew now σ.base i a).map id some := by
    intro i a
    have hface : (faceNew E now σ i a).1.Ok ∧
        (faceNew E now σ i a).map State.base id = Ccnl.faceNew now σ.base i a := faceNew_ok h i a
    exact ⟨hface.1, by rw [← hface.2]; rfl⟩
  unfold getFaceOrCreate Ccnl.getFaceOrCreate
  cases sa with
  | none =>
    simp only
    cases σ.base.faces.find? _ with
    | some f => exact ⟨h, rfl⟩
    | none => exact hnew _ _
  | some a =>
    simp only
    cases σ.base.faces.find? _ with
    | some f =>
      refine ⟨h.with_base ?_ fun g hg => setFace_listed (fun _ => rfl) hg, rfl⟩
      exact h.faced.sub (setFace_roots fun _ => rfl) (List.Subset.refl _)
    | none =>
      simp only
      split
      · cases σ.base.ifs.findIdx? _ with
        | none => exact ⟨h, rfl⟩
        | some i => exact hnew _ _
      · exact hnew _ _

/-- The face goes; its work stays. -/
theorem faceRemove_scheduled {g : FaceId} : (faceRemove σ f).Scheduled g ↔ σ.Scheduled g := Iff.rfl

theorem faceRemove_listed {g : FaceId} :
    (faceRemove σ f).base.Listed g ↔ σ.base.Listed g ∧ g ≠ f := by
  change (Ccnl.faceRemove σ.base f).Listed g ↔ _
  rw [Relay.listed_iff, Relay.listed_iff]
  simp only [Ccnl.faceRemove, List.mem_map, List.mem_filter, bne_iff_ne]
  constructor
  · rintro ⟨x, ⟨hx, hne⟩, rfl⟩
    exact ⟨⟨x, hx, rfl⟩, hne⟩
  · rintro ⟨⟨x, hx, rfl⟩, hne⟩
    exact ⟨x, ⟨hx, hne⟩, rfl⟩

theorem faceRemove_ok (h : σ.Ok) (hf : ¬ σ.Scheduled f) : (faceRemove σ f).Ok where
  faced := faceRemove_faced h.faced f
  live g hg := by
    refine faceRemove_listed.mpr ⟨h.live g hg, ?_⟩
    rintro rfl
    exact hf hg
  owner t s hs := by
    by_cases ht : t = .face f
    · subst ht
      simp [faceRemove, State.setSched, State.setOutq] at hs
    · exact h.owner t s (by simpa [faceRemove, State.setSched, State.setOutq, ht] using hs)

/-- Faces go, one after another. -/
theorem removes_eq (l : List FaceId) (σ : State) :
    (l.foldl faceRemove σ).base = l.foldl Ccnl.faceRemove σ.base ∧
      (∀ g, (l.foldl faceRemove σ).Scheduled g ↔ σ.Scheduled g) ∧
      ∀ g, (l.foldl faceRemove σ).base.Listed g ↔ σ.base.Listed g ∧ g ∉ l := by
  induction l generalizing σ with
  | nil => exact ⟨rfl, fun _ => Iff.rfl, fun g => by simp⟩
  | cons f l ih =>
    obtain ⟨hbase, hsched, hlisted⟩ := ih (faceRemove σ f)
    refine ⟨hbase, fun g => (hsched g).trans faceRemove_scheduled, fun g => ?_⟩
    rw [List.foldl_cons, hlisted g, faceRemove_listed, List.mem_cons, not_or]
    exact ⟨fun h => ⟨h.1.1, h.1.2, h.2⟩, fun h => ⟨⟨h.1, h.2.1⟩, h.2.2⟩⟩

/-- No work outlives the faces that go exactly when they have none. -/
theorem removes_noneOutlives {l : List FaceId} (h : σ.NoneOutlives) :
    (l.foldl faceRemove σ).NoneOutlives ↔ ∀ f ∈ l, ¬ σ.Scheduled f := by
  obtain ⟨-, hsched, hlisted⟩ := removes_eq l σ
  constructor
  · intro hl f hf hs
    exact ((hlisted f).mp (hl f ((hsched f).mpr hs))).2 hf
  · intro hl f hf
    have hs := (hsched f).mp hf
    exact (hlisted f).mpr ⟨h f hs, fun hmem => hl f hmem hs⟩

theorem removes_ok {l : List FaceId} (h : σ.Ok) (hl : ∀ f ∈ l, ¬ σ.Scheduled f) :
    (l.foldl faceRemove σ).Ok := by
  induction l generalizing σ with
  | nil => exact h
  | cons f l ih =>
    exact ih (faceRemove_ok h (hl f List.mem_cons_self)) fun g hg => hl g (List.mem_cons_of_mem _ hg)

end Faces

/-! ## Ageing -/

section Ageing

variable {E : Platform} {σ τ : State} {i : Interest} {now : Nat}

/-- The calls of a pass of `ccnl_interest_propagate`, to the faces of the list. -/
theorem handOut_meets {out : List Out} (h : σ.Ok) (ho : ∀ f buf, .send f buf ∈ out → σ.base.Listed f) :
    Meets Stray (fun τ => τ.Ok ∧ τ.base = σ.base) (out.foldlM (handOut E) σ) := by
  refine Meets.foldlM (I := fun τ : State => τ.Ok ∧ τ.base = σ.base) ⟨h, rfl⟩ fun τ o ho' hτ => ?_
  cases o with
  | tap t buf => exact .ok hτ
  | send f buf =>
    have hf : τ.base.Listed f := hτ.2 ▸ ho f buf ho'
    exact (outqEnqueue_meets hτ.1 hf).mono fun υ hυ => ⟨hυ.1, hυ.2.trans hτ.2⟩

theorem propagateTo_meets {fwd : Forward} (h : σ.Ok) (hfrom : ∀ f ∈ i.from, σ.base.Listed f)
    (hface : ∀ f ∈ fwd.face, σ.base.Listed f) :
    Meets Stray (fun τ => τ.Ok ∧ Ccnl.propagateTo i σ.base fwd = .ok τ.base)
      (propagateTo E i σ fwd) := by
  obtain ⟨b, hb⟩ := propagateTo_returns hfrom hface
  rw [propagateTo, hb, ok_bind]
  obtain rfl := propagateTo_eq hb
  have hok : State.Ok { σ with base := { σ.base with
      out := σ.base.out ++ if fwd.serves σ.base i then handed i fwd else [] } } :=
    h.with_base (h.faced.sub rfl (List.Subset.refl _)) fun _ => id
  refine (handOut_meets hok fun f buf hmem => ?_).mono fun τ hτ => ⟨hτ.1, by rw [hτ.2]⟩
  rw [List.drop_left] at hmem
  split at hmem
  · simp only [handed, List.mem_append, Option.mem_toList, Option.map_eq_some_iff] at hmem
    obtain ⟨t, -, ht⟩ | ⟨g, hg, hgf⟩ := hmem
    · cases ht
    · cases hgf
      exact hface f hg
  · cases hmem

/-- `ccnl_interest_propagate` does to the tables what it does without schedulers. -/
theorem interestPropagate_meets (h : σ.Ok) (hfrom : ∀ f ∈ i.from, σ.base.Listed f) :
    Meets Stray (fun τ => τ.Ok ∧ Ccnl.interestPropagate σ.base i = .ok τ.base)
      (interestPropagate E σ i) := by
  unfold interestPropagate Ccnl.interestPropagate
  have hface : ∀ fwd ∈ σ.base.fib, ∀ f ∈ fwd.face, σ.base.Listed f := h.faced.fib
  generalize σ.base.fib = fib at hface
  induction fib generalizing σ with
  | nil => exact .ok ⟨h, rfl⟩
  | cons fwd fib ih =>
    rw [List.foldlM_cons]
    refine (propagateTo_meets h hfrom (hface fwd List.mem_cons_self)).bind fun τ hτ => ?_
    obtain ⟨hok, hτ⟩ := hτ
    have hlisted : ∀ f, τ.base.Listed f ↔ σ.base.Listed f := by
      rw [propagateTo_eq hτ]
      exact fun _ => Iff.rfl
    have hrest := ih hok (fun f hf => (hlisted f).mpr (hfrom f hf)) fun g hg f hf =>
      (hlisted f).mpr (hface g (List.mem_cons_of_mem _ hg) f hf)
    rw [hτ, ok_bind]
    exact hrest

theorem agePit_meets {t : Nat} {pit : List Interest} (h : σ.Ok)
    (hp : ∀ i ∈ pit, ∀ f, i.RefersTo f → σ.base.Listed f) :
    Meets Stray (fun r => r.2.Ok ∧ Ccnl.agePit t pit σ.base = .ok (r.1, r.2.base))
      (agePit E t pit σ) := by
  induction pit generalizing σ with
  | nil => exact .ok ⟨h, rfl⟩
  | cons i pit ih =>
    have hrest : ∀ j ∈ pit, ∀ f, j.RefersTo f → σ.base.Listed f := fun j hj =>
      hp j (List.mem_cons_of_mem _ hj)
    unfold agePit Ccnl.agePit
    split
    · have hbase : Relay.Faced { σ.base with pitcnt := σ.base.pitcnt - 1 } :=
        h.faced.sub rfl (List.Subset.refl _)
      exact ih (h.with_base hbase fun _ => id) hrest
    · have hfrom : ∀ f ∈ i.from, σ.base.Listed f := fun f hf => hp i List.mem_cons_self f (.inl hf)
      refine (interestPropagate_meets h hfrom).bind fun τ hτ => ?_
      obtain ⟨hok, hτ⟩ := hτ
      obtain ⟨o, ho⟩ := interestPropagate_out hτ
      have hlisted : ∀ f, σ.base.Listed f → τ.base.Listed f := by
        rw [ho]
        exact fun _ => id
      refine (ih hok fun j hj f hf => hlisted f (hrest j hj f hf)).bind fun r hr => ?_
      rw [hτ, ok_bind, hr.2]
      exact .ok ⟨hr.1, rfl⟩

/-- What `ccnl_do_ageing` makes of the tables before the loop over the faces. -/
theorem ageTables_meets (h : σ.Ok) :
    Meets Stray (fun τ => τ.Ok ∧ Ccnl.doAgeing now σ.base =
      .ok ((expiredFaces now τ).foldl Ccnl.faceRemove τ.base)) (ageTables E now σ) := by
  have hold := h.with_base (b := { σ.base with
    contents := σ.base.contents.filterMap (ageContent (u32 now))
    contentcnt := σ.base.contentcnt -
      (σ.base.contents.length - (σ.base.contents.filterMap (ageContent (u32 now))).length : Nat) })
    (h.faced.sub rfl (List.Subset.refl _)) fun _ => id
  unfold ageTables
  simp only
  refine (agePit_meets hold h.faced.pit).bind fun r hr => ?_
  obtain ⟨hok, hr⟩ := hr
  obtain ⟨hroots, hkept⟩ := agePit_roots hr
  refine .ok ⟨hok.with_base ?_ fun _ => id, ?_⟩
  · exact hold.faced.of_roots hroots hkept
  · unfold Ccnl.doAgeing
    simp only
    rw [hr, ok_bind]
    simp only [expiredFaces, List.foldl_map]
    rfl

/-- `ccnl_do_ageing` ends, and does to the tables what it does without schedulers. -/
theorem doAgeing_meets (h : σ.Ok) :
    Meets Stray (fun τ => Ccnl.doAgeing now σ.base = .ok τ.base) (doAgeing E now σ) := by
  refine (ageTables_meets h).bind fun τ hτ => .ok ?_
  rw [hτ.2, (removes_eq _ τ).1]

end Ageing

/-! ## Timers -/

section Timers

variable {E : Platform} {σ : State} {now : Nat}

/-- Each face that the ageing comes to remove has no work scheduled. -/
def AgesIdle (E : Platform) (now : Nat) (σ : State) : Prop :=
  ∀ τ, ageTables E now σ = .ok τ → ∀ f ∈ expiredFaces now τ, ¬ τ.Scheduled f

theorem doAgeing_ok {τ : State} (h : σ.Ok) (hi : AgesIdle E now σ)
    (ha : doAgeing E now σ = .ok τ) : τ.Ok := by
  obtain ⟨τ₁, h₁, ha⟩ := (bind_eq_ok _ _ _).mp ha
  cases ha
  exact removes_ok ((ageTables_meets h).post τ₁ h₁).1 (hi τ₁ h₁)

/-- No work outlives the faces that the ageing removes exactly when they have none. -/
theorem doAgeing_noneOutlives {τ : State} (h : σ.Ok) (ha : doAgeing E now σ = .ok τ) :
    τ.NoneOutlives ↔ AgesIdle E now σ := by
  obtain ⟨τ₁, h₁, ha⟩ := (bind_eq_ok _ _ _).mp ha
  cases ha
  rw [removes_noneOutlives ((ageTables_meets h).post τ₁ h₁).1.live]
  constructor
  · intro hl τ₂ h₂
    obtain rfl : τ₁ = τ₂ := Except.ok.inj (h₁.symm.trans h₂)
    exact hl
  · exact fun hi => hi τ₁ h₁

theorem ageing_avoids (h : σ.Ok) : Avoids Stray (ageing E now σ) :=
  ((doAgeing_meets h).bind fun _ _ => .ok trivial : Meets Stray (fun _ => True) _).avoids

theorem ageing_ok {τ : State} (h : σ.Ok) (hi : AgesIdle E now σ) (ha : ageing E now σ = .ok τ) :
    τ.Ok := by
  obtain ⟨τ₁, h₁, ha⟩ := (bind_eq_ok _ _ _).mp ha
  cases ha
  exact setTimer_ok (doAgeing_ok h hi h₁) nofun

end Timers

/-! ## The runs -/

/-- What happens to the faces and their queues. -/
inductive Event where
  /-- `ccnl_get_face_or_create`. -/
  | face (now : Nat) (ifndx : Int) (sa : Option SockAddr)
  /-- `ccnl_face_enqueue` to a live face. -/
  | enqueue (f : FaceId) (buf : List UInt8)
  /-- A pass of the loop of `ccnl_run_events`. -/
  | runEvents (clock : Int) (now : Nat)
  /-- `ccnl_interface_CTS`. -/
  | transmit (i : Nat)
  /-- `ccnl_face_remove` of a live face. -/
  | remove (f : FaceId)
  /-- `ccnl_do_ageing`. -/
  | ageing (now : Nat)
  /-- The packet handlers change the PIT and the FIB, which point to live faces. -/
  | tables (pit : List Interest) (fib : List Forward)

/-- The faces that a PIT and a FIB point to. -/
def pointers (pit : List Interest) (fib : List Forward) : List FaceId :=
  pit.flatMap (fun i => i.from.toList ++ i.pending.map (·.face)) ++ fib.filterMap (·.face)

def Event.run (E : Platform) : Event → State → Run State
  | face now ifndx sa, σ => .ok (getFaceOrCreate E now σ ifndx sa).1
  | enqueue f buf, σ => if σ.base.Listed f then faceEnqueue E σ f buf else .error .bail
  | runEvents clock now, σ => Sum.elim id Prod.fst <$> runEventsStep E clock now σ
  | transmit i, σ => callback E (.iface i) σ
  | remove f, σ => if σ.base.Listed f then .ok (faceRemove σ f) else .error .bail
  | ageing now, σ => doAgeing E now σ
  | tables pit fib, σ =>
    if ∀ f ∈ pointers pit fib, σ.base.Listed f then
      .ok { σ with base := { σ.base with pit := pit, fib := fib } }
    else .error .bail

/-- Nothing is scheduled yet but the ageing, and no scheduler has been asked. -/
structure State.Start (σ : State) : Prop where
  faced : σ.base.Faced
  eventqueue : ∀ t ∈ σ.eventqueue, t.call = .ageing
  queue : ∀ i, σ.queue i = []
  sched : ∀ t s, σ.sched t = some s → s.aux2 = none

/-- The relay with its schedulers as a system. -/
def system (E : Platform) : Sys State Event where
  Start := State.Start
  step := Event.run E

/-- A face that the event removes has no work scheduled when it goes. -/
def Event.RemovesIdle (E : Platform) : Event → State → Prop
  | remove f, σ => ¬ σ.Scheduled f
  | ageing now, σ => AgesIdle E now σ
  | runEvents clock now, σ =>
    (∃ t ∈ σ.eventqueue.head?, t.timeout < clock ∧ t.call = .ageing) → AgesIdle E now σ
  | _, _ => True

section Runs

variable {E : Platform} {σ τ : State}

theorem mem_pointers {pit : List Interest} {fib : List Forward} {f : FaceId} :
    Relay.RefersTo { σ.base with pit := pit, fib := fib } f ↔ f ∈ pointers pit fib := by
  simp only [Relay.RefersTo, Interest.RefersTo, pointers, List.mem_append, List.mem_flatMap,
    Option.mem_toList, List.mem_map, List.mem_filterMap]

theorem start_ok (h : σ.Start) : σ.Ok where
  faced := h.faced
  live f hf := by
    rcases hf with ⟨t, ht, htf⟩ | ⟨i, r, hr, -⟩
    · rw [h.eventqueue t ht] at htf
      cases htf
    · rw [h.queue i] at hr
      cases hr
  owner t s hs a ha := by
    rw [h.sched t s hs] at ha
    cases ha

/-- A timer calls back for a live face. -/
theorem State.Ok.timer_live {t : Timer} {u : Target} (h : σ.Ok) (ht : t ∈ σ.eventqueue)
    (hcall : t.call = .cts u) : u.Live σ.base := by
  cases u with
  | face f => exact h.live f (.inl ⟨t, ht, hcall⟩)
  | iface i => trivial

/-- A timer that is due calls, and is gone. -/
theorem runEventsStep_ok {clock : Int} {now : Nat} {x : State ⊕ State × Int} (h : σ.Ok)
    (hi : Event.RemovesIdle E (.runEvents clock now) σ)
    (hs : runEventsStep E clock now σ = .ok x) : (Sum.elim id Prod.fst x).Ok := by
  unfold runEventsStep at hs
  split at hs
  · cases hs
    exact h
  · rename_i t ts hq
    simp only at hs
    split at hs
    · cases hs
      exact h
    · rename_i hdue
      obtain ⟨τ, hτ, hs⟩ := (bind_eq_ok _ _ _).mp hs
      cases hs
      have hok : τ.Ok := by
        cases hcall : t.call with
        | cts u =>
          rw [hcall] at hτ
          exact ((callback_quiet h (h.timer_live (by simp [hq]) hcall)).post τ hτ).ok
        | ageing =>
          rw [hcall] at hτ
          exact ageing_ok h (hi ⟨t, by simp [hq], by omega, hcall⟩) hτ
      refine ⟨hok.faced, fun f hf => hok.live f ?_, hok.owner⟩
      rcases hf with ⟨u, hu, huf⟩ | hf
      · have hmem := (List.dropWhile_suffix _).subset (List.mem_of_mem_tail hu)
        exact .inl ⟨u, hmem, huf⟩
      · exact .inr hf

theorem system_ok (E : Platform) : (system E).KeepsBy (Event.RemovesIdle E) State.Ok where
  start σ h := start_ok h
  step e σ τ h hi hs := by
    cases e with
    | face now ifndx sa =>
      cases hs
      exact (getFaceOrCreate_ok h ifndx sa).1
    | enqueue f buf =>
      change (if _ then _ else _) = _ at hs
      split at hs
      · rename_i hf
        exact ((faceEnqueue_meets h hf).post τ hs).1
      · cases hs
    | runEvents clock now =>
      obtain ⟨x, hx, rfl⟩ := (map_eq_ok _ _ _).mp hs
      exact runEventsStep_ok h hi hx
    | transmit i => exact ((callback_quiet (t := .iface i) h trivial).post τ hs).ok
    | remove f =>
      change (if _ then _ else _) = _ at hs
      split at hs
      · cases hs
        exact faceRemove_ok h hi
      · cases hs
    | ageing now => exact doAgeing_ok h hi hs
    | tables pit fib =>
      change (if _ then _ else _) = _ at hs
      split at hs
      · rename_i hlive
        cases hs
        refine h.with_base ⟨h.faced.nodup, h.faced.ids, fun f hf => ?_⟩ fun _ => id
        exact hlive f (mem_pointers.mp hf)
      · cases hs

/-- An event ends, and follows no pointer to a freed face. -/
theorem event_avoids (h : σ.Ok) (e : Event) : Avoids Stray (e.run E σ) := by
  have hbail : ¬ Stray .bail := by simp [Stray]
  cases e with
  | face now ifndx sa => exact avoids_ok _
  | enqueue f buf =>
    refine (avoids_ite _ _ _).mpr ⟨fun hf => (faceEnqueue_meets h hf).avoids, fun _ => ?_⟩
    exact (avoids_error _).mpr hbail
  | runEvents clock now =>
    refine (avoids_map _ _).mpr ?_
    unfold runEventsStep
    split
    · exact avoids_ok _
    · rename_i t ts hq
      refine (avoids_ite _ _ _).mpr ⟨fun _ => avoids_ok _, fun _ => ?_⟩
      refine (avoids_bind _ _).mpr ⟨?_, fun _ _ => avoids_pure _⟩
      cases hcall : t.call with
      | cts u => exact (callback_quiet h (h.timer_live (by simp [hq]) hcall)).avoids
      | ageing => exact ageing_avoids h
  | transmit i => exact (callback_quiet (t := .iface i) h trivial).avoids
  | remove f =>
    exact (avoids_ite _ _ _).mpr ⟨fun _ => avoids_ok _, fun _ => (avoids_error _).mpr hbail⟩
  | ageing now => exact (doAgeing_meets h).avoids
  | tables pit fib =>
    exact (avoids_ite _ _ _).mpr ⟨fun _ => avoids_ok _, fun _ => (avoids_error _).mpr hbail⟩

/-- Work that is left over follows the pointer to its face. -/
theorem runEvents_dangling {t : Timer} {ts : List Timer} {f : FaceId} {clock : Int} (now : Nat)
    (hq : σ.eventqueue = t :: ts) (ht : t.call = .cts (.face f)) (hd : t.timeout < clock)
    (hf : ¬ σ.base.Listed f) : Event.run E (.runEvents clock now) σ = .error .dangling := by
  have hface : σ.base.face f = .error .dangling := by
    cases hx : σ.base.face f with
    | ok x => exact absurd (Relay.listed_of_face hx) hf
    | error s =>
      unfold Relay.face at hx
      split at hx <;> cases hx
      rfl
  have hcall : t.call.run E now σ = .error .dangling := by
    rw [ht]
    change (σ.base.face f >>= _) = _
    rw [hface, error_bind]
  have hstep : runEventsStep E clock now σ = .error .dangling := by
    unfold runEventsStep
    simp only [hq]
    rw [if_neg (by omega), hcall, error_bind]
  change Sum.elim id Prod.fst <$> _ = _
  rw [hstep]
  rfl

/-- In a run in which each face that goes has no work scheduled, no work outlives its face: every
pending timer and every queued request points to a live face, and no callback follows a pointer to a
freed one. An event that removes a face with work leaves that work over. -/
theorem no_work_outlives_idle_faces
    (hr : (system E).ReachableBy (Event.RemovesIdle E) σ) :
    σ.NoneOutlives ∧ (∀ e : Event, Avoids Stray (e.run E σ)) ∧
      ∀ (e : Event) (τ : State), (∀ clock now, e ≠ .runEvents clock now) → e.run E σ = .ok τ →
        (τ.NoneOutlives ↔ e.RemovesIdle E σ) := by
  have h := (system_ok E).reachable hr
  refine ⟨h.live, event_avoids h, fun e τ he hs => ?_⟩
  have hkeeps : e.RemovesIdle E σ → τ.NoneOutlives := fun hi => ((system_ok E).step e σ τ h hi hs).live
  refine ⟨fun hl => ?_, hkeeps⟩
  cases e with
  | remove f =>
    change (if _ then _ else _) = _ at hs
    split at hs
    · cases hs
      exact (removes_noneOutlives (l := [f]) h.live).mp hl f List.mem_cons_self
    · cases hs
  | ageing now => exact (doAgeing_noneOutlives h hs).mp hl
  | runEvents clock now => exact absurd rfl (he clock now)
  | _ => trivial

end Runs

/-! ## A relay with rate limits -/

/-- One message a second for each face, and a clock that counts how often it is read. -/
def Platform.limited : Platform where
  clock n := n
  defaultFaceScheduler := some (.pktrate, 1000000)

/-- A relay with one interface, whose scheduler has no limit. -/
def State.plain : State where
  base := .plain
  sched t := if t = .iface 0 then some { mode := .pktrate } else none
  outq _ := []
  queue _ := []
  eventqueue := []
  timers := 0
  reads := 0
  sent := []

theorem State.plain_start : State.plain.Start where
  faced := ⟨by simp [State.plain, Relay.plain], by simp [State.plain, Relay.plain, Relay.Listed],
    by simp [State.plain, Relay.plain, Relay.RefersTo]⟩
  eventqueue := by simp [State.plain]
  queue _ := rfl
  sched t s hs := by
    simp only [State.plain, Option.ite_none_right_eq_some, Option.some.injEq] at hs
    rw [← hs.2]

/-- The relay after some events. -/
def State.after (es : List Event) : Run State :=
  es.foldlM (fun σ e => e.run .limited σ) .plain

/-- A face gets a buffer, which goes out at once, and is removed. -/
theorem no_work_outlives_idle_faces_sent : ∃ σ, σ.sent.length = 1 ∧ ¬ σ.base.Listed 1 ∧
    σ.NoneOutlives ∧ (∀ e : Event, Avoids Stray (e.run .limited σ)) ∧
      ∀ (e : Event) (τ : State), (∀ clock now, e ≠ .runEvents clock now) →
        e.run .limited σ = .ok τ → (τ.NoneOutlives ↔ e.RemovesIdle .limited σ) := by
  obtain ⟨σ, hrun, hsent, hf, hevents, hqueue⟩ :
      ∃ σ, State.after [.face 0 0 (some (.inet 7 9695)), .enqueue 1 [1]] = .ok σ ∧
        σ.sent.length = 1 ∧ σ.base.Listed 1 ∧ σ.eventqueue = [] ∧ ∀ i, σ.queue i = [] := by
    refine ⟨_, rfl, rfl, ⟨_, List.mem_cons_self, rfl⟩, rfl, fun i => ?_⟩
    cases i <;> rfl
  have hidle : ¬ σ.Scheduled 1 := by
    rintro (⟨t, ht, -⟩ | ⟨i, r, hr, -⟩)
    · rw [hevents] at ht
      cases ht
    · rw [hqueue i] at hr
      cases hr
  have halong : Along (fun σ e => (system .limited).step e σ) (fun σ e => e.RemovesIdle .limited σ)
      [.face 0 0 (some (.inet 7 9695)), .enqueue 1 [1]] State.plain :=
    ⟨trivial, fun _ _ => ⟨trivial, fun _ _ => trivial⟩⟩
  have hreached : (system .limited).ReachableBy (Event.RemovesIdle .limited) σ :=
    (Sys.ReachableBy.start State.plain_start).run halong hrun
  have hremove : Event.run .limited (.remove 1) σ = .ok (faceRemove σ 1) := if_pos hf
  exact ⟨faceRemove σ 1, hsent, fun hl => (faceRemove_listed.mp hl).2 rfl,
    no_work_outlives_idle_faces (hreached.next (.remove 1) hidle hremove)⟩

/-- A face gets a second buffer within a second, and its scheduler sets a timer. The face is removed,
and the timer calls. -/
theorem work_outlives_face : ∃ σ, (system .limited).Reachable σ ∧ 1 ≤ σ.base.seqno ∧
    ¬ σ.base.Listed 1 ∧ σ.Scheduled 1 ∧
    Event.run .limited (.runEvents 2000000 0) σ = .error .dangling := by
  obtain ⟨σ, hrun, hseq, hf, hq⟩ := exists_ok
    (x := State.after [.face 0 0 (some (.inet 7 9695)), .enqueue 1 [1], .enqueue 1 [2], .remove 1])
    (p := fun σ => 1 ≤ σ.base.seqno ∧ ¬ σ.base.Listed 1 ∧
      σ.eventqueue = [⟨0, 1000002, .cts (.face 1)⟩]) (by decide +kernel)
  refine ⟨σ, (Sys.Reachable.start State.plain_start).run hrun, hseq, hf, ?_, ?_⟩
  · exact .inl ⟨_, by rw [hq]; exact List.mem_cons_self, rfl⟩
  · exact runEvents_dangling 0 hq rfl (by decide) hf

end Ccnl.UseScheduler
