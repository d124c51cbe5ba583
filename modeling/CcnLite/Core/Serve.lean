import CcnLite.Core.Relay

/-!
# Serving pending Interests (`ccnl_content_serve_pending`)

`servePending` walks the PIT and answers every entry that the content matches. The walk removes
from the list it goes through, and a flag on each face keeps a face from getting the content twice.

* `pitMatch`: the switch over the suite of an entry's name. It looks at the packet of the content
  only, so the flags that the walk sets on the content do not matter (`pitMatch_congr`).
* `Progress`: what the walk has done after it visited the faces `v` and removed `k` entries. One
  pending face (`serveFace_progress`) and one PIT entry (`serveFrom_progress`) keep it.
* `servePending_spec`: the walk's effect on the whole relay.
-/

namespace Ccnl

open CRun

/-- The switch of `ccnl_content_serve_pending`: does the content satisfy this Interest? -/
def pitMatch (digest : List UInt8 → Digest) (pkt : Pkt) (p : Prefix) (c : Content) : Run Bool :=
  match p.suite with
  | .ccnb => do
    let v ← iPrefixofC digest p pkt.ccnb.minsuffix pkt.ccnb.maxsuffix c
    return 0 ≤ v
  | .ccntlv => do
    let cp ← deref c.pkt.pfx
    return prefixCmp cp none p .exact = 0
  | .ndntlv => do
    let v ← iPrefixofC digest p pkt.ndntlv.minsuffix pkt.ndntlv.maxsuffix c
    return 0 ≤ v
  | .localrpc => return false

/-- The content satisfies the PIT entry. -/
def Matches (digest : List UInt8 → Digest) (i : Interest) (c : Content) : Prop :=
  ∃ p, i.pkt.pfx = some p ∧ pitMatch digest i.pkt p c = .ok true

theorem matches_of_name {digest : List UInt8 → Digest} {i : Interest} {c : Content} {p : Prefix}
    (hi : i.pkt.pfx = some p) : Matches digest i c ↔ pitMatch digest i.pkt p c = .ok true := by
  simp [Matches, hi]

theorem not_matches {digest : List UInt8 → Digest} {i : Interest} {c : Content}
    (hi : i.pkt.pfx = none) : ¬ Matches digest i c := by
  simp [Matches, hi]

instance (digest : List UInt8 → Digest) (i : Interest) (c : Content) :
    Decidable (Matches digest i c) :=
  match h : i.pkt.pfx with
  | none => .isFalse (not_matches h)
  | some _ => decidable_of_iff _ (matches_of_name h).symm

/-- The variables of the walk: the relay, the content and `cnt`. -/
structure Serving where
  relay : Relay
  c : Content
  cnt : Nat := 0
  deriving DecidableEq, Repr

/-- Hand the packet to the face `x`. Without `CCNL_APP_RX` a local client gets nothing. -/
def deliver (σ : Relay) (x : Face) (pkt : Pkt) : Run Relay :=
  if 0 ≤ x.ifndx then sendPkt σ x.faceid pkt else .ok σ

/-- The body of the loop over the pending faces of an entry that matches. -/
def serveFace (s : Serving) (f : FaceId) : Run Serving := do
  let x ← s.relay.face f
  if x.served then return s
  let σ ← deliver (s.relay.setFace f fun x => { x with served := true }) x s.c.pkt
  return { relay := σ, c := { s.c with servedCnt := s.c.servedCnt + 1 }, cnt := s.cnt + 1 }

/-- What the walk does for an entry that matches, before it removes the entry. -/
def serveEntry (s : Serving) (i : Interest) : Run Serving :=
  if i.pending = [] then
    .ok { s with
      c := { s.c with static := true, servedCnt := s.c.servedCnt + 1 }
      cnt := s.cnt + 1 }
  else i.pending.foldlM (fun s pi => serveFace s pi.face) s

/-- The loop over the PIT; the entries it leaves there. -/
def serveFrom (digest : List UInt8 → Digest) : List Interest → Serving →
    Run (List Interest × Serving)
  | [], s => .ok ([], s)
  | i :: pit, s =>
    match i.pkt.pfx with
    | none => .error .spin -- `continue` without a step to the next entry
    | some p => do
      if ← pitMatch digest i.pkt p s.c then
        let s ← serveEntry s i
        serveFrom digest pit { s with relay := { s.relay with pitcnt := s.relay.pitcnt - 1 } }
      else do
        let (kept, s) ← serveFrom digest pit s
        return (i :: kept, s)

/-- `ccnl_content_serve_pending`. -/
def servePending (digest : List UInt8 → Digest) (σ : Relay) (c : Content) : Run Serving := do
  let σ := { σ with faces := σ.faces.map fun x => { x with served := false } }
  let (pit, s) ← serveFrom digest σ.pit { relay := σ, c := c }
  return { s with relay := { s.relay with pit := pit } }

/-! ## Faces by their pointer -/

/-- The pointer points to a face of the table. -/
def Relay.Listed (σ : Relay) (f : FaceId) : Prop := ∃ x ∈ σ.faces, x.faceid = f

instance (σ : Relay) (f : FaceId) : Decidable (σ.Listed f) :=
  inferInstanceAs (Decidable (∃ x ∈ σ.faces, x.faceid = f))

/-- The face has an interface (`ifndx >= 0`). -/
def Relay.Remote (σ : Relay) (f : FaceId) : Prop := ∃ x, σ.face f = .ok x ∧ 0 ≤ x.ifndx

namespace Relay

theorem face_eq_ok {σ : Relay} {f : FaceId} {x : Face} :
    σ.face f = .ok x ↔ σ.faces.find? (·.faceid == f) = some x := by
  unfold face
  cases σ.faces.find? (·.faceid == f) <;> simp

theorem Listed.face {σ : Relay} {f : FaceId} (h : σ.Listed f) : ∃ x, σ.face f = .ok x := by
  obtain ⟨x, hx, hf⟩ := h
  simp only [face_eq_ok]
  refine Option.isSome_iff_exists.mp ?_
  rw [List.find?_isSome]
  exact ⟨x, hx, by simpa using hf⟩

theorem faceid_of_face {σ : Relay} {f : FaceId} {x : Face} (h : σ.face f = .ok x) :
    x.faceid = f := by
  simpa using List.find?_some (face_eq_ok.mp h)

/-- A change of the face table that keeps the pointers changes what a pointer points to. -/
theorem face_map {σ τ : Relay} {g : Face → Face} (hg : ∀ x, (g x).faceid = x.faceid)
    (hτ : τ.faces = σ.faces.map g) (f : FaceId) : τ.face f = (σ.face f).map g := by
  have hpred : (fun x : Face => x.faceid == f) ∘ g = fun x => x.faceid == f :=
    funext fun x => by simp [hg]
  unfold face
  rw [hτ, List.find?_map, hpred]
  cases σ.faces.find? (·.faceid == f) <;> rfl

end Relay

/-! ## What a pass does -/

section Pass

variable {digest : List UInt8 → Digest} {σ : Relay} {c : Content}

theorem pitMatch_congr {c' : Content} (h : c'.pkt = c.pkt) (pkt : Pkt) (p : Prefix) :
    pitMatch digest pkt p c' = pitMatch digest pkt p c := by
  unfold pitMatch iPrefixofC
  rw [h]

/-- The match is defined as soon as the content has a name. -/
theorem pitMatch_defined {cp : Prefix} (hc : c.pkt.pfx = some cp) (pkt : Pkt) (p : Prefix) :
    ∃ b, pitMatch digest pkt p c = .ok b := by
  unfold pitMatch
  cases p.suite <;> simp only [iPrefixofC_eq hc, hc, deref_some] <;> exact ⟨_, rfl⟩

/-- The served flag says whether the face is one of `v`. -/
def Face.mark (v : List FaceId) (x : Face) : Face := { x with served := decide (x.faceid ∈ v) }

/-- What the walk has done after it visited the faces `v` and removed `k` entries: it has sent the
content to `sent`, and changed nothing but the served flags and the PIT count. -/
structure Progress (σ : Relay) (c : Content) (v : List FaceId) (k : Nat) (sent : List FaceId)
    (s : Serving) : Prop where
  relay : s.relay = { σ with
    faces := σ.faces.map (Face.mark v)
    out := σ.out ++ sent.map (.send · c.pkt.buf)
    pitcnt := σ.pitcnt - k }
  nodup : sent.Nodup
  mem_sent : ∀ f, f ∈ sent ↔ f ∈ v ∧ σ.Remote f
  pkt : s.c.pkt = c.pkt
  cnt : s.cnt = 0 ↔ k = 0 ∧ v = []

namespace Progress

variable {v sent : List FaceId} {k : Nat} {s : Serving}

theorem face (h : Progress σ c v k sent s) (f : FaceId) :
    s.relay.face f = (σ.face f).map (Face.mark v) :=
  Relay.face_map (g := Face.mark v) (fun _ => rfl) (by rw [h.relay]) f

/-- Visiting a face again changes nothing. -/
theorem visit_again {f : FaceId} (h : Progress σ c v k sent s) (hf : f ∈ v) :
    Progress σ c (v ++ [f]) k sent s where
  relay := by
    have hmem : ∀ g, g ∈ v ++ [f] ↔ g ∈ v := fun g => by
      simp only [List.mem_append, List.mem_singleton]
      exact ⟨fun h => h.elim id fun h => h ▸ hf, .inl⟩
    have : Face.mark (v ++ [f]) = Face.mark v := funext fun x => by simp only [Face.mark, hmem]
    rw [h.relay, this]
  nodup := h.nodup
  mem_sent := fun g => by
    rw [h.mem_sent, List.mem_append, List.mem_singleton]
    exact ⟨fun hg => ⟨.inl hg.1, hg.2⟩, fun hg => ⟨hg.1.elim id fun h => h ▸ hf, hg.2⟩⟩
  pkt := h.pkt
  cnt := by
    rw [h.cnt]
    have : v ≠ [] := List.ne_nil_of_mem hf
    simp [this]

/-- The relay after a first visit to the face `f`. -/
theorem setFace_relay (h : Progress σ c v k sent s) (f : FaceId) :
    (s.relay.setFace f fun x => { x with served := true }) = { σ with
      faces := σ.faces.map (Face.mark (v ++ [f]))
      out := σ.out ++ sent.map (.send · c.pkt.buf)
      pitcnt := σ.pitcnt - k } := by
  unfold Relay.setFace
  rw [h.relay, List.map_map]
  congr 1
  refine List.map_congr_left fun x _ => ?_
  simp only [Function.comp_apply, Face.mark, List.mem_append, List.mem_singleton]
  by_cases hx : x.faceid = f <;> simp [hx]

/-- A first visit sends the content when the face has an interface. -/
theorem visit_new {f : FaceId} {s' : Serving} (h : Progress σ c v k sent s) (hf : f ∉ v)
    (new : List FaceId) (hnew : ∀ g, g ∈ new ↔ g = f ∧ σ.Remote g) (hnd : new.Nodup)
    (hrelay : s'.relay = { σ with
      faces := σ.faces.map (Face.mark (v ++ [f]))
      out := σ.out ++ (sent ++ new).map (.send · c.pkt.buf)
      pitcnt := σ.pitcnt - k })
    (hpkt : s'.c.pkt = c.pkt) (hcnt : s'.cnt ≠ 0) :
    Progress σ c (v ++ [f]) k (sent ++ new) s' where
  relay := hrelay
  nodup := by
    refine List.nodup_append.mpr ⟨h.nodup, hnd, fun a ha b hb hab => hf ?_⟩
    rw [← ((hnew b).mp hb).1, ← hab]
    exact ((h.mem_sent a).mp ha).1
  mem_sent := fun g => by
    simp only [List.mem_append, h.mem_sent, hnew, List.mem_singleton]
    tauto
  pkt := hpkt
  cnt := by simp [hcnt]

end Progress

/-- One pass over a pending face. -/
theorem serveFace_progress {f : FaceId} (hl : σ.Listed f) {v sent : List FaceId} {k : Nat}
    {s : Serving} (h : Progress σ c v k sent s) :
    ∃ s' sent', serveFace s f = .ok s' ∧ Progress σ c (v ++ [f]) k sent' s' := by
  obtain ⟨x, hx⟩ := hl.face
  have hid := Relay.faceid_of_face hx
  have hface : s.relay.face f = .ok (x.mark v) := by rw [h.face, hx]; rfl
  unfold serveFace
  simp only [hface, ok_bind]
  by_cases hv : f ∈ v
  · exact ⟨s, sent, by simp [Face.mark, hid, hv, pure, Except.pure], h.visit_again hv⟩
  have hserved : (x.mark v).served = false := by simp [Face.mark, hid, hv]
  have hset := h.setFace_relay f
  have hindx : (x.mark v).ifndx = x.ifndx := rfl
  have hptr : (x.mark v).faceid = f := hid
  simp only [hserved, Bool.false_eq_true, ↓reduceIte, hset, deliver, hindx, hptr]
  by_cases hi : 0 ≤ x.ifndx
  · have hrem : σ.Remote f := ⟨x, hx, hi⟩
    have hlook := Relay.face_map (σ := σ) (g := Face.mark (v ++ [f])) (fun _ => rfl)
      (τ := { σ with
        faces := σ.faces.map (Face.mark (v ++ [f]))
        out := σ.out ++ sent.map (.send · c.pkt.buf)
        pitcnt := σ.pitcnt - k }) rfl f
    rw [hx] at hlook
    simp only [hi, ↓reduceIte, sendPkt, faceEnqueue, hlook, Except.map, ok_bind, h.pkt]
    refine ⟨_, sent ++ [f], rfl, h.visit_new hv [f] (fun g => ?_) (by simp) ?_ rfl (by simp)⟩
    · simp only [List.mem_singleton]
      exact ⟨fun hg => ⟨hg, hg ▸ hrem⟩, fun hg => hg.1⟩
    · simp
  · have hrem : ¬ σ.Remote f := by
      rintro ⟨y, hy, hi'⟩
      rw [hx] at hy
      cases hy
      exact hi hi'
    simp only [hi, ↓reduceIte]
    refine ⟨_, sent ++ [], rfl, h.visit_new hv [] (fun g => ?_) .nil ?_ h.pkt (by simp)⟩
    · simp only [List.not_mem_nil, false_iff]
      exact fun hg => hrem (hg.1 ▸ hg.2)
    · simp

/-- One pass over the pending faces of an entry. -/
theorem servePend_progress {pend : List Pendint} (hl : ∀ pi ∈ pend, σ.Listed pi.face)
    {v sent : List FaceId} {k : Nat} {s : Serving} (h : Progress σ c v k sent s) :
    ∃ s' sent', pend.foldlM (fun s pi => serveFace s pi.face) s = .ok s' ∧
      Progress σ c (v ++ pend.map (·.face)) k sent' s' := by
  induction pend generalizing v sent s with
  | nil => exact ⟨s, sent, rfl, by simpa using h⟩
  | cons pi pend ih =>
    obtain ⟨s₁, sent₁, hs₁, h₁⟩ := serveFace_progress (hl pi (by simp)) h
    obtain ⟨s₂, sent₂, hs₂, h₂⟩ := ih (fun q hq => hl q (by simp [hq])) h₁
    refine ⟨s₂, sent₂, ?_, by simpa using h₂⟩
    rw [List.foldlM_cons, hs₁, ok_bind]
    exact hs₂

/-- Removing an entry counts it, and the walk has served something by then. -/
theorem Progress.removed {v sent : List FaceId} {k : Nat} {s s' : Serving}
    (h : Progress σ c v k sent s) (hpkt : s'.c.pkt = s.c.pkt) (hcnt : s'.cnt ≠ 0)
    (hrelay : s'.relay = { s.relay with pitcnt := s.relay.pitcnt - 1 }) :
    Progress σ c v (k + 1) sent s' where
  relay := by
    have : σ.pitcnt - k - 1 = σ.pitcnt - (k + 1 : Nat) := by omega
    rw [hrelay, h.relay, this]
  nodup := h.nodup
  mem_sent := h.mem_sent
  pkt := hpkt.trans h.pkt
  cnt := by simp [hcnt]

/-- What is done for an entry that matches, and its removal. -/
theorem serveEntry_progress {i : Interest} (hl : ∀ pi ∈ i.pending, σ.Listed pi.face)
    {v sent : List FaceId} {k : Nat} {s : Serving} (h : Progress σ c v k sent s) :
    ∃ s' sent', serveEntry s i = .ok s' ∧
      Progress σ c (v ++ i.pending.map (·.face)) (k + 1) sent'
        { s' with relay := { s'.relay with pitcnt := s'.relay.pitcnt - 1 } } := by
  unfold serveEntry
  split
  · rename_i hpend
    refine ⟨_, sent, rfl, ?_⟩
    rw [hpend, List.map_nil, List.append_nil]
    exact h.removed rfl (Nat.succ_ne_zero _) rfl
  · rename_i hpend
    obtain ⟨s', sent', hs, h'⟩ := servePend_progress hl h
    refine ⟨s', sent', hs, h'.removed rfl ?_ rfl⟩
    rw [ne_eq, h'.cnt]
    simp [hpend]

/-- The faces pending on the entries that match. -/
def answered (digest : List UInt8 → Digest) (c : Content) (pit : List Interest) : List FaceId :=
  (pit.filter fun i => Matches digest i c).flatMap fun i => i.pending.map (·.face)

/-- The walk over the PIT: it keeps the entries that do not match, in order, and answers the
others. -/
theorem serveFrom_progress {pit : List Interest}
    (hn : ∀ i ∈ pit, ∃ p b, i.pkt.pfx = some p ∧ pitMatch digest i.pkt p c = .ok b)
    (hl : ∀ i ∈ pit, ∀ pi ∈ i.pending, σ.Listed pi.face)
    {v sent : List FaceId} {k : Nat} {s : Serving} (h : Progress σ c v k sent s) :
    ∃ s' sent',
      serveFrom digest pit s = .ok (pit.filter fun i => ¬ Matches digest i c, s') ∧
      Progress σ c (v ++ answered digest c pit)
        (k + (pit.filter fun i => Matches digest i c).length) sent' s' := by
  induction pit generalizing v sent k s with
  | nil => exact ⟨s, sent, rfl, by simpa [answered] using h⟩
  | cons i pit ih =>
    obtain ⟨p, b, hp, hb⟩ := hn i (by simp)
    have hm : Matches digest i c ↔ b = true := by simp [Matches, hp, hb]
    rw [serveFrom]
    simp only [hp, pitMatch_congr h.pkt, hb, ok_bind]
    have ih' := @ih (fun j hj => hn j (by simp [hj])) (fun j hj => hl j (by simp [hj]))
    cases b with
    | false =>
      obtain ⟨s', sent', hs, hp'⟩ := ih' h
      refine ⟨s', sent', ?_, ?_⟩
      · simp [hs, hm, pure, Except.pure]
      · simpa [answered, hm] using hp'
    | true =>
      obtain ⟨s₁, sent₁, hs₁, h₁⟩ := serveEntry_progress (hl i (by simp)) h
      obtain ⟨s', sent', hs, hp'⟩ := ih' h₁
      refine ⟨s', sent', by simp [hs₁, hs, hm], ?_⟩
      simpa [answered, hm, Nat.add_assoc, Nat.add_comm 1] using hp'

end Pass

/-! ## The whole walk -/

section Spec

variable {digest : List UInt8 → Digest} {σ : Relay} {c : Content}

/-- The walk on a PIT where every match is defined: the entries that match are gone, their faces
have been sent the content, and nothing else has changed. -/
theorem servePending_spec
    (hn : ∀ i ∈ σ.pit, ∃ p b, i.pkt.pfx = some p ∧ pitMatch digest i.pkt p c = .ok b)
    (hl : ∀ i ∈ σ.pit, ∀ pi ∈ i.pending, σ.Listed pi.face) :
    ∃ (s : Serving) (sent : List FaceId), servePending digest σ c = .ok s ∧ sent.Nodup ∧
      (∀ f, f ∈ sent ↔ f ∈ answered digest c σ.pit ∧ σ.Remote f) ∧
      s.relay = { σ with
        pit := σ.pit.filter fun i => ¬ Matches digest i c
        pitcnt := σ.pitcnt - (σ.pit.filter fun i => Matches digest i c).length
        faces := σ.faces.map (Face.mark (answered digest c σ.pit))
        out := σ.out ++ sent.map (.send · c.pkt.buf) } ∧
      s.c.pkt = c.pkt ∧ (s.cnt = 0 ↔ ∀ i ∈ σ.pit, ¬ Matches digest i c) := by
  have hstart : Progress σ c [] 0 []
      { relay := { σ with faces := σ.faces.map fun x => { x with served := false } }, c := c } :=
    { relay := by simp [Face.mark]
      nodup := .nil
      mem_sent := by simp
      pkt := rfl
      cnt := by simp }
  obtain ⟨s, sent, hs, h⟩ := serveFrom_progress hn hl hstart
  refine ⟨{ s with relay := { s.relay with pit := σ.pit.filter fun i => ¬ Matches digest i c } },
    sent, by simp only [servePending, hs]; rfl, h.nodup, ?_, ?_, h.pkt, ?_⟩
  · simpa using h.mem_sent
  · simp [h.relay]
  · rw [h.cnt]
    simp only [Nat.zero_add, List.length_eq_zero_iff, List.filter_eq_nil_iff, decide_eq_true_eq,
      List.nil_append, and_iff_left_iff_imp]
    intro hno
    have : σ.pit.filter (fun i => Matches digest i c) = [] := by simpa using hno
    simp [answered, this]

theorem serveFace_pkt {s s' : Serving} {f : FaceId} (h : serveFace s f = .ok s') :
    s'.c.pkt = s.c.pkt := by
  unfold serveFace at h
  obtain ⟨x, -, h⟩ := (bind_eq_ok _ _ _).mp h
  split at h
  · rw [(pure_eq_ok _ _).mp h]
  · obtain ⟨σ, -, h⟩ := (bind_eq_ok _ _ _).mp h
    rw [← (pure_eq_ok _ _).mp h]

/-- What the pending faces keep, and the counters do not touch, is kept by an entry. -/
theorem serveEntry_inv {I : Serving → Prop} {s s' : Serving} {i : Interest}
    (hface : ∀ s f s', I s → serveFace s f = .ok s' → I s')
    (hcount : ∀ (s : Serving) (c : Content) n, I s → c.pkt = s.c.pkt → I { s with c := c, cnt := n })
    (hs : I s) (h : serveEntry s i = .ok s') : I s' := by
  unfold serveEntry at h
  split at h
  · cases h
    exact hcount s _ _ hs rfl
  · exact foldlM_inv (fun s pi s' hs hx => hface s pi.face s' hs hx) hs h

/-- What the entries keep is kept by the walk. -/
theorem serveFrom_inv {I : Serving → Prop} {s s' : Serving} {pit kept : List Interest}
    (hentry : ∀ s i s', I s → serveEntry s i = .ok s' →
      I { s' with relay := { s'.relay with pitcnt := s'.relay.pitcnt - 1 } })
    (hs : I s) (h : serveFrom digest pit s = .ok (kept, s')) : I s' := by
  induction pit generalizing s kept with
  | nil =>
    cases h
    exact hs
  | cons i pit ih =>
    rw [serveFrom] at h
    split at h
    · cases h
    obtain ⟨b, -, h⟩ := (bind_eq_ok _ _ _).mp h
    split at h
    · obtain ⟨s₁, h₁, h⟩ := (bind_eq_ok _ _ _).mp h
      exact ih (hentry s i s₁ hs h₁) h
    · obtain ⟨⟨rest, s₁⟩, h₁, h⟩ := (bind_eq_ok _ _ _).mp h
      cases h
      exact ih hs h₁

theorem serveEntry_pkt {s s' : Serving} {i : Interest} (h : serveEntry s i = .ok s') :
    s'.c.pkt = s.c.pkt :=
  serveEntry_inv (I := fun t => t.c.pkt = s.c.pkt) (fun _ _ _ h₀ hs => (serveFace_pkt hs).trans h₀)
    (fun _ _ _ h₀ hc => hc.trans h₀) rfl h

/-- A walk that ends has matched every entry against the content. -/
theorem serveFrom_defined {pit : List Interest} {s : Serving} {r : List Interest × Serving}
    (hc : s.c.pkt = c.pkt) (h : serveFrom digest pit s = .ok r) :
    ∀ i ∈ pit, ∃ p b, i.pkt.pfx = some p ∧ pitMatch digest i.pkt p c = .ok b := by
  induction pit generalizing s r with
  | nil => simp
  | cons i pit ih =>
    rw [serveFrom] at h
    cases hp : i.pkt.pfx with
    | none => simp [hp] at h
    | some p =>
      simp only [hp, pitMatch_congr hc] at h
      obtain ⟨b, hb, h⟩ := (bind_eq_ok _ _ _).mp h
      have hrest : ∀ j ∈ pit, ∃ p b, j.pkt.pfx = some p ∧ pitMatch digest j.pkt p c = .ok b := by
        cases b with
        | false =>
          obtain ⟨x, hx, -⟩ := (bind_eq_ok _ _ _).mp h
          exact ih hc hx
        | true =>
          obtain ⟨s₁, hs₁, h⟩ := (bind_eq_ok _ _ _).mp h
          exact ih (by exact (serveEntry_pkt hs₁).trans hc) h
      intro j hj
      rcases List.mem_cons.mp hj with rfl | hj
      · exact ⟨p, b, hp, hb⟩
      · exact hrest j hj

/-- A walk on a PIT whose entries have names ends as soon as the content has a name. -/
theorem servePending_defined (hn : ∀ i ∈ σ.pit, i.pkt.pfx ≠ none) (hc : c.pkt.pfx ≠ none) :
    ∀ i ∈ σ.pit, ∃ p b, i.pkt.pfx = some p ∧ pitMatch digest i.pkt p c = .ok b := by
  intro i hi
  obtain ⟨p, hp⟩ := Option.ne_none_iff_exists'.mp (hn i hi)
  obtain ⟨cp, hcp⟩ := Option.ne_none_iff_exists'.mp hc
  obtain ⟨b, hb⟩ : ∃ b, pitMatch digest i.pkt p c = .ok b := pitMatch_defined hcp i.pkt p
  exact ⟨p, b, hp, hb⟩

theorem mem_answered {f : FaceId} {pit : List Interest} :
    f ∈ answered digest c pit ↔ ∃ i ∈ pit, Matches digest i c ∧ ∃ pi ∈ i.pending, pi.face = f := by
  simp [answered, and_assoc]

/-- `ccnl_content_serve_pending` removes exactly the entries that the content matches, leaves the
others as they are and in order, sends the packet exactly once to each face that has an interface
and is pending on a removed entry, and to no other face, and returns 0 exactly when it removed
nothing. With a named content it always ends. -/
theorem servePending_correct (hn : ∀ i ∈ σ.pit, i.pkt.pfx ≠ none)
    (hl : ∀ i ∈ σ.pit, ∀ pi ∈ i.pending, σ.Listed pi.face) :
    (c.pkt.pfx ≠ none → ∃ s, servePending digest σ c = .ok s) ∧
    ∀ s, servePending digest σ c = .ok s →
      (s.relay.pit = σ.pit.filter fun i => ¬ Matches digest i c) ∧
      (∃ sent : List FaceId, sent.Nodup ∧
        (∀ f, f ∈ sent ↔ σ.Remote f ∧
          ∃ i ∈ σ.pit, Matches digest i c ∧ ∃ pi ∈ i.pending, pi.face = f) ∧
        s.relay.out = σ.out ++ sent.map (.send · c.pkt.buf)) ∧
      (s.cnt = 0 ↔ ∀ i ∈ σ.pit, ¬ Matches digest i c) := by
  constructor
  · intro hc
    obtain ⟨s, -, hs, -⟩ := servePending_spec (servePending_defined hn hc) hl
    exact ⟨s, hs⟩
  · intro s hs
    have hdef : ∀ i ∈ σ.pit, ∃ p b, i.pkt.pfx = some p ∧ pitMatch digest i.pkt p c = .ok b := by
      obtain ⟨r, hr, -⟩ := (bind_eq_ok _ _ _).mp hs
      exact serveFrom_defined rfl hr
    obtain ⟨s', sent, hs', hnd, hmem, hrel, -, hcnt⟩ := servePending_spec hdef hl
    obtain rfl : s = s' := by rw [hs] at hs'; exact Except.ok.inj hs'
    refine ⟨by rw [hrel], ⟨sent, hnd, fun f => ?_, by rw [hrel]⟩, hcnt⟩
    rw [hmem, mem_answered, and_comm]

/-- One Interest for `/a`, pending on a face, and the content `/a`. -/
theorem servePending_correct_one :
    let name := Prefix.ofComps .ndntlv [[97]]
    let σ : Relay :=
      { faces := [{ faceid := 1, ifndx := 0 }]
        pit := [{ pkt := { pfx := some name, s := .ndntlv { maxsuffix := 64 }, suite := .ndntlv }
                  pending := [⟨1, 0⟩] }] }
    let c : Content := { pkt := { pfx := some name, s := .ndntlv {}, suite := .ndntlv } }
    ∃ s, servePending (fun _ => ⟨List.replicate 32 0, rfl⟩) σ c = .ok s ∧ s.cnt ≠ 0 := by
  intro name σ c
  have h := @servePending_correct (fun _ => ⟨List.replicate 32 0, rfl⟩) σ c (by decide) (by decide)
  obtain ⟨s, hs⟩ := h.1 (by decide)
  refine ⟨s, hs, fun h0 => ?_⟩
  exact (h.2 s hs).2.2.mp h0 _ (List.mem_singleton_self _) (by decide)

end Spec

end Ccnl
