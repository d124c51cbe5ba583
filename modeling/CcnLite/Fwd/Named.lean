import CcnLite.Fwd.Content
import CcnLite.Pkt.Faults

/-!
# Packets without a name

The NDN-TLV parser returns a packet also when there is no Name in it (`ndntlvParse_named`), and the
handlers look at the name without a test for NULL. A run does not get over such a packet, or drops
it, so the tables only ever have packets with names (`system_ok`). A packet with a name is handled
without a NULL pointer followed and without an endless loop (`ndntlvHandle_noFault`).
`ndntlvForwarder_named` puts this together.
-/

namespace Ccnl

open CRun Tlv

/-! ## The parser -/

/-- The walk over the elements of the packet at the cursor comes past a Name. -/
def HasName (mem : List UInt8) (c : Cursor) : Prop :=
  ∃ typ len q p, Head mem (c.pos + c.len) c.pos typ len q ∧
    Visits (ndnHeader mem) (packetSpec mem) (c.pos + c.len) (q, false) (p, true)

/-- A Name that was seen stays. -/
theorem packetLoop_named {mem : List UInt8} {start : Nat} {s t : Cursor × NdnState}
    (h : Reached (topStep (ndntlvDehead mem) (ndnElem mem start)) s t) (hs : s.2.named = true) :
    t.2.named = true :=
  h.invariant (I := fun s => s.2.named = true) hs fun s t hs ha => by
    obtain ⟨typ, len, c, -, he, -, -⟩ := topStep_again.mp ha
    rw [ndnElem_named he, hs, Bool.true_or]

/-- The packet that the parser returns has a name exactly when there is a Name in it. -/
theorem ndntlvParse_named {mem : List UInt8} {c c' : Cursor} {pkt : Pkt}
    (h : ndntlvParse mem c = .ok (pkt, c')) : pkt.pfx ≠ none ↔ HasName mem c := by
  obtain ⟨typ, len, c₁, pkt', hx, -, hp, rfl⟩ := ndntlvParse_eq_ok.mp h
  obtain ⟨-, s, hl, -, buf, -, rfl⟩ := ndntlvBytes2pkt_eq_ok.mp hp
  obtain ⟨hh, hlim⟩ := dehead_eq_ok.mp hx
  obtain ⟨⟨c₄, s'⟩, hreach, hleave⟩ := loop_eq_ok hl
  obtain ⟨-, hss⟩ := topStep_leaves.mp hleave
  have hnamed : (s.pkt.rebase c.pos buf).pfx ≠ none ↔ s'.named = true := by
    rw [← hss, NdnState.named, Pkt.rebase]
    cases s.pkt.pfx <;> simp
  refine hnamed.trans ⟨fun hn => ?_, ?_⟩
  · refine ⟨typ, len, c₁.pos, c₄.pos, hh, ?_⟩
    have := (top_reaches (dehead_decodes mem) (ndnElem_takes mem c.pos)).mp ⟨_, hreach, rfl⟩
    rwa [hlim, hn] at this
  · rintro ⟨typ', len', q, p, hh', hv⟩
    obtain ⟨rfl, rfl, rfl⟩ := Head.unique hh hh'
    rw [← hlim] at hv
    obtain ⟨t, ht, htp⟩ := (top_reaches (dehead_decodes mem) (ndnElem_takes mem c.pos)
      (a := { pkt := ndnPkt typ c.pos })).mpr hv
    exact packetLoop_named (ht.before_leaving hreach hleave) (Prod.ext_iff.mp htp).2

/-! ## The handlers -/

section Handlers

variable {E : Env} {now : Nat} {σ : Relay} {f : FaceId} {pkt : Pkt}

@[simp] theorem deref_noFault {α : Type} {p : Option α} : Avoids NameFault (deref p) ↔ p ≠ none := by
  cases p <;> simp [deref, NameFault]

@[simp] theorem face_noFault : Avoids NameFault (σ.face f) := by
  unfold Relay.face
  split <;> simp

@[simp] theorem faceEnqueue_noFault {buf : List UInt8} : Avoids NameFault (faceEnqueue σ f buf) := by
  simp [faceEnqueue]

theorem deliver_noFault {x : Face} : Avoids NameFault (deliver σ x pkt) := by
  simp [deliver, sendPkt]

theorem isCached_noFault {p : Option Prefix} {contents : List Content} (hp : p ≠ none)
    (h : ∀ c ∈ contents, c.pkt.pfx ≠ none) : Avoids NameFault (isCached p contents) := by
  obtain ⟨p, rfl⟩ := Option.ne_none_iff_exists'.mp hp
  obtain ⟨b, hb, -⟩ := isCached_eq (p := p) h
  rw [hb]
  exact avoids_ok b

theorem contentAdd2cache_noFault {c : Content} (h : σ.Ok) (hc : c.pkt.pfx ≠ none) :
    Avoids NameFault (contentAdd2cache σ c) := by
  simp [contentAdd2cache, isCached_noFault hc h.contents]

theorem servePending_noFault {digest : List UInt8 → Digest} {c : Content} (h : σ.Ok)
    (hc : c.pkt.pfx ≠ none) : Avoids NameFault (servePending digest σ c) := by
  have hdef : ∀ i ∈ σ.pit, ∃ p b, i.pkt.pfx = some p ∧ pitMatch digest i.pkt p c = .ok b :=
    servePending_defined (fun i hi => (h.pit i hi).named) hc
  obtain ⟨s, -, hs, -⟩ := servePending_spec hdef fun i hi => (h.pit i hi).pending
  rw [hs]
  exact avoids_ok s

theorem handleContent_noFault (h : σ.Ok) (hp : pkt.pfx ≠ none) :
    Avoids NameFault (handleContent E now σ pkt) := by
  unfold handleContent
  rw [avoids_bind]
  refine ⟨isCached_noFault hp h.contents, fun b _ => ?_⟩
  rw [avoids_ite]
  refine ⟨fun _ => avoids_pure _, fun _ => ?_⟩
  rw [avoids_bind]
  refine ⟨servePending_noFault h hp, fun s hs => ?_⟩
  have hok := servePending_ok h hs
  obtain ⟨-, -, -, -, hpkt, -⟩ := servePending_relay h hs
  have hc : s.c.pkt.pfx ≠ none := by rw [hpkt]; exact hp
  simp [contentAdd2cache_noFault hok hc]

theorem mgmtOp_noFault {op : MgmtOp} (h : σ.Ok) : Avoids NameFault (op.run E now f σ) := by
  cases op <;> simp only [MgmtOp.run, avoids_pure, avoids_bind, faceEnqueue_noFault]
  case faceNew sa static reflect => split <;> simp
  case contentAdd p pkt =>
    refine ⟨servePending_noFault h (by simp [contentNew]), fun s hs => ?_⟩
    obtain ⟨-, -, -, -, hpkt, -⟩ := servePending_relay h hs
    exact contentAdd2cache_noFault (servePending_ok h hs) (by rw [hpkt]; simp [contentNew])

theorem mgmt_noFault (h : σ.Ok) : Avoids NameFault (mgmt E now σ pkt f) :=
  avoids_foldlM (I := Relay.Ok) h (fun _ _ _ _ h₁ ho => mgmtOp_ok h₁ ho) fun _ _ _ h₁ =>
    mgmtOp_noFault h₁

theorem interestPropagate_noFault {i : Interest} : Avoids NameFault (interestPropagate σ i) := by
  refine avoids_foldlM (I := fun _ => True) trivial (fun _ _ _ _ _ _ => trivial) fun τ fwd _ _ => ?_
  unfold propagateTo towardsOrigin
  split
  · cases i.from <;> cases fwd.tap <;> cases fwd.face <;> simp [sendPkt]
  · simp

theorem pitFind_noFault {pit : List Interest} (hp : pkt.pfx ≠ none)
    (h : ∀ i ∈ pit, i.pkt.pfx ≠ none) : Avoids NameFault (pitFind pkt pit) := by
  induction pit with
  | nil => simp [pitFind]
  | cons i pit ih =>
    obtain ⟨q, hq⟩ := Option.ne_none_iff_exists'.mp (h i (by simp))
    obtain ⟨p, hp'⟩ := Option.ne_none_iff_exists'.mp hp
    have hsame : Avoids NameFault (interestIsSame i pkt) := by
      rw [interestIsSame, hq, hp']
      cases hs : q.suite <;> simp [hs]
    simp [pitFind, hsame, ih fun j hj => h j (by simp [hj])]

theorem pitInsert_noFault (h : σ.Ok) (hp : pkt.pfx ≠ none) :
    Avoids NameFault (pitInsert now σ f pkt) := by
  unfold pitInsert
  rw [avoids_bind]
  refine ⟨pitFind_noFault hp fun i hi => (h.pit i hi).named, fun k _ => ?_⟩
  rw [avoids_ite]
  refine ⟨fun _ => avoids_pure _, fun _ => ?_⟩
  split
  · exact avoids_pure _
  · split <;> simp [interestPropagate_noFault]

theorem csFind_noFault {cMatch : Pkt → Content → Run Bool} {contents : List Content}
    (hp : pkt.pfx ≠ none) (h : ∀ c ∈ contents, c.pkt.pfx ≠ none)
    (hm : ∀ c, c.pkt.pfx ≠ none → Avoids NameFault (cMatch pkt c)) :
    Avoids NameFault (csFind cMatch pkt contents) := by
  induction contents with
  | nil => simp [csFind]
  | cons c cs ih =>
    have hc := h c (by simp)
    simp [csFind, hp, hc, hm c hc, ih fun d hd => h d (by simp [hd])]

theorem ndntlvCMatch_noFault {digest : List UInt8 → Digest} {c : Content} (hp : pkt.pfx ≠ none)
    (hc : c.pkt.pfx ≠ none) : Avoids NameFault (ndntlvCMatch digest pkt c) := by
  simp [ndntlvCMatch, iPrefixofC, hp, hc]

theorem isMgmt_noFault (hp : pkt.pfx ≠ none) : Avoids NameFault (isMgmt pkt) := by
  unfold isMgmt
  split
  · rw [avoids_bind]
    refine ⟨deref_noFault.mpr hp, fun p _ => ?_⟩
    split <;> simp [(rdBytes_noFault _ _).mono NameFault.parser]
  · rw [avoids_bind]
    refine ⟨deref_noFault.mpr hp, fun p _ => ?_⟩
    split <;> simp [(rdBytes_noFault _ _).mono NameFault.parser]
  · exact avoids_ok _

theorem handleInterest_noFault {cMatch : Pkt → Content → Run Bool} (h : σ.Ok) (hp : pkt.pfx ≠ none)
    (hm : ∀ c, c.pkt.pfx ≠ none → Avoids NameFault (cMatch pkt c)) :
    Avoids NameFault (handleInterest E now cMatch σ f pkt) := by
  unfold handleInterest
  rw [avoids_bind]
  refine ⟨face_noFault, fun x _ => ?_⟩
  split
  · exact avoids_pure _
  rename_i σ₁ hn
  have h₁ := nonceIsDup_ok h hn
  rw [avoids_bind]
  refine ⟨isMgmt_noFault hp, fun b _ => ?_⟩
  rw [avoids_ite]
  refine ⟨fun _ => by simp [mgmt_noFault h₁], fun _ => ?_⟩
  rw [avoids_bind]
  refine ⟨csFind_noFault hp h₁.contents hm, fun r _ => ?_⟩
  split
  · simp [deliver_noFault]
  · rw [avoids_bind]
    refine ⟨pitInsert_noFault h₁ hp, fun r _ => ?_⟩
    split <;> exact avoids_pure _

/-- A packet with a name is handled. -/
theorem ndntlvHandle_noFault (h : σ.Ok) (hp : pkt.type = ndnTlvInterest ∨ pkt.type = ndnTlvData →
    pkt.pfx ≠ none) : Avoids NameFault (ndntlvHandle E now f σ pkt) := by
  unfold ndntlvHandle
  split
  · rename_i ht
    exact handleInterest_noFault h (hp (.inl ht)) fun c => ndntlvCMatch_noFault (hp (.inl ht))
  · split
    · rename_i ht
      simp [handleContent_noFault h (hp (.inr ht))]
    · exact avoids_pure _

end Handlers

/-! ## The forwarder -/

/-- What is wanted of the NDN-TLV forwarder on the bytes at the cursor: the packets for the handlers
have names, and no pointer to a name that is NULL is followed, and no loop stands still over one. -/
structure NamesHandled (E : Env) (now : Nat) (f : FaceId) (σ : Relay) (mem : List UInt8)
    (c : Cursor) : Prop where
  named : ∀ pkt c', ndntlvParse mem c = .ok (pkt, c') →
    pkt.type = ndnTlvInterest ∨ pkt.type = ndnTlvData → pkt.pfx ≠ none
  runs : Avoids NameFault (ndntlvForwarder E now f σ mem c)

/-- In every reachable state the packets in the tables have names, whatever has been received. The
forwarder is right about the bytes at the cursor exactly when there is a Name in the Interest or the
Data that the parser makes of them. -/
theorem ndntlvForwarder_named {E : Env} {σ : Relay} (h : (system E).Reachable σ) :
    ((∀ i ∈ σ.pit, i.pkt.pfx ≠ none) ∧ ∀ x ∈ σ.contents, x.pkt.pfx ≠ none) ∧
    ∀ now f mem c, NamesHandled E now f σ mem c ↔
      ∀ pkt c', ndntlvParse mem c = .ok (pkt, c') →
        pkt.type = ndnTlvInterest ∨ pkt.type = ndnTlvData → HasName mem c := by
  have hok : σ.Ok := (system_ok E).reachable h
  refine ⟨⟨fun i hi => (hok.pit i hi).named, hok.contents⟩, fun now f mem c => ?_⟩
  constructor
  · intro hn pkt c' hp ht
    exact (ndntlvParse_named hp).mp (hn.named pkt c' hp ht)
  · intro hn
    have hnamed : ∀ pkt c', ndntlvParse mem c = .ok (pkt, c') →
        pkt.type = ndnTlvInterest ∨ pkt.type = ndnTlvData → pkt.pfx ≠ none :=
      fun pkt c' hp ht => (ndntlvParse_named hp).mpr (hn pkt c' hp ht)
    refine ⟨hnamed, ?_⟩
    unfold ndntlvForwarder
    rw [avoids_bind]
    refine ⟨((ndntlvParse_noFault mem c).mono NameFault.parser).attempt, fun x hx => ?_⟩
    match x with
    | none => exact avoids_pure _
    | some (pkt, c') =>
      have hh : Avoids NameFault (ndntlvHandle E now f σ pkt) :=
        ndntlvHandle_noFault hok (hnamed pkt c' (attempt_eq_some.mp hx))
      simp [hh]

/-- An Interest for `/a`. -/
theorem ndntlvForwarder_named_a :
    NamesHandled .still 0 1 .plain [5, 5, 7, 3, 8, 1, 97, 0] ⟨0, 7⟩ := by
  refine ((ndntlvForwarder_named (.start Relay.plain_start)).2 _ _ _ _).mpr fun pkt c' h _ =>
    (ndntlvParse_named h).mp fun hp => ?_
  have hsome : (ndntlvParse [5, 5, 7, 3, 8, 1, 97, 0] ⟨0, 7⟩).map (·.1.pfx.isSome) = .ok true := by
    decide
  rw [h] at hsome
  simp [Except.map, hp] at hsome

/-- The Interest of two bytes has no name. The relay that has just been started follows NULL. -/
theorem ndntlvForwarder_nameless :
    (system .still).Reachable .plain ∧ ¬ NamesHandled .still 0 1 .plain [5, 0, 0] ⟨0, 2⟩ ∧
      Relay.after [.udp 1 0 [5, 0]] = .error .null := by
  refine ⟨.start Relay.plain_start, fun h => ?_, by decide⟩
  have hparse : (ndntlvParse [5, 0, 0] ⟨0, 2⟩).map (fun r => (r.1.type, r.1.pfx)) =
      .ok (ndnTlvInterest, none) := by decide
  cases hr : ndntlvParse [5, 0, 0] ⟨0, 2⟩ with
  | error s => simp [hr, Except.map] at hparse
  | ok r =>
    simp only [hr, Except.map, Except.ok.injEq, Prod.mk.injEq] at hparse
    exact h.named r.1 r.2 hr (.inl hparse.1) hparse.2

end Ccnl
