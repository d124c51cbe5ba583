import CcnLite.Fwd.Named
import CcnLite.Fwd.Tables
import CcnLite.Rpc.Exec

/-!
# The handlers come to an end

The only loop of the handlers that may stand still is the one over the PIT in
`ccnl_content_serve_pending`, at an entry without a name. In a relay whose PIT entries have names
(`Relay.PitNamed`) the handlers end, whatever the packet is, and there are only such entries in the
PIT afterwards (`handlersKeep_pitNamed`).
-/

namespace Ccnl

open CRun Relation

/-- Every entry of the PIT has a name. -/
def Relay.PitNamed (σ : Relay) : Prop := ∀ i ∈ σ.pit, i.pkt.pfx ≠ none

/-! ## Names in the PIT -/

section Names

variable {E : Env} {now : Nat} {σ τ : Relay} {f : FaceId} {pkt : Pkt}

theorem Shrinks.pitNamed (h : Shrinks σ τ) (hn : σ.PitNamed) : τ.PitNamed := by
  intro j hj
  obtain ⟨i, hi, hji⟩ := thin_mem h.pit j hj
  rw [hji.pkt]
  exact hn i hi

theorem Edit.pitNamed {G : Prop} (h : Edit True G σ τ) (hn : σ.PitNamed) : τ.PitNamed := by
  cases h with
  | shrink h => exact h.pitNamed hn
  | interest _ _ hnew =>
    intro j hj
    rcases List.mem_cons.mp hj with rfl | hj
    · obtain ⟨p, hp, -⟩ := (hnew trivial).1
      simp [hp]
    · exact hn j hj
  | pending now k f =>
    intro j hj
    obtain ⟨i, hi, rfl | rfl⟩ := mem_modify hj
    · exact hn j hi
    · rw [appendPending_pkt]
      exact hn i hi
  | content => exact (evict_shrinks σ).pitNamed hn

theorem Edits.pitNamed {G : Prop} (h : Edits True G σ τ) (hn : σ.PitNamed) : τ.PitNamed := by
  induction h with
  | refl => exact hn
  | tail _ he ih => exact he.pitNamed ih

theorem interestNew_pitNamed {g : Option FaceId} {i : Interest} (hn : σ.PitNamed)
    (hp : pkt.pfx ≠ none) (h : interestNew now σ g pkt = some (τ, i)) :
    τ.PitNamed ∧ τ.pit = i :: σ.pit ∧ i.pkt.pfx ≠ none := by
  obtain ⟨-, rfl, rfl⟩ := interestNew_some h
  refine ⟨fun j hj => ?_, rfl, hp⟩
  rcases List.mem_cons.mp hj with rfl | hj
  · exact hp
  · exact hn j hj

theorem mgmtOp_pitNamed {op : MgmtOp} (hn : σ.PitNamed) (h : op.run E now f σ = .ok τ) :
    τ.PitNamed := by
  by_cases hnew : ∃ p pkt, op = .interestNew p pkt
  · obtain ⟨p, pkt, rfl⟩ := hnew
    cases h
    cases hi : interestNew now σ (some f) { pkt with pfx := some p } with
    | none => exact hn
    | some r => exact (interestNew_pitNamed hn (by simp) hi).1
  · have hscans : op.Scans σ := by
      cases op with
      | interestNew p pkt => exact absurd ⟨p, pkt, rfl⟩ hnew
      | _ => trivial
    exact (mgmtOp_edits (F := True) (G := False) (fun _ => hscans) nofun h).pitNamed hn

theorem pitInsert_pitNamed (hn : σ.PitNamed) (hp : pkt.pfx ≠ none)
    (h : pitInsert now σ f pkt = .ok (some τ)) : τ.PitNamed := by
  cases pitInsert_inserted h with
  | pending => exact Edit.pitNamed (G := True) (.pending now _ f) hn
  | full => exact hn
  | new _ _ hnew h₂ =>
    obtain ⟨hn₁, hpit, hi⟩ := interestNew_pitNamed hn hp hnew
    refine (Shrinks.of_tables (interestPropagate_tables h₂)).pitNamed fun j hj => ?_
    rcases List.mem_cons.mp hj with rfl | hj
    · rwa [appendPending_pkt]
    · exact hn₁ j (List.mem_of_mem_tail hj)

theorem handleInterest_pitNamed {cMatch : Pkt → Content → Run Bool} {b : Bool} (hn : σ.PitNamed)
    (hp : pkt.suite = .ccnb ∨ pkt.suite = .ndntlv ∨ pkt.pfx ≠ none)
    (h : handleInterest E now cMatch σ f pkt = .ok (τ, b)) : τ.PitNamed := by
  have hnamed : ∀ m, isMgmt pkt = .ok m → pkt.pfx ≠ none := fun m hm => by
    rcases hp with hp | hp | hp
    · exact isMgmt_named (.inl hp) hm
    · exact isMgmt_named (.inr hp) hm
    · exact hp
  have hnonce : ∀ σ₁, nonceIsDup σ pkt = some σ₁ → σ₁.PitNamed := fun σ₁ h =>
    (Shrinks.of_tables (nonceIsDup_tables h)).pitNamed hn
  cases handleInterest_handled h with
  | dup => exact hn
  | mgmt _ hσ _ h₂ =>
    exact foldlM_inv (I := Relay.PitNamed) (fun _ _ _ hn ho => mgmtOp_pitNamed hn ho) (hnonce _ hσ) h₂
  | hit _ hσ _ _ h₂ => exact (Shrinks.of_tables (deliver_tables h₂)).pitNamed (hnonce _ hσ)
  | drop _ hσ => exact hnonce _ hσ
  | insert _ hσ hm _ hr => exact pitInsert_pitNamed (hnonce _ hσ) (hnamed _ hm) hr

theorem handlersKeep_pitNamed (E : Env) (now : Nat) (f : FaceId) :
    HandlersKeep E now f Relay.PitNamed where
  interest := handleInterest_pitNamed
  content hn h := (handleContent_edits (F := True) (G := False) nofun h).pitNamed hn
  contentRemove hn hk := (contentRemove_shrinks hk).pitNamed hn
  enqueue hn h := (Shrinks.of_tables (faceEnqueue_tables h)).pitNamed hn

end Names

/-! ## The handlers -/

section Handlers

variable {E : Env} {now : Nat} {σ τ : Relay} {f : FaceId} {pkt : Pkt}

@[simp] theorem deref_ends {α : Type} (p : Option α) : Avoids Endless (deref p) := by
  cases p <;> simp [deref]

@[simp] theorem face_ends (σ : Relay) (f : FaceId) : Avoids Endless (σ.face f) := by
  unfold Relay.face
  split <;> simp

@[simp] theorem faceEnqueue_ends (σ : Relay) (f : FaceId) (buf : List UInt8) :
    Avoids Endless (faceEnqueue σ f buf) := by
  simp [faceEnqueue]

@[simp] theorem deliver_ends (σ : Relay) (x : Face) (pkt : Pkt) :
    Avoids Endless (deliver σ x pkt) := by
  simp [deliver, sendPkt]

@[simp] theorem isCached_ends (p : Option Prefix) (cs : List Content) :
    Avoids Endless (isCached p cs) := by
  induction cs with
  | nil => simp [isCached]
  | cons c cs ih => simp [isCached, ih]

@[simp] theorem contentAdd2cache_ends (σ : Relay) (c : Content) :
    Avoids Endless (contentAdd2cache σ c) := by
  simp [contentAdd2cache]

@[simp] theorem iPrefixofC_ends (digest : List UInt8 → Digest) (p : Prefix) (lo hi : Nat)
    (c : Content) : Avoids Endless (iPrefixofC digest p lo hi c) := by
  simp [iPrefixofC]

theorem pitMatch_ends (digest : List UInt8 → Digest) (pkt : Pkt) (p : Prefix) (c : Content) :
    Avoids Endless (pitMatch digest pkt p c) := by
  unfold pitMatch
  split <;> simp

theorem serveEntry_ends (s : Serving) (i : Interest) : Avoids Endless (serveEntry s i) := by
  unfold serveEntry
  split
  · simp
  · exact avoids_foldlM (I := fun _ => True) trivial (fun _ _ _ _ _ _ => trivial) fun s pi _ _ => by
      simp [serveFace]

/-- The walk over the PIT stands still at an entry without a name only. -/
theorem serveFrom_ends (digest : List UInt8 → Digest) {pit : List Interest} (s : Serving)
    (hn : ∀ i ∈ pit, i.pkt.pfx ≠ none) : Avoids Endless (serveFrom digest pit s) := by
  induction pit generalizing s with
  | nil => simp [serveFrom]
  | cons i pit ih =>
    obtain ⟨p, hp⟩ := Option.ne_none_iff_exists'.mp (hn i List.mem_cons_self)
    have hrest : ∀ s, Avoids Endless (serveFrom digest pit s) :=
      fun s => ih s fun j hj => hn j (List.mem_cons_of_mem _ hj)
    rw [serveFrom, hp]
    simp [pitMatch_ends, serveEntry_ends, hrest]

theorem servePending_ends (digest : List UInt8 → Digest) (c : Content) (hn : σ.PitNamed) :
    Avoids Endless (servePending digest σ c) := by
  simp [servePending, serveFrom_ends digest _ hn]

theorem handleContent_ends (hn : σ.PitNamed) : Avoids Endless (handleContent E now σ pkt) := by
  simp [handleContent, servePending_ends _ _ hn]

theorem mgmtOp_ends {op : MgmtOp} (hn : σ.PitNamed) : Avoids Endless (op.run E now f σ) := by
  cases op <;> simp only [MgmtOp.run, avoids_pure, avoids_bind, faceEnqueue_ends,
    contentAdd2cache_ends, servePending_ends _ _ hn, implies_true, and_self]
  case faceNew sa static reflect => split <;> simp

theorem pitFind_ends (pkt : Pkt) (pit : List Interest) : Avoids Endless (pitFind pkt pit) := by
  induction pit with
  | nil => simp [pitFind]
  | cons i pit ih =>
    have hsame : Avoids Endless (interestIsSame i pkt) := by
      simp only [interestIsSame, avoids_bind, deref_ends, avoids_ite, avoids_pure, implies_true,
        true_and]
      intro q _ _ p _ _
      split <;> simp
    simp [pitFind, hsame, ih]

theorem interestPropagate_ends (σ : Relay) (i : Interest) :
    Avoids Endless (interestPropagate σ i) := by
  refine avoids_foldlM (I := fun _ => True) trivial (fun _ _ _ _ _ _ => trivial) fun τ fwd _ _ => ?_
  unfold propagateTo towardsOrigin
  split
  · cases i.from <;> cases fwd.tap <;> cases fwd.face <;> simp [sendPkt]
  · simp

theorem pitInsert_ends : Avoids Endless (pitInsert now σ f pkt) := by
  unfold pitInsert
  simp only [avoids_bind, pitFind_ends, true_and, avoids_ite, avoids_pure, implies_true]
  intro k _ _
  split
  · exact avoids_pure _
  · split <;> simp [interestPropagate_ends]

theorem csFind_ends {cMatch : Pkt → Content → Run Bool} (hm : ∀ c, Avoids Endless (cMatch pkt c))
    (cs : List Content) : Avoids Endless (csFind cMatch pkt cs) := by
  induction cs with
  | nil => simp [csFind]
  | cons c cs ih => simp [csFind, hm, ih]

theorem isMgmt_ends (pkt : Pkt) : Avoids Endless (isMgmt pkt) := by
  unfold isMgmt
  split
  · simp only [avoids_bind, deref_ends, true_and]
    intro p _
    split <;> simp [(rdBytes_noFault _ _).mono Endless.parser]
  · simp only [avoids_bind, deref_ends, true_and]
    intro p _
    split <;> simp [(rdBytes_noFault _ _).mono Endless.parser]
  · exact avoids_ok _

theorem handleInterest_ends {cMatch : Pkt → Content → Run Bool} (hn : σ.PitNamed)
    (hm : ∀ c, Avoids Endless (cMatch pkt c)) :
    Avoids Endless (handleInterest E now cMatch σ f pkt) := by
  unfold handleInterest
  simp only [avoids_bind, face_ends, true_and]
  intro x _
  split
  · exact avoids_pure _
  rename_i σ₁ hnonce
  have hn₁ := (Shrinks.of_tables (nonceIsDup_tables hnonce)).pitNamed hn
  simp only [avoids_bind, isMgmt_ends, true_and, avoids_ite, avoids_pure, implies_true, and_true]
  refine fun b _ => ⟨fun _ => ?_, fun _ => ⟨csFind_ends hm _, fun r _ => ?_⟩⟩
  · exact avoids_foldlM (I := Relay.PitNamed) hn₁ (fun _ _ _ _ hn ho => mgmtOp_pitNamed hn ho)
      fun _ _ _ hn => mgmtOp_ends hn
  · split
    · simp
    · simp only [avoids_bind, pitInsert_ends, true_and]
      intro r _
      split <;> exact avoids_pure _

end Handlers

end Ccnl
