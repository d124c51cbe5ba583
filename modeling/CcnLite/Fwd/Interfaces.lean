import CcnLite.Fwd.Calls

/-!
# The interface table

`ccnl_face_enqueue` leads to `ccnl_face_CTS` and `ccnl_interface_enqueue` with the interface
`ccnl->ifs + f->ifndx`, without a look at the index, which is -1 for a local client. Content is
served to faces with an interface only (`deliver`). The other senders take the face as it is: the
Interests go to whatever the FIB has, and the replies of management and RPC to the face that asked.

`Act` is one call into the core that sends or changes faces; a frame is some of them
(`coreRX_acts`). `Act.Wired` is what an act needs: a FIB entry is for a face with an interface, and
so is a reply. In a run of such acts everything goes to faces with an interface
(`sends_in_range`).
-/

namespace Ccnl

open CRun

/-- The face points into the interface table. -/
def Relay.InTable (σ : Relay) (f : FaceId) : Prop :=
  ∃ x, σ.face f = .ok x ∧ 0 ≤ x.ifndx ∧ x.ifndx < σ.ifs.length

/-- Each face that something has been enqueued to, from `σ` to `τ`, points into the table. -/
def InRange (σ τ : Relay) : Prop :=
  ∃ new, τ.out = σ.out ++ new ∧ ∀ f buf, .send f buf ∈ new → σ.InTable f

/-! ## Acts -/

/-- One call. -/
inductive Act where
  | call (c : Call)
  /-- `ccnl_nonce_isDup`. -/
  | nonce (pkt : Pkt)
  /-- One operation of a management command from the face `from`. -/
  | mgmt (now : Nat) («from» : FaceId) (op : MgmtOp)

def Act.run (E : Env) : Act → Relay → Run Relay
  | call c, σ => c.run E σ
  | nonce pkt, σ => return (nonceIsDup σ pkt).getD σ
  | mgmt now f op, σ => op.run E now f σ

/-- No face has been made. -/
def acts (E : Env) : Sys Relay Act where
  Start := Relay.Faceless
  step := Act.run E

/-- The calls that can come: a packet is from an interface of the relay or from a local client, and
a management Interest is the operations that it leads to. -/
def Act.Given (σ : Relay) : Act → Prop
  | call (.table (.face _ ifndx sa)) => sa = none ∨ -1 ≤ ifndx ∧ ifndx < σ.ifs.length
  | call (.table (.interest _ _ _ pkt)) => isMgmt pkt ≠ .ok true
  | _ => True

/-- A face with an interface, if there is such a face. -/
def Relay.Outward (σ : Relay) (f : FaceId) : Prop := ∀ x, σ.face f = .ok x → 0 ≤ x.ifndx

/-- A FIB entry is for a face with an interface, and a reply goes to one. -/
def Act.Wired (σ : Relay) : Act → Prop
  | call (.fibAdd _ f) => ∀ g ∈ f, σ.Remote g
  | call (.enqueue f _) => σ.Outward f
  | mgmt _ _ (.fibAdd _ g) => σ.Outward g
  | mgmt _ f (.enqueue _) => σ.Outward f
  | _ => True

/-! ## What stays -/

/-- The faces with their interfaces, the last identity that was given, the FIB and the table. -/
def Relay.wiring (σ : Relay) : List (FaceId × Int) × Nat × List Forward × List Iface :=
  (σ.faces.map fun x => (x.faceid, x.ifndx), σ.seqno, σ.fib, σ.ifs)

/-- The invariant: a face is a local client or points into the table, and the FIB leads to faces
that point into the table. -/
structure Relay.Wired (σ : Relay) : Prop where
  ports : ∀ x ∈ σ.faces, x.ifndx = -1 ∨ 0 ≤ x.ifndx ∧ x.ifndx < σ.ifs.length
  ids : ∀ x ∈ σ.faces, x.faceid ≤ σ.seqno
  fib : ∀ fwd ∈ σ.fib, ∀ f ∈ fwd.face, σ.Remote f

section Wiring

variable {σ τ υ : Relay} {f : FaceId}

/-- The interface of a face can be read off the wiring. -/
theorem remote_iff :
    σ.Remote f ↔ ∃ w, (σ.wiring.1.find? fun w => w.1 == f) = some w ∧ 0 ≤ w.2 := by
  show _ ↔ ∃ w, ((σ.faces.map fun x => (x.faceid, x.ifndx)).find? fun w => w.1 == f) = some w ∧ _
  simp only [Relay.Remote, Relay.face_eq_ok, List.find?_map, Option.map_eq_some_iff]
  constructor
  · rintro ⟨x, hx, hi⟩
    exact ⟨_, ⟨x, hx, rfl⟩, hi⟩
  · rintro ⟨_, ⟨x, hx, rfl⟩, hi⟩
    exact ⟨x, hx, hi⟩

theorem remote_of_wiring (h : τ.wiring = σ.wiring) : τ.Remote f ↔ σ.Remote f := by
  rw [remote_iff, remote_iff, h]

theorem Relay.Wired.of_wiring (hσ : σ.Wired) (h : τ.wiring = σ.wiring) : τ.Wired := by
  have hremote := fun f => remote_of_wiring (f := f) h
  simp only [Relay.wiring, Prod.mk.injEq] at h
  obtain ⟨hfaces, hseq, hfib, hifs⟩ := h
  have hface : ∀ x ∈ τ.faces, ∃ y ∈ σ.faces, y.faceid = x.faceid ∧ y.ifndx = x.ifndx := by
    intro x hx
    have hmem : (x.faceid, x.ifndx) ∈ σ.faces.map fun x => (x.faceid, x.ifndx) :=
      hfaces ▸ List.mem_map_of_mem hx
    obtain ⟨y, hy, hyx⟩ := List.mem_map.mp hmem
    exact ⟨y, hy, (Prod.mk.inj hyx).1, (Prod.mk.inj hyx).2⟩
  refine ⟨fun x hx => ?_, fun x hx => ?_, fun fwd hfwd f hf => ?_⟩
  · obtain ⟨y, hy, -, hyx⟩ := hface x hx
    rw [hifs, ← hyx]
    exact hσ.ports y hy
  · obtain ⟨y, hy, hyx, -⟩ := hface x hx
    rw [hseq, ← hyx]
    exact hσ.ids y hy
  · exact (hremote f).mpr (hσ.fib fwd (hfib ▸ hfwd) f hf)

/-- A face with an interface points into the table. -/
theorem Relay.Wired.inTable (h : σ.Wired) (hf : σ.Remote f) : σ.InTable f := by
  obtain ⟨x, hx, hi⟩ := hf
  rcases h.ports x (List.mem_of_find?_eq_some (Relay.face_eq_ok.mp hx)) with hlocal | hport
  · omega
  · exact ⟨x, hx, hport⟩

theorem Relay.Outward.remote (hf : σ.Outward f) {x : Face} (hx : σ.face f = .ok x) : σ.Remote f :=
  ⟨x, hx, hf x hx⟩

/-- From `σ` to `τ` the wiring stays, and everything goes to faces with an interface. -/
structure Sends (σ τ : Relay) : Prop where
  wiring : τ.wiring = σ.wiring
  out : ∃ new, τ.out = σ.out ++ new ∧ ∀ f buf, .send f buf ∈ new → σ.Remote f

theorem Sends.quiet (hw : τ.wiring = σ.wiring) (ho : τ.out = σ.out) : Sends σ τ :=
  ⟨hw, [], by simp [ho], by simp⟩

theorem Sends.refl (σ : Relay) : Sends σ σ := .quiet rfl rfl

theorem Sends.trans (h : Sends σ τ) (h' : Sends τ υ) : Sends σ υ := by
  obtain ⟨new, hout, hnew⟩ := h.out
  obtain ⟨new', hout', hnew'⟩ := h'.out
  refine ⟨h'.wiring.trans h.wiring, new ++ new', by rw [hout', hout, List.append_assoc], ?_⟩
  intro f buf hmem
  rcases List.mem_append.mp hmem with hmem | hmem
  · exact hnew f buf hmem
  · exact (remote_of_wiring h.wiring).mp (hnew' f buf hmem)

theorem Sends.inRange (h : Sends σ τ) (hσ : σ.Wired) : InRange σ τ := by
  obtain ⟨new, hout, hnew⟩ := h.out
  exact ⟨new, hout, fun f buf hmem => hσ.inTable (hnew f buf hmem)⟩

end Wiring

/-! ## What each function sends -/

section Sends

variable {E : Env} {now : Nat} {σ τ : Relay} {f : FaceId} {pkt : Pkt}

theorem setFace_wiring {g : Face → Face}
    (hg : ∀ x, (g x).faceid = x.faceid ∧ (g x).ifndx = x.ifndx) :
    (σ.setFace f g).wiring = σ.wiring := by
  simp only [Relay.wiring, Relay.setFace, List.map_map, Prod.mk.injEq, and_true]
  refine List.map_congr_left fun x _ => ?_
  by_cases hx : x.faceid = f <;> simp [hx, hg]

theorem faceEnqueue_sends {buf : List UInt8} (hf : σ.Outward f)
    (h : faceEnqueue σ f buf = .ok τ) : Sends σ τ := by
  obtain ⟨x, hx, -⟩ := (bind_eq_ok _ _ _).mp h
  rw [faceEnqueue_eq h]
  refine ⟨rfl, [.send f buf], rfl, fun g b hmem => ?_⟩
  obtain ⟨rfl, -⟩ := Out.send.inj (List.mem_singleton.mp hmem)
  exact hf.remote hx

/-- The senders of content look at the interface. -/
theorem deliver_sends {x : Face} (hx : σ.face x.faceid = .ok x) (h : deliver σ x pkt = .ok τ) :
    Sends σ τ := by
  unfold deliver at h
  split at h
  · refine faceEnqueue_sends (fun y hy => ?_) h
    rw [hx] at hy
    cases hy
    assumption
  · cases h
    exact .refl σ

theorem serveFace_sends {s s' : Serving} (h : serveFace s f = .ok s') :
    Sends s.relay s'.relay := by
  obtain ⟨x, hx, h⟩ := (bind_eq_ok _ _ _).mp h
  split at h
  · cases h
    exact .refl _
  · obtain ⟨σ', hd, h⟩ := (bind_eq_ok _ _ _).mp h
    cases h
    have hset : (s.relay.setFace f fun x => { x with served := true }).wiring = s.relay.wiring :=
      setFace_wiring fun _ => ⟨rfl, rfl⟩
    refine (Sends.quiet hset rfl).trans ?_
    unfold deliver at hd
    split at hd
    · rename_i hi
      refine faceEnqueue_sends (fun y hy => ?_) hd
      have hremote : s.relay.Remote x.faceid := by
        rw [Relay.faceid_of_face hx]
        exact ⟨x, hx, hi⟩
      obtain ⟨z, hz, hz0⟩ := (remote_of_wiring hset).mpr hremote
      rw [hz] at hy
      cases hy
      exact hz0
    · cases hd
      exact .refl _

theorem serveEntry_sends {s s' : Serving} {i : Interest} (h : serveEntry s i = .ok s') :
    Sends s.relay s'.relay :=
  serveEntry_inv (I := fun t : Serving => Sends s.relay t.relay)
    (fun _ _ _ h₁ h₂ => h₁.trans (serveFace_sends h₂)) (fun _ _ _ h₁ _ => h₁) (.refl _) h

theorem serveFrom_sends {digest : List UInt8 → Digest} {pit kept : List Interest} {s s' : Serving}
    (h : serveFrom digest pit s = .ok (kept, s')) : Sends s.relay s'.relay := by
  refine serveFrom_inv (I := fun t : Serving => Sends s.relay t.relay) ?_ (.refl _) h
  intro s₁ i s₂ h₁ h₂
  have hcount : Sends s₂.relay { s₂.relay with pitcnt := s₂.relay.pitcnt - 1 } := .quiet rfl rfl
  exact (h₁.trans (serveEntry_sends h₂)).trans hcount

theorem servePending_sends {digest : List UInt8 → Digest} {c : Content} {s : Serving}
    (h : servePending digest σ c = .ok s) : Sends σ s.relay := by
  obtain ⟨⟨kept, s₁⟩, h₁, h⟩ := (bind_eq_ok _ _ _).mp h
  cases h
  have hclear : Sends σ { σ with faces := σ.faces.map fun x => { x with served := false } } :=
    .quiet (by simp [Relay.wiring, Function.comp_def]) rfl
  refine hclear.trans ((serveFrom_sends h₁).trans ?_)
  exact .quiet rfl rfl

theorem contentAdd2cache_sends {c : Content} (h : contentAdd2cache σ c = .ok τ) : Sends σ τ := by
  have hevict : Sends σ (evict σ) := by
    unfold evict
    split
    · split <;> exact .quiet rfl rfl
    · exact .refl σ
  obtain ⟨b, -, h⟩ := (bind_eq_ok _ _ _).mp h
  split at h
  · cases h
    exact .refl σ
  · simp only at h
    split at h <;> cases h
    · exact hevict.trans (.quiet rfl rfl)
    · exact hevict

theorem add2cache_sends {c : Content} {b : Bool} (h : add2cache σ c = .ok (τ, b)) : Sends σ τ := by
  obtain ⟨known, -, h⟩ := (bind_eq_ok _ _ _).mp h
  obtain ⟨σ₁, h₁, h⟩ := (bind_eq_ok _ _ _).mp h
  cases h
  exact contentAdd2cache_sends h₁

theorem csAdd_sends {c : Content} {b : Bool} (h : csAdd E.digest σ c = .ok (τ, b)) :
    Sends σ τ := by
  obtain ⟨⟨σ₁, r⟩, h₁, h⟩ := (bind_eq_ok _ _ _).mp h
  refine (add2cache_sends h₁).trans ?_
  cases r with
  | false =>
    cases h
    exact .refl _
  | true =>
    obtain ⟨s, hs, h⟩ := (bind_eq_ok _ _ _).mp h
    refine (servePending_sends hs).trans ?_
    split at h <;> cases h
    · exact .quiet rfl rfl
    · exact .refl _

theorem handleContent_sends (h : handleContent E now σ pkt = .ok τ) : Sends σ τ := by
  cases handleContent_handled h with
  | dup => exact .refl σ
  | unsolicited _ hs | served _ hs => exact servePending_sends hs
  | cached _ hs _ hc => exact (servePending_sends hs).trans (contentAdd2cache_sends hc)

/-- An Interest goes to the faces of the FIB. -/
theorem propagated_remote (hσ : σ.Wired) {i : Interest} {buf : List UInt8}
    (h : .send f buf ∈ propagated σ i) : σ.Remote f := by
  obtain ⟨fwd, hfwd, hmem⟩ := List.mem_flatMap.mp h
  have hface : fwd.face = some f := by
    rcases List.mem_append.mp hmem with hmem | hmem
    · cases ht : fwd.tap <;> simp [ht] at hmem
    · cases hf : fwd.face <;> simp [hf] at hmem
      rw [hmem.1]
  exact hσ.fib fwd (List.mem_filter.mp hfwd).1 f hface

theorem interestPropagate_sends (hσ : σ.Wired) {i : Interest}
    (h : interestPropagate σ i = .ok τ) : Sends σ τ := by
  rw [interestPropagate_eq h]
  exact ⟨rfl, _, rfl, fun f buf hmem => propagated_remote hσ hmem⟩

theorem nonceIsDup_sends (h : nonceIsDup σ pkt = some τ) : Sends σ τ := by
  obtain ⟨ns, rfl⟩ := nonceIsDup_eq h
  exact .quiet rfl rfl

theorem interestNew_sends {g : Option FaceId} {i : Interest}
    (h : interestNew now σ g pkt = some (τ, i)) : Sends σ τ := by
  obtain ⟨-, rfl, rfl⟩ := interestNew_some h
  exact .quiet rfl rfl

theorem pitInsert_sends (hσ : σ.Wired) {r : Option Relay}
    (h : pitInsert now σ f pkt = .ok r) : Sends σ (r.getD σ) := by
  cases pitInsert_inserted h with
  | drop | full => exact .refl σ
  | pending => exact .quiet rfl rfl
  | @new σ₁ _ i _ _ hn h₂ =>
    have hnew : Sends σ { σ₁ with pit := interestAppendPending now i f :: σ₁.pit.tail } :=
      (interestNew_sends hn).trans (.quiet rfl rfl)
    exact hnew.trans (interestPropagate_sends (hσ.of_wiring hnew.wiring) h₂)

/-- An Interest that is not a management Interest. -/
theorem handleInterest_sends {cMatch : Pkt → Content → Run Bool} {b : Bool} (hσ : σ.Wired)
    (hm : isMgmt pkt ≠ .ok true) (h : handleInterest E now cMatch σ f pkt = .ok (τ, b)) :
    Sends σ τ := by
  cases handleInterest_handled h with
  | dup => exact .refl σ
  | mgmt _ _ htrue => exact absurd htrue hm
  | hit hx hn _ _ h₂ =>
    obtain ⟨ns, rfl⟩ := nonceIsDup_eq hn
    refine (nonceIsDup_sends hn).trans (deliver_sends ?_ h₂)
    rw [Relay.faceid_of_face hx]
    exact hx
  | drop _ hn => exact nonceIsDup_sends hn
  | insert _ hn _ _ hr =>
    have hnonce := nonceIsDup_sends hn
    exact hnonce.trans (pitInsert_sends (hσ.of_wiring hnonce.wiring) hr)

end Sends

/-! ## Faces and FIB entries that come and go -/

section Changes

variable {E : Env} {now : Nat} {σ τ : Relay} {f g : FaceId} {pkt : Pkt}

theorem faceRemove_face (hf : f ≠ g) : (faceRemove σ g).face f = σ.face f := by
  have hpred : (fun x : Face => decide ((x.faceid != g) = true ∧ (x.faceid == f) = true)) =
      fun x => x.faceid == f := by
    funext x
    by_cases hx : x.faceid = f <;> simp [hx, hf]
  have hfind : (faceRemove σ g).faces.find? (·.faceid == f) = σ.faces.find? (·.faceid == f) := by
    show (σ.faces.filter (·.faceid != g)).find? _ = _
    rw [List.find?_filter, hpred]
  unfold Relay.face
  rw [hfind]

theorem faceRemove_wired (h : σ.Wired) (g : FaceId) : (faceRemove σ g).Wired where
  ports x hx := h.ports x (List.mem_filter.mp hx).1
  ids x hx := h.ids x (List.mem_filter.mp hx).1
  fib fwd hfwd f hf := by
    obtain ⟨hmem, hne⟩ := List.mem_filter.mp hfwd
    have hfg : f ≠ g := by
      rintro rfl
      simp [Option.mem_def.mp hf] at hne
    unfold Relay.Remote
    rw [faceRemove_face hfg]
    exact h.fib fwd hmem f hf

theorem faceRemoves_wired (fs : List Face) (h : σ.Wired) : (faceRemoves fs σ).Wired := by
  induction fs generalizing σ with
  | nil => exact h
  | cons x fs ih => exact ih (faceRemove_wired h x.faceid)

/-- A new face: a local client, or a face at an interface of the table. -/
theorem faceNew_wired (h : σ.Wired) {i : Int} {sa : Option SockAddr}
    (hi : sa = none ∨ 0 ≤ i ∧ i < σ.ifs.length) : (faceNew now σ i sa).1.Wired where
  ports x hx := by
    rcases List.mem_cons.mp hx with rfl | hx
    · rcases hi with rfl | hi
      · exact .inl rfl
      · cases sa with
        | none => exact .inl rfl
        | some a => exact .inr hi
    · exact h.ports x hx
  ids x hx := by
    rcases List.mem_cons.mp hx with rfl | hx
    · exact Nat.le_refl _
    · exact Nat.le_succ_of_le (h.ids x hx)
  fib fwd hfwd f hf := by
    obtain ⟨x, hx, hx0⟩ := h.fib fwd hfwd f hf
    have hfind := Relay.face_eq_ok.mp hx
    have hle : f ≤ σ.seqno :=
      Relay.faceid_of_face hx ▸ h.ids x (List.mem_of_find?_eq_some hfind)
    refine ⟨x, Relay.face_eq_ok.mpr ?_, hx0⟩
    show List.find? _ (_ :: σ.faces) = some x
    have hne : ¬ σ.seqno + 1 = f := by
      rintro rfl
      exact Nat.not_succ_le_self σ.seqno hle
    rw [List.find?_cons_of_neg (by simpa using hne), hfind]

theorem getFaceOrCreate_wired (h : σ.Wired) {i : Int} {sa : Option SockAddr}
    (hi : sa = none ∨ -1 ≤ i ∧ i < σ.ifs.length) : (getFaceOrCreate now σ i sa).1.Wired := by
  rcases getFaceOrCreate_relay now σ i sa with heq | ⟨f, heq⟩ | ⟨j, hj, heq⟩ <;> rw [heq]
  · exact h
  · exact h.of_wiring (setFace_wiring fun _ => ⟨rfl, rfl⟩)
  · refine faceNew_wired h ?_
    rcases hj with ⟨hsa, rfl⟩ | ⟨k, rfl, hlt⟩
    · rcases hi with hi | hi
      · exact .inl hi
      · exact hsa.imp id fun hne => ⟨by omega, hi.2⟩
    · exact .inr ⟨by omega, by omega⟩

theorem getFaceOrCreate_out (i : Int) (sa : Option SockAddr) :
    (getFaceOrCreate now σ i sa).1.out = σ.out := by
  rcases getFaceOrCreate_relay now σ i sa with heq | ⟨f, heq⟩ | ⟨j, -, heq⟩ <;> rw [heq] <;> rfl

theorem Relay.Wired.with_fib (h : σ.Wired) {fib : List Forward}
    (hfib : ∀ fwd ∈ fib, ∀ f ∈ fwd.face, σ.Remote f) : Relay.Wired { σ with fib := fib } :=
  ⟨h.ports, h.ids, hfib⟩

theorem fibAddEntry_wired (h : σ.Wired) (p : Prefix) {f : Option FaceId}
    (hf : ∀ g ∈ f, σ.Remote g) : (fibAddEntry σ p f).Wired := by
  unfold fibAddEntry
  split
  · refine h.with_fib fun fwd hfwd => ?_
    obtain ⟨old, hold, rfl | rfl⟩ := mem_modify hfwd
    · exact h.fib _ hold
    · exact hf
  · refine h.with_fib fun fwd hfwd => ?_
    rcases List.mem_append.mp hfwd with hfwd | hfwd
    · exact h.fib fwd hfwd
    · rw [List.mem_singleton.mp hfwd]
      exact hf

theorem fibRemEntry_wired (h : σ.Wired) (p : Option Prefix) (f : Option FaceId) :
    (fibRemEntry σ p f).Wired := by
  unfold fibRemEntry
  split
  · exact h.with_fib fun fwd hfwd => h.fib fwd (List.mem_of_mem_eraseIdx hfwd)
  · exact h

theorem doAgeing_wired (h : σ.Wired) (ha : doAgeing now σ = .ok τ) :
    τ.Wired ∧ InRange σ τ := by
  rw [doAgeing_eq ha]
  refine ⟨faceRemoves_wired _ (h.of_wiring rfl), ?_⟩
  refine ⟨(resends (u32 now) σ.pit).flatMap (propagated σ), faceRemoves_out _ _, ?_⟩
  intro f buf hmem
  obtain ⟨i, -, hmem⟩ := List.mem_flatMap.mp hmem
  exact h.inTable (propagated_remote h hmem)

/-- Nothing is enqueued. -/
theorem InRange.silent (h : τ.out = σ.out) : InRange σ τ := ⟨[], by simp [h], by simp⟩

theorem Sends.step (h : Sends σ τ) (hσ : σ.Wired) : τ.Wired ∧ InRange σ τ :=
  ⟨hσ.of_wiring h.wiring, h.inRange hσ⟩

theorem mgmtOp_wired {op : MgmtOp} (h : σ.Wired) (hop : Act.Wired σ (.mgmt now f op))
    (ho : op.run E now f σ = .ok τ) : τ.Wired ∧ InRange σ τ := by
  cases op <;> simp only [MgmtOp.run] at ho
  case faceNew sa static reflect =>
    have hlen : (-1 : Int) < σ.ifs.length := by omega
    have hw : (getFaceOrCreate now σ (-1) (some sa)).1.Wired :=
      getFaceOrCreate_wired h (.inr ⟨Int.le_refl _, hlen⟩)
    have hout : (getFaceOrCreate now σ (-1) (some sa)).1.out = σ.out := getFaceOrCreate_out _ _
    split at ho <;> rename_i he <;> rw [he] at hw hout <;> cases ho
    · exact ⟨hw.of_wiring (setFace_wiring fun _ => ⟨rfl, rfl⟩), .silent hout⟩
    · exact ⟨hw, .silent hout⟩
  case faceRemove g =>
    cases ho
    exact ⟨faceRemove_wired h g, .silent rfl⟩
  case fibAdd p g =>
    split at ho <;> cases ho
    · rename_i hg
      have hremote : σ.Remote g := by
        cases hx : σ.face g with
        | error s => simp [hx, Except.toOption] at hg
        | ok x => exact Relay.Outward.remote hop hx
      refine ⟨fibAddEntry_wired h p fun g' hg' => ?_, .silent ?_⟩
      · obtain rfl : g = g' := by simpa using hg'
        exact hremote
      · unfold fibAddEntry
        split <;> rfl
    · exact ⟨h, .silent rfl⟩
  case fibRem p g =>
    cases ho
    refine ⟨fibRemEntry_wired h _ _, .silent ?_⟩
    unfold fibRemEntry
    split <;> rfl
  case contentAdd p pkt =>
    obtain ⟨s, hs, ho⟩ := (bind_eq_ok _ _ _).mp ho
    exact ((servePending_sends hs).trans (contentAdd2cache_sends ho)).step h
  case contentRemove k =>
    split at ho <;> cases ho
    · exact Sends.step (σ := σ) (.quiet rfl rfl) h
    · exact (Sends.refl σ).step h
  case interestNew p pkt =>
    cases ho
    cases hn : interestNew now σ (some f) { pkt with pfx := some p } with
    | none => exact (Sends.refl σ).step h
    | some r => exact (interestNew_sends hn).step h
  case enqueue buf => exact (faceEnqueue_sends hop ho).step h

/-- What an act does when it is given and wired. -/
theorem act_wired {a : Act} (h : σ.Wired) (hgiven : a.Given σ) (hwired : a.Wired σ)
    (ha : (acts E).step a σ = .ok τ) : τ.Wired ∧ InRange σ τ := by
  cases a with
  | nonce pkt =>
    cases ha
    cases hn : nonceIsDup σ pkt with
    | none => exact (Sends.refl σ).step h
    | some σ₁ => exact (nonceIsDup_sends hn).step h
  | mgmt now f op => exact mgmtOp_wired h hwired ha
  | call c =>
    cases c with
    | fibAdd p f =>
      cases ha
      refine ⟨fibAddEntry_wired h p hwired, .silent ?_⟩
      unfold fibAddEntry
      split <;> rfl
    | fibRem p f =>
      cases ha
      refine ⟨fibRemEntry_wired h p f, .silent ?_⟩
      unfold fibRemEntry
      split <;> rfl
    | enqueue f buf => exact (faceEnqueue_sends hwired ha).step h
    | table e =>
      cases e with
      | interest now cMatch f pkt =>
        obtain ⟨⟨σ₁, b⟩, h₁, rfl⟩ := (map_eq_ok _ _ _).mp ha
        exact (handleInterest_sends h hgiven h₁).step h
      | content now pkt => exact (handleContent_sends ha).step h
      | ageing now => exact doAgeing_wired h ha
      | face now ifndx sa =>
        cases ha
        exact ⟨getFaceOrCreate_wired h hgiven, .silent (getFaceOrCreate_out ifndx sa)⟩
      | faceRemove f =>
        cases ha
        exact ⟨faceRemove_wired h f, .silent rfl⟩
      | csAdd c =>
        obtain ⟨⟨σ₁, b⟩, h₁, rfl⟩ := (map_eq_ok _ _ _).mp ha
        exact (csAdd_sends h₁).step h
      | csRemove path pfx =>
        cases ha
        unfold csRemove
        split
        · exact Sends.step (σ := σ) (.quiet rfl rfl) h
        · exact (Sends.refl σ).step h
      | add2cache c =>
        obtain ⟨⟨σ₁, b⟩, h₁, rfl⟩ := (map_eq_ok _ _ _).mp ha
        exact (add2cache_sends h₁).step h
      | contentRemove k =>
        change (pure _ : Run Relay) = _ at ha
        split at ha <;> cases ha
        · exact Sends.step (σ := σ) (.quiet rfl rfl) h
        · exact (Sends.refl σ).step h
      | static k b =>
        cases ha
        exact Sends.step (σ := σ) (.quiet rfl rfl) h

end Changes

/-! ## Frames -/

/-- The relay comes from `σ` to `τ` by acts that are given. -/
def ActsTo (E : Env) (σ τ : Relay) : Prop :=
  ∃ as : List Act, Along (fun σ a => (acts E).step a σ) (fun σ a => a.Given σ) as σ ∧
    as.foldlM (fun σ a => (acts E).step a σ) σ = .ok τ

section Frames

variable {E : Env} {σ τ υ : Relay}

theorem ActsTo.refl (E : Env) (σ : Relay) : ActsTo E σ σ := ⟨[], trivial, rfl⟩

theorem ActsTo.next (h : ActsTo E σ τ) {a : Act} (ha : a.Given τ) (hs : a.run E τ = .ok υ) :
    ActsTo E σ υ := by
  obtain ⟨as, hgiven, hrun⟩ := h
  refine ⟨as ++ [a], ?_, ?_⟩
  · refine hgiven.append fun τ' hτ' => ⟨?_, fun _ _ => trivial⟩
    rw [hrun] at hτ'
    cases hτ'
    exact ha
  · rw [List.foldlM_append, hrun, ok_bind, List.foldlM_cons]
    show (a.run E τ >>= _) = _
    rw [hs, ok_bind]
    rfl

/-- A management Interest is its operations. -/
theorem mgmt_acts {now : Nat} {f : FaceId} {ops : List MgmtOp} (h : ActsTo E σ τ)
    (hm : ops.foldlM (MgmtOp.run E now f) τ = .ok υ) : ActsTo E σ υ :=
  foldlM_inv (I := ActsTo E σ)
    (fun _ op _ h₁ ho => h₁.next (a := .mgmt now f op) trivial ho) h hm

theorem handleInterest_acts {now : Nat} {cMatch : Pkt → Content → Run Bool} {f : FaceId} {pkt : Pkt}
    {b : Bool} (h : ActsTo E σ τ) (hi : handleInterest E now cMatch τ f pkt = .ok (υ, b)) :
    ActsTo E σ υ := by
  by_cases hm : isMgmt pkt = .ok true
  · cases handleInterest_handled hi with
    | dup => exact h
    | mgmt _ hn _ h₂ =>
      exact mgmt_acts (h.next (a := .nonce pkt) trivial (by simp [Act.run, hn])) h₂
    | hit _ _ hfalse | drop _ _ hfalse | insert _ _ hfalse => cases hm.symm.trans hfalse
  · exact h.next (a := .call (.table (.interest now cMatch f pkt))) hm
      ((map_eq_ok _ _ _).mpr ⟨_, hi, rfl⟩)

theorem handlersKeep_acts (E : Env) (now : Nat) (f : FaceId) (σ : Relay) :
    HandlersKeep E now f (ActsTo E σ) where
  interest h _ hi := handleInterest_acts h hi
  content {_ _ pkt} h hc := h.next (a := .call (.table (.content now pkt))) trivial hc
  contentRemove {_ k} h hk :=
    h.next (a := .call (.table (.contentRemove k))) trivial
      (by simp [Act.run, Call.run, TableEvent.run, hk, pure, Except.pure])
  enqueue {_ _ buf} h he := h.next (a := .call (.enqueue f buf)) trivial he

/-- A frame, from an interface of the relay or from a local client, is a series of acts. -/
theorem coreRX_acts {now len : Nat} {ifndx : Int} {sa : Option SockAddr} {mem : List UInt8}
    (hi : sa = none ∨ -1 ≤ ifndx ∧ ifndx < σ.ifs.length)
    (h : coreRX E now σ ifndx sa mem len = .ok τ) : ActsTo E σ τ := by
  have hface : ActsTo E σ (getFaceOrCreate now σ ifndx sa).1 :=
    (ActsTo.refl E σ).next (a := .call (.table (.face now ifndx sa))) hi rfl
  exact coreRX_keeps (fun f => handlersKeep_acts E now f σ) hface h

end Frames

/-! ## Runs -/

theorem acts_wired (E : Env) :
    (acts E).KeepsBy (fun a σ => a.Given σ ∧ a.Wired σ) Relay.Wired where
  start σ h :=
    { ports := by simp [h.faces]
      ids := by simp [h.faces]
      fib := fun fwd hfwd f hf => by simp [h.fib fwd hfwd] at hf }
  step _ _ _ h ha hs := (act_wired h ha.1 ha.2 hs).1

/-- In a run whose FIB entries are for faces with an interface, and whose replies go to such faces,
all that is enqueued goes to faces that point into the interface table, and so do the FIB entries.
The frames of the relay's interfaces and of a local client are series of such acts. -/
theorem sends_in_range {E : Env} {σ : Relay}
    (hr : (acts E).ReachableBy (fun a σ => a.Given σ ∧ a.Wired σ) σ) :
    (∀ fwd ∈ σ.fib, ∀ f ∈ fwd.face, σ.InTable f) ∧
    (∀ a τ, a.Given σ → a.Wired σ → (acts E).step a σ = .ok τ → InRange σ τ) ∧
    ∀ now (ifndx : Int) sa mem len τ, sa = none ∨ -1 ≤ ifndx ∧ ifndx < σ.ifs.length →
      coreRX E now σ ifndx sa mem len = .ok τ → ActsTo E σ τ := by
  have h := (acts_wired E).reachable hr
  exact ⟨fun fwd hfwd f hf => h.inTable (h.fib fwd hfwd f hf),
    fun a τ hgiven hwired hs => (act_wired h hgiven hwired hs).2,
    fun now ifndx sa mem len τ hi hs => coreRX_acts hi hs⟩

/-- The face 1 asks for `/a`. -/
def Act.ask : Act := .call (.table (.interest 0 (cMatch Env.still.digest .ndntlv) 1
  { pfx := some (.ofComps .ndntlv [[97]])
    suite := .ndntlv
    s := .ndntlv { maxsuffix := 64, scope := 3, interestlifetime := 4000 } }))

theorem ask_given (σ : Relay) : Act.ask.Given σ := by
  show isMgmt { pfx := some (.ofComps .ndntlv [[97]]), suite := .ndntlv, s := _ } ≠ .ok true
  decide

/-- The face 1 is at a peer, `second` makes the face 2, and the FIB gets an entry for `/a` over it. -/
def Act.register (second : Act) : List Act :=
  [.call (.table (.face 0 0 (some (.inet 7 9695)))), second,
    .call (.fibAdd (.ofComps .ndntlv [[97]]) (some 2))]

/-- The entry is for a local client, and the Interest of the peer is enqueued to it. -/
theorem sends_local : ¬ ∀ (E : Env) (σ τ : Relay) (a : Act),
    (acts E).ReachableBy (fun a σ => a.Given σ) σ → a.Given σ → (acts E).step a σ = .ok τ →
    InRange σ τ := by
  intro h
  obtain ⟨⟨σ, τ⟩, hrun, hout, hface⟩ := exists_ok
    (x := do
      let σ ← (Act.register (.call (.table (.face 0 (-1) none)))).foldlM
        (fun σ a => (acts .still).step a σ) .plain
      return (σ, ← (acts .still).step .ask σ))
    (p := fun r => r.2.out = r.1.out ++ [.send 2 []] ∧
      (r.1.face 2).toOption.map (·.ifndx) = some (-1)) (by decide +kernel)
  obtain ⟨σ₁, hσ, hrun⟩ := (bind_eq_ok _ _ _).mp hrun
  obtain ⟨τ₁, hτ, hrun⟩ := (bind_eq_ok _ _ _).mp hrun
  cases hrun
  have hstart : (acts .still).ReachableBy (fun a σ => a.Given σ) .plain :=
    .start ⟨rfl, rfl, by simp [Relay.plain]⟩
  have hr : (acts .still).ReachableBy (fun a σ => a.Given σ) σ := by
    refine hstart.run ?_ hσ
    exact ⟨Or.inr (by decide), fun _ _ => ⟨Or.inl rfl, fun _ _ => ⟨trivial, fun _ _ => trivial⟩⟩⟩
  obtain ⟨new, hnew, hin⟩ := h .still σ τ .ask hr (ask_given σ) hτ
  obtain rfl := List.append_cancel_left (hout.symm.trans hnew)
  obtain ⟨x, hx, hx0, -⟩ := hin 2 [] List.mem_cons_self
  simp only [hx, Except.toOption, Option.map_some, Option.some.injEq] at hface
  omega

/-- The entry is for another peer. -/
theorem sends_in_range_peer : ∃ σ τ, (acts .still).step .ask σ = .ok τ ∧
    τ.out = [.send 2 []] ∧ InRange σ τ := by
  obtain ⟨⟨σ, τ⟩, hrun, hout⟩ := exists_ok
    (x := do
      let σ ← (Act.register (.call (.table (.face 0 0 (some (.inet 8 9695)))))).foldlM
        (fun σ a => (acts .still).step a σ) .plain
      return (σ, ← (acts .still).step .ask σ))
    (p := fun r => r.2.out = [.send 2 []]) (by decide +kernel)
  obtain ⟨σ₁, hσ, hrun⟩ := (bind_eq_ok _ _ _).mp hrun
  obtain ⟨τ₁, hτ, hrun⟩ := (bind_eq_ok _ _ _).mp hrun
  cases hrun
  have hstart : (acts .still).ReachableBy (fun a σ => a.Given σ ∧ a.Wired σ) .plain :=
    .start ⟨rfl, rfl, by simp [Relay.plain]⟩
  have hr : (acts .still).ReachableBy (fun a σ => a.Given σ ∧ a.Wired σ) σ := by
    refine hstart.run ?_ hσ
    refine ⟨⟨Or.inr (by decide), trivial⟩, fun σ₁ h₁ => ?_⟩
    cases h₁
    refine ⟨⟨Or.inr (by decide), trivial⟩, fun σ₂ h₂ => ?_⟩
    cases h₂
    refine ⟨⟨trivial, fun g hg => ?_⟩, fun _ _ => trivial⟩
    obtain rfl : 2 = g := by simpa using hg
    exact ⟨_, rfl, by decide⟩
  exact ⟨σ, τ, hτ, hout, (sends_in_range hr).2.1 .ask τ (ask_given σ) trivial hτ⟩

end Ccnl
