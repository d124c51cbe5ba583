import CcnLite.Core.Serve

/-!
# The invariant of the tables

`Relay.Ok` is what every function of the core keeps: the packets in the PIT and in the content
store have names, the pending faces of an entry exist, and every face has an interface and an
identity that `ccnl_get_face_or_create` has given.
-/

namespace Ccnl

open CRun

/-- A PIT entry with a name, whose pending faces exist. -/
structure Interest.Ok (faces : List Face) (i : Interest) : Prop where
  named : i.pkt.pfx ≠ none
  pending : ∀ pi ∈ i.pending, ∃ x ∈ faces, x.faceid = pi.face

/-- The invariant. -/
structure Relay.Ok (σ : Relay) : Prop where
  pit : ∀ i ∈ σ.pit, i.Ok σ.faces
  contents : ∀ c ∈ σ.contents, c.pkt.pfx ≠ none
  remote : ∀ x ∈ σ.faces, 0 ≤ x.ifndx
  ids : ∀ x ∈ σ.faces, x.faceid ≤ σ.seqno

section Faces

variable {σ τ : Relay}

theorem Relay.listed_of_face {f : FaceId} {x : Face} (h : σ.face f = .ok x) : σ.Listed f :=
  ⟨x, List.mem_of_find?_eq_some (Relay.face_eq_ok.mp h), Relay.faceid_of_face h⟩

theorem Interest.Ok.mono {i : Interest} {l l' : List Face} (h : i.Ok l)
    (hl : ∀ x ∈ l, ∃ y ∈ l', y.faceid = x.faceid) : i.Ok l' where
  named := h.named
  pending pi hpi := by
    obtain ⟨x, hx, hid⟩ := h.pending pi hpi
    obtain ⟨y, hy, hxy⟩ := hl x hx
    exact ⟨y, hy, hxy.trans hid⟩

/-- A change of the flags and times of faces, after which the tables have lost entries only. -/
theorem Relay.Ok.map_faces {g : Face → Face} (h : σ.Ok)
    (hg : ∀ x, (g x).faceid = x.faceid ∧ (g x).ifndx = x.ifndx) (hf : τ.faces = σ.faces.map g)
    (hs : τ.seqno = σ.seqno) (hp : τ.pit ⊆ σ.pit) (hc : τ.contents ⊆ σ.contents) : τ.Ok where
  pit i hi := (h.pit i (hp hi)).mono fun x hx =>
    ⟨g x, by rw [hf]; exact List.mem_map_of_mem hx, (hg x).1⟩
  contents c hx := h.contents c (hc hx)
  remote x hx := by
    rw [hf] at hx
    obtain ⟨y, hy, rfl⟩ := List.mem_map.mp hx
    rw [(hg y).2]
    exact h.remote y hy
  ids x hx := by
    rw [hf] at hx
    obtain ⟨y, hy, rfl⟩ := List.mem_map.mp hx
    rw [(hg y).1, hs]
    exact h.ids y hy

/-- Tables that have lost entries only. -/
theorem Relay.Ok.sub (h : σ.Ok) (hf : τ.faces = σ.faces) (hs : τ.seqno = σ.seqno)
    (hp : τ.pit ⊆ σ.pit) (hc : τ.contents ⊆ σ.contents) : τ.Ok :=
  h.map_faces (g := id) (fun _ => ⟨rfl, rfl⟩) (by rw [hf, List.map_id]) hs hp hc

theorem Relay.Ok.with_pit (h : σ.Ok) {pit : List Interest} (hp : ∀ i ∈ pit, i.Ok σ.faces)
    (hpit : τ.pit = pit) (hf : τ.faces = σ.faces) (hs : τ.seqno = σ.seqno)
    (hc : τ.contents ⊆ σ.contents) : τ.Ok where
  pit i hi := hf ▸ hp i (hpit ▸ hi)
  contents c hx := h.contents c (hc hx)
  remote x hx := h.remote x (hf ▸ hx)
  ids x hx := hs ▸ h.ids x (hf ▸ hx)

/-- Every pending face has an interface. -/
theorem Relay.Ok.remote_of_listed (h : σ.Ok) {f : FaceId} (hf : σ.Listed f) : σ.Remote f := by
  obtain ⟨x, hx⟩ := hf.face
  exact ⟨x, hx, h.remote x (List.mem_of_find?_eq_some (Relay.face_eq_ok.mp hx))⟩

theorem setFace_ok (h : σ.Ok) (f : FaceId) {g : Face → Face}
    (hg : ∀ x, (g x).faceid = x.faceid ∧ (g x).ifndx = x.ifndx) : (σ.setFace f g).Ok := by
  refine h.map_faces (g := fun x => if x.faceid = f then g x else x) (fun x => ?_) rfl rfl
    (List.Subset.refl _) (List.Subset.refl _)
  split
  · exact hg x
  · exact ⟨rfl, rfl⟩

/-- A new face at an interface. -/
theorem faceNew_ok (h : σ.Ok) (now i : Nat) (a : SockAddr) : (faceNew now σ i (some a)).1.Ok where
  pit j hj := (h.pit j hj).mono fun x hx => ⟨x, List.mem_cons_of_mem _ hx, rfl⟩
  contents := h.contents
  remote x hx := by
    rcases List.mem_cons.mp hx with rfl | hx
    · exact Int.natCast_nonneg i
    · exact h.remote x hx
  ids x hx := by
    rcases List.mem_cons.mp hx with rfl | hx
    · exact Nat.le_refl _
    · exact Nat.le_succ_of_le (h.ids x hx)

/-- The relay after the search for a face: as before, with the face that was found marked as used,
or with a new face, whose interface is `i` or one of the table. -/
theorem getFaceOrCreate_relay (now : Nat) (σ : Relay) (i : Int) (sa : Option SockAddr) :
    (getFaceOrCreate now σ i sa).1 = σ ∨
    (∃ f, (getFaceOrCreate now σ i sa).1 = σ.setFace f fun x => { x with lastUsed := u32 now }) ∨
    ∃ j, ((sa = none ∨ i ≠ -1) ∧ j = i ∨ ∃ k : Nat, j = k ∧ k < σ.ifs.length) ∧
      (getFaceOrCreate now σ i sa).1 = (faceNew now σ j sa).1 := by
  unfold getFaceOrCreate
  cases sa with
  | none =>
    dsimp only
    split
    · exact .inl rfl
    · exact .inr (.inr ⟨i, .inl ⟨.inl rfl, rfl⟩, rfl⟩)
  | some a =>
    dsimp only
    split
    · exact .inr (.inl ⟨_, rfl⟩)
    · by_cases hi : i = -1
      · rw [if_pos hi]
        split
        · exact .inl rfl
        · rename_i k hk
          obtain ⟨hlt, -⟩ := List.findIdx?_eq_some_iff_getElem.mp hk
          exact .inr (.inr ⟨k, .inr ⟨k, rfl, hlt⟩, rfl⟩)
      · rw [if_neg hi]
        exact .inr (.inr ⟨i, .inl ⟨.inr hi, rfl⟩, rfl⟩)

theorem getFaceOrCreate_ok {now : Nat} {ifndx : Int} {a : SockAddr} {f : Option FaceId}
    (hi : -1 ≤ ifndx) (h : σ.Ok) (hg : getFaceOrCreate now σ ifndx (some a) = (τ, f)) : τ.Ok := by
  obtain rfl : (getFaceOrCreate now σ ifndx (some a)).1 = τ := by rw [hg]
  rcases getFaceOrCreate_relay now σ ifndx (some a) with heq | ⟨g, heq⟩ | ⟨j, hj, heq⟩ <;> rw [heq]
  · exact h
  · exact setFace_ok h _ fun _ => ⟨rfl, rfl⟩
  · obtain ⟨n, rfl⟩ : ∃ n : Nat, j = n := by
      rcases hj with ⟨hne, rfl⟩ | ⟨k, rfl, -⟩
      · have hne := hne.resolve_left nofun
        exact ⟨j.toNat, by omega⟩
      · exact ⟨k, rfl⟩
    exact faceNew_ok h _ _ _

end Faces

section Ops

variable {σ τ : Relay}

theorem faceEnqueue_eq {dst : FaceId} {buf : List UInt8} (he : faceEnqueue σ dst buf = .ok τ) :
    τ = { σ with out := σ.out ++ [.send dst buf] } := by
  obtain ⟨x, -, he⟩ := (bind_eq_ok _ _ _).mp he
  cases he
  rfl

theorem faceEnqueue_ok {dst : FaceId} {buf : List UInt8} (h : σ.Ok)
    (he : faceEnqueue σ dst buf = .ok τ) : τ.Ok := by
  rw [faceEnqueue_eq he]
  exact h.sub rfl rfl (List.Subset.refl _) (List.Subset.refl _)

theorem deliver_ok {x : Face} {pkt : Pkt} (h : σ.Ok) (hd : deliver σ x pkt = .ok τ) : τ.Ok := by
  unfold deliver at hd
  split at hd
  · exact faceEnqueue_ok h hd
  · cases hd
    exact h

theorem faceRemove_ok (h : σ.Ok) (f : FaceId) : (faceRemove σ f).Ok where
  pit i hi := by
    obtain ⟨j, hj, hc⟩ := List.mem_filterMap.mp hi
    unfold faceClean at hc
    simp only [Option.ite_none_left_eq_some, Option.some.injEq] at hc
    obtain ⟨-, rfl⟩ := hc
    refine ⟨(h.pit j hj).named, fun pi hpi => ?_⟩
    obtain ⟨hpi, hne⟩ := List.mem_filter.mp hpi
    obtain ⟨x, hx, hid⟩ := (h.pit j hj).pending pi hpi
    refine ⟨x, List.mem_filter.mpr ⟨hx, ?_⟩, hid⟩
    rw [hid]
    exact hne
  contents := h.contents
  remote x hx := h.remote x (List.mem_filter.mp hx).1
  ids x hx := h.ids x (List.mem_filter.mp hx).1

/-- A new Interest: there was room for it, and it is in front of the others. -/
theorem interestNew_some {now : Nat} {g : Option FaceId} {pkt : Pkt} {i : Interest}
    (h : interestNew now σ g pkt = some (τ, i)) :
    ¬ (σ.maxPitEntries ≠ -1 ∧ σ.maxPitEntries ≤ σ.pitcnt) ∧
      i = { pkt := pkt, «from» := g, lifetime := u32 (pktInterestLifetime pkt), lastUsed := u32 now } ∧
      τ = { σ with pit := i :: σ.pit, pitcnt := σ.pitcnt + 1 } := by
  unfold interestNew at h
  simp only [Option.ite_none_left_eq_some, Option.some.injEq, Prod.mk.injEq] at h
  obtain ⟨hroom, rfl, rfl⟩ := h
  exact ⟨hroom, rfl, rfl⟩

theorem interestNew_ok {now : Nat} {f : Option FaceId} {pkt : Pkt} {i : Interest} (h : σ.Ok)
    (hp : pkt.pfx ≠ none) (hn : interestNew now σ f pkt = some (τ, i)) :
    τ.Ok ∧ τ.pit = i :: σ.pit ∧ τ.faces = σ.faces ∧ i.pkt.pfx ≠ none ∧ i.pending = [] := by
  obtain ⟨-, rfl, rfl⟩ := interestNew_some hn
  refine ⟨h.with_pit (fun i hi => ?_) rfl rfl rfl (List.Subset.refl _), rfl,
    rfl, hp, rfl⟩
  rcases List.mem_cons.mp hi with rfl | hi
  · exact ⟨hp, by simp⟩
  · exact h.pit i hi

theorem interestAppendPending_ok {now : Nat} {i : Interest} {f : FaceId} (h : i.Ok σ.faces)
    (hf : σ.Listed f) : (interestAppendPending now i f).Ok σ.faces := by
  unfold interestAppendPending
  split
  · refine ⟨h.named, fun pi hpi => ?_⟩
    obtain ⟨pj, hpj, rfl⟩ := List.mem_map.mp hpi
    split
    · exact h.pending pj hpj
    · exact h.pending pj hpj
  · refine ⟨h.named, fun pi hpi => ?_⟩
    rcases List.mem_append.mp hpi with hpi | hpi
    · exact h.pending pi hpi
    · rw [List.mem_singleton.mp hpi]
      exact hf

/-- Forwarding an Interest hands out packets and changes nothing else. -/
theorem propagateTo_out {i : Interest} {fwd : Forward} (hp : propagateTo i σ fwd = .ok τ) :
    ∃ o, τ = { σ with out := σ.out ++ o } := by
  have hnone : ∃ o, σ = { σ with out := σ.out ++ o } := ⟨[], by simp⟩
  unfold propagateTo at hp
  split at hp
  · split at hp
    · cases hp; exact hnone
    · split at hp
      · cases hp; exact hnone
      · obtain ⟨b, -, hp⟩ := (bind_eq_ok _ _ _).mp hp
        split at hp
        · cases hp; exact hnone
        · split at hp <;> split at hp
          · rename_i t _ _ f _
            refine ⟨[.tap t i.pkt.buf, .send f i.pkt.buf], ?_⟩
            rw [faceEnqueue_eq hp, List.append_assoc]
            rfl
          · cases hp; exact ⟨_, rfl⟩
          · rw [faceEnqueue_eq hp]
            exact ⟨_, rfl⟩
          · cases hp; exact hnone
  · cases hp; exact hnone

theorem interestPropagate_out {i : Interest} (hp : interestPropagate σ i = .ok τ) :
    ∃ o, τ = { σ with out := σ.out ++ o } := by
  refine foldlM_inv (I := fun τ : Relay => ∃ o, τ = { σ with out := σ.out ++ o }) ?_
    ⟨[], by simp⟩ hp
  rintro _ fwd τ ⟨o, rfl⟩ hs
  obtain ⟨o', rfl⟩ := propagateTo_out hs
  exact ⟨o ++ o', by simp⟩

theorem interestPropagate_ok {i : Interest} (h : σ.Ok) (hp : interestPropagate σ i = .ok τ) :
    τ.Ok := by
  obtain ⟨o, rfl⟩ := interestPropagate_out hp
  exact h.sub rfl rfl (List.Subset.refl _) (List.Subset.refl _)

theorem contentRemove_ok (h : σ.Ok) (k : Nat) : (contentRemove σ k).Ok :=
  h.sub rfl rfl (List.Subset.refl _) fun _ hc => List.mem_of_mem_eraseIdx hc

theorem evict_ok (h : σ.Ok) : (evict σ).Ok := by
  unfold evict
  split
  · split
    · exact contentRemove_ok h _
    · exact h
  · exact h

theorem contentAdd2cache_ok {c : Content} (h : σ.Ok) (hc : c.pkt.pfx ≠ none)
    (ha : contentAdd2cache σ c = .ok τ) : τ.Ok := by
  obtain ⟨b, -, ha⟩ := (bind_eq_ok _ _ _).mp ha
  have he := evict_ok h
  split at ha
  · cases ha; exact h
  · simp only at ha
    split at ha
    · cases ha
      exact ⟨he.pit, fun d hd => (List.mem_cons.mp hd).elim (fun e => e ▸ hc) (he.contents d),
        he.remote, he.ids⟩
    · cases ha; exact he

theorem nonceIsDup_ok {pkt : Pkt} (h : σ.Ok) (hn : nonceIsDup σ pkt = some τ) : τ.Ok := by
  unfold nonceIsDup at hn
  split at hn
  · cases hn; exact h
  · obtain ⟨ns, -, rfl⟩ := Option.map_eq_some_iff.mp hn
    exact h.sub rfl rfl (List.Subset.refl _) (List.Subset.refl _)

theorem fibAddEntry_ok (h : σ.Ok) (p : Prefix) (f : FaceId) : (fibAddEntry σ p f).Ok := by
  unfold fibAddEntry
  split <;> exact h.sub rfl rfl (List.Subset.refl _) (List.Subset.refl _)

theorem fibRemEntry_ok (h : σ.Ok) (p : Option Prefix) (f : Option FaceId) :
    (fibRemEntry σ p f).Ok := by
  unfold fibRemEntry
  split
  · exact h.sub rfl rfl (List.Subset.refl _) (List.Subset.refl _)
  · exact h

/-- A match has looked at the name of the content. -/
theorem Matches.named {digest : List UInt8 → Digest} {i : Interest} {c : Content}
    (h : Matches digest i c) : c.pkt.pfx ≠ none := by
  obtain ⟨p, -, hm⟩ := h
  intro hc
  unfold pitMatch iPrefixofC at hm
  rw [hc] at hm
  split at hm <;> cases hm

/-- The walk over the PIT, in a relay with the invariant. -/
theorem servePending_relay {digest : List UInt8 → Digest} {c : Content} {s : Serving} (h : σ.Ok)
    (hs : servePending digest σ c = .ok s) :
    ∃ sent : List FaceId, sent.Nodup ∧
      (∀ f, f ∈ sent ↔ ∃ i ∈ σ.pit, Matches digest i c ∧ ∃ pi ∈ i.pending, pi.face = f) ∧
      s.relay = { σ with
        pit := σ.pit.filter fun i => ¬ Matches digest i c
        pitcnt := σ.pitcnt - (σ.pit.filter fun i => Matches digest i c).length
        faces := σ.faces.map (Face.mark (answered digest c σ.pit))
        out := σ.out ++ sent.map (.send · c.pkt.buf) } ∧
      s.c.pkt = c.pkt ∧ (s.cnt = 0 ↔ ∀ i ∈ σ.pit, ¬ Matches digest i c) := by
  have hdef : ∀ i ∈ σ.pit, ∃ p b, i.pkt.pfx = some p ∧ pitMatch digest i.pkt p c = .ok b := by
    obtain ⟨r, hr, -⟩ := (bind_eq_ok _ _ _).mp hs
    exact serveFrom_defined rfl hr
  obtain ⟨s', sent, hs', hnd, hmem, hrel, hpkt, hcnt⟩ :=
    servePending_spec hdef fun i hi => (h.pit i hi).pending
  obtain rfl : s = s' := by rw [hs] at hs'; exact Except.ok.inj hs'
  refine ⟨sent, hnd, fun f => ?_, hrel, hpkt, hcnt⟩
  rw [hmem, mem_answered]
  refine and_iff_left_of_imp fun ⟨i, hi, _, pi, hpi, hf⟩ => ?_
  exact h.remote_of_listed (hf ▸ (h.pit i hi).pending pi hpi)

theorem servePending_ok {digest : List UInt8 → Digest} {c : Content} {s : Serving} (h : σ.Ok)
    (hs : servePending digest σ c = .ok s) : s.relay.Ok := by
  obtain ⟨sent, -, -, hrel, -⟩ := servePending_relay h hs
  rw [hrel]
  exact h.map_faces (g := Face.mark _) (fun _ => ⟨rfl, rfl⟩) rfl rfl (List.filter_subset_self _)
    (List.Subset.refl _)

/-- The pass of the timer over the PIT. -/
theorem agePit_ok {t : Nat} {pit kept : List Interest} {σ₀ : Relay} (h : σ.Ok)
    (hf : σ.faces = σ₀.faces) (hp : ∀ i ∈ pit, i.Ok σ₀.faces) (ha : agePit t pit σ = .ok (kept, τ)) :
    τ.Ok ∧ τ.faces = σ₀.faces ∧ ∀ i ∈ kept, i.Ok σ₀.faces := by
  induction pit generalizing σ kept with
  | nil => cases ha; exact ⟨h, hf, by simp⟩
  | cons i pit ih =>
    rw [agePit] at ha
    split at ha
    · exact ih (σ := { σ with pitcnt := σ.pitcnt - 1 })
        (h.sub rfl rfl (List.Subset.refl _) (List.Subset.refl _)) hf
        (fun j hj => hp j (by simp [hj])) ha
    · obtain ⟨σ₁, h₁, ha⟩ := (bind_eq_ok _ _ _).mp ha
      obtain ⟨⟨rest, σ₂⟩, h₂, ha⟩ := (bind_eq_ok _ _ _).mp ha
      cases ha
      have hf₁ : σ₁.faces = σ₀.faces := by
        obtain ⟨o, rfl⟩ := interestPropagate_out h₁
        exact hf
      obtain ⟨hok, hfs, hrest⟩ :=
        ih (interestPropagate_ok h h₁) hf₁ (fun j hj => hp j (by simp [hj])) h₂
      refine ⟨hok, hfs, fun j hj => ?_⟩
      rcases List.mem_cons.mp hj with rfl | hj
      · have := hp i (by simp)
        exact ⟨this.named, this.pending⟩
      · exact hrest j hj

theorem ageContent_pkt {t : Nat} {c d : Content} (h : ageContent t c = some d) : d.pkt = c.pkt := by
  unfold ageContent at h
  split at h
  · cases h
  · split at h <;> cases h <;> rfl

theorem doAgeing_ok {now : Nat} (h : σ.Ok) (ha : doAgeing now σ = .ok τ) : τ.Ok := by
  obtain ⟨⟨pit, σ₂⟩, h₂, ha⟩ := (bind_eq_ok _ _ _).mp ha
  cases ha
  have hstart : Relay.Ok { σ with
      contents := σ.contents.filterMap (ageContent (u32 now))
      contentcnt := σ.contentcnt -
        (σ.contents.length - (σ.contents.filterMap (ageContent (u32 now))).length : Nat) } :=
    { pit := h.pit
      contents := fun d hd => by
        obtain ⟨c, hc, hcd⟩ := List.mem_filterMap.mp hd
        rw [ageContent_pkt hcd]
        exact h.contents c hc
      remote := h.remote
      ids := h.ids }
  obtain ⟨hok, hfs, hkept⟩ := agePit_ok hstart rfl hstart.pit h₂
  have hpit : Relay.Ok { σ₂ with pit := pit } :=
    hok.with_pit (fun i hi => hfs ▸ hkept i hi) rfl rfl rfl
      (List.Subset.refl _)
  generalize σ₂.faces.filter (·.expired (u32 now)) = l
  generalize ({ σ₂ with pit := pit } : Relay) = σ₃ at hpit
  induction l generalizing σ₃ with
  | nil => exact hpit
  | cons x l ih => exact ih _ (faceRemove_ok hpit _)

end Ops

end Ccnl
