import CcnLite.Core.Tables
import CcnLite.Fwd.System

/-!
# References to faces

A PIT entry points to a face with `from` and with each element of its pending list, a FIB entry with
`face`. `Relay.Faced` says that all of them point to faces of the face list, and it holds between any
two events (`faces_never_dangle`). A function that only loses references leaves `Relay.roots` as they
are (`Faced.of_roots`); the others are the insertion of an Interest, `ccnl_fib_add_entry` and
`ccnl_face_remove`.
-/

namespace Ccnl

open CRun

/-- The entry points to the face. -/
def Interest.RefersTo (i : Interest) (f : FaceId) : Prop :=
  i.from = some f ∨ ∃ pi ∈ i.pending, pi.face = f

/-- Some entry of the tables points to the face. -/
def Relay.RefersTo (σ : Relay) (f : FaceId) : Prop :=
  (∃ i ∈ σ.pit, i.RefersTo f) ∨ ∃ fwd ∈ σ.fib, fwd.face = some f

/-- Every face that the tables point to is in the face list, where no face is twice. -/
structure Relay.Faced (σ : Relay) : Prop where
  nodup : (σ.faces.map (·.faceid)).Nodup
  ids : ∀ f, σ.Listed f → f ≤ σ.seqno
  refs : ∀ f, σ.RefersTo f → σ.Listed f

/-- The identities of the faces, the last one that was given, and the FIB. -/
def Relay.roots (σ : Relay) : List FaceId × Nat × List Forward :=
  (σ.faces.map (·.faceid), σ.seqno, σ.fib)

/-- The face without its flags. -/
def Face.bare (x : Face) : Face :=
  { x with static := false, reflect := false, served := false, fwdalli := false }

/-- The face list without the flags. -/
def Relay.ports (σ : Relay) : List Face := σ.faces.map Face.bare

section Roots

variable {σ τ : Relay}

theorem Relay.listed_iff {f : FaceId} : σ.Listed f ↔ f ∈ σ.faces.map (·.faceid) := by
  simp [Relay.Listed]

theorem Relay.listed_of_roots (hr : τ.roots = σ.roots) {f : FaceId} : τ.Listed f ↔ σ.Listed f := by
  rw [Relay.listed_iff, Relay.listed_iff, show τ.faces.map (·.faceid) = σ.faces.map (·.faceid) from
    congrArg Prod.fst hr]

/-- References are lost, and nothing else happens to the faces and the FIB. -/
theorem Relay.Faced.of_roots (h : σ.Faced) (hr : τ.roots = σ.roots)
    (hp : ∀ j ∈ τ.pit, ∃ i ∈ σ.pit, ∀ f, j.RefersTo f → i.RefersTo f) : τ.Faced := by
  have hlisted := fun f => Relay.listed_of_roots hr (f := f)
  obtain ⟨hids, hseq, hfib⟩ := Prod.mk.injEq .. ▸ Prod.mk.injEq .. ▸ hr
  refine ⟨hids ▸ h.nodup, fun f hf => hseq ▸ h.ids f ((hlisted f).mp hf), fun f hf => ?_⟩
  refine (hlisted f).mpr (h.refs f ?_)
  rcases hf with ⟨j, hj, hjf⟩ | hf
  · obtain ⟨i, hi, hij⟩ := hp j hj
    exact .inl ⟨i, hi, hij f hjf⟩
  · exact .inr (hfib ▸ hf)

/-- The PIT has lost entries only. -/
theorem Relay.Faced.sub (h : σ.Faced) (hr : τ.roots = σ.roots) (hp : τ.pit ⊆ σ.pit) : τ.Faced :=
  h.of_roots hr fun j hj => ⟨j, hp hj, fun _ => id⟩

theorem setFace_roots {f : FaceId} {g : Face → Face} (hg : ∀ x, (g x).faceid = x.faceid) :
    (σ.setFace f g).roots = σ.roots := by
  have hmap : ((fun x : Face => x.faceid) ∘ fun x => if x.faceid = f then g x else x) =
      fun x => x.faceid := by
    funext x
    by_cases hx : x.faceid = f <;> simp [hx, hg]
  simp [Relay.roots, Relay.setFace, hmap]

theorem setFace_ports {f : FaceId} {g : Face → Face} (hg : ∀ x, (g x).bare = x.bare) :
    (σ.setFace f g).ports = σ.ports := by
  have hmap : (Face.bare ∘ fun x => if x.faceid = f then g x else x) = Face.bare := by
    funext x
    by_cases hx : x.faceid = f <;> simp [hx, hg]
  simp [Relay.ports, Relay.setFace, hmap]

theorem setFace_listed {f g : FaceId} {u : Face → Face} (hu : ∀ x, (u x).faceid = x.faceid)
    (hg : σ.Listed g) : (σ.setFace f u).Listed g :=
  (Relay.listed_of_roots (setFace_roots hu)).mpr hg

theorem serveFace_roots {s s' : Serving} {f : FaceId} (h : serveFace s f = .ok s') :
    s'.relay.roots = s.relay.roots ∧ s'.relay.ports = s.relay.ports := by
  obtain ⟨x, -, h⟩ := (bind_eq_ok _ _ _).mp h
  split at h
  · cases h
    exact ⟨rfl, rfl⟩
  · obtain ⟨σ', hd, h⟩ := (bind_eq_ok _ _ _).mp h
    cases h
    obtain ⟨o, rfl⟩ := deliver_eq hd
    exact ⟨setFace_roots (σ := s.relay) fun _ => rfl, setFace_ports (σ := s.relay) fun _ => rfl⟩

theorem serveEntry_roots {s s' : Serving} {i : Interest} (h : serveEntry s i = .ok s') :
    s'.relay.roots = s.relay.roots ∧ s'.relay.ports = s.relay.ports := by
  refine serveEntry_inv (I := fun t : Serving =>
    t.relay.roots = s.relay.roots ∧ t.relay.ports = s.relay.ports) ?_ (fun _ _ _ h₁ _ => h₁) ⟨rfl, rfl⟩ h
  intro s₁ f s₂ h₁ h₂
  obtain ⟨hr, hp⟩ := serveFace_roots h₂
  exact ⟨hr.trans h₁.1, hp.trans h₁.2⟩

theorem serveFrom_roots {digest : List UInt8 → Digest} {pit kept : List Interest} {s s' : Serving}
    (h : serveFrom digest pit s = .ok (kept, s')) :
    s'.relay.roots = s.relay.roots ∧ s'.relay.ports = s.relay.ports := by
  refine serveFrom_inv (I := fun t : Serving =>
    t.relay.roots = s.relay.roots ∧ t.relay.ports = s.relay.ports) ?_ ⟨rfl, rfl⟩ h
  intro s₁ i s₂ h₁ h₂
  obtain ⟨hr, hp⟩ := serveEntry_roots h₂
  exact ⟨hr.trans h₁.1, hp.trans h₁.2⟩

theorem servePending_roots {digest : List UInt8 → Digest} {c : Content} {s : Serving}
    (hs : servePending digest σ c = .ok s) :
    s.relay.roots = σ.roots ∧ s.relay.ports = σ.ports ∧ s.relay.pit ⊆ σ.pit := by
  obtain ⟨⟨kept, s₁⟩, h₁, hs⟩ := (bind_eq_ok _ _ _).mp hs
  cases hs
  obtain ⟨hsub, -⟩ := serveFrom_tables h₁
  obtain ⟨hr, hp⟩ := serveFrom_roots h₁
  have hids : (σ.faces.map fun x : Face => { x with served := false }).map (·.faceid) =
      σ.faces.map (·.faceid) := by simp
  have hports : (σ.faces.map fun x : Face => { x with served := false }).map Face.bare =
      σ.faces.map Face.bare := by
    rw [List.map_map]
    rfl
  exact ⟨hr.trans (by simp only [Relay.roots, hids]), hp.trans hports, hsub.subset⟩

theorem contentAdd2cache_roots {c : Content} (ha : contentAdd2cache σ c = .ok τ) :
    τ.roots = σ.roots ∧ τ.ports = σ.ports ∧ τ.pit = σ.pit := by
  have hevict : (evict σ).roots = σ.roots ∧ (evict σ).ports = σ.ports ∧ (evict σ).pit = σ.pit := by
    unfold evict
    split
    · split <;> exact ⟨rfl, rfl, rfl⟩
    · exact ⟨rfl, rfl, rfl⟩
  obtain ⟨b, -, ha⟩ := (bind_eq_ok _ _ _).mp ha
  split at ha
  · cases ha
    exact ⟨rfl, rfl, rfl⟩
  · simp only at ha
    split at ha <;> cases ha <;> exact hevict

theorem servePending_faced {digest : List UInt8 → Digest} {c : Content} {s : Serving}
    (h : σ.Faced) (hs : servePending digest σ c = .ok s) : s.relay.Faced := by
  obtain ⟨hr, -, hp⟩ := servePending_roots hs
  exact h.sub hr hp

theorem contentAdd2cache_faced {c : Content} (h : σ.Faced) (ha : contentAdd2cache σ c = .ok τ) :
    τ.Faced := by
  obtain ⟨hr, -, hp⟩ := contentAdd2cache_roots ha
  exact h.sub hr (hp ▸ List.Subset.refl _)

theorem agePit_roots {t : Nat} {pit kept : List Interest} (h : agePit t pit σ = .ok (kept, τ)) :
    τ.roots = σ.roots ∧ ∀ j ∈ kept, ∃ i ∈ pit, ∀ f, j.RefersTo f → i.RefersTo f := by
  induction pit generalizing σ kept with
  | nil =>
    cases h
    exact ⟨rfl, by simp⟩
  | cons i pit ih =>
    rw [agePit] at h
    split at h
    · obtain ⟨hr, hkept⟩ := ih h
      refine ⟨hr, fun j hj => ?_⟩
      obtain ⟨i', hi', hji⟩ := hkept j hj
      exact ⟨i', List.mem_cons_of_mem _ hi', hji⟩
    · obtain ⟨σ₁, h₁, h⟩ := (bind_eq_ok _ _ _).mp h
      obtain ⟨⟨rest, σ₂⟩, h₂, h⟩ := (bind_eq_ok _ _ _).mp h
      cases h
      obtain ⟨o, rfl⟩ := interestPropagate_out h₁
      obtain ⟨hr, hkept⟩ := ih h₂
      refine ⟨hr, fun j hj => ?_⟩
      rcases List.mem_cons.mp hj with rfl | hj
      · exact ⟨i, List.mem_cons_self, fun _ => id⟩
      · obtain ⟨i', hi', hji⟩ := hkept j hj
        exact ⟨i', List.mem_cons_of_mem _ hi', hji⟩

theorem faceEnqueue_faced {f : FaceId} {buf : List UInt8} (h : σ.Faced)
    (he : faceEnqueue σ f buf = .ok τ) : τ.Faced := by
  rw [faceEnqueue_eq he]
  exact h.sub rfl (List.Subset.refl _)

theorem interestPropagate_faced {i : Interest} (h : σ.Faced) (hp : interestPropagate σ i = .ok τ) :
    τ.Faced := by
  obtain ⟨o, rfl⟩ := interestPropagate_out hp
  exact h.sub rfl (List.Subset.refl _)

/-- Another FIB, whose faces are in the list. -/
theorem Relay.Faced.with_fib (h : σ.Faced) {fib : List Forward}
    (hfib : ∀ fwd ∈ fib, ∀ f, fwd.face = some f → σ.Listed f) :
    Relay.Faced { σ with fib := fib } where
  nodup := h.nodup
  ids := h.ids
  refs f hf := by
    rcases hf with hf | ⟨fwd, hfwd, hf⟩
    · exact h.refs f (.inl hf)
    · exact hfib fwd hfwd f hf

theorem Relay.Faced.fib (h : σ.Faced) : ∀ fwd ∈ σ.fib, ∀ f, fwd.face = some f → σ.Listed f :=
  fun fwd hfwd f hf => h.refs f (.inr ⟨fwd, hfwd, hf⟩)

/-- Another PIT, whose faces are in the list. -/
theorem Relay.Faced.with_pit (h : σ.Faced) (hr : τ.roots = σ.roots)
    (hpit : ∀ i ∈ τ.pit, ∀ f, i.RefersTo f → σ.Listed f) : τ.Faced := by
  have hbare : Relay.Faced { σ with pit := τ.pit } :=
    { nodup := h.nodup
      ids := h.ids
      refs := by
        rintro f (⟨i, hi, hf⟩ | hf)
        · exact hpit i hi f hf
        · exact h.refs f (.inr hf) }
  exact hbare.sub hr (List.Subset.refl _)

theorem Relay.Faced.pit (h : σ.Faced) : ∀ i ∈ σ.pit, ∀ f, i.RefersTo f → σ.Listed f :=
  fun i hi f hf => h.refs f (.inl ⟨i, hi, hf⟩)

theorem fibRemEntry_faced (h : σ.Faced) (p : Option Prefix) (f : Option FaceId) :
    (fibRemEntry σ p f).Faced := by
  unfold fibRemEntry
  split
  · exact h.with_fib fun fwd hfwd => h.fib fwd (List.mem_of_mem_eraseIdx hfwd)
  · exact h

end Roots

/-! ## References that come and faces that go -/

section Changes

variable {σ τ : Relay} {f : FaceId}

/-- A new entry of the FIB, or a changed one, points to a face of the list. -/
theorem fibAddEntry_faced (h : σ.Faced) (p : Prefix) (hf : σ.Listed f) :
    (fibAddEntry σ p (some f)).Faced := by
  unfold fibAddEntry
  split
  · rename_i k _
    refine h.with_fib fun fwd hfwd g hg => ?_
    obtain ⟨old, hold, rfl | rfl⟩ := mem_modify hfwd
    · exact h.fib fwd hold g hg
    · cases hg
      exact hf
  · refine h.with_fib fun fwd hfwd g hg => ?_
    rcases List.mem_append.mp hfwd with hfwd | hfwd
    · exact h.fib fwd hfwd g hg
    · rw [List.mem_singleton.mp hfwd] at hg
      cases hg
      exact hf

theorem refersTo_append {now : Nat} {i : Interest} {g : FaceId}
    (hg : (interestAppendPending now i f).RefersTo g) : i.RefersTo g ∨ g = f := by
  unfold interestAppendPending Interest.RefersTo at hg
  split at hg
  · rcases hg with hg | ⟨pi, hpi, hg⟩
    · exact .inl (.inl hg)
    · obtain ⟨pj, hpj, rfl⟩ := List.mem_map.mp hpi
      refine .inl (.inr ⟨pj, hpj, ?_⟩)
      by_cases hpf : pj.face = f <;> simpa [hpf] using hg
  · rcases hg with hg | ⟨pi, hpi, hg⟩
    · exact .inl (.inl hg)
    · rcases List.mem_append.mp hpi with hpi | hpi
      · exact .inl (.inr ⟨pi, hpi, hg⟩)
      · rw [List.mem_singleton.mp hpi] at hg
        exact .inr hg.symm

theorem refersTo_new {i : Interest} (hi : i.from = some f) (hp : i.pending = []) {g : FaceId}
    (hg : i.RefersTo g) : g = f := by
  rcases hg with hg | ⟨pi, hpi, -⟩
  · exact (Option.some.inj (hi.symm.trans hg)).symm
  · rw [hp] at hpi
    cases hpi

theorem interestNew_eq {now : Nat} {g : Option FaceId} {pkt : Pkt} {i : Interest}
    (hn : interestNew now σ g pkt = some (τ, i)) :
    τ.roots = σ.roots ∧ τ.ports = σ.ports ∧ τ.pit = i :: σ.pit ∧ i.from = g ∧ i.pending = [] := by
  obtain ⟨-, rfl, rfl⟩ := interestNew_some hn
  exact ⟨rfl, rfl, rfl, rfl, rfl⟩

theorem interestNew_faced {now : Nat} {pkt : Pkt} {i : Interest} (h : σ.Faced) (hf : σ.Listed f)
    (hn : interestNew now σ (some f) pkt = some (τ, i)) : τ.Faced := by
  obtain ⟨hr, -, hpit, hi, hp⟩ := interestNew_eq hn
  refine h.with_pit hr fun j hj g hg => ?_
  rw [hpit] at hj
  rcases List.mem_cons.mp hj with rfl | hj
  · rw [refersTo_new hi hp hg]
    exact hf
  · exact h.pit j hj g hg

theorem pitInsert_faced {now : Nat} {pkt : Pkt} {r : Option Relay} (h : σ.Faced) (hf : σ.Listed f)
    (hi : pitInsert now σ f pkt = .ok r) : ∀ τ, r = some τ → τ.Faced := by
  rintro τ rfl
  cases pitInsert_inserted hi with
  | pending =>
    refine h.with_pit rfl fun j hj g hg => ?_
    obtain ⟨i, hi, rfl | rfl⟩ := mem_modify hj
    · exact h.pit j hi g hg
    · rcases refersTo_append hg with hg | rfl
      · exact h.pit i hi g hg
      · exact hf
  | full => exact h
  | @new σ₁ _ i _ _ hn h₂ =>
    obtain ⟨hr, -, hpit, hfrom, hp⟩ := interestNew_eq hn
    have h₁ : Relay.Faced { σ₁ with pit := interestAppendPending now i f :: σ₁.pit.tail } := by
      refine h.with_pit hr fun j hj g hg => ?_
      rcases List.mem_cons.mp hj with rfl | hj
      · rcases refersTo_append hg with hg | rfl
        · rw [refersTo_new hfrom hp hg]
          exact hf
        · exact hf
      · rw [hpit] at hj
        exact h.pit j hj g hg
    exact interestPropagate_faced h₁ h₂

/-- The face goes, and with it all that points to it. -/
theorem faceRemove_faced (h : σ.Faced) (f : FaceId) : (faceRemove σ f).Faced where
  nodup := ((List.filter_sublist (p := fun x : Face => x.faceid != f)).map _).nodup h.nodup
  ids g hg := by
    obtain ⟨x, hx, rfl⟩ := hg
    exact h.ids _ ⟨x, (List.mem_filter.mp hx).1, rfl⟩
  refs g hg := by
    have hkeep : ∀ g, σ.Listed g → g ≠ f → (faceRemove σ f).Listed g := by
      rintro _ ⟨x, hx, rfl⟩ hne
      exact ⟨x, List.mem_filter.mpr ⟨hx, by simpa using hne⟩, rfl⟩
    rcases hg with ⟨j, hj, hg⟩ | ⟨fwd, hfwd, hg⟩
    · obtain ⟨i, hi, hij⟩ := List.mem_filterMap.mp hj
      simp only [faceClean, Option.ite_none_left_eq_some, Option.some.injEq] at hij
      obtain ⟨-, rfl⟩ := hij
      rcases hg with hg | ⟨pi, hpi, rfl⟩
      · by_cases hfrom : i.from = some f
        · simp [hfrom] at hg
        · have hg' : i.from = some g := by simpa [hfrom] using hg
          refine hkeep g (h.pit i hi g (.inl hg')) ?_
          rintro rfl
          exact hfrom hg'
      · obtain ⟨hpi, hne⟩ := List.mem_filter.mp hpi
        exact hkeep _ (h.pit i hi _ (.inr ⟨pi, hpi, rfl⟩)) (by simpa using hne)
    · obtain ⟨hfwd, hne⟩ := List.mem_filter.mp hfwd
      refine hkeep g (h.fib fwd hfwd g hg) ?_
      rintro rfl
      simp [hg] at hne

theorem faceNew_faced (h : σ.Faced) (now : Nat) (ifndx : Int) (sa : Option SockAddr) :
    (faceNew now σ ifndx sa).1.Faced where
  nodup := by
    refine List.nodup_cons.mpr ⟨fun hmem => ?_, h.nodup⟩
    exact Nat.not_succ_le_self _ (h.ids _ (Relay.listed_iff.mpr hmem))
  ids g hg := by
    obtain ⟨x, hx, rfl⟩ := hg
    rcases List.mem_cons.mp hx with rfl | hx
    · exact Nat.le_refl _
    · exact Nat.le_succ_of_le (h.ids _ ⟨x, hx, rfl⟩)
  refs g hg := by
    obtain ⟨x, hx, hxg⟩ := h.refs g hg
    exact ⟨x, List.mem_cons_of_mem _ hx, hxg⟩

theorem getFaceOrCreate_faced (h : σ.Faced) (now : Nat) (ifndx : Int) (sa : Option SockAddr) :
    (getFaceOrCreate now σ ifndx sa).1.Faced := by
  rcases getFaceOrCreate_relay now σ ifndx sa with heq | ⟨f, heq⟩ | ⟨j, -, heq⟩ <;> rw [heq]
  · exact h
  · exact h.sub (setFace_roots fun _ => rfl) (List.Subset.refl _)
  · exact faceNew_faced h now j sa

theorem doAgeing_faced {now : Nat} (h : σ.Faced) (ha : doAgeing now σ = .ok τ) : τ.Faced := by
  obtain ⟨⟨pit, σ₂⟩, h₂, ha⟩ := (bind_eq_ok _ _ _).mp ha
  cases ha
  obtain ⟨hr, hkept⟩ := agePit_roots h₂
  have h₃ : Relay.Faced { σ₂ with pit := pit } := h.of_roots hr hkept
  generalize (Relay.faces _).filter _ = gone
  generalize { σ₂ with pit := pit } = σ₃ at h₃ ⊢
  induction gone generalizing σ₃ with
  | nil => exact h₃
  | cons x gone ih => exact ih _ (faceRemove_faced h₃ x.faceid)

end Changes

/-! ## The handlers -/

/-- A management command that removes a face puts no Interest into the PIT: `ccnl_mgmt` carries out
one command. -/
def Env.OneCommand (E : Env) : Prop :=
  ∀ σ pkt f g, .faceRemove g ∈ E.mgmt σ pkt f → ∀ p q, MgmtOp.interestNew p q ∉ E.mgmt σ pkt f

section Handlers

variable {E : Env} {now : Nat} {σ τ : Relay} {f : FaceId} {pkt : Pkt}

theorem mgmtOp_faced {op : MgmtOp} (h : σ.Faced) (hf : (∃ p q, op = .interestNew p q) → σ.Listed f)
    (ho : op.run E now f σ = .ok τ) : τ.Faced := by
  cases op <;> simp only [MgmtOp.run] at ho
  case faceNew sa static reflect =>
    have hg := getFaceOrCreate_faced h now (-1) (some sa)
    split at ho
    · rename_i σ₁ g he
      cases ho
      rw [he] at hg
      exact hg.sub (setFace_roots fun _ => rfl) (List.Subset.refl _)
    · rename_i σ₁ he
      cases ho
      rwa [he] at hg
  case faceRemove g =>
    cases ho
    exact faceRemove_faced h g
  case fibAdd p g =>
    split at ho <;> cases ho
    · rename_i hg
      obtain ⟨x, hx⟩ := Option.isSome_iff_exists.mp hg
      refine fibAddEntry_faced h p ?_
      cases hface : σ.face g with
      | error s => simp [hface, Except.toOption] at hx
      | ok y => exact Relay.listed_of_face hface
    · exact h
  case fibRem p g =>
    cases ho
    exact fibRemEntry_faced h _ _
  case contentAdd p pkt =>
    obtain ⟨s, hs, ho⟩ := (bind_eq_ok _ _ _).mp ho
    exact contentAdd2cache_faced (servePending_faced h hs) ho
  case contentRemove k =>
    split at ho <;> cases ho
    · exact h.sub rfl (List.Subset.refl _)
    · exact h
  case interestNew p pkt =>
    cases ho
    cases hn : interestNew now σ (some f) { pkt with pfx := some p } with
    | none => exact h
    | some r => exact interestNew_faced h (hf ⟨p, pkt, rfl⟩) hn
  case enqueue buf => exact faceEnqueue_faced h ho

theorem getFaceOrCreate_listed (hf : σ.Listed f) (now : Nat) (ifndx : Int) (sa : Option SockAddr) :
    (getFaceOrCreate now σ ifndx sa).1.Listed f := by
  rcases getFaceOrCreate_relay now σ ifndx sa with heq | ⟨g, heq⟩ | ⟨j, -, heq⟩ <;> rw [heq]
  · exact hf
  · exact setFace_listed (fun _ => rfl) hf
  · obtain ⟨x, hx, hxf⟩ := hf
    exact ⟨x, List.mem_cons_of_mem _ hx, hxf⟩

/-- The face of the client stays when no face is removed. -/
theorem mgmtOp_listed {op : MgmtOp} (hop : ∀ g, op ≠ .faceRemove g) (hf : σ.Listed f)
    (ho : op.run E now f σ = .ok τ) : τ.Listed f := by
  cases op <;> simp only [MgmtOp.run] at ho
  case faceNew sa static reflect =>
    have hg := getFaceOrCreate_listed hf now (-1) (some sa)
    split at ho
    · rename_i σ₁ g he
      cases ho
      rw [he] at hg
      exact setFace_listed (fun _ => rfl) hg
    · rename_i σ₁ he
      cases ho
      rwa [he] at hg
  case faceRemove g => exact absurd rfl (hop g)
  case fibAdd p g =>
    split at ho <;> cases ho
    · unfold fibAddEntry
      split <;> exact hf
    · exact hf
  case fibRem p g =>
    cases ho
    unfold fibRemEntry
    split <;> exact hf
  case contentAdd p pkt =>
    obtain ⟨s, hs, ho⟩ := (bind_eq_ok _ _ _).mp ho
    have hr := (contentAdd2cache_roots ho).1.trans (servePending_roots hs).1
    exact (Relay.listed_of_roots hr).mpr hf
  case contentRemove k => split at ho <;> cases ho <;> exact hf
  case interestNew p pkt =>
    cases ho
    cases hn : interestNew now σ (some f) { pkt with pfx := some p } with
    | none => exact hf
    | some r => exact (Relay.listed_of_roots (interestNew_eq hn).1).mpr hf
  case enqueue buf =>
    rw [faceEnqueue_eq ho]
    exact hf

theorem mgmt_faced (hE : E.OneCommand) (h : σ.Faced) (hf : σ.Listed f)
    (hm : mgmt E now σ pkt f = .ok τ) : τ.Faced := by
  by_cases hgone : ∃ g, MgmtOp.faceRemove g ∈ E.mgmt σ pkt f
  · obtain ⟨g, hg⟩ := hgone
    refine foldlM_inv_mem (I := Relay.Faced) (fun σ₁ op hop σ₂ h₁ ho => ?_) h hm
    refine mgmtOp_faced h₁ ?_ ho
    rintro ⟨p, q, rfl⟩
    exact absurd hop (hE σ pkt f g hg p q)
  · have hkeep : τ.Faced ∧ τ.Listed f := by
      refine foldlM_inv_mem (I := fun σ : Relay => σ.Faced ∧ σ.Listed f)
        (fun σ₁ op hop σ₂ h₁ ho => ?_) ⟨h, hf⟩ hm
      refine ⟨mgmtOp_faced h₁.1 (fun _ => h₁.2) ho, mgmtOp_listed ?_ h₁.2 ho⟩
      rintro g rfl
      exact hgone ⟨g, hop⟩
    exact hkeep.1

theorem handleInterest_faced {cMatch : Pkt → Content → Run Bool} {b : Bool} (hE : E.OneCommand)
    (h : σ.Faced) (hi : handleInterest E now cMatch σ f pkt = .ok (τ, b)) : τ.Faced := by
  have hnonce : ∀ σ₁, nonceIsDup σ pkt = some σ₁ → σ₁.Faced ∧ (σ.Listed f → σ₁.Listed f) := by
    intro σ₁ hn
    obtain ⟨ns, rfl⟩ := nonceIsDup_eq hn
    exact ⟨h.sub rfl (List.Subset.refl _), id⟩
  cases handleInterest_handled hi with
  | dup => exact h
  | mgmt hx hn _ h₂ =>
    obtain ⟨h₁, hf⟩ := hnonce _ hn
    exact mgmt_faced hE h₁ (hf (Relay.listed_of_face hx)) h₂
  | hit _ hn _ _ h₂ =>
    obtain ⟨o, rfl⟩ := deliver_eq h₂
    exact (hnonce _ hn).1.sub rfl (List.Subset.refl _)
  | drop _ hn => exact (hnonce _ hn).1
  | insert hx hn _ _ hr =>
    obtain ⟨h₁, hf⟩ := hnonce _ hn
    exact pitInsert_faced h₁ (hf (Relay.listed_of_face hx)) hr _ rfl

theorem handleContent_faced (h : σ.Faced) (hc : handleContent E now σ pkt = .ok τ) : τ.Faced := by
  cases handleContent_handled hc with
  | dup => exact h
  | unsolicited _ hs | served _ hs => exact servePending_faced h hs
  | cached _ hs _ hc => exact contentAdd2cache_faced (servePending_faced h hs) hc

theorem handlersKeep_faced (hE : E.OneCommand) (now : Nat) (f : FaceId) :
    HandlersKeep E now f Relay.Faced where
  interest h _ hi := handleInterest_faced hE h hi
  content := handleContent_faced
  contentRemove h _ := h.sub rfl (List.Subset.refl _)
  enqueue := faceEnqueue_faced

end Handlers

/-! ## The runs -/

/-- What happens to the faces and to what points to them. -/
inductive FaceEvent where
  /-- `ccnl_core_RX`. -/
  | rx (now : Nat) (ifndx : Int) (sa : Option SockAddr) (mem : List UInt8) (len : Nat)
  /-- `ccnl_do_ageing`. -/
  | ageing (now : Nat)
  /-- `ccnl_face_remove` of a live face. -/
  | faceRemove (f : FaceId)
  /-- `ccnl_fib_add_entry` with a live face. -/
  | fibAdd (p : Prefix) (f : FaceId)
  /-- `ccnl_fib_rem_entry`. -/
  | fibRem (p : Option Prefix) (f : Option FaceId)

def FaceEvent.run (E : Env) : FaceEvent → Relay → Run Relay
  | rx now ifndx sa mem len, σ => coreRX E now σ ifndx sa mem len
  | ageing now, σ => doAgeing now σ
  | faceRemove f, σ => do
    let _ ← σ.face f
    return Ccnl.faceRemove σ f
  | fibAdd p f, σ => do
    let _ ← σ.face f
    return fibAddEntry σ p (some f)
  | fibRem p f, σ => return fibRemEntry σ p f

/-- No face has been made, and nothing points to one. -/
structure Relay.Faceless (σ : Relay) : Prop where
  faces : σ.faces = []
  pit : σ.pit = []
  fib : ∀ fwd ∈ σ.fib, fwd.face = none

def faceSystem (E : Env) : Sys Relay FaceEvent where
  Start := Relay.Faceless
  step := FaceEvent.run E

theorem faceSystem_faced {E : Env} (hE : E.OneCommand) : (faceSystem E).Keeps Relay.Faced where
  start σ h :=
    { nodup := by simp [h.faces]
      ids := by simp [Relay.Listed, h.faces]
      refs := by
        rintro f (⟨i, hi, -⟩ | ⟨fwd, hfwd, hf⟩)
        · simp [h.pit] at hi
        · simp [h.fib fwd hfwd] at hf }
  step e σ τ h hs := by
    cases e with
    | rx now ifndx sa mem len =>
      change coreRX E now σ ifndx sa mem len = .ok τ at hs
      exact coreRX_keeps (handlersKeep_faced hE now) (getFaceOrCreate_faced h now ifndx sa) hs
    | ageing now => exact doAgeing_faced h hs
    | faceRemove f =>
      obtain ⟨x, -, hs⟩ := (bind_eq_ok _ _ _).mp hs
      cases hs
      exact faceRemove_faced h f
    | fibAdd p f =>
      obtain ⟨x, hx, hs⟩ := (bind_eq_ok _ _ _).mp hs
      cases hs
      exact fibAddEntry_faced h p (Relay.listed_of_face hx)
    | fibRem p f =>
      cases hs
      exact fibRemEntry_faced h p f

/-- What `ccnl_face_remove` takes away: the face, the FIB entries over it, and the PIT entries
without another pending face. The other PIT entries keep their other pending faces. -/
structure FaceGone (σ : Relay) (f : FaceId) (τ : Relay) : Prop where
  faces : ∃ l₁ x l₂, σ.faces = l₁ ++ x :: l₂ ∧ x.faceid = f ∧ τ.faces = l₁ ++ l₂
  fib : τ.fib = σ.fib.filter fun fwd => fwd.face ≠ some f
  pit : τ.pit = (σ.pit.filter fun i => ∃ pi ∈ i.pending, pi.face ≠ f).map fun i =>
    { i with
      «from» := if i.from = some f then none else i.from
      pending := i.pending.filter fun pi => pi.face ≠ f }

theorem faceRemove_gone {σ : Relay} {f : FaceId} (h : σ.Faced) (hf : σ.Listed f) :
    FaceGone σ f (faceRemove σ f) where
  faces := by
    obtain ⟨x, hx, hxf⟩ := hf
    obtain ⟨l₁, l₂, hl⟩ := List.append_of_mem hx
    refine ⟨l₁, x, l₂, hl, hxf, ?_⟩
    have hother : ∀ y ∈ l₁ ++ l₂, y.faceid ≠ f := by
      have hn : (l₁ ++ x :: l₂).Pairwise fun y z => y.faceid ≠ z.faceid :=
        hl ▸ List.pairwise_map.mp h.nodup
      obtain ⟨-, hright, hleft⟩ := List.pairwise_append.mp hn
      intro y hy
      rcases List.mem_append.mp hy with hy | hy
      · exact hxf ▸ hleft y hy x List.mem_cons_self
      · exact hxf ▸ (List.rel_of_pairwise_cons hright hy).symm
    show σ.faces.filter _ = _
    rw [hl, List.filter_append, List.filter_cons_of_neg (by simp [hxf]), ← List.filter_append,
      List.filter_eq_self]
    intro y hy
    simpa using hother y hy
  fib := by
    refine List.filter_congr fun fwd _ => ?_
    by_cases hfwd : fwd.face = some f <;> simp [hfwd]
  pit := by
    show σ.pit.filterMap (faceClean f) = _
    rw [← List.filterMap_eq_map, List.filterMap_filter]
    refine List.filterMap_congr fun i _ => ?_
    have hpend : (i.pending.filter (·.face != f)) = i.pending.filter fun pi => pi.face ≠ f :=
      List.filter_congr fun pi _ => by by_cases hpi : pi.face = f <;> simp [hpi]
    unfold faceClean
    by_cases hne : ∃ pi ∈ i.pending, pi.face ≠ f
    · have hnil : i.pending.filter (fun pi => pi.face ≠ f) ≠ [] := by
        obtain ⟨pi, hpi, hpf⟩ := hne
        exact List.ne_nil_of_mem (List.mem_filter.mpr ⟨hpi, by simpa using hpf⟩)
      simp only [hpend, if_neg hnil, hne, decide_true, if_true, Function.comp]
    · have hnil : i.pending.filter (fun pi => pi.face ≠ f) = [] := by
        push Not at hne
        simpa using hne
      simp only [hpend, if_pos hnil, hne, decide_false]
      rfl

end Ccnl
