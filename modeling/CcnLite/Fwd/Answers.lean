import CcnLite.Fwd.Handed

/-!
# Data goes to those who ask, and those who ask are kept

A face `Waits` for an Interest when it is in the pending list of an entry that holds the Interest.
Two facts about a call: a face waits only when it has waited before or has just sent an Interest
that joins the entry (`Call.waits_source`), and it goes on waiting unless the call settles the
matter (`Call.waits_until`).

From the first: each Data that a face gets answers an Interest that it has sent, with a packet that
the relay has been given (`data_answers`). From the second: an Interest stays in the PIT until its
Data goes out, the timer drops it, or its face goes (`request_kept`).
-/

namespace Ccnl

open CRun

/-- The face waits for the Interest. -/
def Waits (f : FaceId) (p : Pkt) (pit : List Interest) : Prop :=
  ∃ i ∈ pit, i.pkt = p ∧ ∃ pi ∈ i.pending, pi.face = f

/-- The Interest `q` is for an entry with the Interest `p`: it has made it, or has been found to be
the same. -/
def JoinsWith (p q : Pkt) : Prop := p = q ∨ interestIsSame { pkt := p } q = .ok true

/-! ## What edits do to those who wait -/

section Edits

variable {f g : FaceId} {p : Pkt} {pit : List Interest}

/-- A walk that takes faces from the entries makes none wait. -/
theorem waits_of_filterMap {r : Interest → Option Interest} (hr : ∀ i j, r i = some j → j.Le i)
    (h : Waits f p (pit.filterMap r)) : Waits f p pit := by
  obtain ⟨j, hj, rfl, pj, hpj, rfl⟩ := h
  obtain ⟨i, hi, hij⟩ := List.mem_filterMap.mp hj
  have hle := hr i j hij
  obtain ⟨pi, hpi, hface⟩ := List.mem_map.mp
    (hle.pending.subset (List.mem_map_of_mem (f := Pendint.face) hpj))
  exact ⟨i, hi, hle.pkt.symm, pi, hpi, hface⟩

theorem guard_le {b : Interest → Prop} [DecidablePred b] (i j : Interest)
    (h : Option.guard (fun i => decide (b i)) i = some j) : j.Le i := by
  obtain ⟨rfl, -⟩ := Option.guard_eq_some_iff.mp h
  exact .refl i

theorem ageInterest_le {t : Nat} (i j : Interest) (h : ageInterest t i = some j) : j.Le i := by
  obtain ⟨-, -, rfl⟩ := ageInterest_eq_some h
  exact ⟨rfl, .refl _⟩

theorem mem_appendPending {now : Nat} {i : Interest} {pj : Pendint}
    (h : pj ∈ (interestAppendPending now i g).pending) :
    pj.face = g ∨ ∃ pi ∈ i.pending, pi.face = pj.face := by
  unfold interestAppendPending at h
  split at h
  · obtain ⟨pi, hpi, rfl⟩ := List.mem_map.mp h
    refine .inr ⟨pi, hpi, ?_⟩
    split <;> rfl
  · rcases List.mem_append.mp h with h | h
    · exact .inr ⟨pj, h, rfl⟩
    · exact .inl (by rw [List.mem_singleton.mp h])

/-- A face that waits goes on waiting when another joins the entry. -/
theorem appendPending_keeps (now : Nat) (i : Interest) (g : FaceId) {pi : Pendint}
    (h : pi ∈ i.pending) : ∃ pj ∈ (interestAppendPending now i g).pending, pj.face = pi.face := by
  unfold interestAppendPending
  split
  · refine ⟨_, List.mem_map_of_mem h, ?_⟩
    split <;> rfl
  · exact ⟨pi, List.mem_append_left _ h, rfl⟩

theorem waits_modify {now k : Nat}
    (h : Waits f p pit) : Waits f p (pit.modify k (interestAppendPending now · g)) := by
  obtain ⟨i, hi, rfl, pi, hpi, rfl⟩ := h
  obtain ⟨n, hn, rfl⟩ := List.mem_iff_getElem.mp hi
  have hn' : n < (pit.modify k (interestAppendPending now · g)).length := by simpa using hn
  refine ⟨(pit.modify k (interestAppendPending now · g))[n], List.getElem_mem hn', ?_⟩
  rw [List.getElem_modify]
  split
  · obtain ⟨pj, hpj, hface⟩ := appendPending_keeps now pit[n] g hpi
    exact ⟨appendPending_pkt now _ g, pj, hpj, hface⟩
  · exact ⟨rfl, pi, hpi, rfl⟩

/-- When a face joins the entry `i`. -/
theorem waits_of_modify {now k : Nat} {i : Interest} (hi : pit[k]? = some i)
    (h : Waits f p (pit.modify k (interestAppendPending now · g))) :
    Waits f p pit ∨ (f = g ∧ p = i.pkt) := by
  obtain ⟨j, hj, rfl, pj, hpj, rfl⟩ := h
  obtain ⟨n, hn, rfl⟩ := List.mem_iff_getElem.mp hj
  have hn' : n < pit.length := by simpa using hn
  rw [List.getElem_modify] at hpj ⊢
  split at hpj <;> rename_i hkn
  · obtain rfl : pit[n] = i := by
      rw [hkn, List.getElem?_eq_getElem hn'] at hi
      exact Option.some.inj hi
    rw [if_pos hkn, appendPending_pkt]
    rcases mem_appendPending hpj with hface | ⟨pi, hpi, hface⟩
    · exact .inr ⟨hface, rfl⟩
    · exact .inl ⟨_, List.getElem_mem hn', rfl, pi, hpi, hface⟩
  · rw [if_neg hkn]
    exact .inl ⟨_, List.getElem_mem hn', rfl, pj, hpj, rfl⟩

theorem waits_of_faceRemoves {fs : List Face}
    (h : Waits f p (edited (fs.map (faceCleanEdit ·.faceid)) pit)) : Waits f p pit := by
  induction fs generalizing pit with
  | nil => exact h
  | cons x fs ih => exact waits_of_filterMap (fun _ _ => faceClean_le) (ih h)

theorem waits_cons (i : Interest) (h : Waits f p pit) : Waits f p (i :: pit) := by
  obtain ⟨j, hj, hw⟩ := h
  exact ⟨j, List.mem_cons_of_mem _ hj, hw⟩

/-- When another face goes. -/
theorem waits_faceClean (hfg : f ≠ g) (h : Waits f p pit) :
    Waits f p (edited [faceCleanEdit g] pit) := by
  obtain ⟨i, hi, rfl, pi, hpi, rfl⟩ := h
  have hstay : pi ∈ i.pending.filter (·.face != g) := List.mem_filter.mpr ⟨hpi, by simpa using hfg⟩
  refine ⟨_, List.mem_filterMap.mpr ⟨i, hi, if_neg ?_⟩, rfl, pi, hstay, rfl⟩
  exact List.ne_nil_of_mem hstay

/-- When a content is served. -/
theorem waits_served {digest : List UInt8 → Digest} {c : Content} (h : Waits f p pit) :
    Waits f p (edited [servedEdit digest c] pit) ∨
      (Matches digest { pkt := p } c ∧ f ∈ answered digest c pit) := by
  obtain ⟨i, hi, rfl, pi, hpi, rfl⟩ := h
  by_cases hm : Matches digest i c
  · exact .inr ⟨hm, mem_answered.mpr ⟨i, hi, hm, pi, hpi, rfl⟩⟩
  · exact .inl ⟨i, List.mem_filterMap.mpr ⟨i, hi, Option.guard_eq_some_iff.mpr ⟨rfl, by simpa using hm⟩⟩,
      rfl, pi, hpi, rfl⟩

end Edits

/-! ## Who waits has asked -/

section Source

variable {E : Env} {now : Nat} {σ τ : Relay} {f g : FaceId} {p pkt : Pkt}

theorem pitInsert_source {r : Option Relay} (h : pitInsert now σ g pkt = .ok r)
    (hw : Waits f p (r.getD σ).pit) : Waits f p σ.pit ∨ (f = g ∧ JoinsWith p pkt) := by
  cases pitInsert_inserted h with
  | drop hfwd => exact .inl hw
  | full hfwd hk hn => exact .inl hw
  | pending hfwd hk =>
    obtain ⟨i, hi, hsame⟩ := pitFind_eq_ok hk
    rcases waits_of_modify hi hw with hw | ⟨rfl, rfl⟩
    · exact .inl hw
    · exact .inr ⟨rfl, .inr hsame⟩
  | @new σ₁ τ i hfwd hk hn hp =>
    have hprop : τ.pit = _ := congrArg Tables.pit (interestPropagate_tables hp)
    obtain ⟨-, rfl, rfl⟩ := interestNew_some hn
    obtain ⟨j, hj, rfl, pj, hpj, rfl⟩ := hw
    change j ∈ τ.pit at hj
    rw [hprop] at hj
    rcases List.mem_cons.mp hj with rfl | hj
    · rcases mem_appendPending hpj with hface | ⟨pi, hpi, -⟩
      · rw [appendPending_pkt]
        exact .inr ⟨hface, .inl rfl⟩
      · cases hpi
    · exact .inl ⟨j, hj, rfl, pj, hpj, rfl⟩

theorem waits_interestNew {q : Pkt} (hw : Waits f p (edited (interestNewEdits now σ g q id) σ.pit)) :
    Waits f p σ.pit := by
  unfold interestNewEdits at hw
  cases hn : interestNew now σ g q with
  | none => simpa [hn] using hw
  | some r =>
    rw [hn] at hw
    obtain ⟨j, hj, rfl, pj, hpj, rfl⟩ := hw
    rcases List.mem_cons.mp hj with rfl | hj
    · change pj ∈ r.2.pending at hpj
      rw [(interestNew_eq hn).2.2.2.2] at hpj
      cases hpj
    · exact ⟨j, hj, rfl, pj, hpj, rfl⟩

theorem mgmtOp_source {op : MgmtOp} (h : op.run E now g σ = .ok τ) (hw : Waits f p τ.pit) :
    Waits f p σ.pit := by
  rw [mgmtOp_pit h] at hw
  cases op with
  | faceRemove g' => exact waits_of_filterMap (fun _ _ => faceClean_le) hw
  | contentAdd name pkt => exact waits_of_filterMap guard_le hw
  | interestNew name pkt => exact waits_interestNew hw
  | _ => exact hw

theorem mgmt_source {ops : List MgmtOp} (h : ops.foldlM (MgmtOp.run E now g) σ = .ok τ)
    (hw : Waits f p τ.pit) : Waits f p σ.pit := by
  induction ops generalizing σ with
  | nil =>
    cases h
    exact hw
  | cons op ops ih =>
    obtain ⟨σ₁, h₁, h⟩ := foldlM_cons_eq_ok h
    exact mgmtOp_source h₁ (ih h)

theorem handleInterest_source {cMatch : Pkt → Content → Run Bool} {b : Bool}
    (h : handleInterest E now cMatch σ g pkt = .ok (τ, b)) (hw : Waits f p τ.pit) :
    Waits f p σ.pit ∨ (f = g ∧ JoinsWith p pkt) := by
  have hnonce : ∀ σ₁, nonceIsDup σ pkt = some σ₁ → σ₁.pit = σ.pit := fun σ₁ hn => by
    obtain ⟨ns, rfl⟩ := nonceIsDup_eq hn
    rfl
  cases handleInterest_handled h with
  | dup => exact .inl hw
  | mgmt _ hn _ h₂ => exact .inl (hnonce _ hn ▸ mgmt_source h₂ hw)
  | hit _ hn _ _ h₂ =>
    rw [show τ.pit = _ from congrArg Tables.pit (deliver_tables h₂)] at hw
    exact .inl (hnonce _ hn ▸ hw)
  | drop _ hn _ _ hr => exact hnonce _ hn ▸ pitInsert_source hr hw
  | insert _ hn _ _ hr => exact hnonce _ hn ▸ pitInsert_source hr hw

/-- A face that waits after a call has waited before it, or the call is an Interest from the face
that joins the entry. -/
theorem Call.waits_source {c : Call} (h : (calls E).step c σ = .ok τ) (hw : Waits f p τ.pit) :
    Waits f p σ.pit ∨
      ∃ now cMatch q, c = .table (.interest now cMatch f q) ∧ JoinsWith p q := by
  have hquiet : c.pitEdits E σ = [] → Waits f p σ.pit := fun hp => by
    rwa [Call.pit h, hp] at hw
  cases c with
  | table e =>
    cases e with
    | interest now cMatch g pkt =>
      obtain ⟨⟨σ₁, b⟩, h₁, rfl⟩ := (map_eq_ok _ _ _).mp h
      rcases handleInterest_source h₁ hw with hw | ⟨rfl, hj⟩
      · exact .inl hw
      · exact .inr ⟨now, cMatch, pkt, rfl, hj⟩
    | ageing now =>
      rw [Call.pit h] at hw
      have haged : Waits f p (σ.pit.filterMap (ageInterest (u32 now))) := waits_of_faceRemoves hw
      exact .inl (waits_of_filterMap ageInterest_le haged)
    | content now pkt =>
      rw [Call.pit h] at hw
      simp only [Call.pitEdits, TableEvent.pitEdits] at hw
      split at hw
      · exact .inl hw
      · exact .inl (waits_of_filterMap guard_le hw)
    | faceRemove g =>
      rw [Call.pit h] at hw
      exact .inl (waits_of_filterMap (fun _ _ => faceClean_le) hw)
    | csAdd c =>
      rw [Call.pit h] at hw
      simp only [Call.pitEdits, TableEvent.pitEdits] at hw
      split at hw
      · exact .inl hw
      · exact .inl (waits_of_filterMap guard_le hw)
    | _ => exact .inl (hquiet rfl)
  | _ => exact .inl (hquiet rfl)

end Source

/-! ## What the relay holds it has been given -/

/-- The packet is in the content store. -/
def InStore (pkt : Pkt) (contents : List Content) : Prop := ∃ c ∈ contents, c.pkt = pkt

/-- The call gives the Data to the relay. -/
def Call.Brings (E : Env) (σ : Relay) : Call → Pkt → Prop
  | .table (.content _ pkt), p => p = pkt
  | .table (.csAdd c), p | .table (.add2cache c), p => p = c.pkt
  | .table (.interest _ _ f q), p => ∃ σ₁, nonceIsDup σ q = some σ₁ ∧ isMgmt q = .ok true ∧
      ∃ name pkt, .contentAdd name pkt ∈ E.mgmt σ₁ q f ∧ p = { pkt with pfx := some name }
  | _, _ => False

section Given

variable {E : Env} {now : Nat} {σ τ : Relay} {f g : FaceId} {p pkt : Pkt}

theorem holds_of_shrinks (hs : Shrinks σ τ) (h : InStore pkt τ.contents) : InStore pkt σ.contents := by
  obtain ⟨d, hd, rfl⟩ := h
  obtain ⟨c, hc, hle⟩ := thin_mem hs.contents d hd
  exact ⟨c, hc, hle.pkt.symm⟩

theorem contentAdd2cache_holds {c : Content} (ha : contentAdd2cache σ c = .ok τ)
    (h : InStore pkt τ.contents) : InStore pkt σ.contents ∨ pkt = c.pkt := by
  obtain ⟨known, -, ha⟩ := (bind_eq_ok _ _ _).mp ha
  split at ha
  · cases ha
    exact .inl h
  · simp only at ha
    split at ha <;> cases ha
    · obtain ⟨d, hd, rfl⟩ := h
      rcases List.mem_cons.mp hd with rfl | hd
      · exact .inr rfl
      · exact .inl (holds_of_shrinks (evict_shrinks σ) ⟨d, hd, rfl⟩)
    · exact .inl (holds_of_shrinks (evict_shrinks σ) h)

/-- Serving a content and putting it into the cache. -/
theorem serve_add_holds {digest : List UInt8 → Digest} {c : Content} {s : Serving}
    (hs : servePending digest σ c = .ok s) (ha : contentAdd2cache s.relay s.c = .ok τ)
    (h : InStore pkt τ.contents) : InStore pkt σ.contents ∨ pkt = c.pkt := by
  obtain ⟨-, hcs, hpkt⟩ := servePending_shrinks hs
  rw [← hcs, ← hpkt]
  exact contentAdd2cache_holds ha h

theorem mgmtOp_holds {op : MgmtOp} (ho : op.run E now g σ = .ok τ) (h : InStore pkt τ.contents) :
    InStore pkt σ.contents ∨
      ∃ name q, op = .contentAdd name q ∧ pkt = { q with pfx := some name } := by
  by_cases hop : ∃ name q, op = .contentAdd name q
  · obtain ⟨name, q, rfl⟩ := hop
    obtain ⟨s, hs, ho⟩ := (bind_eq_ok _ _ _).mp ho
    exact (serve_add_holds hs ho h).imp_right fun hp => ⟨name, q, rfl, hp⟩
  · refine .inl ?_
    cases op <;> simp only [MgmtOp.run] at ho
    case faceNew sa static reflect =>
      have ht := @getFaceOrCreate_tables σ now (-1) (some sa)
      split at ho <;> rename_i hg <;> rw [hg] at ht <;> cases ho <;>
        exact holds_of_shrinks (Shrinks.of_tables ht) h
    case faceRemove g' =>
      cases ho
      exact h
    case fibAdd name g' =>
      split at ho <;> cases ho
      · exact holds_of_shrinks (Shrinks.of_tables (fibAddEntry_tables name g')) h
      · exact h
    case fibRem name g' =>
      cases ho
      exact holds_of_shrinks (Shrinks.of_tables (fibRemEntry_tables _ _)) h
    case contentAdd name q => exact absurd ⟨name, q, rfl⟩ hop
    case contentRemove k =>
      split at ho <;> cases ho
      · exact holds_of_shrinks (contentRemove_shrinks ‹_›) h
      · exact h
    case interestNew name q =>
      cases ho
      cases hn : interestNew now σ (some g) { q with pfx := some name } with
      | none => simpa [hn] using h
      | some r =>
        obtain ⟨-, -, hr⟩ := interestNew_some hn
        simpa [hn, hr] using h
    case enqueue buf => exact holds_of_shrinks (Shrinks.of_tables (faceEnqueue_tables ho)) h

theorem mgmt_holds {ops : List MgmtOp} (ho : ops.foldlM (MgmtOp.run E now g) σ = .ok τ)
    (h : InStore pkt τ.contents) :
    InStore pkt σ.contents ∨
      ∃ name q, .contentAdd name q ∈ ops ∧ pkt = { q with pfx := some name } := by
  induction ops generalizing σ with
  | nil =>
    cases ho
    exact .inl h
  | cons op ops ih =>
    obtain ⟨σ₁, h₁, ho⟩ := foldlM_cons_eq_ok ho
    rcases ih ho with hσ₁ | ⟨name, q, hmem, hp⟩
    · exact (mgmtOp_holds h₁ hσ₁).imp_right fun ⟨name, q, hop, hp⟩ =>
        ⟨name, q, hop ▸ List.mem_cons_self, hp⟩
    · exact .inr ⟨name, q, List.mem_cons_of_mem _ hmem, hp⟩

/-- What the relay holds after a call it has held before, or the call gives it. -/
theorem Call.holds {c : Call} (hc : (calls E).step c σ = .ok τ) (h : InStore pkt τ.contents) :
    InStore pkt σ.contents ∨ c.Brings E σ pkt := by
  cases c with
  | table e =>
    cases e with
    | interest now cMatch g q =>
      obtain ⟨⟨σ₁, b⟩, h₁, rfl⟩ := (map_eq_ok _ _ _).mp hc
      have hnonce : ∀ σ₁, nonceIsDup σ q = some σ₁ → σ₁.contents = σ.contents := fun σ₁ hn => by
        obtain ⟨ns, rfl⟩ := nonceIsDup_eq hn
        rfl
      cases handleInterest_handled h₁ with
      | dup => exact .inl h
      | mgmt _ hn hm h₂ =>
        rw [← hnonce _ hn]
        exact (mgmt_holds h₂ h).imp_right fun ⟨name, pk, hmem, hp⟩ => ⟨_, hn, hm, name, pk, hmem, hp⟩
      | hit _ hn _ _ h₂ =>
        rw [← hnonce _ hn]
        exact .inl (holds_of_shrinks (Shrinks.of_tables (deliver_tables h₂)) h)
      | drop _ hn => exact .inl (hnonce _ hn ▸ h)
      | insert _ hn _ _ hr =>
        rw [← hnonce _ hn]
        cases pitInsert_inserted hr with
        | pending | full => exact .inl h
        | new _ _ hnew hp =>
          have ht := congrArg Tables.contents (interestPropagate_tables hp)
          obtain ⟨-, -, rfl⟩ := interestNew_some hnew
          change InStore pkt (Relay.tables _).contents at h
          rw [ht] at h
          exact .inl h
    | content now q =>
      cases handleContent_handled hc with
      | dup => exact .inl h
      | unsolicited _ hs | served _ hs => exact .inl (holds_of_shrinks (servePending_shrinks hs).1 h)
      | cached _ hs _ ha => exact serve_add_holds hs ha h
    | ageing now =>
      rw [doAgeing_eq hc] at h
      have hcontents : ∀ (fs : List Face) (σ : Relay), (faceRemoves fs σ).contents = σ.contents :=
        fun fs => by
          induction fs with
          | nil => exact fun _ => rfl
          | cons x fs ih => exact fun σ => ih (faceRemove σ x.faceid)
      rw [hcontents] at h
      obtain ⟨d, hd, rfl⟩ := h
      obtain ⟨c, hc, hcd⟩ := List.mem_filterMap.mp hd
      refine .inl ⟨c, hc, ?_⟩
      unfold ageContent at hcd
      split at hcd
      · cases hcd
      · split at hcd <;> cases hcd <;> rfl
    | face now ifndx sa =>
      cases hc
      exact .inl (holds_of_shrinks (Shrinks.of_tables getFaceOrCreate_tables) h)
    | faceRemove g =>
      cases hc
      exact .inl h
    | csAdd c =>
      obtain ⟨⟨σ₁, b⟩, h₁, rfl⟩ := (map_eq_ok _ _ _).mp hc
      obtain ⟨⟨σ₂, new⟩, h₂, h₁⟩ := (bind_eq_ok _ _ _).mp h₁
      obtain ⟨known, -, h₃⟩ := (bind_eq_ok _ _ _).mp h₂
      obtain ⟨σ₃, ha, h₃⟩ := (bind_eq_ok _ _ _).mp h₃
      cases h₃
      cases known with
      | true =>
        cases h₁
        exact contentAdd2cache_holds ha h
      | false =>
        obtain ⟨s, hs, h₁⟩ := (bind_eq_ok _ _ _).mp h₁
        obtain ⟨-, hcs, hpkt⟩ := servePending_shrinks hs
        simp only at h₁
        split at h₁ <;> cases h₁
        · obtain ⟨d, hd, rfl⟩ := h
          obtain ⟨d', hd', rfl | rfl⟩ := mem_modify hd
          · exact contentAdd2cache_holds ha (hcs ▸ ⟨d, hd', rfl⟩)
          · exact .inr hpkt
        · exact contentAdd2cache_holds ha (hcs ▸ h)
    | csRemove path pfx =>
      cases hc
      exact .inl (holds_of_shrinks csRemove_shrinks h)
    | add2cache c =>
      obtain ⟨⟨σ₁, b⟩, h₁, rfl⟩ := (map_eq_ok _ _ _).mp hc
      obtain ⟨known, -, h₁⟩ := (bind_eq_ok _ _ _).mp h₁
      obtain ⟨σ₂, ha, h₁⟩ := (bind_eq_ok _ _ _).mp h₁
      cases h₁
      exact contentAdd2cache_holds ha h
    | contentRemove k =>
      change (pure _ : Run Relay) = _ at hc
      split at hc <;> cases hc
      · exact .inl (holds_of_shrinks (contentRemove_shrinks ‹_›) h)
      · exact .inl h
    | static k b =>
      cases hc
      exact .inl (holds_of_shrinks (modify_shrinks k (fun c => { c with static := b }) fun _ => rfl) h)
  | fibAdd name g =>
    cases hc
    have ht : (fibAddEntry σ name g).contents = σ.contents := by
      unfold fibAddEntry
      split <;> rfl
    exact .inl (ht ▸ h)
  | fibRem name g =>
    cases hc
    exact .inl (holds_of_shrinks (Shrinks.of_tables (fibRemEntry_tables name g)) h)
  | enqueue g buf => exact .inl (holds_of_shrinks (Shrinks.of_tables (faceEnqueue_tables hc)) h)

end Given

/-! ## Data answers an Interest -/

/-- The Data satisfies the Interest `q`: the lookup in the content store takes it for `q`, or it
matches an entry of the PIT that `q` is for. -/
def Satisfies (E : Env) (cMatch : Pkt → Content → Run Bool) (q pkt : Pkt) : Prop :=
  ∃ c : Content, c.pkt = pkt ∧
    (cMatch q c = .ok true ∨ ∃ p, JoinsWith p q ∧ Matches E.digest { pkt := p } c)

/-- The relay has been given the Data before or by these calls. -/
def Given (E : Env) (σ : Relay) (cs : List Call) (pkt : Pkt) : Prop :=
  InStore pkt σ.contents ∨ ∃ before c σ₁ σ₂,
    Comes (fun σ c => (calls E).step c σ) cs σ before c σ₁ σ₂ ∧ c.Brings E σ₁ pkt

section Answers

variable {E : Env} {now : Nat} {σ τ : Relay} {f g : FaceId} {p pkt : Pkt}

theorem csFind_some {cMatch : Pkt → Content → Run Bool} {cs : List Content} {c : Content}
    (h : csFind cMatch pkt cs = .ok (some c)) : c ∈ cs ∧ cMatch pkt c = .ok true := by
  induction cs with
  | nil => cases h
  | cons d cs ih =>
    obtain ⟨cp, -, h⟩ := (bind_eq_ok _ _ _).mp h
    obtain ⟨np, -, h⟩ := (bind_eq_ok _ _ _).mp h
    split at h
    · exact ⟨List.mem_cons_of_mem _ (ih h).1, (ih h).2⟩
    · obtain ⟨b, hb, h⟩ := (bind_eq_ok _ _ _).mp h
      split at h
      · rename_i htrue
        cases h
        exact ⟨List.mem_cons_self, htrue ▸ hb⟩
      · exact ⟨List.mem_cons_of_mem _ (ih h).1, (ih h).2⟩

/-- Data of a walk over the PIT goes to a face that waits for it. -/
theorem mem_served {digest : List UInt8 → Digest} {c : Content}
    (h : Handout.data f pkt ∈ served digest σ c) :
    pkt = c.pkt ∧ ∃ p, Matches digest { pkt := p } c ∧ Waits f p σ.pit := by
  cases hs : servePending digest σ c with
  | error e => simp [served, hs] at h
  | ok s =>
    obtain ⟨sent, hsent, -, hmem, -⟩ := served_eq hs
    rw [hsent] at h
    obtain ⟨g, hg, heq⟩ := List.mem_map.mp h
    cases heq
    obtain ⟨i, hi, hm, pi, hpi, hface⟩ := mem_answered.mp ((hmem f).mp hg).1
    exact ⟨rfl, i.pkt, hm, i, hi, rfl, pi, hpi, hface⟩

theorem forwards_ne_data {i : Interest} {o : Handout} (h : o ∈ forwards σ i) :
    o ≠ .data f pkt := by
  rintro rfl
  obtain ⟨fwd, -, h⟩ := List.mem_flatMap.mp h
  unfold forwarded at h
  rcases List.mem_append.mp h with h | h <;> obtain ⟨x, -, hx⟩ := Option.map_eq_some_iff.mp
    (Option.mem_toList.mp h) <;> cases hx

theorem pitInsert_ne_data {o : Handout} {q : Pkt} (h : o ∈ pitInsertHands now σ g q) :
    o ≠ .data f pkt := by
  unfold pitInsertHands at h
  split at h
  · cases h
  · split at h
    · exact forwards_ne_data h
    · cases h

/-- Where the Data of a call comes from: the call is an Interest, and the content store has Data
for it, or the call brings Data, and the face waits for an Interest that it matches. -/
theorem Call.data_source {c : Call} (hc : (calls E).step c σ = .ok τ)
    (h : Handout.data f pkt ∈ c.hands E σ) :
    (∃ now cMatch q d, c = .table (.interest now cMatch f q) ∧ d ∈ σ.contents ∧ d.pkt = pkt ∧
      cMatch q d = .ok true) ∨
    (c.Brings E σ pkt ∧ ∃ d : Content, d.pkt = pkt ∧
      ∃ p, Matches E.digest { pkt := p } d ∧ Waits f p σ.pit) := by
  cases c with
  | table e =>
    cases e with
    | interest now cMatch g q =>
      obtain ⟨⟨σ₁, b⟩, h₁, rfl⟩ := (map_eq_ok _ _ _).mp hc
      have hnonce : ∀ σ₁, nonceIsDup σ q = some σ₁ →
          σ₁.contents = σ.contents ∧ σ₁.pit = σ.pit := fun σ₁ hn => by
        obtain ⟨ns, rfl⟩ := nonceIsDup_eq hn
        exact ⟨rfl, rfl⟩
      simp only [Call.hands, TableEvent.hands] at h
      unfold interestHands at h
      cases handleInterest_handled h₁ with
      | dup hx hn => simp [hx, hn] at h
      | mgmt hx hn hm h₂ =>
        simp only [hx, hn, hm] at h
        obtain ⟨before, op, σ₂, σ₃, hcomes, hop⟩ := written_mem h₂ h
        cases op with
        | contentAdd name pk =>
          obtain ⟨rfl, p, hp, hw⟩ := mem_served hop
          have hmem : MgmtOp.contentAdd name pk ∈ E.mgmt _ q g :=
            hcomes.isPrefix.subset (by simp)
          refine .inr ⟨⟨_, hn, hm, name, pk, hmem, rfl⟩, _, rfl, p, hp, ?_⟩
          exact (hnonce _ hn).2 ▸ mgmt_source hcomes.run hw
        | enqueue buf => simp [MgmtOp.hands] at hop
        | _ => simp [MgmtOp.hands] at hop
      | @hit x σ₁ _ d hx hn hm hfind h₂ =>
        simp only [hx, hn, hm, hfind, delivered] at h
        obtain ⟨hd, hmatch⟩ := csFind_some hfind
        split at h
        · obtain ⟨rfl, rfl⟩ : f = x.faceid ∧ pkt = d.pkt := by simpa using h
          rw [Relay.faceid_of_face hx]
          exact .inl ⟨now, cMatch, q, d, rfl, (hnonce _ hn).1 ▸ hd, rfl, hmatch⟩
        · cases h
      | drop hx hn hm hfind hr =>
        simp only [hx, hn, hm, hfind] at h
        exact absurd rfl (pitInsert_ne_data h)
      | insert hx hn hm hfind hr =>
        simp only [hx, hn, hm, hfind] at h
        exact absurd rfl (pitInsert_ne_data h)
    | content now q =>
      simp only [Call.hands, TableEvent.hands] at h
      split at h
      · cases h
      · obtain ⟨rfl, p, hp, hw⟩ := mem_served h
        exact .inr ⟨rfl, _, rfl, p, hp, hw⟩
    | ageing now =>
      obtain ⟨i, -, h⟩ := List.mem_flatMap.mp h
      exact absurd rfl (forwards_ne_data h)
    | csAdd d =>
      obtain ⟨⟨σ₁, b⟩, h₁, rfl⟩ := (map_eq_ok _ _ _).mp hc
      obtain ⟨⟨σ₂, new⟩, h₂, -⟩ := (bind_eq_ok _ _ _).mp h₁
      simp only [Call.hands, TableEvent.hands, h₂] at h
      obtain ⟨known, -, h₃⟩ := (bind_eq_ok _ _ _).mp h₂
      obtain ⟨σ₃, ha, h₃⟩ := (bind_eq_ok _ _ _).mp h₃
      cases h₃
      cases known with
      | true => cases h
      | false =>
        obtain ⟨rfl, p, hp, hw⟩ := mem_served h
        exact .inr ⟨rfl, d, rfl, p, hp, contentAdd2cache_pit ha ▸ hw⟩
    | _ => cases h
  | enqueue g buf => simp [Call.hands] at h
  | _ => cases h

/-- The calls so far have sent what the faces wait for, and given what the relay holds. -/
structure Accounted (E : Env) (σ₀ : Relay) (cs : List Call) (σ : Relay) : Prop where
  run : cs.foldlM (fun σ c => (calls E).step c σ) σ₀ = .ok σ
  asked : ∀ f p, Waits f p σ.pit →
    ∃ now cMatch q, .table (.interest now cMatch f q) ∈ cs ∧ JoinsWith p q
  given : ∀ pkt, InStore pkt σ.contents → Given E σ₀ cs pkt

theorem Given.append {σ₀ : Relay} {cs : List Call} (h : Given E σ₀ cs pkt) (c : Call) :
    Given E σ₀ (cs ++ [c]) pkt := by
  rcases h with h | ⟨before, d, σ₁, σ₂, hcomes, hb⟩
  · exact .inl h
  · exact .inr ⟨before, d, σ₁, σ₂,
      ⟨hcomes.isPrefix.trans (List.prefix_append _ _), hcomes.run, hcomes.step⟩, hb⟩

theorem Accounted.brings {σ₀ : Relay} {cs : List Call} {c : Call} (h : Accounted E σ₀ cs σ)
    (hc : (calls E).step c σ = .ok τ) (hb : c.Brings E σ pkt) : Given E σ₀ (cs ++ [c]) pkt :=
  .inr ⟨cs, c, σ, τ, ⟨List.prefix_rfl, h.run, hc⟩, hb⟩

theorem Accounted.next {σ₀ : Relay} {cs : List Call} {c : Call} (h : Accounted E σ₀ cs σ)
    (hc : (calls E).step c σ = .ok τ) : Accounted E σ₀ (cs ++ [c]) τ where
  run := by
    rw [List.foldlM_append, h.run, ok_bind, List.foldlM_cons, hc, ok_bind]
    rfl
  asked f p hw := by
    rcases Call.waits_source hc hw with hw | ⟨now, cMatch, q, rfl, hj⟩
    · obtain ⟨now, cMatch, q, hmem, hj⟩ := h.asked f p hw
      exact ⟨now, cMatch, q, List.mem_append_left _ hmem, hj⟩
    · exact ⟨now, cMatch, q, List.mem_append_right _ (List.mem_singleton_self _), hj⟩
  given pkt hh := by
    rcases Call.holds hc hh with hh | hb
    · exact (h.given pkt hh).append c
    · exact h.brings hc hb

/-- In every run of the relay from an empty PIT, each Data that goes to a face satisfies an Interest
that this face has sent by then, and is a packet that the relay has been given by then. -/
theorem data_answers {cs : List Call} (hp : σ.pit = [])
    (h : cs.foldlM (fun σ c => (calls E).step c σ) σ = .ok τ)
    (hd : .data f pkt ∈ history E cs σ) :
    ∃ before c σ₁ σ₂, Comes (fun σ c => (calls E).step c σ) cs σ before c σ₁ σ₂ ∧
      .data f pkt ∈ c.hands E σ₁ ∧ Given E σ (before ++ [c]) pkt ∧
      ∃ now cMatch q, .table (.interest now cMatch f q) ∈ before ++ [c] ∧
        Satisfies E cMatch q pkt := by
  obtain ⟨before, c, σ₁, σ₂, hcomes, hhand⟩ := written_mem h hd
  have hstart : Accounted E σ [] σ :=
    { run := rfl
      asked := fun f p hw => by
        obtain ⟨i, hi, -⟩ := hw
        rw [hp] at hi
        cases hi
      given := fun pkt hh => .inl hh }
  have hacc : Accounted E σ before σ₁ :=
    foldlM_history (fun _ _ _ _ hb hs => hb.next hs) hstart hcomes.run
  refine ⟨before, c, σ₁, σ₂, hcomes, hhand, ?_⟩
  rcases Call.data_source hcomes.step hhand with
    ⟨now, cMatch, q, d, rfl, hmem, rfl, hmatch⟩ | ⟨hb, d, rfl, p, hm, hw⟩
  · refine ⟨(hacc.given d.pkt ⟨d, hmem, rfl⟩).append _, now, cMatch, q, ?_, d, rfl, .inl hmatch⟩
    exact List.mem_append_right _ (List.mem_singleton_self _)
  · obtain ⟨now, cMatch, q, hmem, hj⟩ := hacc.asked f p hw
    exact ⟨hacc.brings hcomes.step hb, now, cMatch, q, List.mem_append_left _ hmem, d, rfl,
      .inr ⟨p, hj, hm⟩⟩

/-- A face asks for `/a`, and gets the Data that comes. -/
theorem data_answers_one :
    let name := Prefix.ofComps .ndntlv [[97]]
    let ask : Pkt :=
      { pfx := some name, s := .ndntlv { maxsuffix := 64, scope := 3 }, suite := .ndntlv }
    let answer : Pkt := { pfx := some name, s := .ndntlv {}, suite := .ndntlv }
    let cs : List Call :=
      [.table (.interest 0 (fun _ _ => .ok false) 1 ask), .table (.content 0 answer)]
    let σ : Relay := { faces := [{ faceid := 1, ifndx := 0 }] }
    ∃ before c σ₁ σ₂, Comes (fun σ c => (calls .still).step c σ) cs σ before c σ₁ σ₂ ∧
      .data 1 answer ∈ c.hands .still σ₁ ∧ Given .still σ (before ++ [c]) answer ∧
      ∃ now cMatch q, .table (.interest now cMatch 1 q) ∈ before ++ [c] ∧
        Satisfies .still cMatch q answer := by
  intro name ask answer cs σ
  obtain ⟨τ, hτ, -⟩ := exists_ok (x := cs.foldlM (fun σ c => (calls .still).step c σ) σ)
    (p := fun _ => True) (by decide +kernel)
  exact data_answers rfl hτ (by decide +kernel)

end Answers

/-! ## Who waits is kept -/

/-- These handouts answer the Interest for the face: a Data that matches it is among them, if the
face has an interface. -/
def HasAnswer (digest : List UInt8 → Digest) (hs : List Handout) (σ : Relay) (f : FaceId)
    (p : Pkt) : Prop :=
  ∃ c : Content, Matches digest { pkt := p } c ∧ (σ.Remote f → .data f c.pkt ∈ hs)

/-- The management operation ends the wait of the face for the Interest. -/
def MgmtOp.Settles (E : Env) (now : Nat) (g : FaceId) (σ : Relay) (op : MgmtOp) (f : FaceId)
    (p : Pkt) : Prop :=
  op = .faceRemove f ∨ HasAnswer E.digest (op.hands E now g σ) σ f p

/-- What ends the wait of the face for the Interest: the face is removed, the call hands out Data
for it, the timer drops the entry or the face, or a management operation does. -/
inductive Call.Settles (E : Env) (σ : Relay) (f : FaceId) (p : Pkt) : Call → Prop
  | removed : Settles E σ f p (.table (.faceRemove f))
  | answered {c : Call} (h : HasAnswer E.digest (c.hands E σ) σ f p) : Settles E σ f p c
  | dropped {now : Nat} {i : Interest} (hi : i ∈ σ.pit) (hp : i.pkt = p)
    (hw : ∃ pi ∈ i.pending, pi.face = f) (ha : ageInterest (u32 now) i = none) :
    Settles E σ f p (.ageing now)
  | expired {now : Nat} {x : Face} (hx : x ∈ σ.faces) (hf : x.faceid = f)
    (he : x.expired (u32 now) = true) : Settles E σ f p (.ageing now)
  | mgmt {now : Nat} {cMatch : Pkt → Content → Run Bool} {g : FaceId} {q : Pkt}
    {σ₁ σ₂ σ₃ : Relay} {before : List MgmtOp} {op : MgmtOp} (hn : nonceIsDup σ q = some σ₁)
    (hm : isMgmt q = .ok true)
    (hop : Comes (MgmtOp.run E now g) (E.mgmt σ₁ q g) σ₁ before op σ₂ σ₃)
    (h : op.Settles E now g σ₂ f p) : Settles E σ f p (.table (.interest now cMatch g q))

section Kept

variable {E : Env} {now : Nat} {σ τ : Relay} {f g : FaceId} {p pkt : Pkt}

/-- Serving a content answers those whom it takes from the PIT. -/
theorem served_settles {c : Content} {s : Serving} (hs : servePending E.digest σ c = .ok s)
    (hw : Waits f p σ.pit) :
    Waits f p (edited [servedEdit E.digest c] σ.pit) ∨
      HasAnswer E.digest (served E.digest σ c) σ f p := by
  refine (waits_served hw).imp_right fun ⟨hm, hf⟩ => ⟨c, hm, fun hr => ?_⟩
  obtain ⟨sent, hsent, -, hmem, -⟩ := served_eq hs
  rw [hsent]
  exact List.mem_map_of_mem ((hmem f).mpr ⟨hf, hr⟩)

theorem contentAdd2cache_faces {c : Content} (h : contentAdd2cache σ c = .ok τ) :
    τ.faces = σ.faces := by
  have hevict : (evict σ).faces = σ.faces := by
    unfold evict
    split
    · split <;> rfl
    · rfl
  obtain ⟨b, -, h⟩ := (bind_eq_ok _ _ _).mp h
  split at h
  · cases h
    rfl
  · simp only at h
    split at h <;> cases h <;> exact hevict

theorem waits_interestNewEdits {«from» : FaceId} {q : Pkt} {write : Interest → Interest}
    (hw : Waits f p σ.pit) : Waits f p (edited (interestNewEdits now σ «from» q write) σ.pit) := by
  unfold interestNewEdits
  split
  · exact waits_cons _ hw
  · exact hw

theorem mgmtOp_settles {op : MgmtOp} (h : op.run E now g σ = .ok τ) (hw : Waits f p σ.pit) :
    Waits f p τ.pit ∨ op.Settles E now g σ f p := by
  rw [mgmtOp_pit h]
  cases op with
  | faceRemove g' =>
    by_cases hfg : f = g'
    · exact .inr (.inl (by rw [hfg]))
    · exact .inl (waits_faceClean hfg hw)
  | contentAdd name q =>
    obtain ⟨s, hs, -⟩ := (bind_eq_ok _ _ _).mp h
    exact (served_settles hs hw).imp_right .inr
  | interestNew name q => exact .inl (waits_interestNewEdits hw)
  | _ => exact .inl hw

theorem pitInsert_keeps {r : Option Relay} (h : pitInsert now σ g pkt = .ok r)
    (hw : Waits f p σ.pit) : Waits f p (r.getD σ).pit := by
  rw [pitInsert_pit h]
  unfold pitInsertEdits
  split
  · exact hw
  · split
    · exact waits_modify hw
    · exact waits_interestNewEdits hw

theorem waits_faceRemoves {fs : List Face} {pit : List Interest} (hw : Waits f p pit) :
    Waits f p (edited (fs.map (faceCleanEdit ·.faceid)) pit) ∨ ∃ x ∈ fs, x.faceid = f := by
  induction fs generalizing pit with
  | nil => exact .inl hw
  | cons x fs ih =>
    by_cases hx : f = x.faceid
    · exact .inr ⟨x, List.mem_cons_self, hx.symm⟩
    · exact (ih (waits_faceClean hx hw)).imp_right fun ⟨y, hy, hf⟩ =>
        ⟨y, List.mem_cons_of_mem _ hy, hf⟩

/-- A face that waits goes on waiting, or the call settles the matter. -/
theorem Call.waits_until {c : Call} (h : (calls E).step c σ = .ok τ) (hw : Waits f p σ.pit) :
    Waits f p τ.pit ∨ c.Settles E σ f p := by
  have hquiet : c.pitEdits E σ = [] → Waits f p τ.pit := fun hp => by
    rwa [Call.pit h, hp]
  cases c with
  | table e =>
    cases e with
    | interest now cMatch g q =>
      obtain ⟨⟨σ₁, b⟩, h₁, rfl⟩ := (map_eq_ok _ _ _).mp h
      have hnonce : ∀ σ₁, nonceIsDup σ q = some σ₁ → σ₁.pit = σ.pit := fun σ₁ hn => by
        obtain ⟨ns, rfl⟩ := nonceIsDup_eq hn
        rfl
      cases handleInterest_handled h₁ with
      | dup => exact .inl hw
      | mgmt _ hn hm h₂ =>
        rw [← hnonce _ hn] at hw
        rcases until_step (P := fun σ : Relay => Waits f p σ.pit)
          (Q := fun σ op _ => MgmtOp.Settles E now g σ op f p)
          (fun _ _ _ hw ho => mgmtOp_settles ho hw) hw h₂ with hw | ⟨_, _, _, _, hcomes, -, hends⟩
        · exact .inl hw
        · exact .inr (.mgmt hn hm hcomes hends)
      | hit _ hn _ _ h₂ =>
        have hpit : σ₁.pit = σ.pit := (congrArg Tables.pit (deliver_tables h₂)).trans (hnonce _ hn)
        rw [hpit]
        exact .inl hw
      | drop _ hn => exact .inl (hnonce _ hn ▸ hw)
      | insert _ hn _ _ hr =>
        rw [← hnonce _ hn] at hw
        exact .inl (pitInsert_keeps hr hw)
    | content now q =>
      rw [Call.pit h]
      simp only [Call.pitEdits, TableEvent.pitEdits]
      cases handleContent_handled h with
      | dup hk => exact .inl (by simpa [hk] using hw)
      | unsolicited hk hs | cached hk hs | served hk hs =>
        simp only [hk, Except.ok.injEq, Bool.false_eq_true, ↓reduceIte]
        refine (served_settles hs hw).imp_right fun ha => .answered ?_
        simpa [Call.hands, TableEvent.hands, hk] using ha
    | ageing now =>
      rw [Call.pit h]
      change Waits f p (edited ((σ.faces.filter (·.expired (u32 now))).map (faceCleanEdit ·.faceid))
        (σ.pit.filterMap (ageInterest (u32 now)))) ∨ _
      obtain ⟨i, hi, rfl, pi, hpi, rfl⟩ := hw
      cases ha : ageInterest (u32 now) i with
      | none => exact .inr (.dropped hi rfl ⟨pi, hpi, rfl⟩ ha)
      | some j =>
        have hj : Waits pi.face i.pkt (σ.pit.filterMap (ageInterest (u32 now))) := by
          obtain ⟨-, -, rfl⟩ := ageInterest_eq_some ha
          exact ⟨_, List.mem_filterMap.mpr ⟨i, hi, ha⟩, rfl, pi, hpi, rfl⟩
        refine (waits_faceRemoves hj).imp_right fun hgone => ?_
        obtain ⟨x, hx, hf⟩ := hgone
        obtain ⟨hx, he⟩ := List.mem_filter.mp hx
        exact .expired hx hf he
    | faceRemove g =>
      by_cases hfg : f = g
      · exact .inr (hfg ▸ .removed)
      · rw [Call.pit h]
        exact .inl (waits_faceClean hfg hw)
    | csAdd d =>
      obtain ⟨⟨σ₁, b⟩, h₁, rfl⟩ := (map_eq_ok _ _ _).mp h
      rw [csAdd_pit h₁]
      obtain ⟨⟨σ₂, new⟩, h₂, h₁⟩ := (bind_eq_ok _ _ _).mp h₁
      obtain ⟨known, hk, h₃⟩ := (bind_eq_ok _ _ _).mp h₂
      obtain ⟨σ₃, ha, h₃⟩ := (bind_eq_ok _ _ _).mp h₃
      cases h₃
      simp only [TableEvent.pitEdits, hk, Except.ok.injEq]
      cases known with
      | true => exact .inl hw
      | false =>
        obtain ⟨s, hs, -⟩ := (bind_eq_ok _ _ _).mp h₁
        have hpit := contentAdd2cache_pit ha
        have hfaces := contentAdd2cache_faces ha
        rw [← hpit] at hw ⊢
        refine (served_settles hs hw).imp_right fun ha => .answered ?_
        simpa [Call.hands, TableEvent.hands, h₂, HasAnswer, Relay.Remote, Relay.face, hfaces] using ha
    | _ => exact .inl (hquiet rfl)
  | _ => exact .inl (hquiet rfl)

end Kept

end Ccnl
