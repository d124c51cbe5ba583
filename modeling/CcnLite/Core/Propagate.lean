import CcnLite.Core.Invariant

/-!
# Where an Interest goes (`ccnl_interest_propagate`)

`propagateTo` is the pass of the code over one FIB entry. What it is for is `Forward.serves`: the
entry is of the suite of the Interest, its prefix is a component-wise prefix of the Interest name,
and it does not lead back to the face that the Interest came from. `handed` is what such an entry
gets: its tap is called, and the packet is sent to its face. `interestPropagate_follows`: the
relay hands out exactly this, entry after entry.
-/

namespace Ccnl

open CRun

/-- The entry leads back to where the Interest came from, over a face that does not reflect. -/
def Forward.toOrigin (σ : Relay) (i : Interest) (fwd : Forward) : Prop :=
  ∃ f ∈ i.from, fwd.face = some f ∧ ∃ x ∈ (σ.face f).toOption, x.reflect = false

instance (σ : Relay) (i : Interest) (fwd : Forward) : Decidable (fwd.toOrigin σ i) :=
  inferInstanceAs (Decidable (∃ f ∈ i.from, fwd.face = some f ∧
    ∃ x ∈ (σ.face f).toOption, x.reflect = false))

/-- The entry is one that the Interest goes to. -/
def Forward.serves (σ : Relay) (i : Interest) (fwd : Forward) : Prop :=
  (∃ fp ∈ fwd.pfx, ∃ p ∈ i.pkt.pfx, fwd.suite = p.suite ∧ fp.comps <+: p.comps) ∧
  ¬ fwd.toOrigin σ i

instance (σ : Relay) (i : Interest) (fwd : Forward) : Decidable (fwd.serves σ i) :=
  inferInstanceAs (Decidable ((∃ fp ∈ fwd.pfx, ∃ p ∈ i.pkt.pfx,
    fwd.suite = p.suite ∧ fp.comps <+: p.comps) ∧ ¬ fwd.toOrigin σ i))

/-- What an entry that the Interest goes to gets: its tap, then its face. -/
def handed (i : Interest) (fwd : Forward) : List Out :=
  (fwd.tap.map (.tap · i.pkt.buf)).toList ++ (fwd.face.map (.send · i.pkt.buf)).toList

/-- `CMP_LONGEST` counts the components that agree from the front. -/
theorem cmpFrom_longest (pfx nam : List (List UInt8)) (k : Nat) :
    cmpFrom .longest k pfx nam < k + pfx.length ↔ ¬ pfx <+: nam := by
  induction pfx generalizing nam k with
  | nil => simp [cmpFrom]
  | cons a pfx ih =>
    cases nam with
    | nil =>
      simp only [cmpFrom, reduceCtorEq, ↓reduceIte, List.length_cons, List.prefix_nil,
        not_false_eq_true, iff_true]
      push_cast
      omega
    | cons b nam =>
      by_cases hab : a = b
      · subst hab
        have := ih nam (k + 1)
        simp only [cmpFrom, ne_eq, not_true_eq_false, or_self, ↓reduceIte, List.length_cons,
          List.cons_prefix_cons, true_and]
        rw [← this]
        push_cast
        omega
      · simp only [cmpFrom, ne_eq, hab, not_false_eq_true, or_true, ↓reduceIte, reduceCtorEq,
          List.length_cons, List.cons_prefix_cons, false_and, iff_true]
        push_cast
        omega

theorem prefixCmp_longest (fp p : Prefix) :
    prefixCmp fp none p .longest < fp.compcnt ↔ ¬ fp.comps <+: p.comps := by
  have h := cmpFrom_longest fp.comps p.comps 0
  rw [Prefix.length_comps, Int.ofNat_zero, Int.zero_add] at h
  simpa [prefixCmp] using h

/-- The test of the code against forwarding to the origin. -/
theorem towardsOrigin_eq {σ : Relay} {i : Interest} {fwd : Forward} {b : Bool}
    (h : towardsOrigin σ i fwd = .ok b) : b = true ↔ fwd.toOrigin σ i := by
  unfold towardsOrigin at h
  unfold Forward.toOrigin
  cases hi : i.from with
  | none =>
    rw [hi] at h
    cases h
    simp
  | some f =>
    simp only [hi] at h
    by_cases hf : fwd.face = some f
    · rw [if_neg (not_not.mpr hf)] at h
      obtain ⟨x, hx, h⟩ := (bind_eq_ok _ _ _).mp h
      cases h
      simp [hf, hx, Except.toOption]
    · rw [if_pos hf] at h
      cases h
      simp [hf]

/-- The test ends when the origin exists. -/
theorem towardsOrigin_returns {σ : Relay} {i : Interest} {fwd : Forward}
    (h : ∀ f ∈ i.from, σ.Listed f) : ∃ b, towardsOrigin σ i fwd = .ok b := by
  unfold towardsOrigin
  cases hi : i.from with
  | none => exact ⟨false, rfl⟩
  | some f =>
    obtain ⟨x, hx⟩ := (h f hi).face
    by_cases hf : fwd.face = some f
    · exact ⟨!x.reflect, by simp [hf, hx, pure, Except.pure]⟩
    · exact ⟨false, by simp [hf, pure, Except.pure]⟩

/-- A pass hands out to an entry that the Interest goes to, and to no other. -/
theorem propagateTo_eq {σ τ : Relay} {i : Interest} {fwd : Forward}
    (h : propagateTo i σ fwd = .ok τ) :
    τ = { σ with out := σ.out ++ if fwd.serves σ i then handed i fwd else [] } := by
  have hskip : ¬ fwd.serves σ i → σ = τ →
      τ = { σ with out := σ.out ++ if fwd.serves σ i then handed i fwd else [] } := by
    rintro hn rfl
    simp [hn]
  unfold propagateTo at h
  cases hfp : fwd.pfx with
  | none =>
    simp only [hfp] at h
    exact hskip (by simp [Forward.serves, hfp]) (by simpa using h)
  | some fp =>
    cases hp : i.pkt.pfx with
    | none =>
      simp only [hfp, hp] at h
      exact hskip (by simp [Forward.serves, hp]) (by simpa using h)
    | some p =>
      simp only [hfp, hp, prefixCmp_longest] at h
      by_cases hs : fwd.suite = p.suite
      · rw [if_neg (not_not.mpr hs)] at h
        by_cases hpre : fp.comps <+: p.comps
        · rw [if_neg (not_not.mpr hpre)] at h
          obtain ⟨b, hb, h⟩ := (bind_eq_ok _ _ _).mp h
          have hto := towardsOrigin_eq hb
          have hserves : fwd.serves σ i ↔ ¬ b = true := by
            simp [Forward.serves, hfp, hp, hs, hpre, hto]
          by_cases hbt : b = true
          · rw [if_pos hbt] at h
            exact hskip (by simpa [hserves] using hbt) (by simpa using h)
          · rw [if_neg hbt] at h
            rw [if_pos (hserves.mpr hbt)]
            cases ht : fwd.tap <;> cases hf : fwd.face <;> simp only [ht, hf] at h
            · cases h
              simp [handed, ht, hf]
            · rw [faceEnqueue_eq h]
              simp [handed, ht, hf]
            · cases h
              simp [handed, ht, hf]
            · rw [faceEnqueue_eq h]
              simp [handed, ht, hf]
        · rw [if_pos hpre] at h
          exact hskip (by simp [Forward.serves, hfp, hp, hpre]) (by simpa using h)
      · rw [if_pos hs] at h
        exact hskip (by simp [Forward.serves, hfp, hp, hs]) (by simpa using h)

theorem faceEnqueue_returns {σ : Relay} {f : FaceId} {buf : List UInt8} (h : σ.Listed f) :
    ∃ τ, faceEnqueue σ f buf = .ok τ := by
  obtain ⟨x, hx⟩ := h.face
  exact ⟨_, by rw [faceEnqueue, hx]; rfl⟩

/-- A pass ends when the origin and the face of the entry exist. -/
theorem propagateTo_returns {σ : Relay} {i : Interest} {fwd : Forward}
    (hfrom : ∀ f ∈ i.from, σ.Listed f) (hface : ∀ f ∈ fwd.face, σ.Listed f) :
    ∃ τ, propagateTo i σ fwd = .ok τ := by
  obtain ⟨b, hb⟩ : ∃ b, towardsOrigin σ i fwd = .ok b := towardsOrigin_returns hfrom
  unfold propagateTo
  split
  · split
    · exact ⟨_, rfl⟩
    · split
      · exact ⟨_, rfl⟩
      · rw [hb, ok_bind]
        cases b with
        | true => exact ⟨_, rfl⟩
        | false =>
          simp only [Bool.false_eq_true, ↓reduceIte]
          cases hf : fwd.face with
          | none => exact ⟨_, rfl⟩
          | some f => cases fwd.tap <;> exact faceEnqueue_returns (hface f hf)
  · exact ⟨_, rfl⟩

/-- What has been handed out plays no part in where an Interest goes. -/
theorem serves_out (σ : Relay) (o : List Out) (i : Interest) (fwd : Forward) :
    fwd.serves { σ with out := o } i ↔ fwd.serves σ i := Iff.rfl

/-- The passes over some entries hand out to the ones that the Interest goes to, in order. -/
theorem propagateTo_foldlM {σ τ : Relay} {i : Interest} {fib : List Forward}
    (h : fib.foldlM (propagateTo i) σ = .ok τ) :
    τ = { σ with out := σ.out ++ (fib.filter fun fwd => fwd.serves σ i).flatMap (handed i) } := by
  induction fib generalizing σ with
  | nil =>
    cases h
    simp
  | cons fwd fib ih =>
    rw [List.foldlM_cons] at h
    obtain ⟨σ₁, h₁, h⟩ := (bind_eq_ok _ _ _).mp h
    obtain rfl := propagateTo_eq h₁
    rw [ih h]
    by_cases hs : fwd.serves σ i <;> simp [serves_out, hs]

theorem propagateTo_foldlM_returns {σ : Relay} {i : Interest} {fib : List Forward}
    (hface : ∀ fwd ∈ fib, ∀ f ∈ fwd.face, σ.Listed f) (hfrom : ∀ f ∈ i.from, σ.Listed f) :
    ∃ τ, fib.foldlM (propagateTo i) σ = .ok τ := by
  induction fib generalizing σ with
  | nil => exact ⟨σ, rfl⟩
  | cons fwd fib ih =>
    obtain ⟨σ₁, h₁⟩ := propagateTo_returns hfrom (hface fwd List.mem_cons_self)
    obtain ⟨o, rfl⟩ := propagateTo_out h₁
    have hrest : ∀ g ∈ fib, ∀ f ∈ g.face, Relay.Listed { σ with out := σ.out ++ o } f :=
      fun g hg => hface g (List.mem_cons_of_mem _ hg)
    obtain ⟨τ, hτ⟩ := ih hrest hfrom
    exact ⟨τ, by rw [List.foldlM_cons, h₁, ok_bind, hτ]⟩

/-- `ccnl_interest_propagate` hands the packet out to the entries that the Interest goes to, in the
order of the FIB: to each its tap is called once, if it has one, and then the packet is sent once
to its face, if it has one. Nothing else changes. The pass always ends when the faces that the FIB
and the Interest point to exist. -/
theorem interestPropagate_follows (σ : Relay) (i : Interest) :
    (∀ τ, interestPropagate σ i = .ok τ →
      τ = { σ with
        out := σ.out ++ (σ.fib.filter fun fwd => fwd.serves σ i).flatMap (handed i) }) ∧
    ((∀ fwd ∈ σ.fib, ∀ f ∈ fwd.face, σ.Listed f) → (∀ f ∈ i.from, σ.Listed f) →
      ∃ τ, interestPropagate σ i = .ok τ) :=
  ⟨fun _ h => propagateTo_foldlM h, propagateTo_foldlM_returns⟩

end Ccnl
