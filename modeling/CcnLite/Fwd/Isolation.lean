import CcnLite.Fwd.Content

/-!
# Suites and each other

A relay has one PIT and one content store for all packet formats, and an entry belongs to the suite
of its name. `handleContent` compares names without a look at the suite, in the cache as in the PIT,
so a Data of one suite can be dropped because of a content of another one, and it can answer an
Interest of another one. `handleContent_isolated_iff` says for which two states, that differ in
entries of other suites, this makes no difference.
-/

namespace Ccnl

open CRun

/-- The suite of a packet's name. -/
def Pkt.nameSuite (pkt : Pkt) : Option Suite := pkt.pfx.map (·.suite)

/-- The PIT entries of a suite. -/
def Relay.pitOf (S : Suite) (σ : Relay) : List Interest :=
  σ.pit.filter fun i => i.pkt.nameSuite = some S

/-- The PIT entries of the other suites. -/
def Relay.pitOther (S : Suite) (σ : Relay) : List Interest :=
  σ.pit.filter fun i => i.pkt.nameSuite ≠ some S

/-- The contents of a suite. -/
def Relay.contentsOf (S : Suite) (σ : Relay) : List Content :=
  σ.contents.filter fun c => c.pkt.nameSuite = some S

/-- The contents of the other suites. -/
def Relay.contentsOther (S : Suite) (σ : Relay) : List Content :=
  σ.contents.filter fun c => c.pkt.nameSuite ≠ some S

/-- The two states have the same entries of the suite `S`. -/
structure AgreeOn (S : Suite) (σ τ : Relay) : Prop where
  pit : σ.pitOf S = τ.pitOf S
  contents : σ.contentsOf S = τ.contentsOf S
  maxCacheEntries : σ.maxCacheEntries = τ.maxCacheEntries

/-- From `σ` to `τ` the relay has handed out `new`: the Data `pkt` to faces that are pending on an
entry of the suite `S` that it matches. No entry of another suite is gone. -/
structure Fair (E : Env) (now : Nat) (S : Suite) (pkt : Pkt) (σ τ : Relay) (new : List Out) :
    Prop where
  out : τ.out = σ.out ++ new
  sent : ∀ o ∈ new, ∃ i ∈ σ.pitOf S, Answers E now pkt i ∧ ∃ pi ∈ i.pending,
    o = .send pi.face pkt.buf
  other : τ.pitOther S = σ.pitOther S

/-- The relay treats the Data `pkt` of the suite `S` fairly in both states, and alike: it goes to
the same faces, and the entries of the suite are the same afterwards. -/
def Isolated (E : Env) (now : Nat) (S : Suite) (pkt : Pkt) (σ₁ σ₂ : Relay) : Prop :=
  ∃ τ₁ τ₂ new₁ new₂, handleContent E now σ₁ pkt = .ok τ₁ ∧ handleContent E now σ₂ pkt = .ok τ₂ ∧
    Fair E now S pkt σ₁ τ₁ new₁ ∧ Fair E now S pkt σ₂ τ₂ new₂ ∧ new₁.Perm new₂ ∧
    τ₁.pitOf S = τ₂.pitOf S ∧
    (τ₁.contentsOf S).map (·.pkt) = (τ₂.contentsOf S).map (·.pkt)

/-- No PIT entry of another suite matches the Data, unless a content of another suite has its name
and keeps the Data away. -/
def Undisturbed (E : Env) (now : Nat) (p : Prefix) (pkt : Pkt) (σ : Relay) : Prop :=
  Cached p (σ.contentsOther p.suite) ∨ ∀ i ∈ σ.pitOther p.suite, ¬ Answers E now pkt i

section Split

variable {S : Suite} {σ τ : Relay} {p : Prefix}

theorem cached_split : Cached p σ.contents ↔
    Cached p (σ.contentsOf S) ∨ Cached p (σ.contentsOther S) := by
  unfold Cached Relay.contentsOf Relay.contentsOther
  constructor
  · rintro ⟨c, hc, h⟩
    by_cases hs : c.pkt.nameSuite = some S
    · exact .inl ⟨c, List.mem_filter.mpr ⟨hc, by simpa using hs⟩, h⟩
    · exact .inr ⟨c, List.mem_filter.mpr ⟨hc, by simpa using hs⟩, h⟩
  · rintro (⟨c, hc, h⟩ | ⟨c, hc, h⟩) <;> exact ⟨c, (List.mem_filter.mp hc).1, h⟩

theorem mem_pit_split {i : Interest} : i ∈ σ.pit ↔ i ∈ σ.pitOf S ∨ i ∈ σ.pitOther S := by
  unfold Relay.pitOf Relay.pitOther
  simp only [List.mem_filter, decide_eq_true_eq]
  tauto

theorem contentsOf_pkts : (σ.contentsOf S).map (·.pkt) =
    (σ.contents.map (·.pkt)).filter fun k => k.nameSuite = some S := by
  rw [Relay.contentsOf, List.filter_map]
  rfl

/-- Both parts of the PIT after the entries with `q` are taken out. -/
theorem pitOf_filter {q : Interest → Prop} [DecidablePred q] (h : τ.pit = σ.pit.filter (¬ q ·)) :
    τ.pitOf S = (σ.pitOf S).filter (¬ q ·) ∧ τ.pitOther S = (σ.pitOther S).filter (¬ q ·) := by
  unfold Relay.pitOf Relay.pitOther
  rw [h, List.filter_filter, List.filter_filter, List.filter_filter, List.filter_filter]
  simp only [Bool.and_comm, and_self]

theorem filter_not_eq_self {q : Interest → Prop} [DecidablePred q] {l : List Interest} :
    l.filter (¬ q ·) = l ↔ ∀ i ∈ l, ¬ q i := by
  simp [List.filter_eq_self]

end Split

section Isolation

variable {E : Env} {now : Nat} {σ σ₁ σ₂ τ : Relay} {pkt : Pkt} {p : Prefix}

/-- A relay that drops the Data is fair. -/
theorem fair_dropped (S : Suite) : Fair E now S pkt σ σ [] := ⟨by simp, by simp, rfl⟩

/-- A relay that serves the Data is fair exactly when no entry of another suite matches. -/
theorem fair_served_iff {S : Suite} (hs : Served E now σ pkt τ) :
    (∃ new, Fair E now S pkt σ τ new) ↔ ∀ i ∈ σ.pitOther S, ¬ Answers E now pkt i := by
  have hpit := (pitOf_filter (S := S) hs.pit).2
  constructor
  · rintro ⟨new, h⟩
    exact filter_not_eq_self.mp (hpit.symm.trans h.other)
  · intro h
    obtain ⟨sent, -, hmem, hout⟩ := hs.out
    refine ⟨_, hout, fun o ho => ?_, hpit.trans (filter_not_eq_self.mpr h)⟩
    obtain ⟨f, hf, rfl⟩ := List.mem_map.mp ho
    obtain ⟨i, hi, hm, pi, hpi, rfl⟩ := (hmem f).mp hf
    rcases (mem_pit_split (S := S)).mp hi with hi | hi
    · exact ⟨i, hi, hm, pi, hpi, rfl⟩
    · exact absurd hm (h i hi)

/-- Two relays that have the same entries of the suite of the Data, and serve it fairly, serve it
to the same faces. -/
theorem served_perm {S : Suite} {τ₁ τ₂ : Relay} (hag : AgreeOn S σ₁ σ₂)
    (h₁ : Served E now σ₁ pkt τ₁) (h₂ : Served E now σ₂ pkt τ₂)
    (hf₁ : ∀ i ∈ σ₁.pitOther S, ¬ Answers E now pkt i)
    (hf₂ : ∀ i ∈ σ₂.pitOther S, ¬ Answers E now pkt i) :
    ∃ new₁ new₂, τ₁.out = σ₁.out ++ new₁ ∧ τ₂.out = σ₂.out ++ new₂ ∧ new₁.Perm new₂ := by
  obtain ⟨s₁, hn₁, hm₁, ho₁⟩ := h₁.out
  obtain ⟨s₂, hn₂, hm₂, ho₂⟩ := h₂.out
  refine ⟨_, _, ho₁, ho₂, List.Perm.map _ ((List.perm_ext_iff_of_nodup hn₁ hn₂).mpr fun f => ?_)⟩
  have key : ∀ {σ : Relay}, (∀ i ∈ σ.pitOther S, ¬ Answers E now pkt i) →
      ((∃ i ∈ σ.pit, Answers E now pkt i ∧ ∃ pi ∈ i.pending, pi.face = f) ↔
        ∃ i ∈ σ.pitOf S, Answers E now pkt i ∧ ∃ pi ∈ i.pending, pi.face = f) := by
    intro σ hf
    constructor
    · rintro ⟨i, hi, hm, h⟩
      rcases (mem_pit_split (S := S)).mp hi with hi | hi
      · exact ⟨i, hi, hm, h⟩
      · exact absurd hm (hf i hi)
    · rintro ⟨i, hi, h⟩
      exact ⟨i, mem_pit_split.mpr (.inl hi), h⟩
  rw [hm₁, hm₂, key hf₁, key hf₂, hag.pit]

/-- What a fair relay has in its cache after it served the Data. -/
theorem served_contents {S : Suite} (hs : Served E now σ pkt τ) (hmax : σ.maxCacheEntries ≤ 0)
    (hS : pkt.nameSuite = some S) (hf : ∀ i ∈ σ.pitOther S, ¬ Answers E now pkt i) :
    (τ.contentsOf S).map (·.pkt) =
      if σ.maxCacheEntries ≠ 0 ∧ ∃ i ∈ σ.pitOf S, Answers E now pkt i
      then pkt :: (σ.contentsOf S).map (·.pkt) else (σ.contentsOf S).map (·.pkt) := by
  have hex : (∃ i ∈ σ.pit, Answers E now pkt i) ↔ ∃ i ∈ σ.pitOf S, Answers E now pkt i := by
    constructor
    · rintro ⟨i, hi, hm⟩
      rcases (mem_pit_split (S := S)).mp hi with hi | hi
      · exact ⟨i, hi, hm⟩
      · exact absurd hm (hf i hi)
    · rintro ⟨i, hi, hm⟩
      exact ⟨i, mem_pit_split.mpr (.inl hi), hm⟩
  rw [contentsOf_pkts, hs.contents hmax, contentsOf_pkts]
  simp only [hex]
  split
  · rw [List.filter_cons_of_pos (by simpa using hS)]
  · rfl

theorem AgreeOn.symm {S : Suite} (h : AgreeOn S σ₁ σ₂) : AgreeOn S σ₂ σ₁ :=
  ⟨h.pit.symm, h.contents.symm, h.maxCacheEntries.symm⟩

theorem Isolated.symm {S : Suite} (h : Isolated E now S pkt σ₁ σ₂) :
    Isolated E now S pkt σ₂ σ₁ := by
  obtain ⟨τ₁, τ₂, new₁, new₂, h₁, h₂, hf₁, hf₂, hn, hp, hc⟩ := h
  exact ⟨τ₂, τ₁, new₂, new₁, h₂, h₁, hf₂, hf₁, hn.symm, hp.symm, hc.symm⟩

/-- Both relays drop the Data. -/
theorem isolated_dropped (h₁ : σ₁.Ok) (h₂ : σ₂.Ok) (hp : pkt.pfx = some p) {S : Suite}
    (hag : AgreeOn S σ₁ σ₂) (hc₁ : Cached p σ₁.contents) (hc₂ : Cached p σ₂.contents) :
    Isolated E now S pkt σ₁ σ₂ :=
  ⟨σ₁, σ₂, [], [], handleContent_cached h₁ hp hc₁, handleContent_cached h₂ hp hc₂, fair_dropped S,
    fair_dropped S, .nil, hag.pit, by rw [hag.contents]⟩

/-- One relay drops the Data, and the other one serves it: they are alike when there is nothing to
serve. -/
theorem isolated_one_dropped (h₁ : σ₁.Ok) (h₂ : σ₂.Ok) (hp : pkt.pfx = some p) {S : Suite}
    (hS : pkt.nameSuite = some S) (hag : AgreeOn S σ₁ σ₂) (hmax : σ₂.maxCacheEntries ≤ 0)
    (hc₁ : Cached p σ₁.contents) (hc₂ : ¬ Cached p σ₂.contents) :
    Isolated E now S pkt σ₁ σ₂ ↔
      (∀ i ∈ σ₂.pitOther S, ¬ Answers E now pkt i) ∧ ∀ i ∈ σ₁.pitOf S, ¬ Answers E now pkt i := by
  have hr₁ := @handleContent_cached E now σ₁ pkt p h₁ hp hc₁
  obtain ⟨τ₂, hr₂, hs₂⟩ := @handleContent_new E now σ₂ pkt p h₂ hp hc₂
  have hpit := (pitOf_filter (S := S) hs₂.pit).1
  constructor
  · rintro ⟨σ₁', τ₂', new₁, new₂, ht₁, ht₂, -, hf₂, -, hp', -⟩
    rw [hr₁] at ht₁
    rw [hr₂] at ht₂
    cases ht₁
    cases ht₂
    refine ⟨(fair_served_iff hs₂).mp ⟨_, hf₂⟩, ?_⟩
    rw [hag.pit]
    exact filter_not_eq_self.mp (hpit.symm.trans (hp'.symm.trans hag.pit))
  · rintro ⟨hno, hnone⟩
    rw [hag.pit] at hnone
    obtain ⟨new, hf⟩ := (fair_served_iff hs₂).mpr hno
    have hnil : new = [] := List.eq_nil_iff_forall_not_mem.mpr fun o ho => by
      obtain ⟨i, hi, hm, -⟩ := hf.sent o ho
      exact hnone i hi hm
    subst hnil
    refine ⟨σ₁, τ₂, [], [], hr₁, hr₂, fair_dropped S, hf, .nil, ?_, ?_⟩
    · rw [hpit, filter_not_eq_self.mpr hnone, hag.pit]
    · rw [served_contents hs₂ hmax hS hno, if_neg, hag.contents]
      rintro ⟨-, i, hi, hm⟩
      exact hnone i hi hm

/-- Both relays serve the Data. -/
theorem isolated_served (h₁ : σ₁.Ok) (h₂ : σ₂.Ok) (hp : pkt.pfx = some p) {S : Suite}
    (hS : pkt.nameSuite = some S) (hag : AgreeOn S σ₁ σ₂) (hmax : σ₁.maxCacheEntries ≤ 0)
    (hc₁ : ¬ Cached p σ₁.contents) (hc₂ : ¬ Cached p σ₂.contents) :
    Isolated E now S pkt σ₁ σ₂ ↔
      (∀ i ∈ σ₁.pitOther S, ¬ Answers E now pkt i) ∧
        ∀ i ∈ σ₂.pitOther S, ¬ Answers E now pkt i := by
  obtain ⟨τ₁, hr₁, hs₁⟩ := @handleContent_new E now σ₁ pkt p h₁ hp hc₁
  obtain ⟨τ₂, hr₂, hs₂⟩ := @handleContent_new E now σ₂ pkt p h₂ hp hc₂
  constructor
  · rintro ⟨τ₁', τ₂', new₁, new₂, ht₁, ht₂, hf₁, hf₂, -⟩
    rw [hr₁] at ht₁
    rw [hr₂] at ht₂
    cases ht₁
    cases ht₂
    exact ⟨(fair_served_iff hs₁).mp ⟨_, hf₁⟩, (fair_served_iff hs₂).mp ⟨_, hf₂⟩⟩
  · rintro ⟨hno₁, hno₂⟩
    obtain ⟨new₁, hf₁⟩ := (fair_served_iff hs₁).mpr hno₁
    obtain ⟨new₂, hf₂⟩ := (fair_served_iff hs₂).mpr hno₂
    obtain ⟨n₁, n₂, ho₁, ho₂, hperm⟩ := served_perm hag hs₁ hs₂ hno₁ hno₂
    obtain rfl : new₁ = n₁ := List.append_cancel_left (hf₁.out.symm.trans ho₁)
    obtain rfl : new₂ = n₂ := List.append_cancel_left (hf₂.out.symm.trans ho₂)
    refine ⟨τ₁, τ₂, _, _, hr₁, hr₂, hf₁, hf₂, hperm, ?_, ?_⟩
    · rw [(pitOf_filter hs₁.pit).1, (pitOf_filter hs₂.pit).1, hag.pit]
    · rw [served_contents hs₁ hmax hS hno₁,
        served_contents hs₂ (hag.maxCacheEntries ▸ hmax) hS hno₂, hag.pit, hag.contents,
        hag.maxCacheEntries]

end Isolation

/-- Two states that the relay gets into, with the same entries of the suite of a Data and no limit
on the cache, treat the Data fairly and alike exactly when its name is cached in that suite, or
else: no entry of another suite that matches it is pending, unless a content of another suite has
its name; and if an entry of its suite matches it, then a content of another suite has its name in
both states or in neither. -/
theorem handleContent_isolated_iff {E : Env} {now : Nat} {σ₁ σ₂ : Relay} {pkt : Pkt} {p : Prefix}
    (hr₁ : (system E).Reachable σ₁) (hr₂ : (system E).Reachable σ₂) (hp : pkt.pfx = some p)
    (hag : AgreeOn p.suite σ₁ σ₂) (hmax : σ₁.maxCacheEntries ≤ 0) :
    Isolated E now p.suite pkt σ₁ σ₂ ↔
      Cached p (σ₁.contentsOf p.suite) ∨
      (Undisturbed E now p pkt σ₁ ∧ Undisturbed E now p pkt σ₂ ∧
        ((∃ i ∈ σ₁.pitOf p.suite, Answers E now pkt i) →
          (Cached p (σ₁.contentsOther p.suite) ↔ Cached p (σ₂.contentsOther p.suite)))) := by
  have h₁ := (system_ok E).reachable hr₁
  have h₂ := (system_ok E).reachable hr₂
  have hS : pkt.nameSuite = some p.suite := by simp [Pkt.nameSuite, hp]
  have hs₁ := cached_split (S := p.suite) (σ := σ₁) (p := p)
  have hs₂ := cached_split (S := p.suite) (σ := σ₂) (p := p)
  rw [← hag.contents] at hs₂
  unfold Undisturbed
  by_cases hin : Cached p (σ₁.contentsOf p.suite)
  · simp only [hin, true_or, iff_true]
    exact isolated_dropped h₁ h₂ hp hag (hs₁.mpr (.inl hin)) (hs₂.mpr (.inl hin))
  simp only [hin, false_or] at hs₁ hs₂ ⊢
  by_cases hc₁ : Cached p (σ₁.contentsOther p.suite) <;>
    by_cases hc₂ : Cached p (σ₂.contentsOther p.suite)
  · simp only [hc₁, hc₂, true_or, iff_self, implies_true, and_self, iff_true]
    exact isolated_dropped h₁ h₂ hp hag (hs₁.mpr hc₁) (hs₂.mpr hc₂)
  · rw [isolated_one_dropped h₁ h₂ hp hS hag (hag.maxCacheEntries ▸ hmax) (hs₁.mpr hc₁)
      (mt hs₂.mp hc₂)]
    simp [hc₁, hc₂]
  · have hsymm : Isolated E now p.suite pkt σ₁ σ₂ ↔ Isolated E now p.suite pkt σ₂ σ₁ :=
      ⟨.symm, .symm⟩
    rw [hsymm, isolated_one_dropped h₂ h₁ hp hS hag.symm hmax (hs₂.mpr hc₂) (mt hs₁.mp hc₁)]
    simp [hc₁, hc₂, hag.pit]
  · rw [isolated_served h₁ h₂ hp hS hag hmax (mt hs₁.mp hc₁) (mt hs₂.mp hc₂)]
    simp [hc₁, hc₂]

/-- A CCNB Interest for `/b`, and a CCNB Data `/a`. -/
def ccnbInterestB : List UInt8 := [0x01, 0xd2, 0xf2, 0xfa, 0x8d, 0x62, 0x00, 0x00, 0x00]
def ccnbDataA : List UInt8 := [0x04, 0x82, 0xf2, 0xfa, 0x8d, 0x61, 0x00, 0x00, 0x00]

/-- An NDN Interest for `/a` is pending, and in the second relay also a CCNB Interest for `/b`: the
NDN Data `/a` is treated alike. -/
theorem handleContent_isolated_iff_other :
    ∃ σ₁ σ₂ pkt, (system .still).Reachable σ₁ ∧ (system .still).Reachable σ₂ ∧
      σ₁.pit ≠ σ₂.pit ∧ Isolated .still 0 .ndntlv pkt σ₁ σ₂ := by
  obtain ⟨⟨σ₁, σ₂, pkt⟩, hrun, hp, hne, hpit, hmax, hmax', hnil, hno, hcs⟩ := exists_ok
    (x := do
      let (σ₁, pkt) ← withDataA [.udp 1 0 ndnInterestA]
      let (σ₂, _) ← withDataA [.udp 1 0 ndnInterestA, .udp 2 0 ccnbInterestB]
      return (σ₁, σ₂, pkt))
    (p := fun (σ₁, σ₂, pkt) => pkt.pfx.map (·.suite) = some .ndntlv ∧ σ₁.pit ≠ σ₂.pit ∧
      σ₁.pitOf .ndntlv = σ₂.pitOf .ndntlv ∧ σ₁.maxCacheEntries ≤ 0 ∧
      σ₁.maxCacheEntries = σ₂.maxCacheEntries ∧ σ₁.pitOther .ndntlv = [] ∧
      (∀ i ∈ σ₂.pitOther .ndntlv, ¬ Answers .still 0 pkt i) ∧
      σ₁.contents = [] ∧ σ₂.contents = [])
    (by decide +kernel)
  obtain ⟨⟨_, _⟩, h₁, hrun⟩ := (bind_eq_ok _ _ _).mp hrun
  obtain ⟨⟨_, _⟩, h₂, hrun⟩ := (bind_eq_ok _ _ _).mp hrun
  cases hrun
  have hr₁ := (withDataA_ok h₁).1
  have hr₂ := (withDataA_ok h₂).1
  obtain ⟨p, hpfx, hsuite⟩ := Option.map_eq_some_iff.mp hp
  have hag : AgreeOn p.suite σ₁ σ₂ :=
    { pit := by rw [hsuite, hpit]
      contents := by simp [Relay.contentsOf, hcs.1, hcs.2]
      maxCacheEntries := hmax' }
  refine ⟨σ₁, σ₂, pkt, hr₁, hr₂, hne, ?_⟩
  rw [← hsuite] at hnil hno ⊢
  refine (handleContent_isolated_iff hr₁ hr₂ hpfx hag hmax).mpr (.inr ⟨.inr ?_, .inr hno, ?_⟩)
  · simp [hnil]
  · simp [Cached, Relay.contentsOther, hcs.1, hcs.2]

/-- An NDN Interest for `/a` is pending, and the CCNB Data `/a` comes: it goes to the face of the
NDN Interest, which is removed. -/
theorem handleContent_crosses_suites :
    ∃ σ pkt, (system .still).Reachable σ ∧
      (∃ c, ccnbBytes2pkt (ccnbDataA ++ [0]) 0 ⟨2, ccnbDataA.length - 2⟩ = .ok (pkt, c)) ∧
      pkt.nameSuite = some .ccnb ∧ ¬ Isolated .still 0 .ccnb pkt σ σ := by
  obtain ⟨σ, hσ, hpit⟩ := exists_ok (x := Relay.after [.udp 1 0 ndnInterestA])
    (p := fun σ => σ.pitOther .ccnb ≠ [] ∧
      (do let r ← ccnbBytes2pkt (ccnbDataA ++ [0]) 0 ⟨2, ccnbDataA.length - 2⟩
          let τ ← handleContent .still 0 σ r.1
          return (r.1.nameSuite, τ.pit)) = .ok (some .ccnb, [])) (by decide +kernel)
  obtain ⟨hne, hrun⟩ := hpit
  obtain ⟨⟨pkt, c⟩, hp, hrun⟩ := (bind_eq_ok _ _ _).mp hrun
  obtain ⟨τ, hτ, hrun⟩ := (bind_eq_ok _ _ _).mp hrun
  simp only [pure_eq_ok, Prod.mk.injEq] at hrun hτ
  refine ⟨σ, pkt, Relay.after_reachable hσ, ⟨c, hp⟩, hrun.1, ?_⟩
  rintro ⟨τ', -, new, -, hτ', -, hf, -⟩
  rw [hτ] at hτ'
  cases hτ'
  refine hne ?_
  rw [← hf.other, Relay.pitOther, hrun.2]
  rfl

end Ccnl
