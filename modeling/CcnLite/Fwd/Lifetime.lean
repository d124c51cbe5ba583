import CcnLite.Fwd.Calls

/-!
# PIT entries do not live forever

A `Ledger` is the relay with what it does not write down: the nodes of the PIT, how often
`ccnl_do_ageing` has been called, when each entry was made (`born`), and which entries the timer has
forwarded again (`resent`). No call looks at any of it, and the nodes go with the PIT
(`Ledger.Ok.agrees`).

The retry counter of an entry is the number of timer calls since it was made, and the number of
times that the timer has forwarded it (`Ledger.Entry`). Every other call keeps the counter, and the
timer removes the entry when the counter is `CCNL_MAX_INTEREST_RETRANSMIT`, whatever the clock says
(`pit_entries_age_out`).
-/

namespace Ccnl

open CRun

structure Ledger where
  relay : Relay
  pit : Roster Interest
  /-- The calls of `ccnl_do_ageing` so far. -/
  passes : Nat
  /-- The calls of `ccnl_do_ageing` before the entry was made. -/
  born : Nat → Nat
  /-- The entries that `ccnl_do_ageing` has forwarded again, in order. -/
  resent : List Nat

namespace Ledger

/-- The entries that `ccnl_do_ageing` forwards again. -/
def again (t : Nat) (L : Ledger) : List (Node Interest) :=
  L.pit.nodes.filter fun x => (ageInterest t x.val).isSome

/-- The ledger after a call that has made `τ` of the relay. -/
def after (E : Env) (L : Ledger) (τ : Relay) (c : Call) : Ledger :=
  let timer : Option Nat := match c with
    | .table (.ageing now) => some (u32 now)
    | _ => none
  { relay := τ
    pit := L.pit.edits (c.pitEdits E L.relay)
    passes := if timer.isSome then L.passes + 1 else L.passes
    born := fun id => if id < L.pit.next then L.born id else L.passes
    resent := L.resent ++ (timer.elim [] L.again).map (·.id) }

end Ledger

/-- The ledger of the calls, from an empty PIT on. -/
def ledger (E : Env) : Sys Ledger Call where
  Start L := L.relay.pit = [] ∧ L.pit = .empty ∧ L.passes = 0 ∧ L.resent = []
  step c L := return L.after E (← c.run E L.relay) c

namespace Ledger

/-- What the ledger knows of the entry `id` of the PIT. -/
structure Entry (L : Ledger) (id : Nat) (i : Interest) : Prop where
  age : L.born id + i.retries = L.passes
  resent : L.resent.count id = i.retries
  retries : i.retries ≤ maxInterestRetransmit

/-- The invariant. -/
structure Ok (L : Ledger) : Prop where
  agrees : L.pit.vals = L.relay.pit
  entries : ∀ x ∈ L.pit.nodes, L.Entry x.id x.val
  resent : ∀ id, L.resent.count id ≤ maxInterestRetransmit
  below : ∀ id ∈ L.resent, id < L.pit.next

section Steps

variable {E : Env} {L : Ledger} {τ : Relay} {c : Call}

/-- The nodes go with the PIT. -/
theorem Ok.after_agrees (h : L.Ok) (hs : c.run E L.relay = .ok τ) :
    (L.after E τ c).pit.vals = τ.pit := by
  rw [Call.pit hs, ← h.agrees]
  exact Roster.vals_edits _ _

theorem after_quiet (hc : ∀ now, c ≠ .ageing now) :
    L.after E τ c = { L with
      relay := τ
      pit := L.pit.edits (c.pitEdits E L.relay)
      born := fun id => if id < L.pit.next then L.born id else L.passes } := by
  unfold after
  split
  · exact absurd rfl (hc _)
  · simp

/-- A call other than `ccnl_do_ageing` keeps what the ledger knows. -/
theorem Ok.quiet (h : L.Ok) (hc : ∀ now, c ≠ .ageing now) (hs : c.run E L.relay = .ok τ) :
    (L.after E τ c).Ok := by
  have hquiet := Call.pitEdits_quiet (E := E) (σ := L.relay) hc
  refine ⟨h.after_agrees hs, ?_, ?_, ?_⟩ <;> rw [after_quiet hc]
  · refine Roster.edits_all (I := Ledger.Entry _) (fun x hx => ?_) (fun e he n i j hij hi => ?_)
      fun i hi n hn => ?_
    · have hx' := h.entries x hx
      exact ⟨by simpa [L.pit.below x hx] using hx'.age, hx'.resent, hx'.retries⟩
    · have hr := ((hquiet e he).turns i j hij).retries
      exact ⟨hr ▸ hi.age, hr ▸ hi.resent, hr ▸ hi.retries⟩
    · have hr := ((hquiet _ hi).new i rfl).retries
      -- the number of a new node has not been given before
      have hnew : n ∉ L.resent := fun hmem => absurd (h.below n hmem) (Nat.not_lt.mpr hn)
      refine ⟨?_, ?_, ?_⟩
      · simp [hr, Nat.not_lt.mpr hn]
      · simp [hr, List.count_eq_zero_of_not_mem hnew]
      · simp [hr]
  · exact h.resent
  · exact fun id hid => Nat.lt_of_lt_of_le (h.below id hid) (Roster.next_le_edits _ _)

/-- The nodes after the walk of the timer over the PIT. -/
theorem again_ids (t : Nat) (L : Ledger) :
    (L.pit.edit (.filterMap (ageInterest t))).nodes.map (·.id) = (L.again t).map (·.id) := by
  show (L.pit.nodes.filterMap (Node.filterMap (ageInterest t))).map (·.id) = _
  unfold again
  induction L.pit.nodes with
  | nil => rfl
  | cons x l ih =>
    cases hx : ageInterest t x.val with
    | none => simpa [Node.filterMap, hx] using ih
    | some j => simpa [Node.filterMap, hx] using ih

theorem again_nodup (t : Nat) (L : Ledger) : ((L.again t).map (·.id)).Nodup :=
  (List.filter_sublist.map _).nodup L.pit.ids

/-- An entry that the timer forwards again has been forwarded less often than the limit. -/
theorem again_retries {t : Nat} {x : Node Interest} (hx : x ∈ L.again t) :
    x ∈ L.pit.nodes ∧ x.val.retries < maxInterestRetransmit := by
  obtain ⟨hmem, hsome⟩ := List.mem_filter.mp hx
  obtain ⟨j, hj⟩ := Option.isSome_iff_exists.mp hsome
  exact ⟨hmem, (ageInterest_eq_some hj).2.1⟩

theorem count_again (t : Nat) (L : Ledger) (id : Nat) :
    ((L.again t).map (·.id)).count id = if id ∈ (L.again t).map (·.id) then 1 else 0 := by
  split
  · exact List.count_eq_one_of_mem (again_nodup t L) ‹_›
  · exact List.count_eq_zero_of_not_mem ‹_›

theorem after_ageing (E : Env) (L : Ledger) (τ : Relay) (now : Nat) :
    L.after E τ (.ageing now) =
      { relay := τ
        pit := L.pit.edits (ageingEdits (u32 now) L.relay)
        passes := L.passes + 1
        born := fun id => if id < L.pit.next then L.born id else L.passes
        resent := L.resent ++ (L.again (u32 now)).map (·.id) } := rfl

/-- The timer counts one more retry for each entry that it leaves in the PIT. -/
theorem Ok.ageing (h : L.Ok) {now : Nat} (hs : (Call.ageing now).run E L.relay = .ok τ) :
    (L.after E τ (.ageing now)).Ok := by
  refine ⟨h.after_agrees hs, ?_, ?_, ?_⟩ <;> rw [after_ageing]
  · have hclean : ∀ e ∈ (L.relay.faces.filter (·.expired (u32 now))).map (faceCleanEdit ·.faceid),
        Quiet e := by
      intro e he
      obtain ⟨f, -, rfl⟩ := List.mem_map.mp he
      exact faceCleanEdit_quiet f.faceid
    refine Roster.edits_all (r := L.pit.edit (.filterMap (ageInterest (u32 now))))
      (I := Ledger.Entry _) (fun y hy => ?_) (fun e he n i j hij hi => ?_) fun i hi n hn => ?_
    · have hagain : y.id ∈ (L.again (u32 now)).map (·.id) := by
        rw [← again_ids]
        exact List.mem_map_of_mem hy
      obtain ⟨x, hx, hxy⟩ := List.mem_filterMap.mp hy
      obtain ⟨hid, hval⟩ := Node.filterMap_eq_some hxy
      obtain ⟨-, hlt, hy'⟩ := ageInterest_eq_some hval
      have hx' := h.entries x hx
      have hr : y.val.retries = x.val.retries + 1 := by rw [hy']
      refine ⟨?_, ?_, ?_⟩
      · have hage := hx'.age
        simp only [hid, L.pit.below x hx, ↓reduceIte, hr]
        omega
      · have hcount := hx'.resent
        rw [List.count_append, count_again, if_pos hagain, hid, hcount, hr]
      · omega
    · have hr := ((hclean e he).turns i j hij).retries
      exact ⟨hr ▸ hi.age, hr ▸ hi.resent, hr ▸ hi.retries⟩
    · obtain ⟨f, -, hf⟩ := List.mem_map.mp hi
      cases hf
  · intro id
    rw [List.count_append, count_again]
    split
    · rename_i hmem
      obtain ⟨x, hx, rfl⟩ := List.mem_map.mp hmem
      obtain ⟨hxl, hlt⟩ := again_retries hx
      rw [(h.entries x hxl).resent]
      exact hlt
    · exact h.resent id
  · intro id hid
    refine Nat.lt_of_lt_of_le ?_ (Roster.next_le_edits _ _)
    rcases List.mem_append.mp hid with hid | hid
    · exact h.below id hid
    · obtain ⟨x, hx, rfl⟩ := List.mem_map.mp hid
      exact L.pit.below x (again_retries hx).1

end Steps

end Ledger

theorem ledger_ok (E : Env) : (ledger E).Keeps Ledger.Ok where
  start L := by
    rintro ⟨hrelay, hpit, -, hresent⟩
    refine ⟨?_, ?_, ?_, ?_⟩
    · rw [hpit, hrelay]
      rfl
    · simp [hpit, Roster.empty]
    · simp [hresent]
    · simp [hresent]
  step c L L' h hs := by
    obtain ⟨τ, hτ, hs⟩ := (bind_eq_ok _ _ _).mp hs
    cases hs
    by_cases hc : ∃ now, c = .ageing now
    · obtain ⟨now, rfl⟩ := hc
      exact h.ageing hτ
    · exact h.quiet (fun now e => hc ⟨now, e⟩) hτ

/-! ## The runs -/

/-- A ledger can be kept of any calls. -/
theorem ledger_covers {E : Env} {σ : Relay} (hr : (calls E).Reachable σ) :
    ∃ L, (ledger E).Reachable L ∧ L.relay = σ := by
  induction hr with
  | @start σ hs => exact ⟨⟨σ, .empty, 0, fun _ => 0, []⟩, .start ⟨hs, rfl, rfl, rfl⟩, rfl⟩
  | @next _ τ _ c hs ih =>
    obtain ⟨L, hL, rfl⟩ := ih
    exact ⟨L.after E τ c, hL.next c ((bind_eq_ok _ _ _).mpr ⟨τ, hs, rfl⟩), rfl⟩

/-- What a call of `ccnl_do_ageing` does, on the ledger: every entry that stays was in the PIT for
fewer calls than the limit; the entries that are forwarded again are told apart, are forwarded once
each, and are all that stays. -/
theorem ageing_step {E : Env} {L L' : Ledger} (h : L.Ok) {now : Nat}
    (hs : (ledger E).step (.ageing now) L = .ok L') :
    (∀ x ∈ L'.pit.nodes,
      ∃ y ∈ L.pit.nodes, y.id = x.id ∧ L.passes < L.born y.id + maxInterestRetransmit) ∧
    (L'.pit.nodes.map (·.id)).Sublist ((L.again (u32 now)).map (·.id)) ∧
    ((L.again (u32 now)).map (·.id)).Nodup ∧
    L'.resent = L.resent ++ (L.again (u32 now)).map (·.id) ∧
    L'.relay.out = L.relay.out ++
      (L.again (u32 now)).flatMap fun x => propagated L.relay x.val := by
  obtain ⟨τ, hτ, hs⟩ := (bind_eq_ok _ _ _).mp hs
  cases hs
  have hsub : ((L.after E τ (.ageing now)).pit.nodes.map (·.id)).Sublist
      ((L.again (u32 now)).map (·.id)) := by
    rw [← Ledger.again_ids]
    have hclean : ∀ e ∈ (L.relay.faces.filter (·.expired (u32 now))).map (faceCleanEdit ·.faceid),
        e.Shrinks := by
      intro e he
      obtain ⟨f, -, rfl⟩ := List.mem_map.mp he
      exact trivial
    exact (Roster.edits_sublist (r := L.pit.edit (.filterMap (ageInterest (u32 now)))) hclean).1
  refine ⟨fun x hx => ?_, hsub, Ledger.again_nodup _ L, rfl, ?_⟩
  · obtain ⟨y, hy, hid⟩ := List.mem_map.mp (hsub.subset (List.mem_map_of_mem hx))
    obtain ⟨hmem, hlt⟩ := Ledger.again_retries hy
    refine ⟨y, hmem, hid, ?_⟩
    rw [← (h.entries y hmem).age]
    exact Nat.add_lt_add_left hlt _
  · have hout : τ.out = (faceRemoves _ (agedTables (u32 now) L.relay)).out :=
      congrArg Relay.out (doAgeing_eq hτ)
    show τ.out = _
    rw [hout, faceRemoves_out]
    show L.relay.out ++ (resends (u32 now) L.relay.pit).flatMap (propagated L.relay) = _
    rw [← h.agrees]
    simp [resends, Roster.vals, Ledger.again, List.filter_map, List.flatMap_map, Function.comp_def]

/-- PIT entries do not live forever. In a run of any calls (and the main loop is such a run), an
entry has been in the PIT for at most `CCNL_MAX_INTEREST_RETRANSMIT` calls of `ccnl_do_ageing`, and
each of them has forwarded it once; no entry, also of those that are gone, has been forwarded more
often by the timer. The next call of `ccnl_do_ageing` removes an entry that has seen so many,
whatever the clock says, and what it sends is what the entries that it forwards once more give. -/
theorem pit_entries_age_out (E : Env) :
    (∀ σ, (system E).Reachable σ → ∃ L, (ledger E).Reachable L ∧ L.relay = σ) ∧
    ∀ L, (ledger E).Reachable L →
      L.pit.vals = L.relay.pit ∧
      (∀ x ∈ L.pit.nodes, ∃ n ≤ maxInterestRetransmit,
        L.passes = L.born x.id + n ∧ L.resent.count x.id = n) ∧
      (∀ id, L.resent.count id ≤ maxInterestRetransmit) ∧
      ∀ now L', (ledger E).step (.ageing now) L = .ok L' →
        (∀ x ∈ L'.pit.nodes,
          ∃ y ∈ L.pit.nodes, y.id = x.id ∧ L.passes < L.born y.id + maxInterestRetransmit) ∧
        (L'.pit.nodes.map (·.id)).Sublist ((L.again (u32 now)).map (·.id)) ∧
        ((L.again (u32 now)).map (·.id)).Nodup ∧
        L'.resent = L.resent ++ (L.again (u32 now)).map (·.id) ∧
        L'.relay.out = L.relay.out ++
          (L.again (u32 now)).flatMap fun x => propagated L.relay x.val := by
  refine ⟨fun σ hr => ledger_covers (system_calls hr), fun L hr => ?_⟩
  have h := (ledger_ok E).reachable hr
  refine ⟨h.agrees, fun x hx => ?_, h.resent, fun now L' => ageing_step h⟩
  have hx' := h.entries x hx
  exact ⟨x.val.retries, hx'.retries, hx'.age.symm, hx'.resent⟩

/-- The ledger of an Interest for `/a`, after `n` calls of the timer in the same second. -/
def Ledger.ticks (n : Nat) : Run Ledger :=
  (.table (.face 0 0 (some (.inet 7 9695))) ::
    .table (.interest 0 (cMatch Env.still.digest .ndntlv) 1
      { pfx := some (.ofComps .ndntlv [[97]])
        suite := .ndntlv
        s := .ndntlv { maxsuffix := 64, scope := 3, interestlifetime := 4000 } }) ::
    List.replicate n (.ageing 0)).foldlM (fun L c => (ledger .still).step c L)
    ⟨.plain, .empty, 0, fun _ => 0, []⟩

/-- The entry is forwarded seven times, and the eighth call of the timer removes it. -/
theorem pit_entries_age_out_ticks : ∃ L L', (ledger .still).Reachable L ∧ L.resent.count 0 = 7 ∧
    (∀ id, L.resent.count id ≤ maxInterestRetransmit) ∧
    (ledger .still).step (.ageing 0) L = .ok L' ∧ L'.pit.nodes.length = 0 := by
  obtain ⟨⟨L, L'⟩, hrun, hseven, hgone⟩ := exists_ok
    (x := do
      let L ← Ledger.ticks 7
      return (L, ← (ledger .still).step (.ageing 0) L))
    (p := fun r => r.1.resent.count 0 = 7 ∧ r.2.pit.nodes.length = 0) (by decide +kernel)
  obtain ⟨L₁, hL, hrun⟩ := (bind_eq_ok _ _ _).mp hrun
  obtain ⟨L₂, hstep, hrun⟩ := (bind_eq_ok _ _ _).mp hrun
  cases hrun
  have hstart : (ledger .still).Reachable ⟨.plain, .empty, 0, fun _ => 0, []⟩ :=
    .start ⟨rfl, rfl, rfl, rfl⟩
  have hr := hstart.run hL
  exact ⟨L, L', hr, hseven, ((pit_entries_age_out .still).2 L hr).2.2.1, hstep, hgone⟩

end Ccnl
