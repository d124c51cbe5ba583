import CcnLite.Core.Invariant
import CcnLite.Fwd.Dispatch
import CcnLite.Lib.Sys
import CcnLite.Pkt.NdntlvConfined
import CcnLite.Pkt.CcntlvGrammar

/-!
# The relay as a system

The main loop of the relay (`ccnl_io_loop`) waits for a frame or for the timer. `system E` is the
relay with these two events, and `system_ok` its invariant: in every state between two events the
tables are `Relay.Ok`. A packet without a name does not get into them (`handleInterest_ok`,
`handleContent_ok`).
-/

namespace Ccnl

open CRun

/-! ## Packets with names -/

/-- The packet loop of NDN-TLV keeps the format. -/
theorem ndnElem_suite {mem : List UInt8} {start hd typ len : Nat} {cur : Cursor} {s s' : NdnState}
    (h : ndnElem mem start hd typ len cur s = .ok s') : s'.pkt.suite = s.pkt.suite := by
  cases ndnElem_taken h <;> rfl

theorem ndntlvParse_suite {mem : List UInt8} {c c' : Cursor} {pkt : Pkt}
    (h : ndntlvParse mem c = .ok (pkt, c')) : pkt.suite = .ndntlv := by
  obtain ⟨typ, len, c₁, pkt', -, -, hp, rfl⟩ := ndntlvParse_eq_ok.mp h
  obtain ⟨-, s, hl, -, buf, -, rfl⟩ := ndntlvBytes2pkt_eq_ok.mp hp
  obtain ⟨⟨p, -, -, hs⟩, -⟩ := Tlv.top_inv (dehead_decodes mem)
    (I := fun _ s => s.pkt.suite = .ndntlv) hl rfl
    fun _ _ _ _ _ _ hs _ _ he _ => (ndnElem_suite he).trans hs
  exact hs

theorem ccntlvBytes2pkt_named {mem : List UInt8} {start : Nat} {c c' : Cursor} {pkt : Pkt}
    (h : ccntlvBytes2pkt mem start c = .ok (pkt, c')) : pkt.pfx ≠ none := by
  obtain ⟨typ, len, c₁, s, -, -, -, -, buf, -, rfl⟩ := ccntlvBytes2pkt_eq_ok.mp h
  simp [CcntlvState.finish, Pkt.rebase]

/-- The parser takes all that is left of the frame. -/
theorem ccntlvBytes2pkt_len {mem : List UInt8} {start : Nat} {c c' : Cursor} {pkt : Pkt}
    (h : ccntlvBytes2pkt mem start c = .ok (pkt, c')) : c'.len = 0 := by
  obtain ⟨typ, len, c₁, s, -, -, -, hlen, -⟩ := ccntlvBytes2pkt_eq_ok.mp h
  exact hlen

theorem ndntlvParse_len {mem : List UInt8} {c c' : Cursor} {pkt : Pkt}
    (h : ndntlvParse mem c = .ok (pkt, c')) : c'.len = 0 ∧ c.len ≠ 0 := by
  obtain ⟨typ, len, c₁, pkt', hx, -, hp, -⟩ := ndntlvParse_eq_ok.mp h
  obtain ⟨-, s, -, hlen, -⟩ := ndntlvBytes2pkt_eq_ok.mp hp
  have hhead := (dehead_eq_ok.mp hx).1.lt
  exact ⟨hlen, by omega⟩

theorem ccnbBytes2pkt_named {mem : List UInt8} {start : Nat} {c c' : Cursor} {pkt : Pkt}
    (h : ccnbBytes2pkt mem start c = .ok (pkt, c')) : pkt.pfx ≠ none := by
  obtain ⟨⟨c₁, s⟩, -, h⟩ := (bind_eq_ok _ _ _).mp h
  obtain ⟨buf, -, h⟩ := (bind_eq_ok _ _ _).mp h
  obtain ⟨comp, -, h⟩ := (bind_eq_ok _ _ _).mp h
  cases h
  simp [Pkt.rebase, CcnbState.finish]

/-! ## The handlers -/

section Handlers

variable {E : Env} {now : Nat} {σ τ : Relay} {f : FaceId} {pkt : Pkt}

theorem mgmtOp_ok {op : MgmtOp} (h : σ.Ok) (ho : op.run E now f σ = .ok τ) : τ.Ok := by
  cases op <;> simp only [MgmtOp.run] at ho
  case faceNew sa static reflect =>
    split at ho
    · rename_i σ₁ g hg
      cases ho
      exact setFace_ok (getFaceOrCreate_ok (by omega) h hg) _ fun _ => ⟨rfl, rfl⟩
    · rename_i σ₁ hg
      cases ho
      exact getFaceOrCreate_ok (by omega) h hg
  case faceRemove g => cases ho; exact faceRemove_ok h g
  case fibAdd p g =>
    split at ho <;> cases ho
    · exact fibAddEntry_ok h p g
    · exact h
  case fibRem p g => cases ho; exact fibRemEntry_ok h _ _
  case contentAdd p pkt =>
    obtain ⟨s, hs, ho⟩ := (bind_eq_ok _ _ _).mp ho
    obtain ⟨-, -, -, -, hpkt, -⟩ := servePending_relay h hs
    exact contentAdd2cache_ok (servePending_ok h hs) (by rw [hpkt]; simp [contentNew]) ho
  case contentRemove k =>
    split at ho <;> cases ho
    · exact contentRemove_ok h k
    · exact h
  case interestNew p pkt =>
    cases ho
    cases hn : interestNew now σ (some f) { pkt with pfx := some p } with
    | none => exact h
    | some r => exact (interestNew_ok h (by simp) hn).1
  case enqueue buf => exact faceEnqueue_ok h ho

theorem mgmt_ok (h : σ.Ok) (hm : mgmt E now σ pkt f = .ok τ) : τ.Ok :=
  foldlM_inv (I := Relay.Ok) (fun _ _ _ h₁ ho => mgmtOp_ok h₁ ho) h hm

/-- A Data without a name is not cached: no PIT entry matches it. -/
theorem handleContent_ok (h : σ.Ok) (hc : handleContent E now σ pkt = .ok τ) : τ.Ok := by
  have hcached : ∀ s τ, servePending E.digest σ (contentNew now pkt) = .ok s → s.cnt ≠ 0 →
      contentAdd2cache s.relay s.c = .ok τ → τ.Ok := fun s τ hs hne hc => by
    obtain ⟨-, -, -, -, hpkt, hcnt⟩ := servePending_relay h hs
    rw [Ne, hcnt] at hne
    push Not at hne
    obtain ⟨i, -, hm⟩ := hne
    exact contentAdd2cache_ok (servePending_ok h hs) (hpkt ▸ hm.named) hc
  cases handleContent_handled hc with
  | dup => exact h
  | unsolicited _ hs | served _ hs => exact servePending_ok h hs
  | cached _ hs hne hc => exact hcached _ _ hs hne hc

theorem pitInsert_ok {r : Option Relay} (h : σ.Ok) (hf : σ.Listed f) (hp : pkt.pfx ≠ none)
    (hi : pitInsert now σ f pkt = .ok r) : ∀ τ, r = some τ → τ.Ok := by
  rintro τ rfl
  cases pitInsert_inserted hi with
  | pending =>
    refine h.with_pit (fun i hi => ?_) rfl rfl rfl (List.Subset.refl _)
    obtain ⟨j, hj, rfl | rfl⟩ := mem_modify hi
    · exact h.pit _ hj
    · exact interestAppendPending_ok (h.pit j hj) hf
  | full => exact h
  | new _ _ hn h₂ =>
    obtain ⟨hok, hpit, hfs, hnamed, hpend⟩ := interestNew_ok h hp hn
    refine interestPropagate_ok ?_ h₂
    refine hok.with_pit (fun j hj => ?_) rfl rfl rfl (List.Subset.refl _)
    rcases List.mem_cons.mp hj with rfl | hj
    · exact interestAppendPending_ok ⟨hnamed, by simp [hpend]⟩ (by unfold Relay.Listed; rwa [hfs])
    · exact hok.pit j (by rw [hpit] at hj ⊢; exact List.mem_cons_of_mem _ hj)

/-- The test for a management Interest looks at the name. -/
theorem isMgmt_named {b : Bool} (hs : pkt.suite = .ccnb ∨ pkt.suite = .ndntlv)
    (h : isMgmt pkt = .ok b) : pkt.pfx ≠ none := by
  intro hp
  unfold isMgmt at h
  rcases hs with hs | hs <;> simp [hs, hp, deref] at h

/-- An Interest without a name does not get into the PIT, in a format where it may have none: the
test for a management Interest stops at it. -/
theorem handleInterest_ok {cMatch : Pkt → Content → Run Bool} {b : Bool} (h : σ.Ok)
    (hp : pkt.suite = .ccnb ∨ pkt.suite = .ndntlv ∨ pkt.pfx ≠ none)
    (hi : handleInterest E now cMatch σ f pkt = .ok (τ, b)) : τ.Ok := by
  have hnamed : ∀ m, isMgmt pkt = .ok m → pkt.pfx ≠ none := fun m hm => by
    rcases hp with hp | hp | hp
    · exact isMgmt_named (.inl hp) hm
    · exact isMgmt_named (.inr hp) hm
    · exact hp
  cases handleInterest_handled hi with
  | dup => exact h
  | mgmt _ hn _ h₂ => exact mgmt_ok (nonceIsDup_ok h hn) h₂
  | hit _ hn _ _ h₂ => exact deliver_ok (nonceIsDup_ok h hn) h₂
  | drop _ hn => exact nonceIsDup_ok h hn
  | @insert x σ₁ _ hx hn hm _ hr =>
    have hx₁ : σ₁.Listed f := by
      have := Relay.listed_of_face hx
      unfold nonceIsDup at hn
      split at hn
      · cases hn; exact this
      · obtain ⟨ns, -, rfl⟩ := Option.map_eq_some_iff.mp hn
        exact this
    exact pitInsert_ok (nonceIsDup_ok h hn) hx₁ (hnamed _ hm) hr _ rfl

end Handlers

/-! ## The forwarders -/

/-- The calls of the forwarders keep `I`. An Interest that comes to the handler has a name, or a
format that is tested for management commands. -/
structure HandlersKeep (E : Env) (now : Nat) (f : FaceId) (I : Relay → Prop) : Prop where
  interest : ∀ {cMatch : Pkt → Content → Run Bool} {σ τ : Relay} {pkt : Pkt} {b : Bool}, I σ →
    (pkt.suite = .ccnb ∨ pkt.suite = .ndntlv ∨ pkt.pfx ≠ none) →
    handleInterest E now cMatch σ f pkt = .ok (τ, b) → I τ
  content : ∀ {σ τ : Relay} {pkt : Pkt}, I σ → handleContent E now σ pkt = .ok τ → I τ
  contentRemove : ∀ {σ : Relay} {k : Nat}, I σ → k < σ.contents.length → I (contentRemove σ k)
  enqueue : ∀ {σ τ : Relay} {buf : List UInt8}, I σ → faceEnqueue σ f buf = .ok τ → I τ

theorem handlersKeep_ok (E : Env) (now : Nat) (f : FaceId) : HandlersKeep E now f Relay.Ok where
  interest := handleInterest_ok
  content := handleContent_ok
  contentRemove h _ := contentRemove_ok h _
  enqueue := faceEnqueue_ok

section Forwarders

variable {E : Env} {now : Nat} {σ τ : Relay} {f : FaceId} {mem : List UInt8} {c : Cursor}
  {I : Relay → Prop}

theorem ccnbForwarder_keeps {r : Option Cursor} (H : HandlersKeep E now f I) (h : I σ)
    (hr : ccnbForwarder E now f σ mem c = .ok (τ, r)) : I τ := by
  have hhandle : ∀ {σ τ : Relay} {pkt : Pkt} {b : Bool}, I σ → pkt.pfx ≠ none →
      ccnbHandle E now f σ pkt = .ok (τ, b) → I τ := by
    intro σ τ pkt b h hp hh
    unfold ccnbHandle at hh
    split at hh
    · exact H.interest h (.inr (.inr hp)) hh
    · obtain ⟨σ₁, h₁, hh⟩ := (bind_eq_ok _ _ _).mp hh
      cases hh
      exact H.content h h₁
  have hstep : ∀ {s : Relay × Cursor} {x : (Relay × Cursor) ⊕ (Relay × Option Cursor)}, I s.1 →
      ccnbFrameStep (ccnbHandle E now f) mem s = .ok x →
      x.elim (fun s => I s.1) fun r => I r.1 := by
    rintro ⟨σ, c⟩ x h hs
    unfold ccnbFrameStep at hs
    simp only at h hs
    split at hs
    · cases hs; exact h
    obtain ⟨y, -, hs⟩ := (bind_eq_ok _ _ _).mp hs
    split at hs
    · cases hs; exact h
    split at hs
    · obtain ⟨z, hz, hs⟩ := (bind_eq_ok _ _ _).mp hs
      split at hs
      · cases hs; exact h
      · obtain ⟨⟨σ₁, b⟩, hw, hs⟩ := (bind_eq_ok _ _ _).mp hs
        have hp := ccnbBytes2pkt_named (attempt_eq_some.mp hz)
        have := hhandle h (by exact hp) hw
        cases b <;> cases hs <;> exact this
    · cases hs; exact h
  exact loop_inv (I := fun s : Relay × Cursor => I s.1)
    (Q := fun r : Relay × Option Cursor => I r.1) hr h (fun s s' h hs => hstep h hs)
    fun s b h hs => hstep h hs

theorem ccntlvForwarder_keeps {mem' : List UInt8} {r : Option Cursor} (H : HandlersKeep E now f I)
    (h : I σ) (hr : ccntlvForwarder E now f σ mem c = .ok (τ, mem', r)) : I τ := by
  obtain ⟨x, -, hr⟩ := (bind_eq_ok _ _ _).mp hr
  match x with
  | none => cases hr; exact h
  | some (.drop _ _) => cases hr; exact h
  | some (.pass pkttype mem₁ c₁) =>
    obtain ⟨y, hy, hr⟩ := (bind_eq_ok _ _ _).mp hr
    match y with
    | none => cases hr; exact h
    | some (pkt, c₂) =>
      obtain ⟨⟨σ₁, b⟩, h₁, hr⟩ := (bind_eq_ok _ _ _).mp hr
      cases hr
      have hp := ccntlvBytes2pkt_named (attempt_eq_some.mp hy)
      unfold ccntlvHandle at h₁
      split at h₁
      · exact H.interest h (.inr (.inr (by exact hp))) h₁
      · split at h₁
        · obtain ⟨σ₂, h₂, h₁⟩ := (bind_eq_ok _ _ _).mp h₁
          cases h₁
          exact H.content h h₂
        · cases h₁; exact h

theorem ndntlvForwarder_keeps {r : Option Cursor} (H : HandlersKeep E now f I) (h : I σ)
    (hr : ndntlvForwarder E now f σ mem c = .ok (τ, r)) : I τ := by
  obtain ⟨x, hx, hr⟩ := (bind_eq_ok _ _ _).mp hr
  match x with
  | none => cases hr; exact h
  | some (pkt, c₁) =>
    obtain ⟨⟨σ₁, b⟩, h₁, hr⟩ := (bind_eq_ok _ _ _).mp hr
    cases hr
    have hp := ndntlvParse_suite (attempt_eq_some.mp hx)
    unfold ndntlvHandle at h₁
    split at h₁
    · exact H.interest h (.inr (.inl hp)) h₁
    · split at h₁
      · obtain ⟨σ₂, h₂, h₁⟩ := (bind_eq_ok _ _ _).mp h₁
        cases h₁
        exact H.content h h₂
      · cases h₁; exact h

theorem pktForwarder_keeps {suite : Suite} (H : HandlersKeep E now f I) (h : I σ)
    (hr : pktForwarder E now f σ mem c suite = .ok τ) : I τ := by
  unfold pktForwarder at hr
  cases suite with
  | ccnb =>
    obtain ⟨r, h₁, hr⟩ := (bind_eq_ok _ _ _).mp hr
    cases hr
    exact ccnbForwarder_keeps H h h₁
  | ccntlv =>
    obtain ⟨⟨σ₁, mem', r⟩, h₁, hr⟩ := (bind_eq_ok _ _ _).mp hr
    cases hr
    exact ccntlvForwarder_keeps H h h₁
  | ndntlv =>
    obtain ⟨r, h₁, hr⟩ := (bind_eq_ok _ _ _).mp hr
    cases hr
    exact ndntlvForwarder_keeps H h h₁
  | localrpc => cases hr; exact h

theorem rpcOp_keeps {op : RpcOp} (H : HandlersKeep E now f I) (h : I σ)
    (ho : op.run E now f σ = .ok τ) : I τ := by
  cases op <;> simp only [RpcOp.run] at ho
  case contentRemove k =>
    split at ho <;> cases ho
    · exact H.contentRemove h ‹_›
    · exact h
  case forward suite mem c => exact pktForwarder_keeps H h ho
  case enqueue buf => exact H.enqueue h ho

theorem rxTable_keeps {suite : Suite} {mem' : List UInt8} {r : Option Cursor} (H : HandlersKeep E now f I)
    (h : I σ) (hr : rxTable E now f σ mem c suite = .ok (τ, mem', r)) : I τ := by
  cases suite with
  | ccnb =>
    obtain ⟨⟨σ₁, r₁⟩, h₁, hr⟩ := (bind_eq_ok _ _ _).mp hr
    cases hr
    exact ccnbForwarder_keeps H h h₁
  | ccntlv => exact ccntlvForwarder_keeps H h hr
  | ndntlv =>
    obtain ⟨⟨σ₁, r₁⟩, h₁, hr⟩ := (bind_eq_ok _ _ _).mp hr
    cases hr
    exact ndntlvForwarder_keeps H h h₁
  | localrpc =>
    obtain ⟨⟨σ₁, r₁⟩, h₁, hr⟩ := (bind_eq_ok _ _ _).mp hr
    cases hr
    obtain ⟨σ₂, h₂, h₁⟩ := (bind_eq_ok _ _ _).mp h₁
    cases h₁
    exact foldlM_inv (I := I) (fun _ _ _ h₁ ho => rpcOp_keeps H h₁ ho) h h₂

/-- A pass over a packet of a frame. -/
theorem rxStep_keeps {s : Rx} {x : Rx ⊕ Relay} (H : HandlersKeep E now f I) (h : I s.relay)
    (hs : rxStep E now f s = .ok x) : x.elim (fun s => I s.relay) I := by
  unfold rxStep at hs
  split at hs
  · cases hs; exact h
  obtain ⟨y, -, hs⟩ := (bind_eq_ok _ _ _).mp hs
  match y with
  | (none, _) => cases hs; exact h
  | (some suite, c) =>
    obtain ⟨⟨σ₁, mem', r⟩, h₁, hs⟩ := (bind_eq_ok _ _ _).mp hs
    have := rxTable_keeps H h h₁
    cases r <;> cases hs <;> exact this

theorem rxLoop_keeps {len : Nat} (H : HandlersKeep E now f I) (h : I σ)
    (hr : rxLoop E now f σ mem len = .ok τ) : I τ :=
  loop_inv (I := fun s : Rx => I s.relay) (Q := I) hr h (fun _ _ h hs => rxStep_keeps H h hs)
    fun _ _ h hs => rxStep_keeps H h hs

theorem coreRX_keeps {len : Nat} {ifndx : Int} {sa : Option SockAddr}
    (H : ∀ f, HandlersKeep E now f I) (h : I (getFaceOrCreate now σ ifndx sa).1)
    (hr : coreRX E now σ ifndx sa mem len = .ok τ) : I τ := by
  unfold coreRX at hr
  split at hr
  · rename_i σ₁ f hg
    rw [hg] at h
    exact rxLoop_keeps (H f) h hr
  · rename_i σ₁ hg
    rw [hg] at h
    cases hr
    exact h

end Forwarders

/-! ## The system -/

/-- A frame: the first `len` bytes of the receive buffer. -/
structure Frame where
  mem : List UInt8
  len : Nat
  len_le : len ≤ mem.length

/-- The frame `bytes`, with `slack` behind it in the buffer. -/
def Frame.of (bytes slack : List UInt8) : Frame := ⟨bytes ++ slack, bytes.length, by simp⟩

/-- What the main loop waits for. -/
inductive Event where
  /-- A frame from `sa` at an interface. -/
  | rx (now ifndx : Nat) (sa : SockAddr) (frame : Frame)
  /-- The timer. -/
  | ageing (now : Nat)

def Event.run (E : Env) : Event → Relay → Run Relay
  | rx now ifndx sa frame, σ => coreRX E now σ ifndx (some sa) frame.mem frame.len
  | ageing now, σ => doAgeing now σ

/-- The relay before the first event: `ccnl_relay_config` has set up the interfaces and the limits,
and `ccnl_populate_cache` has loaded contents, from files that have names. -/
structure Relay.Start (σ : Relay) : Prop where
  faces : σ.faces = []
  pit : σ.pit = []
  contents : ∀ c ∈ σ.contents, c.pkt.pfx ≠ none

/-- The relay as a system. -/
def system (E : Env) : Sys Relay Event where
  Start := Relay.Start
  step := Event.run E

theorem coreRX_ok {E : Env} {now ifndx len : Nat} {σ τ : Relay} {sa : SockAddr}
    {mem : List UInt8} (h : σ.Ok) (hr : coreRX E now σ ifndx (some sa) mem len = .ok τ) : τ.Ok :=
  coreRX_keeps (handlersKeep_ok E now) (getFaceOrCreate_ok (by omega) h rfl) hr

/-- The invariant of the system. -/
theorem system_ok (E : Env) : (system E).Keeps Relay.Ok where
  start σ h :=
    { pit := by simp [h.pit]
      contents := h.contents
      remote := by simp [h.faces]
      ids := by simp [h.faces] }
  step e σ τ h hs := by
    cases e with
    | rx now ifndx sa frame => exact coreRX_ok h hs
    | ageing now => exact doAgeing_ok h hs

/-! ## A relay to try -/

/-- A relay that no management command and no RPC does anything to. -/
def Env.still : Env where
  digest _ := ⟨List.replicate 32 0, rfl⟩
  mgmt _ _ _ := []
  rpc _ _ _ _ := ([], none)

/-- One UDP interface, and no limit on the cache. -/
def Relay.plain : Relay := { ifs := [{ addr := .inet 0 9695 }], maxCacheEntries := -1 }

theorem Relay.plain_start : Relay.plain.Start := ⟨rfl, rfl, by simp [Relay.plain]⟩

/-- The peer with the address `a` sends a frame. -/
def Event.udp (a now : Nat) (bytes : List UInt8) : Event := .rx now 0 (.inet a 9695) (.of bytes [0])

/-- The relay after some events. -/
def Relay.after (es : List Event) : Run Relay := es.foldlM (fun σ e => Event.run .still e σ) .plain

theorem Relay.after_reachable {es : List Event} {σ : Relay} (h : Relay.after es = .ok σ) :
    (system .still).Reachable σ :=
  (Sys.Reachable.start Relay.plain_start).run h

end Ccnl
