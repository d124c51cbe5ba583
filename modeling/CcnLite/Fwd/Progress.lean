import CcnLite.Fwd.Ends
import CcnLite.Fwd.HopLimit

/-!
# Progress of the dispatcher

A forwarder that returns 0 or more has taken bytes off the frame, but for two kinds of calls
(`Stalls`): with nothing left behind a code switch, the loops of the CCNB forwarder and of the local
RPC are not entered; and a CCNx packet with 0 for both of its lengths, whose hop limit is used up, is
skipped without a byte taken off. `rxTable_meets` says what a call does to the cursor.
-/

namespace Ccnl

open CRun

/-- A CCNx Interest, or an InterestReturn, whose hop limit is 1, with 0 for both lengths. -/
def IdleDrop (mem : List UInt8) (c : Cursor) : Prop :=
  9 ≤ c.len ∧ ∃ pkttype x y, (pkttype = ccnxPtInterest ∨ pkttype = ccnxPtNack) ∧
    rdBytes mem c.pos 9 = .ok [ccnxTlvV1, pkttype, 0, 0, 1, x, y, 0, 0]

/-- The forwarder of the suite takes nothing off at the cursor, and returns 0. -/
def Stalls (mem : List UInt8) (c : Cursor) : Suite → Prop
  | .ccnb | .localrpc => c.len = 0
  | .ccntlv => IdleDrop mem c
  | .ndntlv => False

/-! ## The code switches -/

section Switches

variable {mem : List UInt8} {c : Cursor}

theorem switchDehead_meets (mem : List UInt8) (c : Cursor) :
    Meets ParserFault (fun r => ∀ x c', r = some (x, c') → c'.After c ∧ c'.len + 2 = c.len)
      (switchDehead mem c) := by
  unfold switchDehead
  split
  · exact .ok (by simp)
  refine (rd_noFault _).meets.bind fun b _ => ?_
  split
  · exact .ok (by simp)
  refine (rd_noFault _).meets.bind fun code _ => ?_
  split
  · refine .ok fun x c' hc => ?_
    cases hc
    exact ⟨.of_le (by omega), by simp only; omega⟩
  · exact .ok (by simp)

/-- The code switches leave the cursor where it is, or take off at least two bytes. -/
theorem switches_meets (mem : List UInt8) (suite : Option Suite) (c : Cursor) :
    Meets ParserFault (fun r => r.2 = c ∨ r.2.After c ∧ r.2.len + 2 ≤ c.len)
      (switches mem suite c) := by
  refine Meets.loop (I := fun s => s.2 = c ∨ s.2.After c ∧ s.2.len + 2 ≤ c.len)
    (m := fun s => s.2.len) (fun s hs => ?_) (.inl rfl) (Nat.lt_succ_self _)
  refine (switchDehead_meets mem s.2).bind fun r hr => ?_
  match r with
  | none => exact .ok hs
  | some (code, c₁) =>
    obtain ⟨hafter, hlen⟩ := hr _ _ rfl
    refine .ok ⟨.inr ?_, by simp only; omega⟩
    rcases hs with rfl | ⟨hs, hle⟩
    · exact ⟨hafter, by simp only; omega⟩
    · exact ⟨hs.trans hafter, by simp only; omega⟩

theorem pkt2suite_noFault (mem : List UInt8) (c : Cursor) :
    Avoids ParserFault (pkt2suite mem c) := by
  unfold pkt2suite
  simp only [avoids_ite, avoids_pure, implies_true, true_and, avoids_bind,
    (switches_meets mem none c).avoids]
  rintro - ⟨suite, c₁⟩ -
  simp

theorem nextSuite_meets (mem : List UInt8) (suite : Option Suite) (c : Cursor) :
    Meets ParserFault (fun r => r.2 = c ∨ r.2.After c ∧ r.2.len + 2 ≤ c.len)
      (nextSuite mem suite c) := by
  refine (switches_meets mem suite c).bind fun r hr => ?_
  obtain ⟨suite', c₁⟩ := r
  cases suite' with
  | some s => exact .ok hr
  | none => exact (pkt2suite_noFault mem c₁).meets.bind fun s _ => .ok hr

end Switches

/-! ## The forwarders -/

section Forwarders

variable {E : Env} {now : Nat} {σ τ : Relay} {f : FaceId} {mem mem' : List UInt8} {c c' : Cursor}

theorem ccnbHandle_meets {pkt : Pkt} (hn : σ.PitNamed) (hp : pkt.pfx ≠ none) :
    Meets Endless (fun r => r.1.PitNamed) (ccnbHandle E now f σ pkt) := by
  have hm : ∀ c, Avoids Endless (ccnbCMatch E.digest pkt c) := fun c => by simp [ccnbCMatch]
  unfold ccnbHandle
  split
  · exact ⟨handleInterest_ends hn hm,
      fun r h => handleInterest_pitNamed hn (.inr (.inr hp)) h⟩
  · refine ⟨by simp [handleContent_ends hn], fun r h => ?_⟩
    obtain ⟨τ, hτ, h⟩ := (bind_eq_ok _ _ _).mp h
    cases h
    exact (handlersKeep_pitNamed E now f).content hn hτ

/-- A pass of the CCNB forwarder takes off a packet, or leaves the loop. -/
theorem ccnbFrameStep_meets (s : Relay × Cursor) (hn : s.1.PitNamed) :
    Meets Endless (Sum.elim
        (fun s' => s'.1.PitNamed ∧ s'.2.After s.2 ∧ s'.2.len < s.2.len)
        fun r => r.2 = none ∨ r.2 = some s.2 ∧ s.2.len = 0)
      (ccnbFrameStep (ccnbHandle E now f) mem s) := by
  unfold ccnbFrameStep
  split
  · exact .ok (.inr ⟨rfl, ‹_›⟩)
  refine ((ccnbDehead_meets mem s.2).mono_stop Endless.parser).bind fun r hr => ?_
  match r with
  | none => exact .ok (.inl rfl)
  | some ((num, typ), c₁) =>
    obtain ⟨hafter, hlt⟩ := hr _ _ rfl
    dsimp only
    split
    · have hparse : Meets Endless (fun r => r.1.pfx ≠ none ∧ r.2.After c₁)
          (ccnbBytes2pkt mem (c₁.pos - 2) c₁) :=
        have h := ccnbBytes2pkt_meets mem (c₁.pos - 2) c₁
        ⟨h.avoids.mono Endless.parser, fun r hr => ⟨ccnbBytes2pkt_named hr, h.post r hr⟩⟩
      refine hparse.attempt.bind fun r hr => ?_
      match r with
      | none => exact .ok (.inl rfl)
      | some (pkt, c₂) =>
        obtain ⟨hp, hc₂⟩ := hr _ rfl
        refine Meets.bind (ccnbHandle_meets hn (by exact hp)) fun r hr => ?_
        obtain ⟨σ₁, b⟩ := r
        cases b with
        | true => exact .ok ⟨hr, hafter.trans hc₂, Nat.lt_of_le_of_lt hc₂.le hlt⟩
        | false => exact .ok (.inl rfl)
    · exact .ok (.inl rfl)

theorem ccnbForwarder_meets (hn : σ.PitNamed) :
    Meets Endless (fun r => ∀ c', r.2 = some c' → c'.len = 0 ∧ (c.len = 0 → c' = c))
      (ccnbForwarder E now f σ mem c) := by
  refine Meets.loop (I := fun s => s.1.PitNamed ∧ s.2.After c ∧ (s.2.len < c.len ∨ s.2 = c))
    (m := fun s => s.2.len) (fun s hs => ?_) ⟨hn, .refl c, .inr rfl⟩ (Nat.lt_succ_self _)
  obtain ⟨hn, hafter, hs⟩ := hs
  refine (ccnbFrameStep_meets s hn).mono fun x hx => ?_
  cases x with
  | inl s' =>
    obtain ⟨hn', hafter', hlt⟩ := hx
    exact ⟨⟨hn', hafter.trans hafter', .inl (Nat.lt_of_lt_of_le hlt hafter.le)⟩, hlt⟩
  | inr r =>
    rintro c' hc
    rcases hx with hx | ⟨hx, h0⟩
    · rw [hx] at hc
      cases hc
    · rw [hx] at hc
      cases hc
      refine ⟨h0, fun hc0 => ?_⟩
      rcases hs with hs | hs
      · omega
      · exact hs

theorem ndntlvForwarder_meets (hn : σ.PitNamed) :
    Meets Endless (fun r => ∀ c', r.2 = some c' → c'.len = 0 ∧ c.len ≠ 0)
      (ndntlvForwarder E now f σ mem c) := by
  have hparse : Meets Endless (fun r => r.2.len = 0 ∧ c.len ≠ 0) (ndntlvParse mem c) :=
    ⟨(ndntlvParse_noFault mem c).mono Endless.parser, fun r hr => ndntlvParse_len hr⟩
  refine hparse.attempt.bind fun r hr => ?_
  match r with
  | none => exact .ok nofun
  | some (pkt, c₁) =>
    have hm : ∀ c, Avoids Endless (ndntlvCMatch E.digest pkt c) := fun c => by simp [ndntlvCMatch]
    have hhandle : Avoids Endless (ndntlvHandle E now f σ pkt) := by
      unfold ndntlvHandle
      split
      · exact handleInterest_ends hn hm
      · split
        · simp [handleContent_ends hn]
        · simp
    refine hhandle.meets.bind fun r _ => .ok fun c' hc => ?_
    cases hb : r.2 with
    | false => simp [hb] at hc
    | true =>
      simp only [hb, if_true, Option.some.injEq] at hc
      exact hc ▸ hr _ rfl

/-- The fixed header of an `IdleDrop`. -/
theorem ccntlvHeader_idle (h : IdleDrop mem c) :
    ccntlvHeader mem c = .ok (.drop (mem.set (c.pos + 4) 0) c) ∧ mem[c.pos + 4]? = some 1 ∧
      (mem.set (c.pos + 4) 0)[c.pos + 4]? = some 0 := by
  obtain ⟨hlen, pkttype, x, y, ht, hbytes⟩ := h
  obtain ⟨hin, htake⟩ := rdBytes_eq_ok.mp hbytes
  have hget : ∀ k < 9, mem[c.pos + k]? =
      ([ccnxTlvV1, pkttype, 0, 0, 1, x, y, 0, 0] : List UInt8)[k]? := by
    intro k hk
    rw [← htake, List.getElem?_take_of_lt hk, List.getElem?_drop]
  have hmem : c.pos + 9 ≤ mem.length := hin.resolve_left (by decide)
  have hversion : rd mem c.pos = .ok ccnxTlvV1 := rd_eq_ok.mpr (hget 0 (by decide))
  have hnat : beNat [0, 0] = 0 := rfl
  refine ⟨?_, hget 4 (by decide), by rw [List.getElem?_set_self (by omega)]⟩
  unfold ccntlvHeader
  rw [if_neg (by omega), hversion, ok_bind, if_neg (by simp), hbytes, ok_bind]
  simp [hnat, ht]

theorem beNat_pair_eq_zero {a b : UInt8} : beNat [a, b] = 0 ↔ a = 0 ∧ b = 0 := by
  simp [beNat, ← UInt8.toNat_inj]

/-- A packet that is skipped has some bytes, or is an `IdleDrop`. -/
theorem ccntlvHeader_drop (h : ccntlvHeader mem c = .ok (.drop mem' c')) :
    c'.After c ∧ (IdleDrop mem c ∨ c'.len < c.len) := by
  unfold ccntlvHeader at h
  split at h
  · simp at h
  rename_i hlen
  obtain ⟨version, hversion, h⟩ := (bind_eq_ok _ _ _).mp h
  split at h
  · simp at h
  rename_i hv
  obtain ⟨hp, hbytes, h⟩ := (bind_eq_ok _ _ _).mp h
  simp only at h
  split at h
  · simp at h
  split at h
  · simp at h
  rename_i hhdr hpay
  split at h
  · rename_i ht
    split at h
    · rename_i hhop
      cases h
      refine ⟨⟨by simp only; omega, by simp only; omega⟩, ?_⟩
      by_cases hzero : beNat ((hp.drop 2).take 2) = 0
      · refine .inl ⟨by omega, ?_⟩
        have hhdrlen : beNat (hp.drop 7).reverse = 0 := by omega
        have hnine : hp.length = 9 ∧ mem[c.pos]? = hp[0]? := by
          obtain ⟨hin, rfl⟩ := rdBytes_eq_ok.mp hbytes
          have := hin.resolve_left (by decide)
          simp
          omega
        obtain ⟨hnine, h0⟩ := hnine
        obtain _ | ⟨b₀, _ | ⟨b₁, _ | ⟨b₂, _ | ⟨b₃, _ | ⟨b₄, _ | ⟨b₅, _ | ⟨b₆, _ | ⟨b₇,
          _ | ⟨b₈, _ | ⟨b₉, hp⟩⟩⟩⟩⟩⟩⟩⟩⟩⟩ := hp <;> simp at hnine
        obtain ⟨rfl, rfl⟩ : b₂ = 0 ∧ b₃ = 0 := beNat_pair_eq_zero.mp hzero
        obtain ⟨rfl, rfl⟩ : b₈ = 0 ∧ b₇ = 0 := beNat_pair_eq_zero.mp hhdrlen
        obtain rfl : b₀ = ccnxTlvV1 := by
          rw [rd_eq_ok.mp hversion] at h0
          simp only [List.getElem?_cons_zero, Option.some.injEq] at h0
          rw [← h0]
          exact not_not.mp hv
        obtain rfl : b₄ = 1 := by
          have hlast : b₄ - 1 = 0 := hhop
          grind
        exact ⟨b₁, b₅, b₆, ht, hbytes⟩
      · exact .inr (by simp only; omega)
    · simp at h
  · simp at h

theorem ccntlvForwarder_meets (hn : σ.PitNamed) :
    Meets Endless (fun r => ∀ c', r.2.2 = some c' →
        (c'.len = 0 ∨ c'.After c) ∧ (IdleDrop mem c ∨ c'.len < c.len))
      (ccntlvForwarder E now f σ mem c) := by
  refine ((ccntlvHeader_noFault mem c).mono Endless.parser).self.attempt.bind fun r hr => ?_
  match r with
  | none => exact .ok nofun
  | some (.drop mem₁ c₁) =>
    refine .ok fun c' hc => ?_
    cases hc
    obtain ⟨hafter, hlt⟩ := ccntlvHeader_drop (hr _ rfl)
    exact ⟨.inr hafter, hlt⟩
  | some (.pass pkttype mem₁ c₁) =>
    have hlen := (ccntlvHeader_limit (hr _ rfl)).1
    refine ((ccntlvBytes2pkt_noFault mem₁ c.pos c₁).mono Endless.parser).self.attempt.bind
      fun r hr => ?_
    match r with
    | none => exact .ok nofun
    | some (pkt, c₂) =>
      have hzero := ccntlvBytes2pkt_len (hr _ rfl)
      have hhandle : Avoids Endless (ccntlvHandle E now f σ pkttype pkt) := by
        unfold ccntlvHandle
        split
        · exact handleInterest_ends hn fun c => by simp [ccntlvCMatch]
        · split
          · simp [handleContent_ends hn]
          · simp
      refine hhandle.meets.bind fun r _ => .ok fun c' hc => ?_
      cases hb : r.2 with
      | false => simp [hb] at hc
      | true =>
        simp only [hb, if_true, Option.some.injEq] at hc
        subst hc
        exact ⟨.inl hzero, .inr (by omega)⟩

theorem pktForwarder_ends {suite : Suite} (hn : σ.PitNamed) :
    Avoids Endless (pktForwarder E now f σ mem c suite) := by
  cases suite <;> simp [pktForwarder, (ccnbForwarder_meets hn).avoids,
    (ccntlvForwarder_meets hn).avoids, (ndntlvForwarder_meets hn).avoids]

theorem rpcOp_ends {op : RpcOp} (hn : σ.PitNamed) : Avoids Endless (op.run E now f σ) := by
  cases op <;> simp [RpcOp.run, pktForwarder_ends hn]

end Forwarders

/-! ## The table of the forwarders -/

/-- The parameter `rpc` stands for `ccnl_localrpc_exec`: the cursor is what its loop gives on a heap
where freed nodes stay as they are, and `none` where the loop stops. Without an RPC nothing is done. -/
structure Env.LocalRpc (E : Env) : Prop where
  cursor : ∀ σ mem c f, ∃ handleRequest freed, FreedStays freed ∧
    (E.rpc σ mem c f).2 = (localrpcLoop handleRequest freed mem c).toOption.join
  idle : ∀ σ mem c f, c.len = 0 → (E.rpc σ mem c f).1 = []

section Table

variable {E : Env} {now : Nat} {σ τ : Relay} {f : FaceId} {mem mem' : List UInt8} {c c' : Cursor}
  {suite : Suite}

/-- A call that returns 0 or more and takes nothing off stalls. -/
theorem rxTable_meets (hE : E.LocalRpc) (hn : σ.PitNamed) :
    Meets Endless (fun r => ∀ c', r.2.2 = some c' →
        (c'.len = 0 ∨ c'.After c) ∧ (Stalls mem c suite ∨ c'.len < c.len))
      (rxTable E now f σ mem c suite) := by
  cases suite with
  | ccnb =>
    refine (ccnbForwarder_meets hn).bind fun r hr => .ok fun c' hc => ?_
    have hzero := (hr c' hc).1
    refine ⟨.inl hzero, ?_⟩
    by_cases hc0 : c.len = 0
    · exact .inl hc0
    · exact .inr (by omega)
  | ccntlv => exact ccntlvForwarder_meets hn
  | ndntlv =>
    refine (ndntlvForwarder_meets hn).bind fun r hr => .ok fun c' hc => ?_
    obtain ⟨hzero, hc0⟩ := hr c' hc
    exact ⟨.inl hzero, .inr (by omega)⟩
  | localrpc =>
    have hops : Avoids Endless ((E.rpc σ mem c f).1.foldlM (RpcOp.run E now f) σ) :=
      avoids_foldlM (I := Relay.PitNamed) hn
        (fun _ _ _ _ hn ho => rpcOp_keeps (handlersKeep_pitNamed E now f) hn ho)
        fun _ _ _ hn => rpcOp_ends hn
    have hexec : Meets Endless (fun r => r.2 = (E.rpc σ mem c f).2)
        (localrpcExec E now f σ mem c) := hops.meets.bind fun τ _ => .ok rfl
    refine hexec.bind fun r hr => .ok fun c' hc => ?_
    obtain ⟨handleRequest, freed, hfreed, hcursor⟩ := hE.cursor σ mem c f
    have hloop : localrpcLoop handleRequest freed mem c = .ok (some c') := by
      have hc' : (localrpcLoop handleRequest freed mem c).toOption.join = some c' :=
        hcursor ▸ hr ▸ hc
      cases hl : localrpcLoop handleRequest freed mem c with
      | error s => simp [hl, Except.toOption] at hc'
      | ok r =>
        simp only [hl, Except.toOption, Option.join_some] at hc'
        rw [hc']
    obtain ⟨hafter, hlt⟩ := (localrpcLoop_meets hfreed).post _ hloop c' rfl
    refine ⟨.inr hafter, ?_⟩
    by_cases hc0 : c.len = 0
    · exact .inl hc0
    · exact .inr (hlt hc0)

/-- A call that stalls returns 0, with the cursor where it was; the hop limit is 0 after it. -/
theorem rxTable_stalls (hE : E.LocalRpc) (hs : Stalls mem c suite) :
    ∃ mem', rxTable E now f σ mem c suite = .ok (σ, mem', some c) ∧
      (c.len ≠ 0 → mem[c.pos + 4]? = some 1 ∧ mem'[c.pos + 4]? = some 0) := by
  cases suite with
  | ccnb =>
    have hloop : ccnbForwarder E now f σ mem c = .ok (σ, some c) :=
      loop_succ_eq_ok.mpr (.inr (if_pos hs))
    exact ⟨mem, by simp [rxTable, hloop], fun h => absurd hs h⟩
  | ccntlv =>
    obtain ⟨hdrop, hone, hzero⟩ := ccntlvHeader_idle hs
    exact ⟨_, by simp [rxTable, ccntlvForwarder, hdrop], fun _ => ⟨hone, hzero⟩⟩
  | ndntlv => cases hs
  | localrpc =>
    obtain ⟨handleRequest, freed, -, hcursor⟩ := hE.cursor σ mem c f
    rw [localrpcLoop_idle hs] at hcursor
    have hnone := hE.idle σ mem c f hs
    refine ⟨mem, ?_, fun h => absurd hs h⟩
    simp only [rxTable, localrpcExec, hnone, List.foldlM_nil, hcursor]
    rfl

/-- What a call that returns 0 or more does to the cursor. -/
structure Moves (mem : List UInt8) (c : Cursor) (suite : Suite) (mem' : List UInt8) (c' : Cursor) :
    Prop where
  after : c'.len = 0 ∨ c'.After c
  lt_iff : c'.len < c.len ↔ ¬ Stalls mem c suite
  stalls : Stalls mem c suite → c' = c
  hop : Stalls mem c suite → c.len ≠ 0 → mem[c.pos + 4]? = some 1 ∧ mem'[c.pos + 4]? = some 0

theorem rxTable_moves (hE : E.LocalRpc) (hn : σ.PitNamed)
    (h : rxTable E now f σ mem c suite = .ok (τ, mem', some c')) : Moves mem c suite mem' c' := by
  obtain ⟨hafter, hlt⟩ := (rxTable_meets hE hn).post _ h c' rfl
  have hstalls : Stalls mem c suite →
      c' = c ∧ (c.len ≠ 0 → mem[c.pos + 4]? = some 1 ∧ mem'[c.pos + 4]? = some 0) := by
    intro hs
    obtain ⟨mem₁, h₁, hhop⟩ := rxTable_stalls (σ := σ) (f := f) hE hs
    rw [h] at h₁
    cases h₁
    exact ⟨rfl, hhop⟩
  refine ⟨hafter, ⟨fun hc hs => ?_, hlt.resolve_left⟩, fun hs => (hstalls hs).1,
    fun hs => (hstalls hs).2⟩
  rw [(hstalls hs).1] at hc
  exact Nat.lt_irrefl _ hc

end Table

/-! ## The loop over the packets -/

/-- Twice what is left of the frame, and one more as long as a packet at the cursor may be skipped for
its hop limit. -/
def Rx.measure (s : Rx) : Nat := 2 * s.c.len + if s.mem[s.c.pos + 4]? = some 0 then 0 else 1

theorem Rx.measure_le (s : Rx) : s.measure ≤ 2 * s.c.len + 1 := by
  unfold Rx.measure
  split <;> omega

section Loop

variable {E : Env} {now : Nat} {f : FaceId}

/-- A pass that goes on: a call that returned 0 or more. -/
theorem rxStep_again {s s' : Rx} (h : Again (rxStep E now f) s s') :
    s.c.len ≠ 0 ∧ ∃ suite c, nextSuite s.mem s.suite s.c = .ok (some suite, c) ∧
      rxTable E now f s.relay s.mem c suite = .ok (s'.relay, s'.mem, some s'.c) := by
  unfold Again rxStep at h
  split at h
  · cases h
  rename_i hlen
  obtain ⟨⟨suite, c⟩, hnext, h⟩ := (bind_eq_ok _ _ _).mp h
  cases suite with
  | none => cases h
  | some suite =>
    obtain ⟨⟨τ, mem', c'⟩, hcall, h⟩ := (bind_eq_ok _ _ _).mp h
    cases c' with
    | none => cases h
    | some c' =>
      cases h
      exact ⟨hlen, suite, c, hnext, hcall⟩

/-- A pass that goes on makes the measure smaller. -/
theorem rxStep_lt (hE : E.LocalRpc) {s s' : Rx} (hn : s.relay.PitNamed)
    (h : Again (rxStep E now f) s s') : s'.measure < s.measure := by
  obtain ⟨hlen, suite, c, hnext, hcall⟩ := rxStep_again h
  have hmoves := rxTable_moves hE hn hcall
  have hle := s'.measure_le
  have hpos : 2 * s.c.len ≤ s.measure := Nat.le_add_right _ _
  rcases (nextSuite_meets s.mem s.suite s.c).post _ hnext with hc | ⟨-, hc⟩ <;> simp only at hc
  · subst hc
    by_cases hs : Stalls s.mem s.c suite
    · obtain ⟨hone, hzero⟩ := hmoves.hop hs hlen
      have hsame := hmoves.stalls hs
      unfold Rx.measure
      rw [hsame, hone, hzero]
      simp
    · have := hmoves.lt_iff.mpr hs
      omega
  · have hlt : s'.c.len ≤ c.len := by
      by_cases hs : Stalls s.mem c suite
      · rw [hmoves.stalls hs]
      · exact Nat.le_of_lt (hmoves.lt_iff.mpr hs)
    omega

theorem rxStep_ends (hE : E.LocalRpc) {s : Rx} (hn : s.relay.PitNamed) :
    Avoids Endless (rxStep E now f s) := by
  unfold rxStep
  rw [avoids_ite]
  refine ⟨fun _ => avoids_pure _, fun _ => ?_⟩
  rw [avoids_bind]
  refine ⟨(nextSuite_meets _ _ _).avoids.mono Endless.parser, fun x _ => ?_⟩
  obtain ⟨suite, c⟩ := x
  cases suite with
  | none => exact avoids_pure _
  | some suite =>
    dsimp only
    rw [avoids_bind]
    refine ⟨(rxTable_meets hE hn).avoids, fun r _ => ?_⟩
    obtain ⟨τ, mem', c'⟩ := r
    cases c' <;> exact avoids_pure _

/-- `ccnl_core_RX` comes to the end of every frame. -/
theorem rxLoop_ends (hE : E.LocalRpc) {σ : Relay} (hn : σ.PitNamed) (mem : List UInt8) (len : Nat) :
    Avoids Endless (rxLoop E now f σ mem len) := by
  have hstart : ({ relay := σ, mem := mem, c := ⟨0, len⟩ } : Rx).measure ≤ 2 * len + 1 :=
    Rx.measure_le _
  refine (Meets.loop (I := fun s : Rx => s.relay.PitNamed) (R := fun _ => True) (m := Rx.measure)
    (fun s hs => ⟨rxStep_ends hE hs, fun x hx => ?_⟩) hn (Nat.lt_succ_of_le hstart)).avoids
  cases x with
  | inl s' => exact ⟨rxStep_keeps (handlersKeep_pitNamed E now f) hs hx, rxStep_lt hE hs hx⟩
  | inr τ => trivial

end Loop

/-! ## Progress -/

/-- The arguments of `ccnl_core_RX`, the relay apart. -/
structure RxArgs where
  now : Nat
  ifndx : Int
  sa : Option SockAddr
  mem : List UInt8
  len : Nat

/-- The variables of `ccnl_core_RX` before its loop. -/
def RxArgs.start (a : RxArgs) (σ : Relay) : Rx := { relay := σ, mem := a.mem, c := ⟨0, a.len⟩ }

/-- `ccnl_core_RX` comes to a pass of its loop, with the state `s`, and calls the forwarder of `suite`
at `c` in it. -/
structure CallAt (E : Env) (σ : Relay) (a : RxArgs) (f : FaceId) (s : Rx) (suite : Suite)
    (c : Cursor) : Prop where
  reached : ∃ σ₁, getFaceOrCreate a.now σ a.ifndx a.sa = (σ₁, some f) ∧
    Reached (rxStep E a.now f) (a.start σ₁) s
  left : s.c.len ≠ 0
  next : nextSuite s.mem s.suite s.c = .ok (some suite, c)

/-- Each pass of the loop starts behind the ones before it. -/
def Onward {α β : Type} (step : α → Run (α ⊕ β)) (at' : α → Cursor) (s₀ : α) : Prop :=
  ∀ s s' t, Reached step s₀ s → Again step s s' → Reached step s' t → (at' s).pos < (at' t).pos

/-- What is wanted of `ccnl_core_RX` on a frame. Each call of a forwarder that returns 0 or more takes
bytes off the frame; the function ends; a packet starts behind the ones before it, those that a
forwarder takes off in a loop of its own included. -/
structure MakesProgress (E : Env) (σ : Relay) (a : RxArgs) : Prop where
  consumes : ∀ f s suite c τ mem' c', CallAt E σ a f s suite c →
    rxTable E a.now f s.relay s.mem c suite = .ok (τ, mem', some c') → c'.len < c.len
  ends : Avoids Endless (coreRX E a.now σ a.ifndx a.sa a.mem a.len)
  once : ∀ f s suite c s' t suite' c', CallAt E σ a f s suite c → Again (rxStep E a.now f) s s' →
    Reached (rxStep E a.now f) s' t → CallAt E σ a f t suite' c' → c.pos < c'.pos
  ccnb : ∀ f s c, CallAt E σ a f s .ccnb c →
    Onward (ccnbFrameStep (ccnbHandle E a.now f) s.mem) Prod.snd (s.relay, c)
  localrpc : ∀ f s c, CallAt E σ a f s .localrpc c → ∀ handleRequest freed, FreedStays freed →
    Onward (localrpcStep handleRequest freed s.mem) Prod.snd (0, c)

section Progress

variable {α β : Type} {step : α → Run (α ⊕ β)} {at' : α → Cursor}

/-- A loop whose passes move the cursor on. -/
theorem Onward.of_step {I : α → Prop} (hI : ∀ s s', I s → Again step s s' → I s')
    (hlt : ∀ s s', I s → Again step s s' → (at' s').After (at' s) ∧ (at' s').len < (at' s).len)
    {s₀ : α} (h0 : I s₀) : Onward step at' s₀ := by
  intro s s' t hs ha ht
  have hIs := hs.invariant h0 hI
  have hIs' := hI s s' hIs ha
  obtain ⟨⟨hpos, hlim⟩, hlen⟩ := hlt s s' hIs ha
  have hle : I t ∧ (at' s').pos ≤ (at' t).pos :=
    ht.invariant (I := fun t => I t ∧ (at' s').pos ≤ (at' t).pos) ⟨hIs', Nat.le_refl _⟩
      fun t t' h hstep => ⟨hI t t' h.1 hstep, Nat.le_trans h.2 (hlt t t' h.1 hstep).1.pos⟩
  omega

variable {E : Env} {σ : Relay} {a : RxArgs} {f : FaceId} {s t : Rx} {suite suite' : Suite}
  {c c' : Cursor}

theorem getFaceOrCreate_pitNamed (hn : σ.PitNamed) (now : Nat) (ifndx : Int)
    (sa : Option SockAddr) : (getFaceOrCreate now σ ifndx sa).1.PitNamed :=
  (Shrinks.of_tables getFaceOrCreate_tables).pitNamed hn

theorem CallAt.pitNamed (h : CallAt E σ a f s suite c) (hn : σ.PitNamed) : s.relay.PitNamed := by
  obtain ⟨σ₁, hg, hr⟩ := h.reached
  have hn₁ := getFaceOrCreate_pitNamed hn a.now a.ifndx a.sa
  rw [hg] at hn₁
  exact hr.invariant (I := fun s => s.relay.PitNamed) hn₁
    fun s s' hs ha => rxStep_keeps (handlersKeep_pitNamed E a.now f) hs ha

theorem nextSuite_pos {mem : List UInt8} {suite suite' : Option Suite}
    (h : nextSuite mem suite c = .ok (suite', c')) :
    c.pos ≤ c'.pos := by
  rcases (nextSuite_meets mem suite c).post _ h with hc | ⟨hc, -⟩
  · exact Nat.le_of_eq (congrArg Cursor.pos hc).symm
  · exact hc.pos

/-- The places where the passes start that still have something to take off. -/
theorem rxStep_pos (hE : E.LocalRpc) {now : Nat} (hn : s.relay.PitNamed)
    (hr : Reached (rxStep E now f) s t) : t.c.len = 0 ∨ s.c.pos ≤ t.c.pos := by
  refine (hr.invariant (I := fun t => t.relay.PitNamed ∧ (t.c.len = 0 ∨ s.c.pos ≤ t.c.pos))
    ⟨hn, .inr (Nat.le_refl _)⟩ fun u u' hu ha => ?_).2
  obtain ⟨hn, hu⟩ := hu
  refine ⟨rxStep_keeps (handlersKeep_pitNamed E now f) hn ha, ?_⟩
  obtain ⟨hlen, suite, c, hnext, hcall⟩ := rxStep_again ha
  rcases (rxTable_moves hE hn hcall).after with h0 | hafter
  · exact .inl h0
  · exact .inr (Nat.le_trans (hu.resolve_left hlen)
      (Nat.le_trans (nextSuite_pos hnext) hafter.pos))

/-- A later call is at a later place. -/
theorem CallAt.lt_later {s' : Rx} (hE : E.LocalRpc) (hn : σ.PitNamed)
    (h : CallAt E σ a f s suite c) (hstalls : ¬ Stalls s.mem c suite)
    (ha : Again (rxStep E a.now f) s s') (ht : Reached (rxStep E a.now f) s' t)
    (h' : CallAt E σ a f t suite' c') : c.pos < c'.pos := by
  have hns := h.pitNamed hn
  have hns' : s'.relay.PitNamed := rxStep_keeps (handlersKeep_pitNamed E a.now f) hns ha
  have hle : s'.c.pos ≤ t.c.pos := (rxStep_pos hE hns' ht).resolve_left h'.left
  obtain ⟨-, suite₁, c₁, hnext, hcall⟩ := rxStep_again ha
  rw [h.next] at hnext
  cases hnext
  have hmoves := rxTable_moves hE hns hcall
  have hlt := hmoves.lt_iff.mpr hstalls
  have hc' := nextSuite_pos h'.next
  rcases hmoves.after with h0 | ⟨hpos, hlim⟩
  · -- nothing is left, so there is no later pass
    rcases Relation.ReflTransGen.cases_head ht with rfl | ⟨u, hu, -⟩
    · exact absurd h0 h'.left
    · exact absurd h0 (rxStep_again hu).1
  · omega

/-- A packet that the CCNB forwarder takes off is behind the ones before it. -/
theorem ccnbForwarder_onward {now : Nat} {mem : List UInt8} (hn : σ.PitNamed) (c : Cursor) :
    Onward (ccnbFrameStep (ccnbHandle E now f) mem) Prod.snd (σ, c) := by
  refine Onward.of_step (I := fun s => s.1.PitNamed) (fun s s' hs ha => ?_)
    (fun s s' hs ha => ?_) hn
  · exact ((ccnbFrameStep_meets s hs).post _ ha).1
  · exact ((ccnbFrameStep_meets s hs).post _ ha).2

theorem coreRX_ends (hE : E.LocalRpc) (hn : σ.PitNamed) (now : Nat) (ifndx : Int)
    (sa : Option SockAddr) (mem : List UInt8) (len : Nat) :
    Avoids Endless (coreRX E now σ ifndx sa mem len) := by
  have hn₁ := getFaceOrCreate_pitNamed hn now ifndx sa
  unfold coreRX
  split
  · rename_i σ₁ f hg
    rw [hg] at hn₁
    exact rxLoop_ends hE hn₁ mem len
  · exact avoids_ok _

end Progress

/-- A relay whose local RPCs have no effect. -/
def Env.localRpc : Env := { Env.still with
  rpc := fun _ mem c _ =>
    ([], (localrpcLoop (fun _ => 0) (fun a => .ok a.flatlen) mem c).toOption.join) }

theorem Env.localRpc_localRpc : Env.localRpc.LocalRpc where
  cursor _ _ _ _ := ⟨fun _ => 0, fun a => .ok a.flatlen, ⟨by simp, by simp⟩, rfl⟩
  idle _ _ _ _ _ := rfl

theorem Relay.plain_pitNamed : Relay.plain.PitNamed := by
  simp [Relay.PitNamed, Relay.plain]

/-- The frame `bytes`, from a peer. -/
def RxArgs.of (bytes : List UInt8) : RxArgs := ⟨0, 0, some (.inet 7 9695), bytes, bytes.length⟩

/-- The relay when the frame of the peer is taken. -/
def Relay.ofPeer : Relay := (getFaceOrCreate 0 .plain 0 (some (.inet 7 9695))).1

end Ccnl
