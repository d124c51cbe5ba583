import CcnLite.Fwd.Progress
import CcnLite.Pkt.CcntlvLocal
import CcnLite.Pkt.NdntlvLocal
import CcnLite.Utils.Valid

/-!
# How `ccn-lite-valid` comes to a packet

The code switches in front of a packet, and the choice of the suite, only look at bytes up to the
packet's second one (`nextSuite_agree`). `NdnRun` and `CcnxRun` are the steps of `ccnl_parse` that
lead to a packet, with the variables of the parser at its end.
-/

namespace Ccnl

open CRun Tlv

variable {mem mem' : List UInt8}

/-! ## The suite -/

section Suite

variable {n : Nat} {s s' : Option Suite} {c c₀ c₀' : Cursor}

theorem switchStep_again {x y : Option Suite × Cursor} :
    Again (switchStep mem) x y ↔
      ∃ enc c, switchDehead mem x.2 = .ok (some (enc, c)) ∧ y = (enc2suite enc, c) := by
  unfold Again switchStep
  constructor
  · intro h
    obtain ⟨r, hr, h⟩ := (bind_eq_ok _ _ _).mp h
    match r with
    | none => simp at h
    | some (enc, c) =>
      cases h
      exact ⟨enc, c, hr, rfl⟩
  · rintro ⟨enc, c, hr, rfl⟩
    rw [hr]
    rfl

theorem switchStep_leaves {x y : Option Suite × Cursor} :
    switchStep mem x = .ok (.inr y) ↔ switchDehead mem x.2 = .ok none ∧ y = x := by
  unfold switchStep
  constructor
  · intro h
    obtain ⟨r, hr, h⟩ := (bind_eq_ok _ _ _).mp h
    match r with
    | none =>
      cases h
      exact ⟨hr, rfl⟩
    | some (enc, c) => simp at h
  · rintro ⟨hr, rfl⟩
    rw [hr]
    rfl

theorem switchDehead_some {enc : Nat} (h : switchDehead mem c₀ = .ok (some (enc, c))) :
    2 ≤ c₀.len ∧ c = ⟨c₀.pos + 2, c₀.len - 2⟩ := by
  unfold switchDehead at h
  split at h
  · cases h
  obtain ⟨b, -, h⟩ := (bind_eq_ok _ _ _).mp h
  split at h
  · cases h
  obtain ⟨code, -, h⟩ := (bind_eq_ok _ _ _).mp h
  split at h <;> cases h
  exact ⟨by omega, rfl⟩

/-- A code switch among the common bytes. -/
theorem switchDehead_agree (h : Agree mem mem' 0 0 n) (hpos : c₀.pos = c₀'.pos)
    (hn : c₀.pos + 2 ≤ n) (hl : 2 ≤ c₀.len) (hl' : 2 ≤ c₀'.len) :
    (switchDehead mem c₀ = .ok none → switchDehead mem' c₀' = .ok none) ∧
      ∀ enc c, switchDehead mem c₀ = .ok (some (enc, c)) →
        switchDehead mem' c₀' = .ok (some (enc, ⟨c₀'.pos + 2, c₀'.len - 2⟩)) := by
  have hrd : ∀ i < n, rd mem i = rd mem' i := fun i hi => by
    unfold rd
    rw [h.get (Nat.zero_le i) rfl (by omega)]
  unfold switchDehead
  rw [if_neg (by omega), if_neg (by omega), hpos, hrd _ (by omega), hrd _ (by omega)]
  cases rd mem' c₀'.pos with
  | error e => exact ⟨nofun, nofun⟩
  | ok b =>
    rw [ok_bind, ok_bind]
    split
    · exact ⟨fun _ => rfl, nofun⟩
    cases rd mem' (c₀'.pos + 1) with
    | error e => exact ⟨nofun, nofun⟩
    | ok code =>
      rw [ok_bind, ok_bind]
      split
      · refine ⟨nofun, fun enc c hc => ?_⟩
        cases hc
        rfl
      · exact ⟨fun _ => rfl, nofun⟩

/-- Behind the code switches there is none. -/
theorem switches_left (h : switches mem s c₀ = .ok (s', c)) : switchDehead mem c = .ok none := by
  obtain ⟨x, -, hleave⟩ := loop_eq_ok h
  obtain ⟨hx, rfl⟩ := switchStep_leaves.mp hleave
  exact hx

theorem switches_stay (h : switchDehead mem c = .ok none) : switches mem s c = .ok (s, c) := by
  unfold switches loop
  rw [switchStep_leaves.mpr ⟨h, rfl⟩]
  rfl

/-- The code switches, where all of them and two more bytes are common. -/
theorem switches_agree (h : switches mem s c₀ = .ok (s', c)) (hA : Agree mem mem' 0 0 (c.pos + 2))
    (hpos : c₀.pos = c₀'.pos) (hle : c.pos + 2 ≤ c₀.pos + c₀.len)
    (hle' : c.pos + 2 ≤ c₀'.pos + c₀'.len) :
    switches mem' s c₀' = .ok (s', ⟨c.pos, c₀'.pos + c₀'.len - c.pos⟩) := by
  obtain ⟨⟨s₁, c₁⟩, hr, hleave⟩ := loop_eq_ok h
  obtain ⟨hnone, hx⟩ := switchStep_leaves.mp hleave
  cases hx
  let J : Option Suite × Cursor → Option Suite × Cursor → Prop := fun x y =>
    x.1 = y.1 ∧ x.2.pos = y.2.pos ∧ x.2.pos + x.2.len = c₀.pos + c₀.len ∧
      y.2.pos + y.2.len = c₀'.pos + c₀'.len
  have hstep : ∀ x y x', J x y → Again (switchStep mem) x x' → x'.2.pos ≤ c.pos →
      ∃ y', Again (switchStep mem') y y' ∧ J x' y' := by
    rintro ⟨a, d⟩ ⟨a', d'⟩ x' ⟨hs, hp, hl, hl'⟩ ha hG
    obtain ⟨enc, d₁, hsw, rfl⟩ := switchStep_again.mp ha
    obtain ⟨hlen, rfl⟩ := switchDehead_some hsw
    simp only at hp hl hl' hG hlen
    have hsw' := (switchDehead_agree hA hp (by omega) hlen (by omega)).2 _ _ hsw
    exact ⟨_, switchStep_again.mpr ⟨enc, _, hsw', rfl⟩, rfl, by simp only; omega,
      by simp only; omega, by simp only; omega⟩
  obtain ⟨⟨s₂, c₂⟩, hr', hs₂, hp₂, hl₁, hl₂⟩ := reached_follows (G := fun x => x.2.pos ≤ c.pos)
    (fun x x' ha hG => by
      obtain ⟨enc, d, hsw, rfl⟩ := switchStep_again.mp ha
      obtain ⟨-, rfl⟩ := switchDehead_some hsw
      simp only at hG
      omega) hstep (show J (s, c₀) (s, c₀') from ⟨rfl, hpos, rfl, rfl⟩) hr (Nat.le_refl _)
  simp only at hs₂ hp₂ hl₁ hl₂
  have hnone' := (switchDehead_agree hA hp₂ (by omega) (by omega) (by omega)).1 hnone
  have hc₂ : c₂ = ⟨c.pos, c₀'.pos + c₀'.len - c.pos⟩ := Cursor.ext hp₂.symm (by simp only; omega)
  refine loop_of_reached (I := fun _ => True) (m := fun x => x.2.len) (fun _ _ _ _ => trivial)
    (fun x x' _ ha => ?_) trivial hr' ?_ (Nat.lt_succ_self _)
  · obtain ⟨enc, d, hsw, rfl⟩ := switchStep_again.mp ha
    obtain ⟨hlen, rfl⟩ := switchDehead_some hsw
    simp only
    omega
  · rw [← hc₂, hs₂]
    exact switchStep_leaves.mpr ⟨hnone', rfl⟩

/-- The end of the packet stays. -/
theorem nextSuite_lim {a : Option Suite} (h : nextSuite mem none ⟨0, n⟩ = .ok (a, c)) :
    c.pos + c.len = n := by
  rcases (nextSuite_meets mem none ⟨0, n⟩).post _ h with rfl | ⟨hafter, -⟩
  · exact Nat.zero_add n
  · exact hafter.lim.trans (Nat.zero_add n)

/-- The suite, where the bytes up to the packet's second one are common. -/
theorem nextSuite_agree {n' : Nat} {a : Suite} (h : nextSuite mem none ⟨0, n⟩ = .ok (some a, c))
    (hA : Agree mem mem' 0 0 (c.pos + 2)) (hle : c.pos + 2 ≤ n) (hle' : c.pos + 2 ≤ n') :
    nextSuite mem' none ⟨0, n'⟩ = .ok (some a, ⟨c.pos, n' - c.pos⟩) := by
  have hlim := nextSuite_lim h
  obtain ⟨⟨s, c₁⟩, hsw, h⟩ := (bind_eq_ok _ _ _).mp h
  have hc : c₁ = c := by
    cases s with
    | some s => exact (Prod.mk.inj ((pure_eq_ok _ _).mp h)).2
    | none =>
      obtain ⟨s, -, h⟩ := (bind_eq_ok _ _ _).mp h
      exact (Prod.mk.inj ((pure_eq_ok _ _).mp h)).2
  subst hc
  have hsw' : switches mem' none ⟨0, n'⟩ = .ok (s, ⟨c₁.pos, n' - c₁.pos⟩) := by
    have := switches_agree hsw hA (show 0 = (⟨0, n'⟩ : Cursor).pos from rfl) (by simp only; omega)
      (by simp only; omega)
    rwa [Nat.zero_add] at this
  unfold nextSuite
  rw [hsw', ok_bind]
  cases s with
  | some s =>
    cases h
    rfl
  | none =>
    obtain ⟨s, hs, h⟩ := (bind_eq_ok _ _ _).mp h
    cases h
    have hleft := switches_left hsw
    have hleft' := switches_left hsw'
    have hrd : ∀ i < c₁.pos + 2, rd mem i = rd mem' i := fun i hi => by
      unfold rd
      rw [hA.get (Nat.zero_le i) rfl (by omega)]
    have hsame : pkt2suite mem' ⟨c₁.pos, n' - c₁.pos⟩ = pkt2suite mem c₁ := by
      unfold pkt2suite
      rw [switches_stay hleft, switches_stay hleft', if_neg (by simp only; omega),
        if_neg (by omega), ok_bind, ok_bind]
      dsimp only
      rw [hrd _ (by omega), hrd _ (by omega)]
      have h1 : 1 < n' - c₁.pos ↔ 1 < c₁.len := by omega
      simp only [h1]
    dsimp only
    rw [hsame, hs]
    rfl

/-- An NDN packet does not start with a zero. -/
theorem nextSuite_ndntlv_start (h : nextSuite mem none ⟨0, n⟩ = .ok (some .ndntlv, c)) :
    rd mem 0 ≠ .ok 0 := by
  intro h0
  have hnone : switchDehead mem ⟨0, n⟩ = .ok none := by
    unfold switchDehead
    split
    · rfl
    · dsimp only
      rw [h0]
      rfl
  have hstay := switches_stay (s := none) hnone
  have hsuite : pkt2suite mem ⟨0, n⟩ = .ok none := by
    unfold pkt2suite
    split
    · rfl
    · rw [hstay, ok_bind]
      dsimp only
      rw [h0]
      rfl
  unfold nextSuite at h
  rw [hstay, ok_bind] at h
  dsimp only at h
  rw [hsuite] at h
  cases h

end Suite

/-! ## The runs of the parsers -/

/-- `ccnl_parse` on an NDN packet: its header is at `c`, its elements start at `c₁`, and `s` are the
variables at the end. -/
structure NdnRun (mem : List UInt8) (n : Nat) (pkt : Pkt) (c c₁ : Cursor) (typ : Nat)
    (s : NdnState) : Prop where
  suite : nextSuite mem none ⟨0, n⟩ = .ok (some .ndntlv, c)
  head : ∃ len, ndntlvDehead mem c = .ok (some (typ, len), c₁)
  type : typ = ndnTlvInterest ∨ typ = ndnTlvData
  loop : ndnTop mem 0 c₁ { pkt := ndnPkt typ 0 } = .ok (⟨n, 0⟩, s)
  le : n ≤ mem.length
  pkt : pkt = s.pkt.rebase 0 (mem.take n)

/-- `ccnl_parse` on a CCNx packet: the message is at `c`, behind the fixed header. -/
structure CcnxRun (mem : List UInt8) (n : Nat) (pkt : Pkt) (c c₁ : Cursor) (typ : Nat)
    (s : CcntlvState) : Prop where
  suite : ∃ c₀ hdrlen, nextSuite mem none ⟨0, n⟩ = .ok (some .ccntlv, c₀) ∧
    ccntlvGetHdrLen (mem.drop c₀.pos) c₀.len = .ok hdrlen ∧
      c = ⟨c₀.pos + hdrlen, c₀.len - hdrlen⟩
  head : ∃ len, ccntlvDehead mem c = .ok (some (typ, len), c₁) ∧ len ≤ c₁.len
  loop : ccntlvTop mem 0 c.pos c₁ (.init typ c.pos) = .ok (⟨n, 0⟩, s)
  le : n ≤ mem.length
  pkt : pkt = s.finish 0 (mem.take n)

section Runs

variable {n typ : Nat} {pkt : Pkt} {c c₁ : Cursor}

theorem getHdrLen_le {m : List UInt8} {len hdrlen : Nat} (h : ccntlvGetHdrLen m len = .ok hdrlen) :
    hdrlen ≤ len := by
  obtain ⟨hp, -, h⟩ := (bind_eq_ok _ _ _).mp h
  dsimp only at h
  split at h
  · cases h
    assumption
  · simp at h

theorem NdnRun.parse {s : NdnState} (h : NdnRun mem n pkt c c₁ typ s) :
    ccnlParse mem n = .ok (some pkt) := by
  obtain ⟨len, hx⟩ := h.head
  have hbytes : ndntlvBytes2pkt mem typ 0 c₁ = .ok (pkt, ⟨n, 0⟩) := by
    have hbuf : rdBytes mem 0 n = .ok (mem.take n) :=
      rdBytes_eq_ok.mpr ⟨.inr (by rw [Nat.zero_add]; exact h.le), rfl⟩
    exact ndntlvBytes2pkt_eq_ok.mpr ⟨h.type, s, h.loop, rfl, mem.take n, hbuf, h.pkt⟩
  unfold ccnlParse
  rw [h.suite, ok_bind]
  dsimp only
  rw [hx, ok_bind]
  dsimp only
  rw [hbytes, ok_bind]
  rfl

theorem CcnxRun.parse {s : CcntlvState} (h : CcnxRun mem n pkt c c₁ typ s) :
    ccnlParse mem n = .ok (some pkt) := by
  obtain ⟨c₀, hdrlen, hsuite, hhdr, rfl⟩ := h.suite
  obtain ⟨len, hx, hle⟩ := h.head
  have hbytes : ccntlvBytes2pkt mem 0 ⟨c₀.pos + hdrlen, c₀.len - hdrlen⟩ = .ok (pkt, ⟨n, 0⟩) := by
    have hbuf : rdBytes mem 0 n = .ok (mem.take n) :=
      rdBytes_eq_ok.mpr ⟨.inr (by rw [Nat.zero_add]; exact h.le), rfl⟩
    exact ccntlvBytes2pkt_eq_ok.mpr
      ⟨typ, len, c₁, s, hx, hle, h.loop, rfl, mem.take n, hbuf, h.pkt.symm⟩
  unfold ccnlParse
  rw [hsuite, ok_bind]
  dsimp only
  rw [hhdr, ok_bind, hbytes, ok_bind]
  rfl

/-- The packet loop ends at the end of the packet, if it leaves nothing. -/
theorem top_end_eq {α : Type} {dehead : Cursor → Run (Option (Nat × Nat) × Cursor)} {H : Header}
    {elem : Nat → Nat → Nat → Cursor → α → Run α} {c₂ : Cursor} {a a' : α}
    (hd : Decodes H dehead) (h : top dehead elem c₁ a = .ok (c₂, a')) (h0 : c₂.len = 0)
    (hlim : c₁.pos + c₁.len = n) : c₂ = ⟨n, 0⟩ := by
  have := (top_inv hd (I := fun _ _ => True) h trivial fun _ _ _ _ _ _ _ _ _ _ _ => trivial).2
  exact Cursor.ext (by simp only; omega) (by simp only; omega)

theorem ndnRun_of_bytes2pkt {c₂ : Cursor} {len : Nat}
    (hsuite : nextSuite mem none ⟨0, n⟩ = .ok (some .ndntlv, c))
    (hx : ndntlvDehead mem c = .ok (some (typ, len), c₁))
    (h : ndntlvBytes2pkt mem typ 0 c₁ = .ok (pkt, c₂)) : ∃ s, NdnRun mem n pkt c c₁ typ s := by
  have hlim := (dehead_cursor hx).2.trans (nextSuite_lim hsuite)
  obtain ⟨htyp, s, htop, h0, buf, hbuf, rfl⟩ := ndntlvBytes2pkt_eq_ok.mp h
  obtain rfl := top_end_eq (dehead_decodes mem) htop h0 hlim
  obtain ⟨hin, rfl⟩ := rdBytes_eq_ok.mp hbuf
  refine ⟨s, hsuite, ⟨len, hx⟩, htyp, htop, ?_, rfl⟩
  rcases hin with hin | hin
  · simp only [Nat.sub_zero] at hin
    omega
  · simpa using hin

theorem ccnxRun_of_bytes2pkt {c₀ c₂ : Cursor} {hdrlen : Nat}
    (hsuite : nextSuite mem none ⟨0, n⟩ = .ok (some .ccntlv, c₀))
    (hhdr : ccntlvGetHdrLen (mem.drop c₀.pos) c₀.len = .ok hdrlen)
    (h : ccntlvBytes2pkt mem 0 ⟨c₀.pos + hdrlen, c₀.len - hdrlen⟩ = .ok (pkt, c₂)) :
    ∃ c c₁ typ s, CcnxRun mem n pkt c c₁ typ s := by
  have hle := getHdrLen_le hhdr
  have hlim := nextSuite_lim hsuite
  obtain ⟨typ, len, c₁, s, hx, hlen, htop, h0, buf, hbuf, rfl⟩ := ccntlvBytes2pkt_eq_ok.mp h
  have hlim₁ := (ccntlvDehead_cursor hx).2
  simp only at hlim₁
  obtain rfl := top_end_eq (n := n) (ccntlvDehead_decodes mem) htop h0 (by omega)
  obtain ⟨hin, rfl⟩ := rdBytes_eq_ok.mp hbuf
  refine ⟨_, c₁, typ, s, ⟨c₀, hdrlen, hsuite, hhdr, rfl⟩, ⟨len, hx, hlen⟩, htop, ?_, rfl⟩
  rcases hin with hin | hin
  · simp only [Nat.sub_zero] at hin
    omega
  · simpa using hin

/-- Every packet that the program gets from a parser comes from one of the two. -/
theorem ccnlParse_cases (h : ccnlParse mem n = .ok (some pkt)) :
    (∃ c c₁ typ s, NdnRun mem n pkt c c₁ typ s) ∨ ∃ c c₁ typ s, CcnxRun mem n pkt c c₁ typ s := by
  obtain ⟨⟨a, c⟩, hsuite, h⟩ := (bind_eq_ok _ _ _).mp h
  match a with
  | none => simp at h
  | some .ccntlv =>
    obtain ⟨hdrlen, hhdr, h⟩ := (bind_eq_ok _ _ _).mp h
    obtain ⟨⟨pkt', c₂⟩, hb, h⟩ := (bind_eq_ok _ _ _).mp h
    cases h
    exact .inr (ccnxRun_of_bytes2pkt hsuite hhdr hb)
  | some .ndntlv =>
    obtain ⟨⟨x, c₁⟩, hx, h⟩ := (bind_eq_ok _ _ _).mp h
    match x with
    | none => simp at h
    | some (typ, len) =>
      obtain ⟨⟨pkt', c₂⟩, hb, h⟩ := (bind_eq_ok _ _ _).mp h
      cases h
      obtain ⟨s, hs⟩ := ndnRun_of_bytes2pkt hsuite hx hb
      exact .inl ⟨c, c₁, typ, s, hs⟩
  | some .ccnb | some .localrpc => cases h

end Runs

end Ccnl
