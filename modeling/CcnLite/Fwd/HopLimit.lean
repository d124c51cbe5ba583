import CcnLite.Fwd.System
import CcnLite.Pkt.CcntlvConfined
import Mathlib.Data.List.Chain

/-!
# The CCNx hop limit

`ccnl_ccntlv_forwarder` decrements the hop limit of an Interest or a NACK in the receive buffer and
drops the packet when none is left. The parser copies the packet from its first byte on, so what the
relay forwards carries the new hop limit (`ccntlvInterest_copy`). `Hop b b'` says that a relay, in
some state, is given the bytes `b` and forwards them as `b'`.

The hop limit is a byte: an Interest that comes with the hop limit 0 goes on with 255. Along a chain
of relays this can happen at the first one only, and `hopLimited_iff` says that it is the only way to
break the law.
-/

namespace Ccnl

open CRun

/-! ## One relay -/

/-- The bytes that a forwarder is called on. -/
def frameAt (mem : List UInt8) (c : Cursor) : List UInt8 := (mem.drop c.pos).take c.len

/-- The hop limit in the fixed header. -/
def hopLimit (b : List UInt8) : Nat := (b.getD 4 0).toNat

/-- The Interest that `ccnl_ccntlv_forwarder` hands to `ccnl_fwd_handleInterest`. -/
def ccntlvInterest (mem : List UInt8) (c : Cursor) : Run Pkt := do
  match ← ccntlvHeader mem c with
  | .drop _ _ => throw .bail
  | .pass pkttype mem c₁ =>
    let (pkt, _) ← ccntlvBytes2pkt mem c.pos c₁
    if pkttype = ccnxPtInterest ∧ pkt.type = ccnxTlvTlInterest then
      return { pkt with flags := pkt.flags ||| pktRequest }
    else throw .bail

section Forwarder

variable {E : Env} {now : Nat} {f : FaceId} {σ τ : Relay} {mem mem' : List UInt8} {c c' : Cursor}
  {pkt : Pkt}

theorem ccntlvInterest_eq_ok (h : ccntlvInterest mem c = .ok pkt) :
    ∃ mem' c₁ pkt₀ c₂, ccntlvHeader mem c = .ok (.pass ccnxPtInterest mem' c₁) ∧
      ccntlvBytes2pkt mem' c.pos c₁ = .ok (pkt₀, c₂) ∧ pkt₀.type = ccnxTlvTlInterest ∧
      pkt = { pkt₀ with flags := pkt₀.flags ||| pktRequest } := by
  obtain ⟨hd, hhd, h⟩ := (bind_eq_ok _ _ _).mp h
  cases hd with
  | drop mem' c₁ => simp at h
  | pass pkttype mem' c₁ =>
    obtain ⟨⟨pkt₀, c₂⟩, hp, h⟩ := (bind_eq_ok _ _ _).mp h
    simp only at h
    split at h
    · rename_i ht
      cases h
      exact ⟨mem', c₁, pkt₀, c₂, ht.1 ▸ hhd, hp, ht.2, rfl⟩
    · simp at h

/-- The forwarder does with this Interest what `ccnl_fwd_handleInterest` does. -/
theorem ccntlvForwarder_interest (h : ccntlvInterest mem c = .ok pkt) :
    ∃ mem' c₂, ccntlvForwarder E now f σ mem c =
      (handleInterest E now ccntlvCMatch σ f pkt).map
        fun r => (r.1, mem', if r.2 then some c₂ else none) := by
  obtain ⟨mem', c₁, pkt₀, c₂, hhd, hp, ht, rfl⟩ := ccntlvInterest_eq_ok h
  refine ⟨mem', c₂, ?_⟩
  unfold ccntlvForwarder
  rw [hhd, attempt_ok, ok_bind]
  simp only [hp, attempt_ok, ok_bind, ccntlvHandle, ht, and_self, ↓reduceIte]
  cases handleInterest E now ccntlvCMatch σ f { pkt₀ with flags := pkt₀.flags ||| pktRequest } <;>
    rfl

/-- A fixed header that passes: the packet type, and the hop limit of an Interest or a NACK. -/
theorem ccntlvHeader_limit {pkttype : UInt8}
    (h : ccntlvHeader mem c = .ok (.pass pkttype mem' c')) :
    9 ≤ c.len ∧ c.pos + 9 ≤ mem.length ∧ mem[c.pos + 1]? = some pkttype ∧
      (pkttype = ccnxPtInterest ∨ pkttype = ccnxPtNack → ∃ v, mem[c.pos + 4]? = some v ∧
        v - 1 ≠ 0 ∧ mem' = mem.set (c.pos + 4) (v - 1)) := by
  unfold ccntlvHeader at h
  split at h
  · simp at h
  rename_i hlen
  obtain ⟨version, -, h⟩ := (bind_eq_ok _ _ _).mp h
  split at h
  · simp at h
  obtain ⟨hp, hbytes, h⟩ := (bind_eq_ok _ _ _).mp h
  obtain ⟨hin, rfl⟩ := rdBytes_eq_ok.mp hbytes
  have hmem : c.pos + 9 ≤ mem.length := hin.resolve_left (by decide)
  have hget : ∀ k < 9, mem[c.pos + k]? = some (((mem.drop c.pos).take 9).getD k 0) := by
    intro k hk
    rw [List.getD_eq_getElem?_getD, List.getElem?_take_of_lt hk, List.getElem?_drop,
      List.getElem?_eq_getElem (by omega), Option.getD_some]
  simp only at h
  split at h
  · simp at h
  split at h
  · simp at h
  refine ⟨by omega, hmem, ?_⟩
  split at h
  · split at h
    · simp at h
    · rename_i hv
      cases h
      exact ⟨hget 1 (by decide), fun _ => ⟨_, hget 4 (by decide), hv, rfl⟩⟩
  · rename_i ht
    cases h
    exact ⟨hget 1 (by decide), fun h => absurd h ht⟩

/-- An Interest or a NACK that is not handed to `ccnl_fwd_handleInterest` changes no table and goes
nowhere. -/
theorem ccntlvForwarder_quiet {x : Option Cursor} (hx : ∀ pkt, ccntlvInterest mem c ≠ .ok pkt)
    (ht : mem[c.pos + 1]? = some ccnxPtInterest ∨ mem[c.pos + 1]? = some ccnxPtNack)
    (h : ccntlvForwarder E now f σ mem c = .ok (τ, mem', x)) : τ = σ := by
  unfold ccntlvForwarder at h
  obtain ⟨hd, hhd, h⟩ := (bind_eq_ok _ _ _).mp h
  cases hd with
  | none =>
    cases h
    rfl
  | some hd =>
    rw [attempt_eq_some] at hhd
    cases hd with
    | drop mem₁ c₁ =>
      cases h
      rfl
    | pass pkttype mem₁ c₁ =>
      obtain ⟨r, hr, h⟩ := (bind_eq_ok _ _ _).mp h
      cases r with
      | none =>
        cases h
        rfl
      | some r =>
        rw [attempt_eq_some] at hr
        obtain ⟨⟨σ₁, ok⟩, hh, h⟩ := (bind_eq_ok _ _ _).mp h
        cases h
        obtain ⟨-, -, htype, -⟩ := ccntlvHeader_limit hhd
        have hnot : ¬ (pkttype = ccnxPtInterest ∧ r.1.type = ccnxTlvTlInterest) := by
          rintro ⟨rfl, hpt⟩
          refine hx { r.1 with flags := r.1.flags ||| pktRequest } ?_
          unfold ccntlvInterest
          simp [hhd, hr, hpt, pure, Except.pure]
        have hdata : pkttype ≠ ccnxPtData := by
          rintro rfl
          rw [htype] at ht
          revert ht
          decide
        simp only [ccntlvHandle, hnot, ↓reduceIte, hdata, false_and] at hh
        cases hh
        rfl

theorem hopLimit_of_getElem? {b : List UInt8} {v : UInt8} (h : b[4]? = some v) :
    hopLimit b = v.toNat := by
  rw [hopLimit, List.getD_eq_getElem?_getD, h, Option.getD_some]

/-- The copy that goes on has the hop limit that came, less one, in a byte; it is not 0. -/
theorem ccntlvInterest_copy (h : ccntlvInterest mem c = .ok pkt) :
    hopLimit pkt.buf = (hopLimit (frameAt mem c) + 255) % 256 ∧ hopLimit pkt.buf ≠ 0 := by
  obtain ⟨mem', c₁, pkt₀, c₂, hhd, hp, -, rfl⟩ := ccntlvInterest_eq_ok h
  obtain ⟨hlen, hmem, -, hlim⟩ := ccntlvHeader_limit hhd
  obtain ⟨v, hv, hne, rfl⟩ := hlim (.inl rfl)
  obtain ⟨-, hle, hend⟩ := ccntlvHeader_pass hhd
  obtain ⟨-, hend', hbuf, -⟩ := ccntlvBytes2pkt_inside hp hle
  have h0 := ccntlvBytes2pkt_len hp
  have hsize : c₂.pos - c.pos = c.len := by omega
  have hold : (frameAt mem c)[4]? = some v := by
    rw [frameAt, List.getElem?_take_of_lt (by omega), List.getElem?_drop, hv]
  have hnew : pkt₀.buf[4]? = some (v - 1) := by
    rw [hbuf, hsize, List.getElem?_take_of_lt (by omega), List.getElem?_drop,
      List.getElem?_set_self (by omega)]
  have hnat : (v - 1).toNat = (v.toNat + 255) % 256 := by
    rw [UInt8.toNat_sub]
    show (2 ^ 8 - 1 + v.toNat) % 2 ^ 8 = _
    omega
  rw [hopLimit_of_getElem? hold, hopLimit_of_getElem? hnew]
  refine ⟨hnat, fun h => hne ?_⟩
  exact UInt8.toNat_inj.mp h

end Forwarder

/-! ## A chain of relays -/

/-- A packet with the bytes `b` is handed to `ccnl_fwd_handleInterest` where it arrives. -/
def HandedOn (b : List UInt8) : Prop :=
  ∃ mem c pkt, frameAt mem c = b ∧ ccntlvInterest mem c = .ok pkt

/-- A relay, in some state, is given the bytes `b` and forwards the packet as `b'`. -/
def Hop (b b' : List UInt8) : Prop :=
  ∃ E now f σ τ mem c mem' c' pkt g, frameAt mem c = b ∧ ccntlvInterest mem c = .ok pkt ∧
    ccntlvForwarder E now f σ mem c = .ok (τ, mem', c') ∧
    .send g b' ∈ τ.out.drop σ.out.length ∧ b' = pkt.buf

theorem Hop.handedOn {b b' : List UInt8} (h : Hop b b') : HandedOn b := by
  obtain ⟨-, -, -, -, -, mem, c, -, -, pkt, -, hb, hp, -⟩ := h
  exact ⟨mem, c, pkt, hb, hp⟩

/-- The law of the hop limit for the packets of a chain: the hop limits decrease, there are at most
255 hops, and a packet that comes with the hop limit 0 or 1 is not handed on. -/
structure HopLimited (chain : List (List UInt8)) : Prop where
  decreases : (chain.map hopLimit).Pairwise (· > ·)
  hops : chain.length ≤ 255 + 1
  handed : ∀ b ∈ chain, HandedOn b → 2 ≤ hopLimit b

theorem HandedOn.limit {b : List UInt8} (h : HandedOn b) : hopLimit b ≠ 1 := by
  obtain ⟨mem, c, pkt, rfl, hp⟩ := h
  have := ccntlvInterest_copy hp
  omega

/-- A hop that does not start with the hop limit 0 takes one off it, and leaves some. -/
theorem Hop.limit {b b' : List UInt8} (h : Hop b b') :
    hopLimit b' ≠ 0 ∧ (hopLimit b ≠ 0 → hopLimit b' < hopLimit b) := by
  obtain ⟨-, -, -, -, -, mem, c, -, -, pkt, -, rfl, hp, -, -, rfl⟩ := h
  obtain ⟨heq, hne⟩ := ccntlvInterest_copy hp
  exact ⟨hne, fun h0 => by omega⟩

theorem hopLimit_lt (b : List UInt8) : hopLimit b < 256 := UInt8.toNat_lt _

/-- From a hop limit other than 0 on, the hop limits of a chain decrease and none is 0. -/
theorem Hop.chain_decreases {b : List UInt8} {l : List (List UInt8)}
    (h : (b :: l).IsChain Hop) (h0 : hopLimit b ≠ 0) :
    ((b :: l).map hopLimit).Pairwise (· > ·) ∧ (∀ x ∈ b :: l, hopLimit x ≠ 0) ∧
      l.length < hopLimit b := by
  induction l generalizing b with
  | nil => exact ⟨by simp, by simpa using h0, by simpa using Nat.pos_of_ne_zero h0⟩
  | cons b' l ih =>
    obtain ⟨hop, hrest⟩ := List.isChain_cons_cons.mp h
    obtain ⟨hne, hlt⟩ := hop.limit
    obtain ⟨hdec, hpos, hlen⟩ := ih hrest hne
    have hbb := hlt h0
    refine ⟨?_, ?_, by rw [List.length_cons]; omega⟩
    · rw [List.map_cons, List.pairwise_cons]
      refine ⟨?_, hdec⟩
      intro v hv
      rw [List.map_cons] at hv hdec
      rcases List.mem_cons.mp hv with rfl | hv
      · exact hbb
      · exact Nat.lt_trans ((List.pairwise_cons.mp hdec).1 v hv) hbb
    · intro x hx
      rcases List.mem_cons.mp hx with rfl | hx
      · exact h0
      · exact hpos x hx

/-- The law holds along a chain of relays exactly when the first packet of the chain does not come
with the hop limit 0 and is handed on. -/
theorem hopLimited_iff {b : List UInt8} {l : List (List UInt8)} (h : (b :: l).IsChain Hop) :
    HopLimited (b :: l) ↔ ¬ (hopLimit b = 0 ∧ HandedOn b) := by
  constructor
  · rintro hl ⟨h0, hh⟩
    have := hl.handed b List.mem_cons_self hh
    omega
  · intro hn
    by_cases h0 : hopLimit b = 0
    · have hb : ¬ HandedOn b := fun hh => hn ⟨h0, hh⟩
      obtain rfl : l = [] := by
        cases l with
        | nil => rfl
        | cons b' l => exact absurd (List.isChain_cons_cons.mp h).1.handedOn hb
      refine ⟨by simp, by simp, ?_⟩
      intro x hx hh
      rw [List.mem_singleton.mp hx] at hh
      exact absurd hh hb
    · obtain ⟨hdec, hpos, hlen⟩ := Hop.chain_decreases h h0
      have hlt := hopLimit_lt b
      refine ⟨hdec, by rw [List.length_cons]; omega, ?_⟩
      intro x hx hh
      have h1 := hh.limit
      have h2 := hpos x hx
      omega

/-! ## Two relays -/

/-- A hop, from a run that can be evaluated. -/
theorem hop_of_run (E : Env) (now : Nat) (f g : FaceId) (σ : Relay) (mem : List UInt8)
    (c : Cursor) {b' : List UInt8} (hi : ∃ pkt, ccntlvInterest mem c = .ok pkt ∧ pkt.buf = b')
    (hr : ∃ r, ccntlvForwarder E now f σ mem c = .ok r ∧
      .send g b' ∈ r.1.out.drop σ.out.length) : Hop (frameAt mem c) b' := by
  obtain ⟨pkt, hp, rfl⟩ := hi
  obtain ⟨⟨τ, mem', c'⟩, hr, hs⟩ := hr
  exact ⟨E, now, f, σ, τ, mem, c, mem', c', pkt, g, rfl, hp, hr, hs, rfl⟩

/-- An Interest for `/a` with a hop limit. -/
def interestWithLimit (hop : UInt8) : List UInt8 :=
  [1, 0, 0, 22, hop, 0, 0, 9, 0, 0, 1, 0, 9, 0, 0, 0, 5, 0, 1, 0, 1, 97]

/-- A relay with two faces, which forwards `/a` to the second. -/
def relayOfTwo : Relay where
  faces := [{ faceid := 1, ifndx := 0 }, { faceid := 2, ifndx := 0 }]
  fib := [{ pfx := some (.ofComps .ccntlv [[0, 1, 0, 1, 97]]), suite := .ccntlv, face := some 2 }]

/-- With two hops left the Interest is forwarded with one. -/
theorem hopLimited_two : HopLimited [interestWithLimit 2, interestWithLimit 1] := by
  have hop : Hop (interestWithLimit 2) (interestWithLimit 1) :=
    hop_of_run Env.still 0 1 2 relayOfTwo (interestWithLimit 2) ⟨0, 22⟩
      (exists_ok (by decide +kernel)) (exists_ok (by decide +kernel))
  refine (hopLimited_iff (List.isChain_cons_cons.mpr ⟨hop, List.isChain_singleton _⟩)).mpr ?_
  rintro ⟨h0, -⟩
  revert h0
  decide

/-- An Interest that comes with the hop limit 0 is handed on, and forwarded with 255. -/
theorem hopLimit_wraps :
    ¬ ∀ chain : List (List UInt8), chain.IsChain Hop → HopLimited chain := by
  intro h
  have hop : Hop (interestWithLimit 0) (interestWithLimit 255) :=
    hop_of_run Env.still 0 1 2 relayOfTwo (interestWithLimit 0) ⟨0, 22⟩
      (exists_ok (by decide +kernel)) (exists_ok (by decide +kernel))
  have hl := h _ (List.isChain_cons_cons.mpr ⟨hop, List.isChain_singleton _⟩)
  have := hl.handed _ List.mem_cons_self hop.handedOn
  revert this
  decide

end Ccnl
