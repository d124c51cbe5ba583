import CcnLite.Pkt.CcnbPacket

/-!
# Confinement of the CCNB parser

The parser leaves its buffer in one way only, through a blob that says that it is longer than what
is left, and it uses an out-parameter that nothing set when an element has no blob in it.
`ccnbFrame_confined_iff` says that it is confined exactly when neither comes up on the walk over the
packets of a frame (`FramePass`).
-/

namespace Ccnl

open CRun Relation

/-! ## The header of a packet -/

theorem ccnbNumber_ge {bs : List UInt8} {val num typ k : Nat}
    (h : ccnbNumber bs val = some ((num, typ), k)) : val * 2 ^ 4 ≤ num := by
  induction bs generalizing val k with
  | nil => cases h
  | cons b bs ih =>
    unfold ccnbNumber at h
    split at h
    · cases h
      omega
    · obtain ⟨⟨x, k'⟩, hx, h⟩ := Option.map_eq_some_iff.mp h
      cases h
      have := ih hx
      omega

/-- The header of an Interest or a ContentObject is two bytes, so `*data - 2` is where it starts. -/
theorem CcnbAt.packet_size {mem : List UInt8} {lim p num typ q : Nat}
    (h : CcnbAt mem lim p num typ q) (hn : num = ccnDtagInterest ∨ num = ccnDtagContentobj) :
    q = p + 2 := by
  obtain ⟨k, hk, rfl⟩ := h
  have hnum : 16 ≤ num ∧ num < 2048 := by
    rcases hn with rfl | rfl <;> decide
  congr 1
  unfold ccnbHeader at hk
  split at hk
  · cases hk
  rename_i b bs heq
  split at hk
  · cases hk
    omega
  rename_i hb
  rw [List.take_succ_cons] at hk
  unfold ccnbNumber at hk
  split at hk
  · have : ((b >>> 3) &&& 0xf).toNat ≤ 0xf := by
      rw [UInt8.toNat_and]
      exact Nat.and_le_right
    simp only [Option.some.injEq, Prod.mk.injEq] at hk
    omega
  · obtain ⟨⟨x, k'⟩, hx, hk⟩ := Option.map_eq_some_iff.mp hk
    cases hk
    have hb0 : b.toNat ≠ 0 := fun h0 => hb (UInt8.toNat_inj.mp h0)
    unfold ccnbNumber at hx
    split at hx
    · cases hx
    split at hx
    · cases hx
      rfl
    · obtain ⟨⟨y, k''⟩, hy, hx⟩ := Option.map_eq_some_iff.mp hx
      cases hx
      have := ccnbNumber_ge hy
      omega

/-! ## Frames -/

section Frame

variable (mem : List UInt8) (lim : Nat)

/-- One packet of a frame. -/
def FramePass (p p' : Nat) : Prop :=
  ∃ num q, CcnbAt mem lim p num ccnTtDtag q ∧ (num = ccnDtagInterest ∨ num = ccnDtagContentobj) ∧
    PacketEnds mem lim q p'

/-- The packet at a place of a frame is confined. -/
def FrameFine (p : Nat) : Prop :=
  ∀ num q, CcnbAt mem lim p num ccnTtDtag q → num = ccnDtagInterest ∨ num = ccnDtagContentobj →
    PacketConfined mem lim q

variable {mem lim} {τ : Type} {handle : τ → Pkt → Run (τ × Bool)} {t t' : τ} {c c' : Cursor}

theorem packetVisits_le {s u : Nat × CcnbMemo} (h : ReflTransGen (PacketPass mem lim) s u)
    (hs : s.1 ≤ lim) : s.1 ≤ u.1 ∧ u.1 ≤ lim := by
  induction h with
  | refl => exact ⟨Nat.le_refl _, hs⟩
  | tail _ hp ih =>
    have := hp.le
    omega

theorem FramePass.le {p p' : Nat} (h : FramePass mem lim p p') : p < p' ∧ p' ≤ lim := by
  obtain ⟨num, q, hat, -, u, hu, hp, -⟩ := h
  have := hat.lt
  have hu := packetVisits_le hu (show q ≤ lim by omega)
  have := hp.le hu.2
  simp only at hu
  omega

/-- A pass of the loop over the frame takes one packet. -/
theorem ccnbFrameStep_again (hlim : c.pos + c.len = lim) (hl : lim ≤ mem.length)
    (hs : Again (ccnbFrameStep handle mem) (t, c) (t', c')) :
    ∃ num q pkt flags, CcnbAt mem lim c.pos num ccnTtDtag q ∧
      (num = ccnDtagInterest ∨ num = ccnDtagContentobj) ∧
      ccnbBytes2pkt mem c.pos ⟨q, lim - q⟩ = .ok (pkt, c') ∧
      handle t { pkt with type := num, flags := flags } = .ok (t', true) := by
  subst hlim
  unfold Again ccnbFrameStep at hs
  simp only at hs
  split at hs
  · simp at hs
  rcases ccnbDehead_cases hl with ⟨hx, hno⟩ | ⟨num, typ, c₁, hx, hat, hc₁⟩ <;>
    rw [hx, ok_bind] at hs
  · simp at hs
  · simp only at hs
    split at hs
    · rename_i hn
      obtain ⟨rfl, hn⟩ := hn
      obtain ⟨x, hparse, hs⟩ := (bind_eq_ok _ _ _).mp hs
      match x with
      | none => simp at hs
      | some (pkt, c₂) =>
        obtain ⟨⟨t₂, b⟩, hh, hs⟩ := (bind_eq_ok _ _ _).mp hs
        cases b with
        | false => simp at hs
        | true =>
          cases hs
          have hsize := hat.packet_size hn
          have hc : c₁ = ⟨c₁.pos, c.pos + c.len - c₁.pos⟩ := Cursor.ext rfl (by simp only; omega)
          refine ⟨num, c₁.pos, pkt, _, hat, hn, ?_, hh⟩
          rw [← hc, show c.pos = c₁.pos - 2 by omega]
          exact attempt_eq_some.mp hparse
    · simp at hs

theorem framePass_of_again (hlim : c.pos + c.len = lim) (hl : lim ≤ mem.length)
    (hs : Again (ccnbFrameStep handle mem) (t, c) (t', c')) :
    FramePass mem lim c.pos c'.pos ∧ c'.pos + c'.len = lim := by
  obtain ⟨num, q, pkt, flags, hat, hn, hparse, -⟩ := ccnbFrameStep_again hlim hl hs
  have := hat.lt
  have hq : q + (lim - q) = lim := by omega
  obtain ⟨hends, hlim'⟩ := (ccnbBytes2pkt_returns (c := ⟨q, lim - q⟩) (by simp only; omega)).mp
    ⟨pkt, hparse⟩
  simp only [hq] at hends hlim'
  exact ⟨⟨num, q, hat, hn, hends⟩, hlim'⟩

/-- A packet on the wire is one that the loop over the frame takes, where nothing refuses it. -/
theorem again_of_framePass (hh : ∀ t pkt, ∃ t', handle t pkt = .ok (t', true))
    (hlim : c.pos + c.len = lim) (hl : lim ≤ mem.length) {p' : Nat}
    (hp : FramePass mem lim c.pos p') :
    ∃ t', Again (ccnbFrameStep handle mem) (t, c) (t', ⟨p', lim - p'⟩) := by
  subst hlim
  have hle := hp.le
  obtain ⟨num, q, hat, hn, hends⟩ := hp
  have hlt := hat.lt
  have hq : q + (c.pos + c.len - q) = c.pos + c.len := by omega
  have hlq : q + (c.pos + c.len - q) ≤ mem.length := by omega
  rw [← hq] at hends
  have hends' : q + (c.pos + c.len - q) = p' + (c.pos + c.len - p') := by omega
  obtain ⟨pkt, hparse⟩ := (@ccnbBytes2pkt_returns mem ⟨q, c.pos + c.len - q⟩
    ⟨p', c.pos + c.len - p'⟩ (q - 2) hlq).mpr ⟨hends, hends'.symm⟩
  unfold Again ccnbFrameStep
  simp only
  rw [if_neg (by omega), hat.dehead hl]
  simp only [ok_bind, hn, and_self, ↓reduceIte, hparse, attempt_ok]
  obtain ⟨t', ht'⟩ := hh t { pkt with
    type := num, flags := if num = ccnDtagInterest then pktRequest else pktReply }
  exact ⟨t', by rw [ht']; rfl⟩

/-- A pass is confined exactly when the packet is. -/
theorem safe_ccnbFrameStep (hh : ∀ t pkt, ∃ t', handle t pkt = .ok (t', true))
    (hlim : c.pos + c.len = lim) (hl : lim ≤ mem.length) :
    Safe (ccnbFrameStep handle mem (t, c)) ↔ FrameFine mem lim c.pos := by
  subst hlim
  unfold ccnbFrameStep FrameFine
  simp only
  by_cases h0 : c.len = 0
  · simp only [h0, ↓reduceIte, safe_pure, true_iff]
    intro num q hat
    have := hat.lt
    omega
  rw [if_neg h0]
  rcases ccnbDehead_cases hl with ⟨hx, hno⟩ | ⟨num, typ, c₁, hx, hat, hc₁⟩ <;> rw [hx, ok_bind]
  · simp only [safe_pure, true_iff]
    exact fun num q hat => absurd hat (hno _ _ _)
  · have hfine : (∀ num' q', CcnbAt mem (c.pos + c.len) c.pos num' ccnTtDtag q' →
        num' = ccnDtagInterest ∨ num' = ccnDtagContentobj →
          PacketConfined mem (c.pos + c.len) q') ↔
        (typ = ccnTtDtag ∧ (num = ccnDtagInterest ∨ num = ccnDtagContentobj) →
          PacketConfined mem (c.pos + c.len) c₁.pos) := by
      constructor
      · rintro h ⟨rfl, hn⟩
        exact h _ _ hat hn
      · intro h num' q' hat' hn
        obtain ⟨rfl, rfl, rfl⟩ := hat.unique hat'
        exact h ⟨rfl, hn⟩
    rw [hfine]
    simp only
    split
    · rename_i hn
      have hlt := hat.lt
      rw [safe_bind, safe_attempt, safe_ccnbBytes2pkt (by omega), hc₁]
      refine Iff.trans (and_iff_left fun x _ => ?_) ⟨fun h _ => h, fun h => h hn⟩
      rcases x with _ | ⟨pkt, c₂⟩
      · simp
      · obtain ⟨t', ht'⟩ := hh t { pkt with
          type := num, flags := if num = ccnDtagInterest then pktRequest else pktReply }
        simp [ht']
    · rename_i hn
      simp [hn]

/-- The loop over a frame is confined exactly when the packets are that it comes to. -/
theorem safe_ccnbFrame (hh : ∀ t pkt, ∃ t', handle t pkt = .ok (t', true))
    (hl : c.pos + c.len ≤ mem.length) :
    Safe (ccnbFrame handle mem t c) ↔
      ∀ p, ReflTransGen (FramePass mem (c.pos + c.len)) c.pos p →
        FrameFine mem (c.pos + c.len) p :=
  loop_safe_iff_map (fun s : τ × Cursor => s.2.pos)
    (I := fun s => s.2.pos + s.2.len = c.pos + c.len)
    (fun _ _ hi hs => (framePass_of_again hi hl hs).2)
    (fun _ _ hi hs => (framePass_of_again hi hl hs).1)
    (fun _ p' hi hp => by
      obtain ⟨t', ht'⟩ := again_of_framePass hh hi hl hp
      exact ⟨_, ht', rfl⟩)
    (fun _ hi => safe_ccnbFrameStep hh hi hl) (m := fun s => s.2.len)
    (fun _ _ hi hs => by
      obtain ⟨hp, hi'⟩ := framePass_of_again hi hl hs
      have := hp.le
      omega)
    (Nat.lt_succ_self _) rfl

end Frame

/-! ## The parser as a whole -/

/-- Nothing is done with a packet but to remember it. -/
def collect (pkts : List Pkt) (pkt : Pkt) : Run (List Pkt × Bool) := .ok (pkts ++ [pkt], true)

/-- The claim of confinement for the bytes `mem`: the loop over the frame commits no fault, and the
slices of each packet that it takes lie among the packet's bytes, from its header on. -/
def CcnbConfined (mem : List UInt8) : Prop :=
  Safe (ccnbFrame collect mem [] ⟨0, mem.length⟩) ∧
    ∀ pkts r, ccnbFrame collect mem [] ⟨0, mem.length⟩ = .ok (pkts, r) → ∀ pkt ∈ pkts,
      ∃ start stop, start ≤ stop ∧ stop ≤ mem.length ∧ CcnbInside mem start stop pkt

/-- At every packet that the walk over the frame comes to: no blob that the walk over the packet
comes to is longer than what is left, and every element whose value is used has a blob in it. -/
def CcnbWireConfined (mem : List UInt8) : Prop :=
  ∀ p, ReflTransGen (FramePass mem mem.length) 0 p → FrameFine mem mem.length p

/-- The slices of the packets that the loop over the frame takes lie among their bytes. -/
theorem ccnbFrame_inside {mem : List UInt8} {pkts : List Pkt} {r : Option Cursor}
    (h : ccnbFrame collect mem [] ⟨0, mem.length⟩ = .ok (pkts, r)) :
    ∀ pkt ∈ pkts, ∃ start stop, start ≤ stop ∧ stop ≤ mem.length ∧
      CcnbInside mem start stop pkt := by
  let J : List Pkt → Prop := fun ps => ∀ pkt ∈ ps, ∃ start stop, start ≤ stop ∧
    stop ≤ mem.length ∧ CcnbInside mem start stop pkt
  let I : List Pkt × Cursor → Prop := fun s => s.2.pos + s.2.len = mem.length ∧ J s.1
  refine loop_inv (I := I) (Q := fun x => J x.1) h ⟨by simp, by simp [J]⟩ ?_ ?_
  · rintro ⟨ps, c⟩ ⟨ps', c'⟩ ⟨hlim, hps⟩ hs
    simp only at hlim hps
    obtain ⟨hp, hlim'⟩ := framePass_of_again hlim (Nat.le_refl _) hs
    have hle := hp.le
    obtain ⟨num, q, pkt, flags, hat, hn, hparse, hh⟩ :=
      ccnbFrameStep_again hlim (Nat.le_refl _) hs
    have hlt := hat.lt
    have hin := ccnbBytes2pkt_inside (by simp only; omega) (by simp only; omega) hparse
    cases hh
    refine ⟨hlim', fun x hx => ?_⟩
    rcases List.mem_append.mp hx with hx | hx
    · exact hps x hx
    · obtain rfl := List.mem_singleton.mp hx
      exact ⟨c.pos, c'.pos, by omega, by omega, hin.buf, ⟨hin.inside.content, hin.inside.pfx⟩,
        hin.nonce⟩
  · rintro ⟨ps, c⟩ ⟨ps', r'⟩ ⟨-, hps⟩ hs
    suffices ps' = ps by
      subst this
      exact hps
    unfold ccnbFrameStep at hs
    simp only at hs
    split at hs
    · cases hs
      rfl
    obtain ⟨x, -, hs⟩ := (bind_eq_ok _ _ _).mp hs
    match x with
    | none =>
      cases hs
      rfl
    | some ((num, typ), c₁) =>
      simp only at hs
      split at hs
      · obtain ⟨y, -, hs⟩ := (bind_eq_ok _ _ _).mp hs
        match y with
        | none =>
          cases hs
          rfl
        | some (pkt, c₂) => simp [collect] at hs
      · cases hs
        rfl

/-- The CCNB parser is confined to its buffer exactly on the byte strings with
`CcnbWireConfined`. -/
theorem ccnbFrame_confined_iff (mem : List UInt8) : CcnbConfined mem ↔ CcnbWireConfined mem := by
  unfold CcnbConfined CcnbWireConfined
  rw [and_iff_left fun _ _ => ccnbFrame_inside]
  simpa using @safe_ccnbFrame mem _ collect [] ⟨0, mem.length⟩
    (fun ps pkt => ⟨ps ++ [pkt], rfl⟩) (by simp)

/-- An Interest in which a blob of fifteen bytes is announced, of which none is there. -/
theorem ccnbFrame_long_blob : ¬ CcnbConfined [0x01, 0xd2, 0xfd] := by
  intro h
  cases h.1 .wrap (by decide +kernel)

end Ccnl
