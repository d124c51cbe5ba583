import CcnLite.Frag.Reassembly
import Mathlib.Data.List.Range

/-!
# From the queue of a face to the callback of its peer

A face sends its queue in fragments, and all of them arrive in order at a peer that expects the
first number. The numbers have 14 bits on the wire, but the receiver counts with 32: after number
`2 ^ 14 - 1` it takes the next fragment for a gap. So a packet is lost when a fragment other than
its first one has the number 0 (`Wraps`), and only then (`fragmentation_transparent_iff`). An mtu of
13 leaves no room for data, because the fixed header has nine bytes; then the sender never ends.

`fragPieces` are the fragments of a packet in closed form.
-/

namespace Ccnl

open CRun BeginEnd

/-! ## The fragments of a packet -/

/-- The number of fragments of `d` bytes that a packet of `len` bytes takes. -/
def fragCount (d len : Nat) : Nat := (len + d - 1) / d

/-- A fragment other than the first of `n` has a number that is 0 on the wire. -/
def Wraps (seq n : Nat) : Prop := ∃ k, k < n ∧ 0 < k ∧ (seq + k) % 2 ^ 14 = 0

instance (seq n : Nat) : Decidable (Wraps seq n) :=
  inferInstanceAs (Decidable (∃ k, k < n ∧ 0 < k ∧ (seq + k) % 2 ^ 14 = 0))

section Pieces

variable {d seq : Nat} {p : List UInt8}

/-- The `k`-th fragment of a packet whose first one has the number `seq`. -/
def fragPiece (d seq : Nat) (p : List UInt8) (k : Nat) : Piece Nat (List UInt8) where
  flag := befragFlag p.length (k * d) (min d (p.length - k * d))
  seq := (seq + k) % 2 ^ 14
  data := (p.drop (k * d)).take d

def fragPieces (d seq : Nat) (p : List UInt8) : List (Piece Nat (List UInt8)) :=
  (List.range (fragCount d p.length)).map (fragPiece d seq p)

theorem lt_fragCount (hd : 0 < d) {len k : Nat} : k < fragCount d len ↔ k * d < len := by
  rw [fragCount, Nat.lt_div_iff_mul_lt hd]
  omega

theorem fragCount_pos (hd : 0 < d) (hp : p ≠ []) : 0 < fragCount d p.length := by
  rw [lt_fragCount hd, Nat.zero_mul]
  exact List.length_pos_iff.mpr hp

theorem sub64_of_le {a b : Nat} (h : b ≤ a) (ha : a ≤ uint16Max) : sub64 a b = a - b := by
  unfold sub64 u64
  unfold uint16Max at ha
  omega

theorem fragPiece_flag (seq : Nat) (hd : 0 < d) (hlen : p.length ≤ uint16Max) {k : Nat}
    (hk : k < fragCount d p.length) :
    (fragPiece d seq p k).flag =
      if k = 0 then (if fragCount d p.length = 1 then .single else .first)
      else if k + 1 = fragCount d p.length then .last else .mid := by
  have hkd := (lt_fragCount hd).mp hk
  have hone : 1 < fragCount d p.length ↔ d < p.length := by rw [lt_fragCount hd, Nat.one_mul]
  have hnext : k + 1 < fragCount d p.length ↔ k * d + d < p.length := by
    rw [lt_fragCount hd, Nat.succ_mul]
  have hsub := sub64_of_le (Nat.le_of_lt hkd) hlen
  simp only [fragPiece, befragFlag, hsub]
  by_cases h0 : k = 0
  · subst h0
    simp only [Nat.zero_mul, Nat.sub_zero, if_true]
    by_cases h1 : fragCount d p.length = 1
    · rw [if_pos h1, if_pos (by omega)]
    · rw [if_neg h1, if_neg (by omega)]
  · have hpos : 0 < k * d := Nat.mul_pos (by omega) hd
    rw [if_neg (by omega), if_neg (by omega), if_neg h0]
    by_cases hl : k + 1 = fragCount d p.length
    · rw [if_pos hl, if_pos (by omega)]
    · rw [if_neg hl, if_neg (by omega)]

theorem shaped_fragPieces (hd : 0 < d) (hp : p ≠ []) (hlen : p.length ≤ uint16Max) :
    Shaped (fragPieces d seq p) := by
  have hpos := fragCount_pos hd hp
  have hflag := fun k => fragPiece_flag seq (k := k) hd hlen
  unfold fragPieces
  generalize fragCount d p.length = n at hpos hflag
  rcases n with _ | _ | m
  · exact absurd hpos (Nat.lt_irrefl 0)
  · exact .single _ (hflag 0 Nat.zero_lt_one)
  · rw [List.range_succ, List.range_succ_eq_map, List.map_append, List.map_cons]
    refine .series _ _ _ ?_ ?_ ?_
    · simpa using hflag 0 (by omega)
    · intro y hy
      simp only [List.map_map, List.mem_map, List.mem_range] at hy
      obtain ⟨k, hk, rfl⟩ := hy
      have h := hflag (k + 1) (by omega)
      rwa [if_neg (by omega), if_neg (by omega)] at h
    · have h := hflag (m + 1) (by omega)
      rwa [if_neg (by omega), if_pos rfl] at h

/-- The receiver takes the numbers for successive when none but the first is 0. -/
theorem isChain_fragPieces :
    (fragPieces d seq p).IsChain (Follows nextSeq) ↔ ¬ Wraps seq (fragCount d p.length) := by
  unfold fragPieces
  rw [List.isChain_map, List.isChain_range]
  have hstep : ∀ k, Follows nextSeq (fragPiece d seq p k) (fragPiece d seq p (k + 1)) ↔
      (seq + (k + 1)) % 2 ^ 14 ≠ 0 := by
    intro k
    simp only [Follows, fragPiece, nextSeq, u32]
    omega
  simp only [hstep]
  constructor
  · rintro h ⟨k, hk, h0, hw⟩
    obtain ⟨j, rfl⟩ : ∃ j, k = j + 1 := ⟨k - 1, by omega⟩
    exact h j (by omega) hw
  · exact fun h k hk hw => h ⟨k + 1, by omega, by omega, hw⟩

/-- The first `k` fragments bring the first `k * d` bytes. -/
theorem joined_fragPiece (k : Nat) :
    joined ((List.range k).map (fragPiece d seq p)) = p.take (k * d) := by
  induction k with
  | zero => simp [joined]
  | succ k ih =>
    have hlast : joined [fragPiece d seq p k] = (p.drop (k * d)).take d := by simp [joined, fragPiece]
    rw [List.range_succ, List.map_append, joined, List.flatMap_append, ← joined, ih, List.map_singleton,
      ← joined, hlast, Nat.succ_mul, List.take_add]

theorem joined_fragPieces (hd : 0 < d) : joined (fragPieces d seq p) = p := by
  have hn : ¬ fragCount d p.length * d < p.length := by
    rw [← lt_fragCount hd]
    exact Nat.lt_irrefl _
  rw [fragPieces, joined_fragPiece, List.take_of_length_le (by omega)]

theorem deliveryOf_fragPieces (hd : 0 < d) (hlen : p.length ≤ uint16Max) :
    deliveryOf (fragPieces d seq p) = { buf := p, len := p.length } := by
  have hi : i32 p.length = p.length := by
    unfold uint16Max at hlen
    exact Int.bmod_eq_of_le (by omega) (by omega)
  simp only [deliveryOf, joined_fragPieces hd, hi, ite_self]

end Pieces

/-! ## Sending -/

/-- A fragment that comes off the wire. -/
def Sent.piece (x : Sent) : Piece Nat (List UInt8) := (ccntlvFragment x.buf).piece

theorem befragFlagOf_bits (flag : Flag) : befragFlagOf (befragBits flag) = flag := by
  cases flag <;> rfl

/-- The forwarder of the peer reads what `ccnl_ccntlv_mkFrag` has written. -/
theorem piece_fragFrame (seq : Nat) (flag : Flag) (data : List UInt8) :
    (ccntlvFragment (ccntlvFragFrame seq flag data)).piece = ⟨flag, seq % 2 ^ 14, data⟩ := by
  have hand : ∀ n, n &&& 0x3fff = n % 2 ^ 14 := fun n => Nat.and_two_pow_sub_one_eq_mod n 14
  have hor : (seq &&& 0x3fff) ||| befragBits flag <<< 14 = befragBits flag * 2 ^ 14 + seq % 2 ^ 14 := by
    rw [hand, Nat.or_comm, ← Nat.shiftLeft_add_eq_or_of_lt (Nat.mod_lt _ (Nat.two_pow_pos 14)),
      Nat.shiftLeft_eq]
  have hbits : befragBits flag < 4 := by cases flag <;> decide
  obtain ⟨a, b, hab⟩ : ∃ a b, beBytes 2 (ccnxHdrlen + 4 + data.length) = [a, b] := ⟨_, _, rfl⟩
  obtain ⟨x, y, hxy⟩ : ∃ x y, beBytes 2 data.length = [x, y] := ⟨_, _, rfl⟩
  have hfields : beNat (((ccntlvFragFrame seq flag data).drop 5).take 2) =
      befragBits flag * 2 ^ 14 + seq % 2 ^ 14 := by
    have hdrop : ((ccntlvFragFrame seq flag data).drop 5).take 2 =
        beBytes 2 ((seq &&& 0x3fff) ||| befragBits flag <<< 14) := by
      rw [ccntlvFragFrame, hab]
      rfl
    rw [hdrop, beNat_beBytes, hor]
    omega
  have hhdr : beNat (((ccntlvFragFrame seq flag data).drop 7).take 2).reverse = 9 := by
    rw [ccntlvFragFrame, hab]
    rfl
  have hdata : (ccntlvFragFrame seq flag data).drop (9 + 4) = data := by
    rw [ccntlvFragFrame, hab, hxy]
    rfl
  have hshift : (befragBits flag * 2 ^ 14 + seq % 2 ^ 14) >>> 14 = befragBits flag := by
    rw [Nat.shiftRight_eq_div_pow]
    omega
  have hmod : (befragBits flag * 2 ^ 14 + seq % 2 ^ 14) &&& 0x3fff = seq % 2 ^ 14 := by
    rw [hand]
    omega
  simp only [Fragment.piece, Fragment.flag, ccntlvFragment, hfields, hhdr, hdata, hshift, hmod,
    befragFlagOf_bits]

theorem fragGetnext_none {fr : Frag} (h : fr.bigpkt = none) : fragGetnext fr = .ok (fr, none) := by
  rw [fragGetnext, h]
  rfl

/-- The bytes of a packet that a fragment takes. -/
def fragRoom (mtu : Int) : Nat := (mtu - 13).toNat

/-- The next fragment of a packet. -/
theorem fragGetnext_eq {fr : Frag} {p : List UInt8} (hproto : fr.protocol = .beginEnd2015)
    (hbig : fr.bigpkt = some p) (hsuite : fr.outsuite = some .ccntlv) (hmtu : 13 ≤ fr.mtu)
    (hmtu' : fr.mtu < 2 ^ 31) (hoffs : fr.sendoffs ≤ p.length) (hlen : p.length ≤ uint16Max) :
    let n := min (fragRoom fr.mtu) (p.length - fr.sendoffs)
    fragGetnext fr = .ok
      ({ fr with
          sendseq := u32 (fr.sendseq + 1)
          sendoffs := fr.sendoffs + n
          bigpkt := if p.length ≤ fr.sendoffs + n then none else some p },
        some
          { ifndx := fr.ifndx
            dst := fr.dest
            buf := ccntlvFragFrame fr.sendseq (befragFlag p.length fr.sendoffs n)
              ((p.drop fr.sendoffs).take (fragRoom fr.mtu)) }) := by
  intro n
  have hroom : sub64 (size64 fr.mtu) (ccnxHdrlen + 4) = fragRoom fr.mtu := by
    unfold sub64 size64 u64 fragRoom ccnxHdrlen
    omega
  have hu : ∀ m, m ≤ p.length → u32 m = m := fun m hm => by
    unfold uint16Max at hlen
    exact Nat.mod_eq_of_lt (by omega)
  have hn : n ≤ p.length - fr.sendoffs := Nat.min_le_right _ _
  have hrd : rdBytes p fr.sendoffs n = .ok ((p.drop fr.sendoffs).take n) :=
    rdBytes_eq_ok.mpr ⟨.inr (by omega), rfl⟩
  have htake : (p.drop fr.sendoffs).take n = (p.drop fr.sendoffs).take (fragRoom fr.mtu) := by
    rw [List.take_eq_take_iff, List.length_drop]
    omega
  have hmk : ccntlvMkFrag fr = .ok (some (ccntlvFragFrame fr.sendseq
      (befragFlag p.length fr.sendoffs n) ((p.drop fr.sendoffs).take (fragRoom fr.mtu)), n)) := by
    rw [ccntlvMkFrag, hbig, deref_some, ok_bind, hroom, sub64_of_le hoffs hlen,
      if_neg (by show ¬ uint16Max < n; omega)]
    show (rdBytes p fr.sendoffs n >>= _) = _
    rw [hrd, ok_bind, htake]
    rfl
  have hnext : fragGetnext fr = fragGetnextBE2015 fr := by
    rw [fragGetnext, if_neg (by simp [hbig]), hproto]
  rw [hnext]
  simp only [fragGetnextBE2015, hbig, deref_some, ok_bind, hsuite, hmk, hu _ (Nat.le_refl _),
    hu (fr.sendoffs + n) (by omega)]
  rfl

/-- Nothing is being sent, and the next fragment has the number `seq`. -/
structure Frag.Idle (fr : Frag) (mtu : Int) (seq : Nat) : Prop where
  protocol : fr.protocol = .beginEnd2015
  mtu_eq : fr.mtu = mtu
  bigpkt : fr.bigpkt = none
  sendseq : fr.sendseq % 2 ^ 14 = seq % 2 ^ 14

/-- The `k`-th fragment of `p` is next, and the first one had the number `seq`. -/
structure Frag.Busy (fr : Frag) (mtu : Int) (seq : Nat) (p : List UInt8) (k : Nat) : Prop where
  protocol : fr.protocol = .beginEnd2015
  mtu_eq : fr.mtu = mtu
  bigpkt : fr.bigpkt = some p
  outsuite : fr.outsuite = some .ccntlv
  sendoffs : fr.sendoffs = k * fragRoom mtu
  sendseq : fr.sendseq % 2 ^ 14 = (seq + k) % 2 ^ 14

/-- A packet that the CCNx forwarder of the peer is meant for, no longer than its length field can
say. -/
structure CcnxPacket (p : List UInt8) : Prop where
  suite : pkt2suite p ⟨0, p.length⟩ = .ok (some .ccntlv)
  length : p.length ≤ uint16Max

theorem CcnxPacket.ne_nil {p : List UInt8} (h : CcnxPacket p) : p ≠ [] := by
  rintro rfl
  have := h.suite
  simp [pkt2suite] at this

section Sending

variable {mtu : Int} {seq k : Nat} {p : List UInt8} {fr : Frag}

/-- What is left after `k` fragments. -/
def Frag.Sending (fr : Frag) (mtu : Int) (seq : Nat) (p : List UInt8) (k : Nat) : Prop :=
  if k < fragCount (fragRoom mtu) p.length then fr.Busy mtu seq p k
  else fr.Idle mtu (seq + fragCount (fragRoom mtu) p.length)

theorem Frag.Busy.getnext (h : fr.Busy mtu seq p k) (hp : CcnxPacket p) (hmtu : 14 ≤ mtu)
    (hmtu' : mtu < 2 ^ 31) (hk : k < fragCount (fragRoom mtu) p.length) :
    ∃ fr' x, fragGetnext fr = .ok (fr', some x) ∧ x.piece = fragPiece (fragRoom mtu) seq p k ∧
      fr'.Sending mtu seq p (k + 1) := by
  have hd : 0 < fragRoom mtu := by unfold fragRoom; omega
  have hoffs := h.sendoffs
  have hkd : k * fragRoom mtu < p.length := (lt_fragCount hd).mp hk
  have hnext : k + 1 < fragCount (fragRoom mtu) p.length ↔
      k * fragRoom mtu + fragRoom mtu < p.length := by rw [lt_fragCount hd, Nat.succ_mul]
  have hseq : u32 (fr.sendseq + 1) % 2 ^ 14 = (seq + (k + 1)) % 2 ^ 14 := by
    have := h.sendseq
    unfold u32
    omega
  have heq := fragGetnext_eq h.protocol h.bigpkt h.outsuite (by rw [h.mtu_eq]; omega)
    (by rw [h.mtu_eq]; exact hmtu') (by omega) hp.length
  rw [h.mtu_eq, hoffs] at heq
  refine ⟨_, _, heq, ?_, ?_⟩
  · rw [Sent.piece, piece_fragFrame, h.sendseq]
    rfl
  · unfold Frag.Sending
    by_cases hl : k + 1 < fragCount (fragRoom mtu) p.length
    · rw [if_pos hl]
      refine ⟨h.protocol, rfl, if_neg (by omega), h.outsuite, ?_, hseq⟩
      show _ + min _ _ = _
      rw [Nat.succ_mul]
      omega
    · rw [if_neg hl]
      have hlast : k + 1 = fragCount (fragRoom mtu) p.length := by omega
      refine ⟨h.protocol, rfl, if_pos ?_, by rw [← hlast]; exact hseq⟩
      omega

/-- The rest of a packet is sent. -/
theorem reached_sending {f : FragFace} (sent : List Sent) (hf : f.frag = some fr)
    (h : fr.Sending mtu seq p k) (hp : CcnxPacket p) (hmtu : 14 ≤ mtu) (hmtu' : mtu < 2 ^ 31)
    (hk : k ≤ fragCount (fragRoom mtu) p.length) :
    ∃ f' fr' new, Reached faceCTSStep (f, sent) (f', sent ++ new) ∧ f'.outq = f.outq ∧
      f'.frag = some fr' ∧ fr'.Idle mtu (seq + fragCount (fragRoom mtu) p.length) ∧
      new.map Sent.piece = (List.range' k (fragCount (fragRoom mtu) p.length - k)).map
        (fragPiece (fragRoom mtu) seq p) := by
  induction hn : fragCount (fragRoom mtu) p.length - k generalizing k fr f sent with
  | zero =>
    rw [Frag.Sending, if_neg (by omega)] at h
    exact ⟨f, fr, [], by simpa using .refl, rfl, hf, h, rfl⟩
  | succ n ih =>
    have hk' : k < fragCount (fragRoom mtu) p.length := by omega
    rw [Frag.Sending, if_pos hk'] at h
    obtain ⟨fr₁, x, hx, hpiece, h₁⟩ := h.getnext hp hmtu hmtu' hk'
    have hstep : Again faceCTSStep (f, sent) ({ f with frag := some fr₁ }, sent ++ [x]) := by
      simp [Again, faceCTSStep, hf, h.protocol, hx, Option.filter]
    obtain ⟨f', fr', new, hr, hq, hf', hidle, hnew⟩ :=
      ih (f := { f with frag := some fr₁ }) (sent ++ [x]) rfl h₁ (by omega) (by omega)
    refine ⟨f', fr', x :: new, .head hstep (by simpa using hr), hq, hf', hidle, ?_⟩
    rw [List.map_cons, hnew, hpiece, List.range'_succ, List.map_cons]

/-- A packet from the queue is the next to be sent. -/
theorem Frag.Idle.reset (h : fr.Idle mtu seq) (hp : CcnxPacket p) (ifndx : Int)
    (dst : Option SockAddr) :
    ∃ fr₀, fragReset fr (some p) ifndx dst = .ok fr₀ ∧ fr₀.Busy mtu seq p 0 := by
  refine ⟨_, by simp only [fragReset, hp.suite, ok_bind]; rfl, ?_⟩
  exact ⟨h.protocol, h.mtu_eq, rfl, rfl, (Nat.zero_mul _).symm, h.sendseq⟩

/-- An idle face takes the next packet, and sends its first fragment. -/
theorem Frag.Idle.step {f : FragFace} (sent : List Sent) {ps : List (List UInt8)}
    {fr₀ fr' : Frag} {x : Sent} (h : fr.Idle mtu seq) (hf : f.frag = some fr)
    (hq : f.outq = p :: ps) (h₀ : fragReset fr (some p) f.ifndx f.peer = .ok fr₀)
    (hx : fragGetnext fr₀ = .ok (fr', some x)) :
    Again faceCTSStep (f, sent) ({ f with outq := ps, frag := some fr' }, sent ++ [x]) := by
  simp [Again, faceCTSStep, hf, h.protocol, fragGetnext_none h.bigpkt, Option.filter,
    FragFace.dequeue, hq, h₀, hx]

/-- An idle face with nothing in its queue is done. -/
theorem Frag.Idle.done {f : FragFace} (sent : List Sent) (h : fr.Idle mtu seq)
    (hf : f.frag = some fr) (hq : f.outq = []) :
    ∃ f', faceCTSStep (f, sent) = .ok (.inr (f', sent)) := by
  have hbig := h.bigpkt
  exact ⟨_, by simp [faceCTSStep, hf, h.protocol, fragGetnext_none, hbig, Option.filter,
    FragFace.dequeue, hq, fragReset]; rfl⟩

theorem reached_packet {f : FragFace} (sent : List Sent) {ps : List (List UInt8)}
    (hf : f.frag = some fr) (h : fr.Idle mtu seq) (hq : f.outq = p :: ps) (hp : CcnxPacket p)
    (hmtu : 14 ≤ mtu) (hmtu' : mtu < 2 ^ 31) :
    ∃ f' fr' new, Reached faceCTSStep (f, sent) (f', sent ++ new) ∧ f'.outq = ps ∧
      f'.frag = some fr' ∧ fr'.Idle mtu (seq + fragCount (fragRoom mtu) p.length) ∧
      new.map Sent.piece = fragPieces (fragRoom mtu) seq p := by
  have hpos : 0 < fragCount (fragRoom mtu) p.length :=
    fragCount_pos (by unfold fragRoom; omega) hp.ne_nil
  obtain ⟨fr₀, h₀, hbusy⟩ := h.reset hp f.ifndx f.peer
  obtain ⟨fr₁, x, hx, hpiece, hsend⟩ := hbusy.getnext hp hmtu hmtu' hpos
  obtain ⟨f', fr', new, hr, hq', hf', hidle, hnew⟩ := reached_sending
    (f := { f with outq := ps, frag := some fr₁ }) (sent ++ [x]) rfl hsend hp hmtu hmtu' hpos
  refine ⟨f', fr', x :: new, .head (h.step sent hf hq h₀ hx) (by simpa using hr), hq', hf', hidle, ?_⟩
  rw [List.map_cons, hnew, hpiece, fragPieces, List.range_eq_range']
  obtain ⟨n, hn⟩ : ∃ n, fragCount (fragRoom mtu) p.length = n + 1 := ⟨_, (Nat.succ_pred_eq_of_pos hpos).symm⟩
  rw [hn, List.range'_succ, List.map_cons, Nat.add_sub_cancel, Nat.zero_add]

/-- The fragments of the packets of a queue. -/
def queuePieces (d : Nat) : Nat → List (List UInt8) → List (List (Piece Nat (List UInt8)))
  | _, [] => []
  | seq, p :: ps => fragPieces d seq p :: queuePieces d (seq + fragCount d p.length) ps

theorem reached_queue {f : FragFace} (sent : List Sent) (hf : f.frag = some fr)
    (h : fr.Idle mtu seq) (hp : ∀ p ∈ f.outq, CcnxPacket p) (hmtu : 14 ≤ mtu)
    (hmtu' : mtu < 2 ^ 31) :
    ∃ f' fr' new, Reached faceCTSStep (f, sent) (f', sent ++ new) ∧ f'.outq = [] ∧
      f'.frag = some fr' ∧ (∃ seq', fr'.Idle mtu seq') ∧
      new.map Sent.piece = (queuePieces (fragRoom mtu) seq f.outq).flatten := by
  induction hq : f.outq generalizing f fr seq sent with
  | nil => exact ⟨f, fr, [], by simpa using .refl, hq, hf, ⟨seq, h⟩, rfl⟩
  | cons p ps ih =>
    obtain ⟨f₁, fr₁, new₁, hr₁, hq₁, hf₁, h₁, hnew₁⟩ :=
      reached_packet sent hf h hq (hp p (by simp [hq])) hmtu hmtu'
    obtain ⟨f', fr', new, hr, hq', hf', h', hnew⟩ :=
      ih (sent ++ new₁) hf₁ h₁ (fun p' hp' => hp p' (by rw [hq, ← hq₁]; simp [hp'])) hq₁
    refine ⟨f', fr', new₁ ++ new, hr₁.trans (by simpa using hr), hq', hf', h', ?_⟩
    rw [List.map_append, hnew₁, hnew, queuePieces, List.flatten_cons]

/-- What a face sends for its queue. -/
theorem faceCTS_sends {f : FragFace} (hf : f.frag = some fr) (h : fr.Idle mtu seq)
    (hp : ∀ p ∈ f.outq, CcnxPacket p) (hmtu : 14 ≤ mtu) (hmtu' : mtu < 2 ^ 31) :
    ∃ calls f' sent, faceCTS calls f = .ok (f', sent) ∧
      sent.map Sent.piece = (queuePieces (fragRoom mtu) seq f.outq).flatten := by
  obtain ⟨f', fr', sent, hr, hq', hf', ⟨seq', h'⟩, hsent⟩ :=
    reached_queue [] hf h hp hmtu hmtu'
  obtain ⟨f'', hend⟩ := h'.done sent hf' hq'
  obtain ⟨calls, hcalls⟩ := exists_loop_eq_ok hr hend
  exact ⟨calls, f'', sent, hcalls, hsent⟩

/-- Without room for data the first fragment is sent again and again. -/
theorem Frag.Busy.getnext_empty (h : fr.Busy 13 seq p k) (hp : CcnxPacket p) :
    ∃ fr' x, fragGetnext fr = .ok (fr', some x) ∧ fr'.Busy 13 seq p (k + 1) := by
  have hroom : fragRoom 13 = 0 := rfl
  have hpos := List.length_pos_iff.mpr hp.ne_nil
  have hoffs := h.sendoffs
  rw [hroom, Nat.mul_zero] at hoffs
  have hseq : u32 (fr.sendseq + 1) % 2 ^ 14 = (seq + (k + 1)) % 2 ^ 14 := by
    have := h.sendseq
    unfold u32
    omega
  have heq := fragGetnext_eq h.protocol h.bigpkt h.outsuite (Int.le_of_eq h.mtu_eq.symm)
    (by rw [h.mtu_eq]; decide) (by omega) hp.length
  rw [h.mtu_eq, hoffs, hroom] at heq
  refine ⟨_, _, heq, h.protocol, rfl, if_neg ?_, h.outsuite, ?_, hseq⟩
  · simp only [Nat.zero_min, Nat.zero_add]
    omega
  · simp [hroom]

theorem faceCTS_stuck {f : FragFace} (hf : f.frag = some fr) (h : fr.Idle 13 seq)
    (hne : f.outq ≠ []) (hp : ∀ p ∈ f.outq, CcnxPacket p) (calls : Nat)
    (r : FragFace × List Sent) : faceCTS calls f ≠ .ok r := by
  intro hr
  obtain ⟨p, ps, hq⟩ := List.exists_cons_of_ne_nil hne
  have hp := hp p (by simp [hq])
  obtain ⟨fr₀, h₀, hbusy⟩ := h.reset hp f.ifndx f.peer
  obtain ⟨fr₁, x, hx, h₁⟩ := hbusy.getnext_empty hp
  have hfirst := h.step [] hf hq h₀ hx
  have hgo : ∀ s : FragFace × List Sent, (∃ fr k, s.1.frag = some fr ∧ fr.Busy 13 seq p k) →
      ∃ s', Again faceCTSStep s s' ∧ ∃ fr k, s'.1.frag = some fr ∧ fr.Busy 13 seq p k := by
    rintro ⟨g, sent⟩ ⟨fr, k, hg, hb⟩
    obtain ⟨fr', x, hx, hb'⟩ := hb.getnext_empty hp
    refine ⟨({ g with frag := some fr' }, sent ++ [x]), ?_, fr', k + 1, rfl, hb'⟩
    simp [Again, faceCTSStep, show g.frag = some fr from hg, hb.protocol, hx, Option.filter]
  unfold Again at hgo hfirst
  cases calls with
  | zero => cases hr
  | succ calls =>
    rcases loop_succ_eq_ok.mp hr with ⟨s', hs', hr⟩ | hr
    · obtain rfl : ({ f with outq := ps, frag := some fr₁ }, [] ++ [x]) = s' := by
        unfold Again at hs'
        rw [hfirst] at hs'
        exact Sum.inl.inj (Except.ok.inj hs')
      refine loop_inv (I := fun s => ∃ fr k, s.1.frag = some fr ∧ fr.Busy 13 seq p k)
        (Q := fun _ => False) hr ⟨fr₁, _, rfl, h₁⟩ ?_ ?_
      · intro s s' hs hs'
        obtain ⟨t, ht, htb⟩ := hgo s hs
        unfold Again at hs'
        rw [ht] at hs'
        cases hs'
        exact htb
      · intro s b hs hb
        obtain ⟨t, ht, -⟩ := hgo s hs
        rw [ht] at hb
        cases hb
    · rw [hfirst] at hr
      cases hr

end Sending

/-! ## Transparency -/

/-- A sender with a queue of CCNx packets, and a peer that expects the sender's next number. -/
structure Linked (f g : FragFace) (fr e : Frag) : Prop where
  sender : f.frag = some fr
  idle : fr.Idle fr.mtu fr.sendseq
  mtu_ge : 13 ≤ fr.mtu
  mtu_lt : fr.mtu < 2 ^ 31
  queue : ∀ p ∈ f.outq, CcnxPacket p
  receiver : g.frag = some e
  protocol : e.protocol = .beginEnd2015
  recvseq : e.recvseq = fr.sendseq
  defrag : e.defrag = none

/-- The callback of the peer gets the packets of the queue, in order. -/
def Transparent (mtu : Int) (f g : FragFace) : Prop :=
  ∃ calls f' sent, faceCTS calls f = .ok (f', sent) ∧
    (fragReceiver mtu).out (some g) (sent.map fun x => ccntlvFragment x.buf) =
      f.outq.map fun p => { buf := p, len := p.length }

/-- No packet has a fragment with the number 0, the first ones apart. -/
def Unbroken (d : Nat) : Nat → List (List UInt8) → Prop
  | _, [] => True
  | seq, p :: ps => ¬ Wraps seq (fragCount d p.length) ∧ Unbroken d (seq + fragCount d p.length) ps

section Transparent

variable {d : Nat}

theorem isChain_queuePieces (seq : Nat) (ps : List (List UInt8)) :
    (∀ l ∈ queuePieces d seq ps, l.IsChain (Follows nextSeq)) ↔ Unbroken d seq ps := by
  induction ps generalizing seq with
  | nil => simp [queuePieces, Unbroken]
  | cons p ps ih => simp only [queuePieces, Unbroken, List.forall_mem_cons, isChain_fragPieces, ih]

theorem shaped_queuePieces (hd : 0 < d) (seq : Nat) {ps : List (List UInt8)}
    (hp : ∀ p ∈ ps, CcnxPacket p) : ∀ l ∈ queuePieces d seq ps, Shaped l := by
  induction ps generalizing seq with
  | nil => simp [queuePieces]
  | cons p ps ih =>
    rw [List.forall_mem_cons] at hp
    rw [queuePieces, List.forall_mem_cons]
    exact ⟨shaped_fragPieces hd hp.1.ne_nil hp.1.length, ih _ hp.2⟩

theorem deliveryOf_queuePieces (hd : 0 < d) (seq : Nat) {ps : List (List UInt8)}
    (hp : ∀ p ∈ ps, CcnxPacket p) :
    (queuePieces d seq ps).map deliveryOf = ps.map fun p => { buf := p, len := p.length } := by
  induction ps generalizing seq with
  | nil => rfl
  | cons p ps ih =>
    rw [List.forall_mem_cons] at hp
    rw [queuePieces, List.map_cons, List.map_cons, deliveryOf_fragPieces hd hp.1.length, ih _ hp.2]

/-- The series with successive numbers are all of them exactly when none is broken. -/
theorem filter_queuePieces (hd : 0 < d) (seq : Nat) {ps : List (List UInt8)}
    (hp : ∀ p ∈ ps, CcnxPacket p) :
    (((queuePieces d seq ps).filter fun l => l.IsChain (Follows nextSeq)).map deliveryOf =
      ps.map fun p => { buf := p, len := p.length }) ↔ Unbroken d seq ps := by
  rw [← deliveryOf_queuePieces hd seq hp, ← isChain_queuePieces]
  constructor
  · intro h l hl
    have hlen := congrArg List.length h
    rw [List.length_map, List.length_map, List.length_filter_eq_length_iff] at hlen
    simpa using hlen l hl
  · intro h
    rw [List.filter_eq_self.mpr (by simpa using h)]

variable {mtu : Int} {f g : FragFace} {fr e : Frag}

/-- What the peer delivers for the fragments of the queue. -/
theorem Linked.delivered (mtu : Int) (h : Linked f g fr e) (hmtu : 14 ≤ fr.mtu) {sent : List Sent}
    (hsent : sent.map Sent.piece = (queuePieces (fragRoom fr.mtu) fr.sendseq f.outq).flatten) :
    (fragReceiver mtu).out (some g) (sent.map fun x => ccntlvFragment x.buf) =
      ((queuePieces (fragRoom fr.mtu) fr.sendseq f.outq).filter fun l =>
        l.IsChain (Follows nextSeq)).map deliveryOf := by
  have hd : 0 < fragRoom fr.mtu := by unfold fragRoom; omega
  have he : ∀ e', g.frag = some e' → e' = e := by
    intro e' he'
    rw [h.receiver] at he'
    exact (Option.some.inj he').symm
  obtain ⟨n, hout⟩ := fragReceiver_out mtu (f := g)
    (fun e' he' => he e' he' ▸ h.defrag) (fun e' he' => he e' he' ▸ h.protocol)
    (sent.map fun x => ccntlvFragment x.buf)
  rw [hout, List.map_map]
  show ((assemble nextSeq).out _ (sent.map Sent.piece)).map deliveryOf = _
  rw [hsent, out_flatten (shaped_queuePieces hd _ h.queue)]

/-- The packets arrive exactly when each fragment has room for data and no packet has a fragment,
other than its first one, whose number is 0 on the wire. -/
theorem fragmentation_transparent_iff (h : Linked f g fr e) :
    Transparent mtu f g ↔
      f.outq = [] ∨ 14 ≤ fr.mtu ∧ Unbroken (fragRoom fr.mtu) fr.sendseq f.outq := by
  by_cases hmtu : 14 ≤ fr.mtu
  · have hd : 0 < fragRoom fr.mtu := by unfold fragRoom; omega
    obtain ⟨calls, f', sent, hcts, hsent⟩ := faceCTS_sends h.sender h.idle h.queue hmtu h.mtu_lt
    have hout := h.delivered mtu hmtu hsent
    have hiff : Transparent mtu f g ↔ Unbroken (fragRoom fr.mtu) fr.sendseq f.outq := by
      rw [← filter_queuePieces hd fr.sendseq h.queue, ← hout]
      constructor
      · rintro ⟨calls', f'', sent', hcts', hdel⟩
        obtain ⟨rfl, rfl⟩ := Prod.mk.inj (loop_unique hcts hcts')
        exact hdel
      · exact fun hdel => ⟨calls, f', sent, hcts, hdel⟩
    rw [hiff]
    refine ⟨fun hu => .inr ⟨hmtu, hu⟩, ?_⟩
    rintro (hq | ⟨-, hu⟩)
    · rw [hq]
      trivial
    · exact hu
  · have h13 : fr.mtu = 13 := by
      have := h.mtu_ge
      omega
    have hidle := h.idle
    rw [h13] at hidle
    constructor
    · rintro ⟨calls, f', sent, hcts, -⟩
      refine .inl ?_
      by_contra hne
      exact faceCTS_stuck h.sender hidle hne h.queue calls _ hcts
    · rintro (hq | ⟨hge, -⟩)
      · obtain ⟨f', hend⟩ := h.idle.done [] h.sender hq
        exact ⟨1, f', [], loop_succ_eq_ok.mpr (.inr hend), by simp [hq]⟩
      · exact absurd hge hmtu

end Transparent

/-- A CCNx packet of 20 bytes. -/
def packetOfTwenty : List UInt8 :=
  [1, 0, 0, 20, 8, 0, 0, 9, 0, 0, 1, 0, 7, 0, 0, 0, 3, 0, 1, 0]

theorem ccnxPacket_packetOfTwenty : CcnxPacket packetOfTwenty := ⟨by decide, by decide⟩

/-- A face with fragments of 15 bytes, the first one with the number `seq`. -/
def senderAt (seq : Nat) : FragFace where
  faceid := 1
  ifndx := 0
  outq := [packetOfTwenty]
  frag := some { protocol := .beginEnd2015, mtu := 28, sendseq := seq }

def receiverAt (seq : Nat) : FragFace where
  faceid := 1
  ifndx := 0
  frag := some { protocol := .beginEnd2015, mtu := 28, recvseq := seq }

theorem linkedAt (seq : Nat) : Linked (senderAt seq) (receiverAt seq)
    { protocol := .beginEnd2015, mtu := 28, sendseq := seq }
    { protocol := .beginEnd2015, mtu := 28, recvseq := seq } where
  sender := rfl
  idle := ⟨rfl, rfl, rfl, rfl⟩
  mtu_ge := by simp only; omega
  mtu_lt := by simp only; omega
  queue := by
    intro p hp
    rw [List.mem_singleton.mp hp]
    exact ccnxPacket_packetOfTwenty
  receiver := rfl
  protocol := rfl
  recvseq := rfl
  defrag := rfl

/-- The packet arrives in two fragments with the numbers 0 and 1. -/
theorem fragmentation_transparent_at_zero : Transparent 28 (senderAt 0) (receiverAt 0) := by
  refine (fragmentation_transparent_iff (linkedAt 0)).mpr (.inr ⟨by decide, ?_, trivial⟩)
  decide

/-- With the numbers `2 ^ 14 - 1` and `2 ^ 14` it does not arrive: the second one is 0 on the wire. -/
theorem fragmentation_loses_packet :
    ¬ ∀ (mtu : Int) (f g : FragFace) (fr e : Frag), Linked f g fr e → Transparent mtu f g := by
  intro h
  obtain ⟨calls, f', sent, hcts, hdel⟩ := h 28 _ _ _ _ (linkedAt 16383)
  have hrun : ∃ r, faceCTS 4 (senderAt 16383) = .ok r ∧
      (fragReceiver 28).out (some (receiverAt 16383)) (r.2.map fun x => ccntlvFragment x.buf) = [] :=
    exists_ok (by decide +kernel)
  obtain ⟨r, hr, hnone⟩ := hrun
  obtain rfl := loop_unique hr hcts
  rw [hnone] at hdel
  cases hdel

end Ccnl
