import CcnLite.Fwd.Answers
import CcnLite.Fwd.HopLimit
import CcnLite.Fwd.Progress
import CcnLite.Lib.Wire
import CcnLite.Pkt.CcnbFrame

/-!
# A network of relays

Relays on a wire: a datagram that one of them has sent may get to any of them, from any address, at any
time, more than once or never, and others send datagrams too.

A relay makes no packets, a reply of management apart: what it sends and what it stores it has got.
`Relay.Passes` says so for good packets, whatever these are. A frame is read again by the next relay,
which does not know where the frame comes from. So a frame with a good packet has to be one for the
next relay as well (`Honest`): it is one packet and no more, and a Data is one of those that were
published.
-/

namespace Ccnl

open CRun

/-! ## Packets that are passed on -/

/-- The relay has good packets only, those in its store being good Data, and has sent no other. -/
structure Relay.Passes (Good Data : List UInt8 → Prop) (σ : Relay) : Prop where
  pit : ∀ i ∈ σ.pit, Good i.pkt.buf
  contents : ∀ c ∈ σ.contents, Data c.pkt.buf
  out : ∀ dst buf, .send dst buf ∈ σ.out → Good buf

/-- What management sends and stores is good. -/
def MgmtOp.Good (Good Data : List UInt8 → Prop) : MgmtOp → Prop
  | contentAdd _ pkt => Data pkt.buf
  | interestNew _ pkt => Good pkt.buf
  | enqueue buf => Good buf
  | _ => True

/-- The commands of management send and store good packets. -/
def Env.Good (Good Data : List UInt8 → Prop) (E : Env) : Prop :=
  ∀ σ pkt f, ∀ op ∈ E.mgmt σ pkt f, op.Good Good Data

section Passes

variable {Good Data : List UInt8 → Prop} {E : Env} {now : Nat} {σ τ : Relay} {f : FaceId} {pkt : Pkt}

/-- A walk that only takes from the tables. -/
theorem Relay.Passes.shrinks (h : σ.Passes Good Data) (hs : Shrinks σ τ)
    (hout : ∀ dst buf, .send dst buf ∈ τ.out → Good buf) : τ.Passes Good Data where
  pit j hj := by
    obtain ⟨i, hi, hle⟩ := thin_mem hs.pit j hj
    exact hle.pkt ▸ h.pit i hi
  contents d hd := by
    obtain ⟨c, hc, hle⟩ := thin_mem hs.contents d hd
    exact hle.pkt ▸ h.contents c hc
  out := hout

theorem Relay.Passes.tables (h : σ.Passes Good Data) (ht : τ.tables = σ.tables)
    (hout : τ.out = σ.out) : τ.Passes Good Data :=
  h.shrinks (Shrinks.of_tables ht) (hout ▸ h.out)

/-- One more buffer is sent, to any number of faces. -/
theorem Relay.Passes.sends (h : σ.Passes Good Data) {os : List Out} {buf : List UInt8} (hb : Good buf)
    (hos : ∀ o ∈ os, ∀ dst b, o = .send dst b → b = buf) :
    ∀ dst b, .send dst b ∈ σ.out ++ os → Good b := by
  intro dst b hmem
  rcases List.mem_append.mp hmem with hmem | hmem
  · exact h.out dst b hmem
  · exact hos _ hmem dst b rfl ▸ hb

theorem faceEnqueue_passes {buf : List UInt8} (h : σ.Passes Good Data) (hb : Good buf)
    (he : faceEnqueue σ f buf = .ok τ) : τ.Passes Good Data := by
  rw [faceEnqueue_eq he]
  refine ⟨h.pit, h.contents, h.sends hb fun o ho dst b heq => ?_⟩
  rw [List.mem_singleton.mp ho] at heq
  cases heq
  rfl

theorem deliver_passes {x : Face} (h : σ.Passes Good Data) (hb : Good pkt.buf)
    (hd : deliver σ x pkt = .ok τ) : τ.Passes Good Data := by
  unfold deliver at hd
  split at hd
  · exact faceEnqueue_passes h hb hd
  · cases hd
    exact h

/-- The copies of an Interest that go out. -/
theorem mem_propagated {i : Interest} {dst : FaceId} {b : List UInt8}
    (h : .send dst b ∈ propagated σ i) : b = i.pkt.buf := by
  obtain ⟨fwd, -, h⟩ := List.mem_flatMap.mp h
  rcases List.mem_append.mp h with h | h
  · obtain ⟨t, -, ht⟩ := Option.map_eq_some_iff.mp (Option.mem_toList.mp h)
    cases ht
  · obtain ⟨g, -, hg⟩ := Option.map_eq_some_iff.mp (Option.mem_toList.mp h)
    cases hg
    rfl

theorem interestPropagate_passes {i : Interest} (h : σ.Passes Good Data) (hi : Good i.pkt.buf)
    (hp : interestPropagate σ i = .ok τ) : τ.Passes Good Data := by
  rw [interestPropagate_eq hp]
  exact ⟨h.pit, h.contents, h.sends hi fun o ho dst b heq => mem_propagated (heq ▸ ho)⟩

/-- Serving the PIT. -/
theorem servePending_passes {digest : List UInt8 → Digest} {c : Content} {s : Serving}
    (h : σ.Passes Good Data) (hc : Good c.pkt.buf) (hs : servePending digest σ c = .ok s) :
    s.relay.Passes Good Data := by
  obtain ⟨sent, -, -, hout⟩ := servePending_visits hs
  refine h.shrinks (servePending_shrinks hs).1 ?_
  rw [hout]
  refine h.sends hc fun o ho dst b heq => ?_
  obtain ⟨g, -, hg⟩ := List.mem_map.mp ho
  rw [heq] at hg
  cases hg
  rfl

theorem contentAdd2cache_passes {c : Content} (h : σ.Passes Good Data) (hc : Data c.pkt.buf)
    (ha : contentAdd2cache σ c = .ok τ) : τ.Passes Good Data := by
  obtain ⟨known, -, ha⟩ := (bind_eq_ok _ _ _).mp ha
  have hevict : (evict σ).Passes Good Data :=
    h.shrinks (evict_shrinks σ) (evict_out σ ▸ h.out)
  split at ha
  · cases ha
    exact h
  · simp only at ha
    split at ha <;> cases ha
    · refine ⟨hevict.pit, fun d hd => ?_, hevict.out⟩
      rcases List.mem_cons.mp hd with rfl | hd
      · exact hc
      · exact hevict.contents d hd
    · exact hevict

/-- Serving the PIT, and then the store. -/
theorem serve_add_passes (hG : ∀ b, Data b → Good b) {digest : List UInt8 → Digest} {c : Content}
    {s : Serving} (h : σ.Passes Good Data) (hc : Data c.pkt.buf)
    (hs : servePending digest σ c = .ok s) (ha : contentAdd2cache s.relay s.c = .ok τ) :
    τ.Passes Good Data := by
  obtain ⟨-, -, hpkt⟩ := servePending_shrinks hs
  exact contentAdd2cache_passes (servePending_passes h (hG _ hc) hs) (hpkt ▸ hc) ha

theorem mgmtOp_passes (hG : ∀ b, Data b → Good b) {op : MgmtOp} (hop : op.Good Good Data)
    (h : σ.Passes Good Data) (ho : op.run E now f σ = .ok τ) : τ.Passes Good Data := by
  cases op <;> simp only [MgmtOp.run] at ho
  case faceNew sa static reflect =>
    have ht := @getFaceOrCreate_tables σ now (-1) (some sa)
    have hout := getFaceOrCreate_sends now σ (-1) (some sa)
    split at ho <;> rename_i hg <;> rw [hg] at ht hout <;> cases ho <;> exact h.tables ht hout
  case faceRemove g =>
    cases ho
    exact h.shrinks (faceRemove_shrinks σ g) h.out
  case fibAdd p g =>
    split at ho <;> cases ho
    · refine h.tables (fibAddEntry_tables p g) ?_
      unfold fibAddEntry
      split <;> rfl
    · exact h
  case fibRem p g =>
    cases ho
    refine h.tables (fibRemEntry_tables _ _) ?_
    unfold fibRemEntry
    split <;> rfl
  case contentAdd p pkt =>
    obtain ⟨s, hs, ha⟩ := (bind_eq_ok _ _ _).mp ho
    have hc : Data (contentNew now { pkt with pfx := some p }).pkt.buf := hop
    exact serve_add_passes hG h hc hs ha
  case contentRemove k =>
    split at ho <;> cases ho
    · exact h.shrinks (contentRemove_shrinks ‹_›) h.out
    · exact h
  case interestNew p pkt =>
    cases ho
    cases hn : interestNew now σ (some f) { pkt with pfx := some p } with
    | none => simpa [hn] using h
    | some r =>
      obtain ⟨-, hi, hr⟩ := interestNew_some hn
      simp only [Option.map_some, Option.getD_some, hr]
      refine ⟨fun j hj => ?_, h.contents, h.out⟩
      rcases List.mem_cons.mp hj with rfl | hj
      · rw [hi]
        exact hop
      · exact h.pit j hj
  case enqueue buf => exact faceEnqueue_passes h hop ho

theorem pitInsert_passes {r : Option Relay} (h : σ.Passes Good Data) (hb : Good pkt.buf)
    (hr : pitInsert now σ f pkt = .ok r) : ∀ τ, r = some τ → τ.Passes Good Data := by
  rintro τ rfl
  have hjoin : ∀ i : Interest, (interestAppendPending now i f).pkt = i.pkt := fun i => by
    unfold interestAppendPending
    split <;> rfl
  cases pitInsert_inserted hr with
  | pending =>
    refine ⟨fun i hi => ?_, h.contents, h.out⟩
    obtain ⟨j, hj, rfl | rfl⟩ := mem_modify hi
    · exact h.pit _ hj
    · rw [hjoin]
      exact h.pit j hj
  | full => exact h
  | new _ _ hn hp =>
    obtain ⟨-, rfl, rfl⟩ := interestNew_some hn
    have hnew : ∀ i : Interest, i.pkt = pkt → Good (interestAppendPending now i f).pkt.buf :=
      fun i hi => by rwa [hjoin, hi]
    refine interestPropagate_passes ?_ (hnew _ rfl) hp
    refine ⟨fun j hj => ?_, h.contents, h.out⟩
    rcases List.mem_cons.mp hj with rfl | hj
    · exact hnew _ rfl
    · exact h.pit j hj

theorem handleInterest_passes (hG : ∀ b, Data b → Good b) (hE : E.Good Good Data)
    {cMatch : Pkt → Content → Run Bool} {b : Bool} (h : σ.Passes Good Data) (hb : Good pkt.buf)
    (hi : handleInterest E now cMatch σ f pkt = .ok (τ, b)) : τ.Passes Good Data := by
  have hnonce : ∀ σ₁, nonceIsDup σ pkt = some σ₁ → σ₁.Passes Good Data := fun σ₁ hn => by
    obtain ⟨ns, rfl⟩ := nonceIsDup_eq hn
    exact ⟨h.pit, h.contents, h.out⟩
  cases handleInterest_handled hi with
  | dup => exact h
  | mgmt _ hn _ h₂ =>
    refine foldlM_inv_mem (I := Relay.Passes Good Data) (fun σ op hmem τ hσ ho => ?_) (hnonce _ hn) h₂
    exact mgmtOp_passes hG (hE _ _ _ op hmem) hσ ho
  | hit _ hn _ hfind h₂ =>
    exact deliver_passes (hnonce _ hn) (hG _ ((hnonce _ hn).contents _ (csFind_some hfind).1)) h₂
  | drop _ hn => exact hnonce _ hn
  | insert _ hn _ _ hr => exact pitInsert_passes (hnonce _ hn) hb hr _ rfl

theorem handleContent_passes (hG : ∀ b, Data b → Good b) (h : σ.Passes Good Data)
    (hb : Data pkt.buf) (hc : handleContent E now σ pkt = .ok τ) : τ.Passes Good Data := by
  cases handleContent_handled hc with
  | dup => exact h
  | unsolicited _ hs | served _ hs => exact servePending_passes h (hG _ hb) hs
  | cached _ hs _ ha => exact serve_add_passes hG h hb hs ha

theorem doAgeing_passes (h : σ.Passes Good Data) (ha : doAgeing now σ = .ok τ) :
    τ.Passes Good Data := by
  refine h.shrinks (doAgeing_shrinks ha) fun dst b hmem => ?_
  rw [doAgeing_eq ha, faceRemoves_out] at hmem
  rcases List.mem_append.mp hmem with hmem | hmem
  · exact h.out dst b hmem
  · obtain ⟨i, hi, hmem⟩ := List.mem_flatMap.mp hmem
    exact mem_propagated hmem ▸ h.pit i (List.mem_filter.mp hi).1

end Passes

/-! ## Frames of one packet -/

/-- The bytes are a Data, by the way they start. -/
def isData : List UInt8 → Bool
  | 0x06 :: _ | 0x01 :: 0x01 :: _ | 0x04 :: 0x82 :: _ => true
  | _ => false

/-- The bytes are one packet and no more. -/
inductive Whole : List UInt8 → Prop
  /-- The parser takes the whole frame. -/
  | ndntlv {b : UInt8} {bs : List UInt8} (hb : b = 0x05 ∨ b = 0x06) : Whole (b :: bs)
  /-- The fixed header has the length of the packet. -/
  | ccntlv {t hi lo : UInt8} {bs : List UInt8} (ht : t ≤ 3) (hlen : beNat [hi, lo] = bs.length + 4) :
    Whole (ccnxTlvV1 :: t :: hi :: lo :: bs)
  /-- The end marker is the last byte. -/
  | ccnb {b₀ b₁ : UInt8} {bs : List UInt8} (hb : (b₀, b₁) = (0x01, 0xd2) ∨ (b₀, b₁) = (0x04, 0x82))
    {pkt : Pkt} {c : Cursor} (hp : ccnbBytes2pkt (b₀ :: b₁ :: bs) 0 ⟨2, bs.length⟩ = .ok (pkt, c))
    (hc : c.len = 0) : Whole (b₀ :: b₁ :: bs)

/-- One packet, and if it is a Data then one that was published. -/
structure Honest (Published : List UInt8 → Prop) (f : List UInt8) : Prop where
  whole : Whole f
  data : isData f = true → Published f

/-- A Data that was published. -/
def HonestData (Published : List UInt8 → Prop) (f : List UInt8) : Prop :=
  Honest Published f ∧ isData f = true

/-! ## What the relay makes of such a frame -/

section Frame

variable {Published : List UInt8 → Prop} {E : Env} {now n : Nat} {σ τ : Relay} {f : FaceId}
  {bytes slack : List UInt8} {b b₁ : UInt8}

/-- The first byte is no code switch. -/
theorem switches_first (hb : b ≠ 0x80) (s : Option Suite) (mem : List UInt8) (n : Nat) :
    switches (b :: mem) s ⟨0, n⟩ = .ok (s, ⟨0, n⟩) := by
  have hdehead : switchDehead (b :: mem) ⟨0, n⟩ = .ok none := by
    unfold switchDehead
    split
    · rfl
    · simp [rd, hb]
  unfold switches loop switchStep
  rw [hdehead]
  rfl

theorem nextSuite_first (hb : b ≠ 0x80) {mem : List UInt8} {s : Option Suite}
    (hs : pkt2suite (b :: mem) ⟨0, n⟩ = .ok s) : nextSuite (b :: mem) none ⟨0, n⟩ = .ok (s, ⟨0, n⟩) := by
  unfold nextSuite
  rw [switches_first hb, ok_bind]
  simp only [hs]
  rfl

theorem nextSuite_ndntlv (hb : b = 0x05 ∨ b = 0x06) (mem : List UInt8) (hn : n ≠ 0) :
    nextSuite (b :: mem) none ⟨0, n⟩ = .ok (some .ndntlv, ⟨0, n⟩) := by
  have hne : b ≠ 0x80 := by rcases hb with rfl | rfl <;> decide
  refine nextSuite_first hne ?_
  unfold pkt2suite
  rw [if_neg hn, switches_first hne, ok_bind]
  rcases hb with rfl | rfl <;> rfl

theorem nextSuite_ccntlv (ht : b₁ ≤ 3) (mem : List UInt8) (hn : 1 < n) :
    nextSuite (ccnxTlvV1 :: b₁ :: mem) none ⟨0, n⟩ = .ok (some .ccntlv, ⟨0, n⟩) := by
  have hne : ccnxTlvV1 ≠ 0x80 := by decide
  refine nextSuite_first hne ?_
  unfold pkt2suite
  rw [if_neg (by simp only; omega), switches_first hne, ok_bind]
  simp [rd, ccnxTlvV1, hn, ht]

theorem nextSuite_ccnb_first (hb : (b, b₁) = (0x01, 0xd2) ∨ (b, b₁) = (0x04, 0x82)) (mem : List UInt8)
    (hn : 1 < n) : nextSuite (b :: b₁ :: mem) none ⟨0, n⟩ = .ok (some .ccnb, ⟨0, n⟩) := by
  have hne : b ≠ 0x80 := by rcases hb with hb | hb <;> cases hb <;> decide
  refine nextSuite_first hne ?_
  unfold pkt2suite
  rw [if_neg (by simp only; omega), switches_first hne, ok_bind]
  rcases hb with hb | hb <;> cases hb <;> simp [rd, ccnxTlvV1, hn]

/-- What the handlers need, and what they keep. -/
abbrev Relay.Carries (Published : List UInt8 → Prop) (σ : Relay) : Prop :=
  σ.Passes (Honest Published) (HonestData Published)

/-- The NDN forwarder takes the whole frame for one packet, of the type that is its first byte. -/
theorem ndntlvForwarder_carries {r : Option Cursor}
    (hE : E.Good (Honest Published) (HonestData Published)) (hσ : σ.Carries Published)
    (hf : Honest Published (b :: bytes)) (hb : b = 0x05 ∨ b = 0x06)
    (h : ndntlvForwarder E now f σ (b :: bytes ++ slack) ⟨0, (b :: bytes).length⟩ = .ok (τ, r)) :
    τ.Carries Published ∧ ∀ c, r = some c → c.len = 0 := by
  obtain ⟨x, hx, h⟩ := (bind_eq_ok _ _ _).mp h
  match x with
  | none =>
    cases h
    exact ⟨hσ, fun c hc => by cases hc⟩
  | some (pkt, c₁) =>
    obtain ⟨⟨σ₁, ok⟩, h₁, h⟩ := (bind_eq_ok _ _ _).mp h
    cases h
    obtain ⟨typ, len, c₂, pkt', hhead, -, hp, rfl⟩ := ndntlvParse_eq_ok.mp (attempt_eq_some.mp hx)
    obtain ⟨-, s, -, hlen, -⟩ := ndntlvBytes2pkt_eq_ok.mp hp
    obtain ⟨⟨m, hnum, -⟩, hlim⟩ := dehead_eq_ok.mp hhead
    obtain ⟨-, hlim₁, hbuf, -⟩ := ndntlvBytes2pkt_inside hp (Nat.zero_le _)
    have htyp : typ = b.toNat := by
      rcases hb with rfl | rfl <;> simp [numAt, numSize] at hnum <;> exact hnum.1.symm
    have hpos : c₁.pos = (b :: bytes).length := by
      simp only [Nat.zero_add] at hlim
      omega
    have hwhole : pkt'.buf = b :: bytes := by
      rw [hbuf, hpos, List.drop_zero, Nat.sub_zero, List.take_left]
    refine ⟨?_, fun c hc => ?_⟩
    · unfold ndntlvHandle at h₁
      split at h₁
      · exact handleInterest_passes (fun _ => And.left) hE hσ (hwhole.symm ▸ hf) h₁
      · split at h₁
        · rename_i hdata
          obtain ⟨σ₂, h₂, h₁⟩ := (bind_eq_ok _ _ _).mp h₁
          cases h₁
          have hisdata : isData (b :: bytes) = true := by
            rcases hb with rfl | rfl
            · rw [htyp] at hdata
              cases hdata
            · rfl
          exact handleContent_passes (fun _ => And.left) hσ (hwhole.symm ▸ ⟨hf, hisdata⟩) h₂
        · cases h₁
          exact hσ
    · cases ok <;> cases hc
      exact hlen

/-- The header of a packet is looked at, and the hop limit written to. -/
theorem ccntlvHeader_writes {mem mem' : List UInt8} {c c' : Cursor} {x : CcntlvHeader}
    (h : ccntlvHeader mem c = .ok x) :
    (x = .drop mem' c' → c'.len = c.len - beNat ((mem.drop (c.pos + 2)).take 2)) ∧
      ∀ t, x = .pass t mem' c' → t ≠ ccnxPtInterest → t ≠ ccnxPtNack → mem' = mem := by
  unfold ccntlvHeader at h
  split at h
  · simp at h
  obtain ⟨version, -, h⟩ := (bind_eq_ok _ _ _).mp h
  split at h
  · simp at h
  obtain ⟨hp, hbytes, h⟩ := (bind_eq_ok _ _ _).mp h
  obtain ⟨-, rfl⟩ := rdBytes_eq_ok.mp hbytes
  have hpkt : (((mem.drop c.pos).take 9).drop 2).take 2 = (mem.drop (c.pos + 2)).take 2 := by
    rw [List.drop_take, List.take_take, List.drop_drop]
    rfl
  simp only [hpkt] at h
  split at h
  · simp at h
  split at h
  · simp at h
  rename_i hhdr hpay
  split at h
  · rename_i ht
    split at h <;> cases h
    · refine ⟨fun hx => ?_, fun t hx => (by cases hx)⟩
      cases hx
      simp only
      omega
    · refine ⟨fun hx => (by cases hx), fun t hx hi hn => ?_⟩
      cases hx
      exact absurd ht (not_or.mpr ⟨hi, hn⟩)
  · cases h
    refine ⟨fun hx => (by cases hx), fun t hx _ _ => ?_⟩
    cases hx
    rfl

/-- The CCNx forwarder takes the whole frame for one packet. What it writes to the hop limit of an
Interest leaves a packet that is whole. -/
theorem ccntlvForwarder_carries {t hi lo : UInt8} {mem' : List UInt8} {r : Option Cursor}
    (hE : E.Good (Honest Published) (HonestData Published)) (hσ : σ.Carries Published)
    (hf : Honest Published (ccnxTlvV1 :: t :: hi :: lo :: bytes)) (ht : t ≤ 3)
    (hlen : beNat [hi, lo] = bytes.length + 4)
    (h : ccntlvForwarder E now f σ (ccnxTlvV1 :: t :: hi :: lo :: bytes ++ slack)
      ⟨0, bytes.length + 4⟩ = .ok (τ, mem', r)) :
    τ.Carries Published ∧ ∀ c, r = some c → c.len = 0 := by
  obtain ⟨x, hx, h⟩ := (bind_eq_ok _ _ _).mp h
  match x with
  | none =>
    cases h
    exact ⟨hσ, fun c hc => by cases hc⟩
  | some (.drop mem₁ c₁) =>
    cases h
    refine ⟨hσ, fun c hc => ?_⟩
    cases hc
    have hrest := (ccntlvHeader_writes (attempt_eq_some.mp hx)).1 rfl
    rw [hrest]
    show bytes.length + 4 - beNat [hi, lo] = 0
    rw [hlen, Nat.sub_self]
  | some (.pass pkttype mem₁ c₁) =>
    have hhead := attempt_eq_some.mp hx
    obtain ⟨hnine, -, htype, hhop⟩ := ccntlvHeader_limit hhead
    obtain ⟨-, hle, hend⟩ := ccntlvHeader_pass hhead
    have htyp : pkttype = t := by simpa using htype.symm
    subst htyp
    obtain ⟨y, hy, h⟩ := (bind_eq_ok _ _ _).mp h
    match y with
    | none =>
      cases h
      exact ⟨hσ, fun c hc => by cases hc⟩
    | some (pkt, c₂) =>
      obtain ⟨⟨σ₁, ok⟩, h₁, h⟩ := (bind_eq_ok _ _ _).mp h
      cases h
      have hparse := attempt_eq_some.mp hy
      have hzero := ccntlvBytes2pkt_len hparse
      obtain ⟨-, hlim, hbuf, -⟩ := ccntlvBytes2pkt_inside hparse hle
      have hpos : c₂.pos = bytes.length + 4 := by
        simp only [Nat.zero_add] at hend
        omega
      rw [hpos, List.drop_zero, Nat.sub_zero] at hbuf
      have hsame := (ccntlvHeader_writes hhead).2 _ rfl
      refine ⟨?_, fun c hc => ?_⟩
      · unfold ccntlvHandle at h₁
        split at h₁
        · rename_i hint
          obtain ⟨v, -, -, rfl⟩ := hhop (.inl hint.1)
          obtain _ | ⟨b, bs⟩ := bytes
          · simp at hnine
          have hcopy : pkt.buf = ccnxTlvV1 :: pkttype :: hi :: lo :: (v - 1) :: bs := by
            rw [hbuf]
            simp
          refine handleInterest_passes (fun _ => And.left) hE hσ ?_ h₁
          show Honest Published pkt.buf
          rw [hcopy]
          refine ⟨.ccntlv ht (by simpa using hlen), fun hdata => ?_⟩
          rw [hint.1] at hdata
          cases hdata
        · split at h₁
          · rename_i hdata
            obtain ⟨σ₂, h₂, h₁⟩ := (bind_eq_ok _ _ _).mp h₁
            cases h₁
            have hmem := hsame (by rw [hdata.1]; decide) (by rw [hdata.1]; decide)
            have hcopy : pkt.buf = ccnxTlvV1 :: pkttype :: hi :: lo :: bytes := by
              rw [hbuf, hmem]
              exact @List.take_left _ (ccnxTlvV1 :: pkttype :: hi :: lo :: bytes) slack
            refine handleContent_passes (fun _ => And.left) hσ ?_ h₂
            show HonestData Published pkt.buf
            rw [hcopy]
            refine ⟨hf, ?_⟩
            rw [hdata.1]
            rfl
          · cases h₁
            exact hσ
      · cases ok <;> cases hc
        exact hzero

/-- The header of a CCNB packet. -/
theorem ccnbDehead_packet (hb : (b, b₁) = (0x01, 0xd2) ∨ (b, b₁) = (0x04, 0x82)) (mem : List UInt8)
    (n : Nat) : ∃ num, (num = ccnDtagInterest ∨ num = ccnDtagContentobj) ∧
      (num = ccnDtagContentobj → isData (b :: b₁ :: bytes) = true) ∧
      ccnbDehead (b :: b₁ :: mem) ⟨0, n + 2⟩ = .ok (some ((num, ccnTtDtag), ⟨2, n⟩)) := by
  rcases hb with hb | hb <;> cases hb
  · exact ⟨ccnDtagInterest, .inl rfl, fun h => (by cases h), rfl⟩
  · exact ⟨ccnDtagContentobj, .inr rfl, fun _ => rfl, rfl⟩

theorem ccnbHandle_carries {pkt : Pkt} {ok : Bool}
    (hE : E.Good (Honest Published) (HonestData Published)) (hσ : σ.Carries Published)
    (hf : Honest Published pkt.buf) (hdata : pkt.flags &&& pktRequest = 0 → isData pkt.buf = true)
    (h : ccnbHandle E now f σ pkt = .ok (τ, ok)) : τ.Carries Published := by
  unfold ccnbHandle at h
  split at h
  · exact handleInterest_passes (fun _ => And.left) hE hσ hf h
  · rename_i hflags
    obtain ⟨τ', h₁, h⟩ := (bind_eq_ok _ _ _).mp h
    cases h
    exact handleContent_passes (fun _ => And.left) hσ ⟨hf, hdata (not_not.mp hflags)⟩ h₁

/-- The CCNB forwarder finds one packet, which is the whole frame. -/
theorem ccnbForwarder_carries {r : Option Cursor} {pkt : Pkt} {c : Cursor}
    (hE : E.Good (Honest Published) (HonestData Published)) (hσ : σ.Carries Published)
    (hf : Honest Published (b :: b₁ :: bytes))
    (hb : (b, b₁) = (0x01, 0xd2) ∨ (b, b₁) = (0x04, 0x82))
    (hp : ccnbBytes2pkt (b :: b₁ :: bytes) 0 ⟨2, bytes.length⟩ = .ok (pkt, c)) (hc : c.len = 0)
    (h : ccnbForwarder E now f σ (b :: b₁ :: bytes ++ slack) ⟨0, bytes.length + 2⟩ = .ok (τ, r)) :
    τ.Carries Published ∧ ∀ c, r = some c → c.len = 0 := by
  obtain ⟨num, hnum, hdata, hhead⟩ := @ccnbDehead_packet bytes b b₁ hb (bytes ++ slack) bytes.length
  have hparse := ccnbBytes2pkt_grows (b :: b₁ :: bytes) slack 0 ⟨2, bytes.length⟩ _ hp
  have hin : 2 + bytes.length ≤ (b :: b₁ :: bytes).length := by
    simp only [List.length_cons]
    omega
  obtain ⟨-, hlim⟩ := (ccnbBytes2pkt_returns hin).mp ⟨pkt, hp⟩
  have hwhole : pkt.buf = b :: b₁ :: bytes := by
    rw [(ccnbBytes2pkt_inside hin (Nat.zero_le _) hp).buf, List.drop_zero, Nat.sub_zero,
      List.take_of_length_le]
    simp only [List.length_cons] at hlim ⊢
    omega
  let I : Relay × Cursor → Prop := fun s =>
    s.1.Carries Published ∧ (s.2 = ⟨0, bytes.length + 2⟩ ∨ s.2.len = 0)
  let Q : Relay × Option Cursor → Prop := fun x =>
    x.1.Carries Published ∧ ∀ c, x.2 = some c → c.len = 0
  have hstep : ∀ s x, I s → ccnbFrameStep (ccnbHandle E now f) (b :: b₁ :: bytes ++ slack) s = .ok x →
      Sum.elim I Q x := by
    rintro ⟨σ, c₀⟩ x ⟨hσ, hc₀⟩ hs
    unfold ccnbFrameStep at hs
    simp only at hσ hc₀ hs
    rcases hc₀ with rfl | hc₀
    · rw [if_neg (by simp), List.cons_append, List.cons_append, hhead, ok_bind] at hs
      simp only [hnum, and_self, ↓reduceIte] at hs
      rw [Nat.sub_self, ← List.cons_append, ← List.cons_append, hparse, attempt_ok, ok_bind] at hs
      obtain ⟨⟨τ, ok⟩, hh, hs⟩ := (bind_eq_ok _ _ _).mp hs
      have hτ : τ.Carries Published := by
        refine ccnbHandle_carries hE hσ ?_ (fun hflags => ?_) hh
        · exact hwhole.symm ▸ hf
        · show isData pkt.buf = true
          rw [hwhole]
          refine hdata (hnum.resolve_left fun hint => ?_)
          simp [hint, pktRequest] at hflags
      cases ok <;> cases hs
      · exact ⟨hτ, fun c hc => by cases hc⟩
      · exact ⟨hτ, .inr hc⟩
    · rw [if_pos hc₀] at hs
      cases hs
      refine ⟨hσ, fun c hc => ?_⟩
      cases hc
      exact hc₀
  exact loop_inv (I := I) (Q := Q) h ⟨hσ, .inl rfl⟩ (fun s s' => hstep s (.inl s'))
    fun s x => hstep s (.inr x)

/-- A frame that is one packet, in the receive buffer. -/
theorem rxLoop_carries (hE : E.Good (Honest Published) (HonestData Published))
    (hσ : σ.Carries Published) (hf : Honest Published bytes)
    (h : rxLoop E now f σ (bytes ++ slack) bytes.length = .ok τ) : τ.Carries Published := by
  let I : Rx → Prop := fun s => s.relay.Carries Published ∧
    (s.mem = bytes ++ slack ∧ s.c = ⟨0, bytes.length⟩ ∧ s.suite = none ∨ s.c.len = 0)
  have hstep : ∀ s x, I s → rxStep E now f s = .ok x →
      Sum.elim I (Relay.Carries Published) x := by
    rintro ⟨σ, mem, c, suite⟩ x ⟨hσ, hs⟩ hx
    unfold rxStep at hx
    simp only at hσ hs hx
    by_cases hc : c.len = 0
    · rw [if_pos hc] at hx
      cases hx
      exact hσ
    · obtain ⟨rfl, rfl, rfl⟩ := hs.resolve_right hc
      rw [if_neg hc] at hx
      have hnext : ∀ suite, nextSuite (bytes ++ slack) none ⟨0, bytes.length⟩ =
          .ok (some suite, ⟨0, bytes.length⟩) →
          (∀ σ₁ mem' r, rxTable E now f σ (bytes ++ slack) ⟨0, bytes.length⟩ suite = .ok (σ₁, mem', r) →
            σ₁.Carries Published ∧ ∀ c, r = some c → c.len = 0) →
          Sum.elim I (Relay.Carries Published) x := fun suite hnext htable => by
        rw [hnext, ok_bind] at hx
        obtain ⟨⟨σ₁, mem', r⟩, hrun, hx⟩ := (bind_eq_ok _ _ _).mp hx
        obtain ⟨h₁, hr⟩ := htable σ₁ mem' r hrun
        cases r with
        | none =>
          cases hx
          exact h₁
        | some c =>
          cases hx
          exact ⟨h₁, .inr (hr c rfl)⟩
      cases hf.whole with
      | ndntlv hb =>
        refine hnext _ (nextSuite_ndntlv hb _ (by simp)) fun σ₁ mem' r hrun => ?_
        obtain ⟨⟨σ₂, r₂⟩, h₂, hrun⟩ := (bind_eq_ok _ _ _).mp hrun
        cases hrun
        exact ndntlvForwarder_carries hE hσ hf hb h₂
      | ccntlv ht hlen =>
        refine hnext _ (nextSuite_ccntlv ht _ (by simp)) fun σ₁ mem' r hrun => ?_
        exact ccntlvForwarder_carries hE hσ hf ht hlen hrun
      | ccnb hb hp hend =>
        refine hnext _ (nextSuite_ccnb_first hb _ (by simp)) fun σ₁ mem' r hrun => ?_
        obtain ⟨⟨σ₂, r₂⟩, h₂, hrun⟩ := (bind_eq_ok _ _ _).mp hrun
        cases hrun
        exact ccnbForwarder_carries hE hσ hf hb hp hend h₂
  exact loop_inv (I := I) (Q := Relay.Carries Published) h ⟨hσ, .inl ⟨rfl, rfl, rfl⟩⟩
    (fun s s' => hstep s (.inl s')) fun s x => hstep s (.inr x)

end Frame

/-! ## The network -/

/-- The datagram that a relay is given. -/
def Event.takes : Event → Option (List UInt8)
  | rx _ _ _ frame => some (frame.mem.take frame.len)
  | ageing _ => none

/-- The datagrams that a relay has sent between two states. -/
def sentBetween (σ τ : Relay) : List (List UInt8) :=
  (τ.out.drop σ.out.length).filterMap fun
    | .send _ buf => some buf
    | .tap .. => none

/-- A relay that starts with published contents in its store. -/
def relayFrom (Published : List UInt8 → Prop) (E : Env) : Sys Relay Event where
  Start σ := σ.Start ∧ (∀ c ∈ σ.contents, HonestData Published c.pkt.buf) ∧ σ.out = []
  step := Event.run E

/-- Relays on a wire. -/
def network {ι : Type} [DecidableEq ι] (Published : List UInt8 → Prop) (E : ι → Env) :
    Sys (Wired ι Relay (List UInt8)) (Wired.Event ι Event (List UInt8)) :=
  Wired.sys (fun i => relayFrom Published (E i)) sentBetween

section Network

variable {ι : Type} [DecidableEq ι] {Published : List UInt8 → Prop} {E : Env} {σ τ : Relay}

theorem mem_sentBetween {buf : List UInt8} (h : buf ∈ sentBetween σ τ) :
    ∃ dst, .send dst buf ∈ τ.out := by
  obtain ⟨o, ho, hbuf⟩ := List.mem_filterMap.mp h
  cases o with
  | send dst b =>
    cases hbuf
    exact ⟨dst, List.mem_of_mem_drop ho⟩
  | tap => cases hbuf

/-- What a relay does at an event, when it is given an honest datagram. -/
theorem event_carries {e : Event} (hE : E.Good (Honest Published) (HonestData Published))
    (hσ : σ.Carries Published) (he : ∀ f, e.takes = some f → Honest Published f)
    (h : e.run E σ = .ok τ) : τ.Carries Published := by
  cases e with
  | ageing now => exact doAgeing_passes hσ h
  | rx now ifndx sa frame =>
    have hface : (getFaceOrCreate now σ ifndx (some sa)).1.Carries Published :=
      hσ.tables getFaceOrCreate_tables (getFaceOrCreate_sends now σ ifndx (some sa))
    have hlen : (frame.mem.take frame.len).length = frame.len := by
      rw [List.length_take, Nat.min_eq_left frame.len_le]
    change coreRX E now σ ifndx (some sa) frame.mem frame.len = .ok τ at h
    unfold coreRX at h
    split at h
    · rename_i σ₁ f hg
      rw [hg] at hface
      have hrun : rxLoop E now f σ₁ (frame.mem.take frame.len ++ frame.mem.drop frame.len)
          (frame.mem.take frame.len).length = .ok τ := by
        rw [hlen, List.take_append_drop]
        exact h
      exact rxLoop_carries hE hface (he _ rfl) hrun
    · rename_i hg
      rw [hg] at hface
      cases h
      exact hface

end Network

end Ccnl
