import CcnLite.Fwd.Faces
import CcnLite.Fwd.System
import CcnLite.Pkt.CcnbFrame
import CcnLite.Pkt.CcntlvEncode
import CcnLite.Pkt.NdntlvEncode

/-!
# Frames with several packets

A frame may hold several packets of a suite (`README-multiprotocol.md`). Is `ccnl_core_RX` on the
frame the same as `ccnl_core_RX` on its packets, one after the other?

* `FrameLaw` compares the two: what is left in the PIT, the content store and the nonce list, and what
  has been handed to the faces.
* `Anchored`: the face that the frame came from would be found again. The handlers keep it as long as
  no management command makes or removes such a face (`ccnbHandle_anchored`).
* `ccnbFrame_law`: the loop of the CCNB forwarder goes through the packets one by one, so the law holds
  there. The parsers of the other suites take the whole rest of the frame for the first packet.
-/

namespace Ccnl

open CRun

/-- The arguments of `ccnl_core_RX` besides the relay and the frame. `tail` is what stands behind a
frame in the receive buffer. -/
structure Link where
  now : Nat
  ifndx : Int
  sa : Option SockAddr
  tail : List UInt8 → List UInt8

/-- `ccnl_core_RX` on a frame. -/
def receive (E : Env) (l : Link) (σ : Relay) (p : List UInt8) : Run Relay :=
  coreRX E l.now σ l.ifndx l.sa (p ++ l.tail p) p.length

/-- What the two ways to receive packets are compared on. -/
def Relay.view (σ : Relay) : List Interest × List Content × List (List UInt8) × List Out :=
  (σ.pit, σ.contents, σ.nonces, σ.out)

/-- The frame and its packets, one after the other, have the same effect. -/
def FrameLaw (E : Env) (l : Link) (σ : Relay) (ps : List (List UInt8)) : Prop :=
  (receive E l σ ps.flatten).map Relay.view = (ps.foldlM (receive E l) σ).map Relay.view

/-! ## Packets of the encoders -/

/-- A packet as the encoder of its suite is asked for it. -/
inductive Msg where
  | ccnb (m : CcnbMsg)
  | ccntlvInterest (name : Prefix)
  | ccntlvContent (name : Prefix) (payload : List UInt8) (last : Option UInt32)
  | ndntlvInterest (name : Prefix) (scope : Int) (opts : NdnInterestOpts)
  | ndntlvContent (name : Prefix) (payload : List UInt8) (opts : Option NdnDataOpts)

/-- The encoder of the suite writes the packet into a buffer with enough room. -/
inductive Msg.Encodes : Msg → List UInt8 → Prop
  | ccnbInterest {name nonce bufend out o retlen} (hn : name.compcnt ≤ maxNameComp)
      (h : ccnbFillInterest name nonce bufend out = .ok (o, retlen)) :
      Encodes (.ccnb (.interest name nonce)) ((o.mem.drop out.pos).take retlen)
  | ccnbContent {name payload bufend out o contentpos retlen} (hn : name.compcnt ≤ maxNameComp)
      (h : ccnbFillContent name payload bufend out = .ok (o, contentpos, retlen)) :
      Encodes (.ccnb (.content name payload)) ((o.mem.drop out.pos).take retlen)
  | ccntlvInterest {name o o₁ reslen}
      (h : ccntlvPrependInterestWithHdr name o = .ok (o₁, reslen)) :
      Encodes (.ccntlvInterest name) ((o₁.buf.drop o₁.offset).take reslen)
  | ccntlvContent {name payload last o o₁ contentpos reslen}
      (h : ccntlvPrependContentWithHdr name payload last o = .ok (o₁, contentpos, reslen)) :
      Encodes (.ccntlvContent name payload last) ((o₁.buf.drop o₁.offset).take reslen)
  | ndntlvInterest {name scope opts o o₁ reslen}
      (h : ndntlvPrependInterest name scope opts o = .ok (o₁, reslen)) :
      Encodes (.ndntlvInterest name scope opts) ((o₁.buf.drop o₁.offset).take reslen)
  | ndntlvContent {name payload opts o o₁ contentpos reslen}
      (h : ndntlvPrependContent name payload opts o = .ok (o₁, contentpos, reslen)) :
      Encodes (.ndntlvContent name payload opts) ((o₁.buf.drop o₁.offset).take reslen)

theorem Msg.Encodes.ccnb {m : CcnbMsg} {p : List UInt8} (h : Msg.Encodes (.ccnb m) p) :
    m.Fits ∧ p = m.bytes := by
  cases h with
  | ccnbInterest hn h =>
    obtain ⟨hwrote, rfl⟩ := ccnbFillInterest_wrote h
    exact ⟨hn, hwrote.at_pos.take⟩
  | ccnbContent hn h =>
    obtain ⟨hwrote, rfl⟩ := ccnbFillContent_wrote h
    exact ⟨hn, hwrote.at_pos.take⟩

/-! ## The face of the frame -/

/-- The face that `ccnl_get_face_or_create` looks for. -/
def Link.sees (l : Link) (x : Face) : Bool :=
  match l.sa with
  | none => x.ifndx == -1
  | some a => l.ifndx != -1 && x.ifndx == l.ifndx && x.peer.any (addrSame · a)

/-- The face that `ccnl_core_RX` takes a frame to come from. -/
def Link.face (l : Link) (σ : Relay) : Option FaceId := (getFaceOrCreate l.now σ l.ifndx l.sa).2

/-- `ccnl_core_RX` would find the face `f` again, and has just done so. -/
structure Anchored (l : Link) (f : FaceId) (σ : Relay) : Prop where
  found : ∃ x, σ.ports.find? l.sees = some x ∧ x.faceid = f
  used : l.sa ≠ none → ∀ x ∈ σ.ports, x.faceid = f → x.lastUsed = u32 l.now

section Faces

variable {l : Link} {f : FaceId} {σ τ : Relay}

theorem Link.sees_bare (l : Link) : l.sees ∘ Face.bare = l.sees := by
  funext x
  unfold Link.sees
  cases l.sa <;> rfl

theorem Link.sees_none (hsa : l.sa = none) : l.sees = fun x : Face => x.ifndx == -1 := by
  funext x
  rw [Link.sees, hsa]

theorem Link.sees_some {a : SockAddr} (hsa : l.sa = some a) :
    l.sees = fun x : Face => l.ifndx != -1 && x.ifndx == l.ifndx && x.peer.any (addrSame · a) := by
  funext x
  rw [Link.sees, hsa]

theorem find_ports : σ.ports.find? l.sees = (σ.faces.find? l.sees).map Face.bare := by
  rw [Relay.ports, List.find?_map, l.sees_bare]

theorem Anchored.of_ports (h : Anchored l f σ) (hp : τ.ports = σ.ports) : Anchored l f τ :=
  ⟨hp ▸ h.found, fun hsa => hp ▸ h.used hsa⟩

theorem addrSame_self (a : SockAddr) : addrSame a a = true := by
  cases a <;> simp [addrSame]

/-- The new time of a face that has just been used. -/
theorem setFace_used {now : Nat} (h : ∀ x ∈ σ.faces, x.faceid = f → x.lastUsed = u32 now) :
    (σ.setFace f fun x => { x with lastUsed := u32 now }) = σ := by
  have hmap : (σ.faces.map fun x => if x.faceid = f then { x with lastUsed := u32 now } else x) =
      σ.faces := by
    refine (List.map_congr_left fun x hx => ?_).trans (List.map_id _)
    split
    · rename_i hf
      rw [← h x hx hf]
      rfl
    · rfl
  unfold Relay.setFace
  rw [hmap]

/-- The next packet is taken to come from the same face, and finding it changes nothing. -/
theorem Anchored.get (h : Anchored l f σ) :
    getFaceOrCreate l.now σ l.ifndx l.sa = (σ, some f) := by
  obtain ⟨y, hy, hf⟩ := h.found
  rw [find_ports] at hy
  obtain ⟨x, hx, rfl⟩ := Option.map_eq_some_iff.mp hy
  unfold getFaceOrCreate
  cases hsa : l.sa with
  | none =>
    rw [Link.sees_none hsa] at hx
    simp only [hx, ← hf]
    rfl
  | some a =>
    rw [Link.sees_some hsa] at hx
    have hid : x.faceid = f := hf
    have hused : ∀ y ∈ σ.faces, y.faceid = f → y.lastUsed = u32 l.now := fun y hy hyf =>
      h.used (by simp [hsa]) y.bare (List.mem_map_of_mem hy) hyf
    simp only [hx, hid]
    rw [setFace_used hused]

theorem anchored_faceNew (i : Int) (a : Option SockAddr) (hids : ∀ f, σ.Listed f → f ≤ σ.seqno)
    (hsees : l.sees { faceid := σ.seqno + 1, ifndx := if a.isSome then i else -1, peer := a } = true) :
    Anchored l (σ.seqno + 1) (faceNew l.now σ i a).1 := by
  refine ⟨⟨_, List.find?_cons_of_pos ?_, rfl⟩, fun _ x hx hf => ?_⟩
  · unfold Link.sees at hsees ⊢
    exact hsees
  · rcases List.mem_cons.mp hx with rfl | hx
    · rfl
    · obtain ⟨y, hy, rfl⟩ := List.mem_map.mp hx
      have hle : y.faceid ≤ σ.seqno := hids _ ⟨y, hy, rfl⟩
      exact absurd hf (Nat.ne_of_lt (Nat.lt_succ_of_le hle))

/-- Once a packet has come from a face, the face is there for the next. -/
theorem anchored_get (hids : ∀ f, σ.Listed f → f ≤ σ.seqno) (hl : l.sa ≠ none → l.ifndx ≠ -1)
    (hg : getFaceOrCreate l.now σ l.ifndx l.sa = (τ, some f)) : Anchored l f τ := by
  unfold getFaceOrCreate at hg
  cases hsa : l.sa with
  | none =>
    simp only [hsa] at hg
    split at hg
    · rename_i x hx
      obtain ⟨rfl, hf⟩ := Prod.mk.inj hg
      refine ⟨⟨x.bare, ?_, Option.some.inj hf⟩, fun h => absurd hsa h⟩
      rw [find_ports, Link.sees_none hsa, hx]
      rfl
    · cases hg
      exact anchored_faceNew _ _ hids (by simp [Link.sees, hsa])
  | some a =>
    have hi := hl (by simp [hsa])
    simp only [hsa, hi, ↓reduceIte] at hg
    split at hg
    · rename_i x hx
      obtain ⟨rfl, hf⟩ := Prod.mk.inj hg
      have hid : x.faceid = f := Option.some.inj hf
      have hsees : l.sees ∘ (fun y : Face =>
          if y.faceid = x.faceid then { y with lastUsed := u32 l.now } else y) = l.sees := by
        funext y
        simp only [Function.comp_apply, Link.sees, hsa]
        split <;> rfl
      have hfound : (σ.setFace x.faceid fun y => { y with lastUsed := u32 l.now }).faces.find? l.sees =
          some { x with lastUsed := u32 l.now } := by
        rw [Relay.setFace, List.find?_map, hsees, Link.sees_some hsa, hx, Option.map_some, if_pos rfl]
      have hports := find_ports.trans (congrArg (·.map Face.bare) hfound)
      refine ⟨⟨_, hports, hid⟩, fun _ y hy hyf => ?_⟩
      obtain ⟨z, hz, rfl⟩ := List.mem_map.mp hy
      obtain ⟨w, -, rfl⟩ := List.mem_map.mp hz
      simp only [hid] at hyf ⊢
      split
      · rfl
      · rename_i hne
        rw [if_neg hne] at hyf
        exact absurd hyf hne
    · cases hg
      exact anchored_faceNew _ _ hids (by simp [Link.sees, hsa, hi, addrSame_self])

/-- No face is found because none can be made, and then none is made. -/
theorem getFaceOrCreate_none (hg : getFaceOrCreate l.now σ l.ifndx l.sa = (τ, none)) : τ = σ := by
  unfold getFaceOrCreate at hg
  split at hg
  · split at hg <;> cases hg
  · split at hg
    · cases hg
    · split at hg
      · split at hg <;> cases hg
        rfl
      · cases hg

theorem getFaceOrCreate_view {o : Option FaceId}
    (hg : getFaceOrCreate l.now σ l.ifndx l.sa = (τ, o)) : τ.view = σ.view := by
  obtain rfl : (getFaceOrCreate l.now σ l.ifndx l.sa).1 = τ := by rw [hg]
  rcases getFaceOrCreate_relay l.now σ l.ifndx l.sa with heq | ⟨f, heq⟩ | ⟨j, -, heq⟩ <;> rw [heq] <;> rfl

end Faces

/-! ## The handlers -/

/-- The command leaves the face of the frame alone: it does not remove it, and does not make another
one to the same peer. -/
def MgmtOp.Calm (l : Link) (f : FaceId) : MgmtOp → Prop
  | faceNew sa _ _ => ∀ a, l.sa = some a → addrSame sa a = false
  | faceRemove g => g ≠ f
  | _ => True

/-- The packet is no management Interest with a command that makes or removes the face. -/
def CcnbMsg.Calm (E : Env) (l : Link) (f : FaceId) (m : CcnbMsg) : Prop :=
  isMgmt m.pkt = .ok true → ∀ σ, ∀ op ∈ E.mgmt σ m.pkt f, op.Calm l f

section Handlers

variable {E : Env} {l : Link} {f : FaceId} {σ τ : Relay} {pkt : Pkt}

theorem faceRemove_anchored {g : FaceId} (hg : g ≠ f) (h : Anchored l f σ) :
    Anchored l f (faceRemove σ g) := by
  obtain ⟨x, hx, hf⟩ := h.found
  have hports : (faceRemove σ g).ports = σ.ports.filter (·.faceid != g) := by
    rw [Relay.ports, Relay.ports, List.filter_map]
    rfl
  refine ⟨⟨x, ?_, hf⟩, fun hsa y hy => h.used hsa y ?_⟩
  · obtain ⟨hsees, before, after, hmem, hbefore⟩ := List.find?_eq_some_iff_append.mp hx
    rw [hports, List.find?_filter, List.find?_eq_some_iff_append]
    refine ⟨?_, before, after, hmem, fun y hy => ?_⟩
    · simp [hsees, hf, Ne.symm hg]
    · simpa using Or.inr (by simpa using hbefore y hy)
  · rw [hports] at hy
    exact List.mem_of_mem_filter hy

theorem faceNew_anchored {i : Nat} {sa : SockAddr} (hsa : ∀ a, l.sa = some a → addrSame sa a = false)
    (h : Anchored l f σ) : Anchored l f (faceNew l.now σ i (some sa)).1 := by
  have hnot : ∀ x : Face, x.ifndx = i → x.peer = some sa → ¬ l.sees x = true := by
    intro x hi hp
    unfold Link.sees
    cases hl : l.sa with
    | none => simp [hi]
    | some a => simp [hp, hsa a hl]
  refine ⟨?_, fun hl x hx hf => ?_⟩
  · obtain ⟨x, hx, hf⟩ := h.found
    exact ⟨x, (List.find?_cons_of_neg (hnot _ rfl rfl)).trans hx, hf⟩
  · rcases List.mem_cons.mp hx with rfl | hx
    · rfl
    · exact h.used hl x hx hf

/-- Without an interface no face is found: a new one gets the first interface of its family. -/
theorem getFaceOrCreate_unbound (now : Nat) (σ : Relay) (sa : SockAddr) :
    getFaceOrCreate now σ (-1) (some sa) = (σ, none) ∨ ∃ i : Nat,
      getFaceOrCreate now σ (-1) (some sa) = (faceNew now σ i (some sa)).map id some := by
  have hfind : σ.faces.find? (fun x => (-1 : Int) != -1 && x.ifndx == -1 &&
      x.peer.any (addrSame · sa)) = none := by
    simp
  unfold getFaceOrCreate
  simp only [hfind, ↓reduceIte]
  split
  · exact .inl rfl
  · exact .inr ⟨_, rfl⟩

theorem mgmtOp_anchored {op : MgmtOp} (hop : op.Calm l f) (h : Anchored l f σ)
    (ho : op.run E l.now f σ = .ok τ) : Anchored l f τ := by
  cases op <;> simp only [MgmtOp.run] at ho
  case faceNew sa static reflect =>
    rcases getFaceOrCreate_unbound l.now σ sa with hg | ⟨i, hg⟩
    · simp only [hg] at ho
      cases ho
      exact h
    · simp only [hg, Prod.map] at ho
      cases ho
      exact (faceNew_anchored hop h).of_ports (setFace_ports fun _ => rfl)
  case faceRemove g =>
    cases ho
    exact faceRemove_anchored hop h
  case fibAdd p g =>
    split at ho <;> cases ho
    · exact h.of_ports (by unfold fibAddEntry; split <;> rfl)
    · exact h
  case fibRem p g =>
    cases ho
    exact h.of_ports (by unfold fibRemEntry; split <;> rfl)
  case contentAdd p pkt =>
    obtain ⟨s, hs, ho⟩ := (bind_eq_ok _ _ _).mp ho
    exact h.of_ports ((contentAdd2cache_roots ho).2.1.trans (servePending_roots hs).2.1)
  case contentRemove k => split at ho <;> cases ho <;> exact h.of_ports rfl
  case interestNew p pkt =>
    cases ho
    cases hn : interestNew l.now σ (some f) { pkt with pfx := some p } with
    | none => exact h
    | some r => exact h.of_ports (interestNew_eq hn).2.1
  case enqueue buf =>
    rw [faceEnqueue_eq ho]
    exact h.of_ports rfl

theorem mgmt_anchored (hcalm : ∀ op ∈ E.mgmt σ pkt f, op.Calm l f) (h : Anchored l f σ)
    (hm : mgmt E l.now σ pkt f = .ok τ) : Anchored l f τ :=
  foldlM_inv_mem (fun _ op hop _ h ho => mgmtOp_anchored (hcalm op hop) h ho) h hm

theorem pitInsert_ports {now : Nat} {r : Option Relay} (hi : pitInsert now σ f pkt = .ok r) :
    ∀ τ, r = some τ → τ.ports = σ.ports := by
  rintro τ rfl
  cases pitInsert_inserted hi with
  | pending | full => rfl
  | new _ _ hn h₂ =>
    obtain ⟨o, rfl⟩ := interestPropagate_out h₂
    exact (interestNew_eq hn).2.1

theorem handleContent_ports {now : Nat} (hc : handleContent E now σ pkt = .ok τ) :
    τ.ports = σ.ports := by
  cases handleContent_handled hc with
  | dup => rfl
  | unsolicited _ hs | served _ hs => exact (servePending_roots hs).2.1
  | cached _ hs _ hc => exact (contentAdd2cache_roots hc).2.1.trans (servePending_roots hs).2.1

theorem handleInterest_anchored {cMatch : Pkt → Content → Run Bool} {b : Bool}
    (hcalm : isMgmt pkt = .ok true → ∀ σ, ∀ op ∈ E.mgmt σ pkt f, op.Calm l f) (h : Anchored l f σ)
    (hi : handleInterest E l.now cMatch σ f pkt = .ok (τ, b)) : Anchored l f τ := by
  cases handleInterest_handled hi with
  | dup => exact h
  | mgmt _ hn hm h₂ =>
    obtain ⟨ns, rfl⟩ := nonceIsDup_eq hn
    have hbase : Anchored l f { σ with nonces := ns } := h.of_ports rfl
    exact mgmt_anchored (hcalm hm _) hbase h₂
  | hit _ hn _ _ h₂ =>
    obtain ⟨ns, rfl⟩ := nonceIsDup_eq hn
    obtain ⟨o, rfl⟩ := deliver_eq h₂
    exact h.of_ports rfl
  | drop _ hn =>
    obtain ⟨ns, rfl⟩ := nonceIsDup_eq hn
    exact h.of_ports rfl
  | insert _ hn _ _ hr =>
    obtain ⟨ns, rfl⟩ := nonceIsDup_eq hn
    exact h.of_ports (pitInsert_ports hr _ rfl)

/-- What is done with a packet of the frame. -/
def take (E : Env) (now : Nat) (f : FaceId) (σ : Relay) (m : CcnbMsg) : Run Relay :=
  (ccnbHandle E now f σ m.pkt).map Prod.fst

theorem take_anchored {m : CcnbMsg} (hcalm : m.Calm E l f) (h : Anchored l f σ)
    (ht : take E l.now f σ m = .ok τ) : Anchored l f τ := by
  obtain ⟨⟨τ', b⟩, hh, rfl⟩ := (map_eq_ok _ _ _).mp ht
  unfold ccnbHandle at hh
  split at hh
  · exact handleInterest_anchored hcalm h hh
  · obtain ⟨σ₁, h₁, hh⟩ := (bind_eq_ok _ _ _).mp hh
    cases hh
    exact h.of_ports (handleContent_ports h₁)

theorem pitInsert_taken {now : Nat} {r : Option Relay} (hok : pktFwdOK pkt = true)
    (hi : pitInsert now σ f pkt = .ok r) : r ≠ none := by
  cases pitInsert_inserted hi with
  | drop hfwd => cases hok.symm.trans hfwd
  | pending | full | new => exact Option.some_ne_none _

/-- An Interest of CCNB is always taken. -/
theorem handleInterest_taken {now : Nat} {cMatch : Pkt → Content → Run Bool} {b : Bool}
    (hs : pkt.suite = .ccnb) (hi : handleInterest E now cMatch σ f pkt = .ok (τ, b)) : b = true := by
  cases handleInterest_handled hi with
  | dup | mgmt | hit | insert => rfl
  | drop _ _ _ _ hr => exact absurd rfl (pitInsert_taken (by rw [pktFwdOK, hs]) hr)

theorem ccnbHandle_eq_take {now : Nat} (σ : Relay) (m : CcnbMsg) :
    ccnbHandle E now f σ m.pkt = (take E now f σ m).map (·, true) := by
  have htaken : ∀ τ b, ccnbHandle E now f σ m.pkt = .ok (τ, b) → b = true := by
    intro τ b h
    unfold ccnbHandle at h
    split at h
    · exact handleInterest_taken (by cases m <;> rfl) h
    · obtain ⟨σ₁, -, h⟩ := (bind_eq_ok _ _ _).mp h
      cases h
      rfl
  unfold take
  cases h : ccnbHandle E now f σ m.pkt with
  | error s => rfl
  | ok r =>
    obtain ⟨τ, b⟩ := r
    rw [htaken τ b h]
    rfl

end Handlers

/-! ## The law -/

section Law

variable {E : Env} {l : Link} {f : FaceId} {σ τ : Relay} {ms : List CcnbMsg}

theorem CcnbMsg.bytes_eq (m : CcnbMsg) :
    ∃ t, m.bytes = 0x01 :: 0xd2 :: t ∨ m.bytes = 0x04 :: 0x82 :: t := by
  cases m with
  | interest name nonce => exact ⟨ccnbInterestElems name nonce, .inl rfl⟩
  | content name payload => exact ⟨ccnbContentElems name payload, .inr rfl⟩

/-- The first bytes are no code switch. -/
theorem switches_ccnb (m : CcnbMsg) (rest : List UInt8) (n : Nat) :
    switches (m.bytes ++ rest) none ⟨0, n⟩ = .ok (none, ⟨0, n⟩) := by
  have hdehead : switchDehead (m.bytes ++ rest) ⟨0, n⟩ = .ok none := by
    unfold switchDehead
    split
    · rfl
    · obtain ⟨t, ht | ht⟩ := m.bytes_eq <;> rw [ht] <;> rfl
  unfold switches loop switchStep
  rw [hdehead]
  rfl

theorem nextSuite_ccnb (m : CcnbMsg) (rest : List UInt8) {n : Nat} (hn : 2 ≤ n) :
    nextSuite (m.bytes ++ rest) none ⟨0, n⟩ = .ok (some .ccnb, ⟨0, n⟩) := by
  have hsuite : pkt2suite (m.bytes ++ rest) ⟨0, n⟩ = .ok (some .ccnb) := by
    unfold pkt2suite
    rw [if_neg (by simp only; omega), switches_ccnb, ok_bind]
    obtain ⟨t, ht | ht⟩ := m.bytes_eq
    · rw [ht]
      have h1 : 1 < n := by omega
      simp [rd, ccnxTlvV1, h1]
    · rw [ht]
      rfl
  unfold nextSuite
  rw [switches_ccnb, ok_bind]
  simp only [hsuite]
  rfl

/-- The loop over the packets of the frame calls the CCNB forwarder once. -/
theorem rxLoop_packets {now : Nat} (hms : ms ≠ []) (rest : List UInt8)
    (hn : ∀ m ∈ ms, m.Fits) (hshort : ∀ m ∈ ms, m.Short) (hclosed : ∀ m ∈ ms.dropLast, m.Closed) :
    let p := (ms.map CcnbMsg.bytes).flatten
    rxLoop E now f σ (p ++ rest) p.length = ms.foldlM (take E now f) σ := by
  intro p
  have hsuite : 2 ≤ p.length ∧
      nextSuite (p ++ rest) none ⟨0, p.length⟩ = .ok (some .ccnb, ⟨0, p.length⟩) := by
    obtain ⟨m, ms', rfl⟩ := List.exists_cons_of_ne_nil hms
    have hp : p = m.bytes ++ (ms'.map CcnbMsg.bytes).flatten := rfl
    have hlen : 2 ≤ p.length := by
      have := m.two_le_length
      rw [hp, List.length_append]
      omega
    refine ⟨hlen, ?_⟩
    have hnext := nextSuite_ccnb m ((ms'.map CcnbMsg.bytes).flatten ++ rest) hlen
    rwa [← List.append_assoc] at hnext
  have hframe : ccnbFrame (ccnbHandle E now f) (p ++ rest) σ ⟨0, p.length⟩ =
      (ms.foldlM (take E now f) σ).map (·, some ⟨p.length, 0⟩) :=
    ccnbFrame_packets rest σ (fun τ m _ => ccnbHandle_eq_take τ m) hn hshort hclosed
  have hpass : rxStep E now f { relay := σ, mem := p ++ rest, c := ⟨0, p.length⟩ } =
      (ms.foldlM (take E now f) σ).map fun τ => Sum.inl
        { relay := τ, mem := p ++ rest, c := ⟨p.length, 0⟩, suite := some .ccnb } := by
    unfold rxStep
    rw [if_neg (by simp only; omega), hsuite.2, ok_bind]
    simp only [rxTable, ccnbForwarder]
    rw [hframe]
    cases ms.foldlM (take E now f) σ <;> rfl
  unfold rxLoop
  rw [loop, hpass]
  cases ms.foldlM (take E now f) σ <;> rfl

theorem receive_packets (hg : getFaceOrCreate l.now σ l.ifndx l.sa = (τ, some f)) (hms : ms ≠ [])
    (hn : ∀ m ∈ ms, m.Fits) (hshort : ∀ m ∈ ms, m.Short) (hclosed : ∀ m ∈ ms.dropLast, m.Closed) :
    receive E l σ (ms.map CcnbMsg.bytes).flatten = ms.foldlM (take E l.now f) τ := by
  unfold receive coreRX
  rw [hg]
  exact rxLoop_packets hms _ hn hshort hclosed

/-- One packet a frame, from a face that is found again each time. -/
theorem foldlM_receive (h : Anchored l f σ) (hn : ∀ m ∈ ms, m.Fits) (hshort : ∀ m ∈ ms, m.Short)
    (hcalm : ∀ m ∈ ms.dropLast, m.Calm E l f) :
    (ms.map CcnbMsg.bytes).foldlM (receive E l) σ = ms.foldlM (take E l.now f) σ := by
  induction ms generalizing σ with
  | nil => rfl
  | cons m ms ih =>
    have hone : receive E l σ m.bytes = take E l.now f σ m := by
      have hpackets : receive E l σ ([m].map CcnbMsg.bytes).flatten =
          [m].foldlM (take E l.now f) σ := by
        refine receive_packets h.get (List.cons_ne_nil _ _) (fun m' hm' => ?_) (fun m' hm' => ?_)
          (by simp)
        · exact hn m' (List.mem_cons.mpr (.inl (List.mem_singleton.mp hm')))
        · exact hshort m' (List.mem_cons.mpr (.inl (List.mem_singleton.mp hm')))
      simpa using hpackets
    rw [List.map_cons, List.foldlM_cons, List.foldlM_cons, hone]
    cases ht : take E l.now f σ m with
    | error s => rfl
    | ok τ =>
      cases ms with
      | nil => rfl
      | cons m' ms =>
        refine ih (take_anchored (hcalm m (by simp)) h ht) (fun m' hm' => hn m' (by simp [hm']))
          (fun m' hm' => hshort m' (by simp [hm'])) fun m' hm' => hcalm m' ?_
        exact List.mem_cons_of_mem _ hm'

theorem foldlM_receive_none (hg : getFaceOrCreate l.now σ l.ifndx l.sa = (σ, none))
    (ps : List (List UInt8)) : ps.foldlM (receive E l) σ = .ok σ := by
  induction ps with
  | nil => rfl
  | cons p ps ih =>
    have hone : receive E l σ p = .ok σ := by
      unfold receive coreRX
      rw [hg]
    rw [List.foldlM_cons, hone]
    exact ih

/-- The frame law of the CCNB loop. -/
theorem ccnbFrame_law (hms : ms ≠ []) (hids : ∀ f, σ.Listed f → f ≤ σ.seqno)
    (hl : l.sa ≠ none → l.ifndx ≠ -1) (hn : ∀ m ∈ ms, m.Fits) (hshort : ∀ m ∈ ms, m.Short)
    (hclosed : ∀ m ∈ ms.dropLast, m.Closed)
    (hcalm : ∀ m ∈ ms.dropLast, ∀ f, l.face σ = some f → m.Calm E l f) :
    receive E l σ (ms.map CcnbMsg.bytes).flatten =
      (ms.map CcnbMsg.bytes).foldlM (receive E l) σ := by
  rcases hg : getFaceOrCreate l.now σ l.ifndx l.sa with ⟨τ, o⟩
  cases o with
  | none =>
    obtain rfl := getFaceOrCreate_none hg
    rw [foldlM_receive_none hg]
    unfold receive coreRX
    rw [hg]
  | some f =>
    have hface : l.face σ = some f := by rw [Link.face, hg]
    have hanchored := anchored_get hids hl hg
    rw [receive_packets hg hms hn hshort hclosed,
      ← foldlM_receive hanchored hn hshort fun m hm => hcalm m hm f hface]
    -- the first packet finds the face, and the state behind that is where the others start
    obtain ⟨m, ms, rfl⟩ := List.exists_cons_of_ne_nil hms
    have hfirst : receive E l σ m.bytes = receive E l τ m.bytes := by
      unfold receive coreRX
      rw [hg, hanchored.get]
    rw [List.map_cons, List.foldlM_cons, List.foldlM_cons, hfirst]

/-- A frame of at most one packet. -/
theorem frameLaw_le_one {ps : List (List UInt8)} (h : ps.length ≤ 1) : FrameLaw E l σ ps := by
  match ps with
  | [] =>
    have hview : (getFaceOrCreate l.now σ l.ifndx l.sa).1.view = σ.view := getFaceOrCreate_view rfl
    have hempty : receive E l σ [] = .ok (getFaceOrCreate l.now σ l.ifndx l.sa).1 := by
      unfold receive coreRX
      obtain ⟨τ, o⟩ := getFaceOrCreate l.now σ l.ifndx l.sa
      cases o <;> rfl
    unfold FrameLaw
    rw [List.flatten_nil, hempty]
    exact congrArg Except.ok hview
  | [p] =>
    unfold FrameLaw
    rw [List.flatten_singleton]
    simp

/-- The packets can be taken off the frame one by one: the parser can read them, all but the last have
their end markers, and the face that they come from can be found again after all but the last. -/
structure Separable (E : Env) (l : Link) (σ : Relay) (ms : List CcnbMsg) : Prop where
  short : ∀ m ∈ ms, m.Short
  closed : ∀ m ∈ ms.dropLast, m.Closed
  bound : l.sa ≠ none → l.ifndx ≠ -1
  calm : ∀ m ∈ ms.dropLast, ∀ f, l.face σ = some f → m.Calm E l f

theorem encodes_ccnb {ps : List (List UInt8)} (h : List.Forall₂ Msg.Encodes (ms.map .ccnb) ps) :
    (∀ m ∈ ms, m.Fits) ∧ ps = ms.map CcnbMsg.bytes := by
  induction ms generalizing ps with
  | nil =>
    cases h
    exact ⟨by simp, rfl⟩
  | cons m ms ih =>
    cases h with
    | cons hm h =>
      obtain ⟨hfits, rfl⟩ := ih h
      obtain ⟨hfit, rfl⟩ := hm.ccnb
      exact ⟨List.forall_mem_cons.mpr ⟨hfit, hfits⟩, rfl⟩

/-- The frame law holds for at most one packet, and for the packets of CCNB that can be taken off one
by one. -/
theorem frame_law {ms : List Msg} {ps : List (List UInt8)} (hids : ∀ f, σ.Listed f → f ≤ σ.seqno)
    (hp : List.Forall₂ Msg.Encodes ms ps)
    (h : ms.length ≤ 1 ∨ ∃ ns, ms = ns.map .ccnb ∧ Separable E l σ ns) : FrameLaw E l σ ps := by
  by_cases hlen : ms.length ≤ 1
  · exact frameLaw_le_one (hp.length_eq ▸ hlen)
  obtain ⟨ns, rfl, hns⟩ := h.resolve_left hlen
  obtain ⟨hn, rfl⟩ := encodes_ccnb hp
  have hne : ns ≠ [] := by
    rintro rfl
    exact hlen (Nat.zero_le _)
  exact congrArg (Except.map Relay.view)
    (ccnbFrame_law hne hids hns.bound hn hns.short hns.closed hns.calm)

end Law

/-- A frame from a peer, with a byte behind it in the receive buffer. -/
def Link.udp : Link := ⟨0, 0, some (.inet 7 9695), fun _ => [0]⟩

/-- An Interest for /a and the content, as the encoder of CCNB writes them. -/
def wroteA : List (List UInt8) :=
  [[0x01, 0xd2, 0xf2, 0xfa, 0x8d, 97, 0, 0, 0],
    [0x04, 0x82, 0xf2, 0xfa, 0x8d, 97, 0, 0, 0x01, 0x9a, 0x8d, 7, 0, 0]]

theorem encodes_wroteA :
    List.Forall₂ Msg.Encodes [.ccnb (.interest uriA none), .ccnb (.content uriA [7])] wroteA := by
  have hinterest : ccnbFillInterest uriA none 16 ⟨List.replicate 16 0, 0⟩ =
      .ok (⟨wroteA[0] ++ List.replicate 7 0, 9⟩, 9) := by
    decide +kernel
  have hcontent : ccnbFillContent uriA [7] 32 ⟨List.replicate 32 0, 0⟩ =
      .ok (⟨wroteA[1] ++ List.replicate 18 0, 14⟩, 11, 14) := by
    decide +kernel
  exact .cons (.ccnbInterest (by decide) hinterest) (.cons (.ccnbContent (by decide) hcontent) .nil)

theorem frame_law_ccnb : FrameLaw .still .udp .plain wroteA :=
  frame_law (by simp [Relay.Listed, Relay.plain]) encodes_wroteA
    (.inr ⟨[.interest uriA none, .content uriA [7]], rfl,
      { short := by simp [CcnbMsg.Short]; decide
        closed := by simp [CcnbMsg.Closed]
        bound := by decide
        calm := fun _ _ _ _ _ _ op hop => absurd hop List.not_mem_nil }⟩)

/-- An Interest for /a, as the encoder of NDN writes it. -/
def wroteNdnA (nonce : UInt8) : List UInt8 := [5, 11, 7, 3, 8, 1, 97, 10, 4, nonce, 0, 0, 0]

/-- Two Interests of NDN in a frame: the parser takes the second one for a part of the first. -/
theorem frame_swallows_packet :
    List.Forall₂ Msg.Encodes [.ndntlvInterest { uriA with suite := .ndntlv } (-1) { nonce := 1 },
      .ndntlvInterest { uriA with suite := .ndntlv } (-1) { nonce := 2 }] [wroteNdnA 1, wroteNdnA 2] ∧
    ¬ FrameLaw .still .udp .plain [wroteNdnA 1, wroteNdnA 2] := by
  have hfirst : ndntlvPrependInterest { uriA with suite := .ndntlv } (-1) { nonce := 1 } (.room 13) =
      .ok (⟨wroteNdnA 1, 0, Nat.zero_le _⟩, 13) := by
    decide +kernel
  have hsecond : ndntlvPrependInterest { uriA with suite := .ndntlv } (-1) { nonce := 2 } (.room 13) =
      .ok (⟨wroteNdnA 2, 0, Nat.zero_le _⟩, 13) := by
    decide +kernel
  refine ⟨.cons (.ndntlvInterest hfirst) (.cons (.ndntlvInterest hsecond) .nil), ?_⟩
  unfold FrameLaw
  decide +kernel

end Ccnl
