import CcnLite.Pkt.NdntlvGrammar

/-!
# Confinement of the NDN-TLV parser

`ndntlvParse_confined_iff` says for which byte strings the parser stays inside its buffer, keeps
its counters above zero, ends, and returns slices of the bytes that it consumed. The condition
`WireConfined` is about the bytes alone. It asks for more than a well-formed packet: the packet loop
looks for one more header at the end of the last element, so a packet that is a sequence of whole
elements makes it read one byte too many.
-/

namespace Ccnl

open CRun Tlv

/-- The elements of a packet. The walk remembers whether there was a Name. -/
def packetSpec (mem : List UInt8) : ElemSpec Bool where
  Readable _ typ len q named :=
    match ndnTlv typ with
    | .name => named = false → Confined (ndnHeader mem) (nameSpec mem) (q + len) (q, 0)
    | .selectors => Confined (ndnHeader mem) (selectorsSpec mem) (q + len) (q, ())
    | .metaInfo => Confined (ndnHeader mem) (metaInfoSpec mem) (q + len) (q, ())
    | .signatureInfo => Confined (ndnHeader mem) (signatureInfoSpec mem) (q + len) (q, ())
    | .nonce | .scope | .interestLifetime | .fragBeginEndFields => InBuf mem q len
    | .content | .signatureValue | .other => True
  Value _ typ len q named q' len' named' :=
    (match ndnTlv typ with
      | .name => named = false ∧ Ends (ndnHeader mem) (nameSpec mem) (q + len) (q, 0)
      | .selectors => Ends (ndnHeader mem) (selectorsSpec mem) (q + len) (q, ())
      | .metaInfo => Ends (ndnHeader mem) (metaInfoSpec mem) (q + len) (q, ())
      | .signatureInfo => Ends (ndnHeader mem) (signatureInfoSpec mem) (q + len) (q, ())
      | .nonce | .scope | .interestLifetime | .fragBeginEndFields => InBuf mem q len
      | .content | .signatureValue | .other => True) ∧
    q = q' ∧ len = len' ∧ (named || ndnTlv typ == .name) = named'
  Stop _ _ _ := False

/-- Was there a Name? -/
def NdnState.named (s : NdnState) : Bool := s.pkt.pfx.isSome

/-- What an element of a packet makes of the state. -/
inductive NdnTaken (mem : List UInt8) (start hd typ len : Nat) (cur : Cursor) (s : NdnState) :
    NdnState → Prop where
  | name {p : Prefix} (ht : ndnTlv typ = .name) (hnone : s.pkt.pfx = none)
      (h : nested (ndntlvDehead mem) (ndnNameElem mem) ⟨cur.pos, len⟩
        { mem := [], comp := [], suite := .ndntlv, nameptr := some (start + (hd - start)) } = .ok p) :
      NdnTaken mem start hd typ len cur s { s with pkt := { s.pkt with
        pfx := some { p with namelen := cur.pos - (start + (hd - start)) }
        val := 2 ^ 64 - 1 } }
  | selectors {d : NdntlvDetail} (ht : ndnTlv typ = .selectors)
      (h : nested (ndntlvDehead mem) (ndnSelectorsElem mem) ⟨cur.pos, len⟩ s.pkt.ndntlv = .ok d) :
      NdnTaken mem start hd typ len cur s { s with pkt := s.pkt.setNdntlv d }
  | nonce {bs : List UInt8} (ht : ndnTlv typ = .nonce) (h : rdBytes mem cur.pos len = .ok bs) :
      NdnTaken mem start hd typ len cur s
        { s with pkt := s.pkt.setNdntlv { s.pkt.ndntlv with nonce := some bs } }
  | scope {v : Nat} (ht : ndnTlv typ = .scope) (h : ndntlvNonNegInt mem cur.pos len = .ok v) :
      NdnTaken mem start hd typ len cur s
        { s with pkt := s.pkt.setNdntlv { s.pkt.ndntlv with scope := v } }
  | content (ht : ndnTlv typ = .content) : NdnTaken mem start hd typ len cur s
      { s with pkt := { s.pkt with content := some ⟨cur.pos, len⟩ } }
  | metaInfo {d : NdntlvDetail} {v : Nat} (ht : ndnTlv typ = .metaInfo)
      (h : nested (ndntlvDehead mem) (ndnMetaInfoElem mem) ⟨cur.pos, len⟩ (s.pkt.ndntlv, s.pkt.val) =
        .ok (d, v)) :
      NdnTaken mem start hd typ len cur s { s with pkt := { s.pkt.setNdntlv d with val := v } }
  | interestLifetime {v : Nat} (ht : ndnTlv typ = .interestLifetime)
      (h : ndntlvNonNegInt mem cur.pos len = .ok v) :
      NdnTaken mem start hd typ len cur s
        { s with pkt := s.pkt.setNdntlv { s.pkt.ndntlv with interestlifetime := v } }
  | fragFields {v : Nat} (ht : ndnTlv typ = .fragBeginEndFields)
      (h : ndntlvNonNegInt mem cur.pos len = .ok v) :
      NdnTaken mem start hd typ len cur s { s with pkt := { s.pkt with
        flags := s.pkt.flags ||| (if v &&& 0x4000 ≠ 0 then pktFragBegin else 0) |||
          (if v &&& 0x8000 ≠ 0 then pktFragEnd else 0)
        val := v &&& 0x3fff } }
  | signatureInfo {hmac : Bool} (ht : ndnTlv typ = .signatureInfo)
      (h : nested (ndntlvDehead mem) (ndnSignatureInfoElem mem) ⟨cur.pos, len⟩ s.validAlgoIsHmac256 =
        .ok hmac) :
      NdnTaken mem start hd typ len cur s { s with validAlgoIsHmac256 := hmac }
  | digest (ht : ndnTlv typ = .signatureValue) (h : s.validAlgoIsHmac256 ∧ len = 32) :
      NdnTaken mem start hd typ len cur s { s with pkt := { s.pkt with
        hmacLen := hd - start
        hmacSignature := some cur.pos } }
  | noDigest (ht : ndnTlv typ = .signatureValue) : NdnTaken mem start hd typ len cur s s
  | other (ht : ndnTlv typ = .other) : NdnTaken mem start hd typ len cur s s

section Elem

variable {mem : List UInt8} {start hd typ len : Nat} {cur : Cursor} {s s' : NdnState}

/-- The body of the packet loop does nothing else. -/
theorem ndnElem_taken (h : ndnElem mem start hd typ len cur s = .ok s') :
    NdnTaken mem start hd typ len cur s s' := by
  unfold ndnElem at h
  dsimp only at h
  cases ht : ndnTlv typ <;> rw [ht] at h <;> dsimp only at h
  case name =>
    split at h
    · cases h
    · rename_i hsome
      obtain ⟨p, hp, h⟩ := (bind_eq_ok _ _ _).mp h
      cases h
      exact .name ht (Option.not_isSome_iff_eq_none.mp hsome) hp
  case content =>
    cases h
    exact .content ht
  case signatureValue =>
    split at h
    · rename_i hs
      cases h
      exact .digest ht hs
    · cases h
      exact .noDigest ht
  case other =>
    cases h
    exact .other ht
  all_goals
    obtain ⟨v, hv, h⟩ := (bind_eq_ok _ _ _).mp h
    cases h
  case selectors => exact .selectors ht hv
  case nonce => exact .nonce ht hv
  case scope => exact .scope ht hv
  case metaInfo => exact .metaInfo ht hv
  case interestLifetime => exact .interestLifetime ht hv
  case fragBeginEndFields => exact .fragFields ht hv
  case signatureInfo => exact .signatureInfo ht hv

/-- The body of the packet loop finds out about the Name. -/
theorem ndnElem_named (h : ndnElem mem start hd typ len cur s = .ok s') :
    s'.named = (s.named || ndnTlv typ == .name) := by
  unfold NdnState.named
  cases ndnElem_taken h with
  | name ht hnone => simp [ht]
  | selectors ht | nonce ht | scope ht | content ht | metaInfo ht | interestLifetime ht
  | fragFields ht | signatureInfo ht | digest ht | noDigest ht | other ht =>
    simp [ht, Pkt.setNdntlv]

/-- The body of the packet loop is confined exactly when the value on the wire is. -/
theorem safe_ndnElem {lim : Nat} : Safe (ndnElem mem start hd typ len cur s) ↔
    (packetSpec mem).Readable lim typ len cur.pos s.named := by
  unfold ndnElem packetSpec
  cases ht : ndnTlv typ <;>
    simp only [ht, safe_bind, safe_pure, safe_ite, safe_throw, safe_rdBytes, safe_nonNegInt,
      safe_nested (dehead_decodes mem) (nameSpec_models mem),
      safe_nested (dehead_decodes mem) (selectorsSpec_models mem),
      safe_nested (dehead_decodes mem) (metaInfoSpec_models mem),
      safe_nested (dehead_decodes mem) (signatureInfoSpec_models mem),
      implies_true, and_true, true_and, Bool.not_eq_true]
  case name => rfl

/-- The body of the packet loop returns exactly when the value on the wire can be taken. -/
theorem ndnElem_returns : (∃ s', ndnElem mem start hd typ len cur s = .ok s') ↔
    match ndnTlv typ with
    | .name => s.named = false ∧
      Ends (ndnHeader mem) (nameSpec mem) (cur.pos + len) (cur.pos, 0)
    | .selectors => Ends (ndnHeader mem) (selectorsSpec mem) (cur.pos + len) (cur.pos, ())
    | .metaInfo => Ends (ndnHeader mem) (metaInfoSpec mem) (cur.pos + len) (cur.pos, ())
    | .signatureInfo => Ends (ndnHeader mem) (signatureInfoSpec mem) (cur.pos + len) (cur.pos, ())
    | .nonce | .scope | .interestLifetime | .fragBeginEndFields => InBuf mem cur.pos len
    | .content | .signatureValue | .other => True := by
  have hs := nested_returns (dehead_decodes mem) (selectorsSpec_models mem) ⟨cur.pos, len⟩
    s.pkt.ndntlv
  have hm := nested_returns (dehead_decodes mem) (metaInfoSpec_models mem) ⟨cur.pos, len⟩
    (s.pkt.ndntlv, s.pkt.val)
  have hi := nested_returns (dehead_decodes mem) (signatureInfoSpec_models mem) ⟨cur.pos, len⟩
    s.validAlgoIsHmac256
  have hn := nested_returns (dehead_decodes mem) (nameSpec_models mem) ⟨cur.pos, len⟩
    { mem := [], comp := [], suite := .ndntlv, nameptr := some (start + (hd - start)) }
  simp only [Prefix.compcnt, List.length_nil] at hs hm hi hn
  unfold ndnElem NdnState.named
  cases ht : ndnTlv typ <;> simp only [bind_eq_ok, pure_eq_ok]
  case name =>
    rw [← hn]
    cases s.pkt.pfx
    · simp only [Option.isSome_none, Bool.false_eq_true, ↓reduceIte, bind_eq_ok, pure_eq_ok,
        true_and]
      exact returns_map _ _
    · simp
  case selectors => rw [← hs]; exact returns_map _ _
  case metaInfo => rw [← hm]; exact returns_map _ _
  case signatureInfo => rw [← hi]; exact returns_map _ _
  case signatureValue =>
    split <;> simp
  case content => simp
  case other => simp
  all_goals
    rw [returns_map]
    simp

theorem ndnElem_takes (mem : List UInt8) (start : Nat) :
    Takes (ndnElem mem start) (packetSpec mem) NdnState.named where
  readable _ _ _ _ _ := safe_ndnElem
  value hd typ i cp a q' i' b' := by
    constructor
    · rintro ⟨h, rfl, rfl, rfl⟩
      obtain ⟨a', ha⟩ := ndnElem_returns.mpr h
      exact ⟨a', ha, rfl, rfl, ndnElem_named ha⟩
    · rintro ⟨a', ha, rfl, rfl, rfl⟩
      exact ⟨ndnElem_returns.mp ⟨a', ha⟩, rfl, rfl, (ndnElem_named ha).symm⟩

end Elem

/-! ## Slices -/

section Inside

variable {mem : List UInt8} {start : Nat}

/-- The components of a name lie in its value. -/
theorem name_inside {cp : Cursor} {p p' : Prefix} (h0 : p.comp = [])
    (h : nested (ndntlvDehead mem) (ndnNameElem mem) cp p = .ok p') :
    p'.nameptr = p.nameptr ∧ ∀ s ∈ p'.comp, s.Within cp.pos (cp.pos + cp.len) := by
  let I : Nat → Prefix → Prop := fun k q =>
    cp.pos ≤ k ∧ q.nameptr = p.nameptr ∧ ∀ t ∈ q.comp, t.Within cp.pos k
  let Q : Prefix → Prop := fun q =>
    q.nameptr = p.nameptr ∧ ∀ t ∈ q.comp, t.Within cp.pos (cp.pos + cp.len)
  refine nested_inv (dehead_decodes mem) (nameSpec_models mem) (I := I) (Q := Q) h
    ⟨Nat.le_refl _, rfl, by simp [h0]⟩ ?_ ?_ ?_
  · rintro k typ i c₁ c₂ i' q q' ⟨hk, hn, hq⟩ hh he hc hle
    have hlt := (dehead_decodes mem).lt _ _ _ _ _ hh
    obtain ⟨-, he⟩ := nameElem_eq_ok.mp he
    cases he
    refine ⟨by omega, ?_, ?_⟩
    · rw [← hn]
      unfold withComponent
      split <;> rfl
    · intro t ht
      have hold : ∀ t ∈ q.comp, t.Within cp.pos (c₁.pos + i) := fun t ht =>
        (hq t ht).mono (Nat.le_refl _) (by omega)
      unfold withComponent at ht
      split at ht
      · simp only [List.mem_append, List.mem_singleton] at ht
        rcases ht with ht | rfl
        · exact hold t ht
        · exact ⟨by simp only; omega, by simp only; omega⟩
      · exact hold t ht
  · rintro k q ⟨-, hn, hq⟩ hk
    exact ⟨hn, fun t ht => (hq t ht).mono (Nat.le_refl _) hk⟩
  · intro k typ i c₁ q q' _ he
    obtain ⟨-, he⟩ := nameElem_eq_ok.mp he
    cases he

/-- The body of the packet loop keeps the slices between the start of the packet and the end of the
element. -/
theorem ndnElem_inside {hd typ len : Nat} {cur : Cursor} {s s' : NdnState}
    (h : ndnElem mem start hd typ len cur s = .ok s') (hp : s.pkt.Inside start hd)
    (hlt : hd < cur.pos) (hs : start ≤ hd) : s'.pkt.Inside start (cur.pos + len) := by
  have hmono := hp.mono (show hd ≤ cur.pos + len by omega)
  cases ndnElem_taken h with
  | @name p _ _ hn =>
    obtain ⟨hptr, hcomp⟩ := name_inside rfl hn
    refine ⟨hmono.content, ?_⟩
    rintro q ⟨⟩
    refine ⟨fun t ht => (hcomp t ht).mono (by simp only; omega) (Nat.le_refl _), ?_⟩
    intro a ha
    simp only [hptr, Option.some.injEq] at ha
    simp only
    omega
  | content =>
    refine ⟨?_, hmono.pfx⟩
    rintro t ⟨⟩
    exact ⟨by simp only; omega, Nat.le_refl _⟩
  | selectors | nonce | scope | metaInfo | interestLifetime | fragFields | signatureInfo | digest
  | noDigest | other => exact ⟨hmono.content, hmono.pfx⟩

/-- A packet in which nothing has been found. -/
theorem ndnPkt_inside (typ start lo hi : Nat) : (ndnPkt typ start).Inside lo hi :=
  ⟨by simp [ndnPkt], by simp [ndnPkt]⟩

/-- The packet loop ends with the slices between the start of the packet and the cursor. -/
theorem packetLoop_inside {c c' : Cursor} {s s' : NdnState}
    (h : top (ndntlvDehead mem) (ndnElem mem start) c s = .ok (c', s')) (hs : start ≤ c.pos)
    (h0 : s.pkt.Inside start c.pos) :
    s'.pkt.Inside start c'.pos ∧ c'.pos + c'.len = c.pos + c.len ∧ c.pos ≤ c'.pos := by
  obtain ⟨⟨p, hp, hp', hin⟩, hlim⟩ := top_inv (dehead_decodes mem)
    (I := fun p s => s.pkt.Inside start p) h h0
    fun p typ len cur a a' ha hle hlt he _ => ndnElem_inside he ha hlt (by omega)
  exact ⟨hin.mono hp', hlim, by omega⟩

/-- What `ndntlvBytes2pkt` returns: the packet's bytes, with its slices among them. -/
theorem ndntlvBytes2pkt_inside {pkttype : Nat} {c c' : Cursor} {pkt : Pkt}
    (h : ndntlvBytes2pkt mem pkttype start c = .ok (pkt, c')) (hs : start ≤ c.pos) :
    c.pos ≤ c'.pos ∧ c'.pos + c'.len = c.pos + c.len ∧
      pkt.buf = (mem.drop start).take (c'.pos - start) ∧ pkt.Inside 0 (c'.pos - start) := by
  obtain ⟨-, s, hl, -, buf, hbuf, rfl⟩ := ndntlvBytes2pkt_eq_ok.mp h
  obtain ⟨hin, hlim, hle⟩ := packetLoop_inside hl hs (ndnPkt_inside _ _ _ _)
  exact ⟨hle, hlim, (rdBytes_eq_ok.mp hbuf).2.symm, hin.rebase _⟩

/-- `ndntlvBytes2pkt` is confined exactly when the walk over the elements is. -/
theorem safe_ndntlvBytes2pkt {pkttype : Nat} {c : Cursor} (hs : start ≤ c.pos)
    (hc : c.pos + c.len ≤ mem.length) :
    Safe (ndntlvBytes2pkt mem pkttype start c) ↔
      (pkttype = ndnTlvInterest ∨ pkttype = ndnTlvData →
        TopConfined (ndnHeader mem) (packetSpec mem) (c.pos + c.len) (c.pos, false)) := by
  unfold ndntlvBytes2pkt
  by_cases ht : pkttype ≠ ndnTlvInterest ∧ pkttype ≠ ndnTlvData
  · simp [ht]
  · have ht' : pkttype = ndnTlvInterest ∨ pkttype = ndnTlvData := by omega
    simp only [ht, ↓reduceIte, ht', forall_const]
    rw [safe_bind]
    refine Iff.trans (and_iff_left fun (c', s) hl => ?_)
      (safe_top (dehead_decodes mem) (ndnElem_takes mem start) c _)
    obtain ⟨-, hlim, -⟩ := packetLoop_inside hl hs (ndnPkt_inside _ _ _ _)
    have : InBuf mem start (c'.pos - start) := by
      unfold InBuf
      omega
    simp [this]

end Inside

/-! ## The parser as a whole -/

/-- The claim of confinement for the bytes `mem`: no fault, and the name and content slices lie
among the bytes that were consumed. -/
def NdnConfined (mem : List UInt8) : Prop :=
  Safe (ndntlvParse mem ⟨0, mem.length⟩) ∧
    ∀ pkt c, ndntlvParse mem ⟨0, mem.length⟩ = .ok (pkt, c) →
      pkt.buf = mem.take c.pos ∧ pkt.Inside 0 c.pos

/-- The header of the packet can be read inside the buffer; and if it is the header of an Interest
or a Data that fits, then at every place that the walk over the elements comes to, the next header
can be read, the parts of its value that the parser looks at can, and the value of an element that
is taken ends inside the buffer. -/
def WireConfined (mem : List UInt8) : Prop :=
  HeadReadable mem mem.length 0 ∧
    ∀ typ len q, Head mem mem.length 0 typ len q → q + len ≤ mem.length →
      typ = ndnTlvInterest ∨ typ = ndnTlvData →
        TopConfined (ndnHeader mem) (packetSpec mem) mem.length (q, false)

/-- The NDN-TLV parser is confined to its buffer exactly on the byte strings with
`WireConfined`. -/
theorem ndntlvParse_confined_iff (mem : List UInt8) : NdnConfined mem ↔ WireConfined mem := by
  have hinside : ∀ pkt c, ndntlvParse mem ⟨0, mem.length⟩ = .ok (pkt, c) →
      pkt.buf = mem.take c.pos ∧ pkt.Inside 0 c.pos := by
    intro pkt c h
    obtain ⟨typ, len, c₁, pkt', -, -, hp, rfl⟩ := ndntlvParse_eq_ok.mp h
    obtain ⟨-, -, hbuf, hin⟩ := ndntlvBytes2pkt_inside hp (Nat.zero_le _)
    exact ⟨by simpa using hbuf, hin.content, hin.pfx⟩
  unfold NdnConfined WireConfined
  rw [and_iff_left hinside]
  unfold ndntlvParse
  rw [safe_bind, safe_dehead]
  simp only [Nat.zero_add]
  refine and_congr_right fun _ => ?_
  constructor
  · intro hx typ len q hh hle ht
    have hlt := hh.lt
    have := hx _ (dehead_of_head (c := ⟨0, mem.length⟩) (by simpa using hh))
    simp only [Nat.zero_add] at this
    rw [if_neg (by omega), safe_bind] at this
    have := (safe_ndntlvBytes2pkt (Nat.zero_le _) (by simp only; omega)).mp this.1 ht
    have hlim : q + (mem.length - q) = mem.length := by omega
    simpa only [hlim] using this
  · intro hx x hok
    match x with
    | (none, _) => simp
    | (some (typ, len), c₁) =>
      obtain ⟨hh, hlim⟩ := dehead_eq_ok.mp hok
      simp only [Nat.zero_add] at hh hlim
      simp only
      split
      · simp
      · rw [safe_bind]
        refine ⟨(safe_ndntlvBytes2pkt (Nat.zero_le _) (by omega)).mpr fun ht => ?_, fun _ _ => ?_⟩
        · rw [hlim]
          exact hx _ _ _ hh (by omega) ht
        · simp

/-- The Interest `05 00`, whose header says that nothing follows, makes the parser read the byte
after the end. -/
theorem ndntlvParse_empty_interest : ¬ NdnConfined [0x05, 0x00] := by
  intro h
  have := h.1 (.oob 2) rfl
  cases this

end Ccnl
