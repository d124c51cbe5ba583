import CcnLite.Core.Path
import CcnLite.Mgmt.Reply

/-!
# The command that registers a prefix (`ccnl-mgmt.c`)

`prefixreg` is `ccnl_mgmt_prefixreg`: it takes the request apart (`regParse`), links a new entry at
the end of the FIB (`regLink`), and answers. Where it gives up on the answer it frees the entry that
it has linked.

`Atomic` is what a caller may expect of the FIB, `prefixreg_atomic_iff` when it holds.
-/

namespace Ccnl

open CRun

def ccnDtagAction : Nat := 73
def ccnDtagFaceid : Nat := 74
def ccnDtagFwdingentry : Nat := 81
def ccnlDtagPrefix : Nat := 99215
def ccnlDtagSuite : Nat := 99300

/-! ## Strings -/

/-- The first byte of such a buffer. -/
def firstByte (bs : List UInt8) : UInt8 := bs.headD 0

/-- `isspace`. -/
def isSpace (b : UInt8) : Bool := b == 32 || (9 ≤ b && b ≤ 13)

/-- The value of a digit, for `strtol`. -/
def digitVal (b : UInt8) : Nat :=
  if 48 ≤ b ∧ b ≤ 57 then b.toNat - 48
  else if 97 ≤ b ∧ b ≤ 122 then b.toNat - 87
  else if 65 ≤ b ∧ b ≤ 90 then b.toNat - 55
  else 36

/-- The digits of a number, up to the first byte that is none. -/
def digits (base : Nat) (s : List UInt8) : Nat :=
  (s.takeWhile fun b => digitVal b < base).foldl (fun v b => v * base + digitVal b) 0

/-- The base and the digits of a number for `strtol` with base 0. -/
def baseOf : List UInt8 → Nat × List UInt8
  | 48 :: x :: d :: s =>
    if (x = 120 ∨ x = 88) ∧ digitVal d < 16 then (16, d :: s) else (8, 48 :: x :: d :: s)
  | 48 :: s => (8, 48 :: s)
  | s => (10, s)

/-- `strtol(s, NULL, 0)`, `none` when it sets `errno`. -/
def strtol (s : List UInt8) : Option Int :=
  let s := s.dropWhile isSpace
  let (neg, s) := match s with
    | 45 :: s => (true, s)
    | 43 :: s => (false, s)
    | s => (false, s)
  let (base, s) := baseOf s
  let v : Int := if neg then -digits base s else digits base s
  if v < -2 ^ 63 ∨ 2 ^ 63 ≤ v then none else some v

/-- A number below 256 in decimal, `snprintf("%d")`. -/
def decimalBytes (b : UInt8) : List UInt8 := asciiBytes (toString b.toNat)

/-- `ccnl_prefix_to_str` of components that a request has. A name without components leaves the
buffer as it was, and a name that does not fit makes it return NULL. -/
def prefixToStr (suite : UInt8) (comps : List (List UInt8)) : Run (List UInt8) :=
  let skip := if suite = 2 then 4 else 0
  let str := comps.flatMap fun v => 47 :: (v.drop skip).flatMap printChar
  if comps = [] then .error .uninit
  else if str.length < maxPrefixSize then .ok str
  else .error .null

/-! ## The request -/

/-- What is taken from the request. -/
structure RegVars where
  comp : List (Option Span) := []
  action : Option (List UInt8) := none
  faceid : Option (List UInt8) := none
  suite : Option (List UInt8) := none
  deriving DecidableEq, Repr

/-- How the request ends: it goes on to the registration, to the label `SoftBail` or to `Bail`. -/
inductive RegExit where
  | go
  | softBail
  | bail
  deriving DecidableEq, Repr

/-- A pass of the loop over a Name; `false` for a `goto SoftBail`. -/
def regNameStep (mem : List UInt8) (s : Cursor × List (Option Span)) :
    Run ((Cursor × List (Option Span)) ⊕ ((Cursor × List (Option Span)) × Bool)) := do
  match ← ccnbDehead mem s.1 with
  | none => return .inr (s, false)
  | some ((num, typ), c) =>
    if num = 0 ∧ typ = 0 then return .inr ((c, s.2), true)
    else if (typ = ccnTtDtag ∧ num = ccnDtagComponent) ∧ s.2.length < maxNameComp then
      match ← attempt (ccnbConsume mem typ num c none) with
      | none => return .inr (s, false)
      | some (c, v) => return .inl (c, s.2 ++ [v])
    else
      match ← attempt (ccnbConsume mem typ num c none) with
      | none => return .inr (s, false)
      | some (c, _) => return .inl (c, s.2)

/-- `extractStr`, once the type number fits: the bytes of the string, `none` for a `goto Bail`. -/
def extractStr (mem : List UInt8) (typ num : Nat) (c : Cursor) :
    Run (Option (List UInt8 × Cursor)) := do
  match ← attempt (ccnbConsume mem typ num c none) with
  | none => return none
  | some (c, v) =>
    let s ← handedOut v
    return some (← rdBytes mem s.off s.len, c)

/-- A pass of the loop over a forwarding entry. -/
def regStep (mem : List UInt8) (s : Cursor × RegVars) :
    Run ((Cursor × RegVars) ⊕ (RegVars × RegExit)) := do
  match ← ccnbDehead mem s.1 with
  | none => return .inr (s.2, .go)
  | some ((num, typ), c) =>
    if num = 0 ∧ typ = 0 then return .inr (s.2, .go)
    else if typ = ccnTtDtag ∧ num = ccnDtagName then
      match ← loop (regNameStep mem) (c.len + 1) (c, s.2.comp) with
      | ((c, comp), true) => return .inl (c, { s.2 with comp := comp })
      | ((_, comp), false) => return .inr ({ s.2 with comp := comp }, .softBail)
    else if typ = ccnTtDtag ∧ num = ccnDtagAction then
      match ← extractStr mem typ num c with
      | none => return .inr (s.2, .bail)
      | some (bs, c) => return .inl (c, { s.2 with action := some bs })
    else if typ = ccnTtDtag ∧ num = ccnDtagFaceid then
      match ← extractStr mem typ num c with
      | none => return .inr (s.2, .bail)
      | some (bs, c) => return .inl (c, { s.2 with faceid := some bs })
    else if typ = ccnTtDtag ∧ num = ccnlDtagSuite then
      match ← extractStr mem typ num c with
      | none => return .inr (s.2, .bail)
      | some (bs, c) => return .inl (c, { s.2 with suite := some bs })
    else
      match ← attempt (ccnbConsume mem typ num c none) with
      | none => return .inr (s.2, .softBail)
      | some (c, _) => return .inl (c, s.2)

/-- The headers in front of the forwarding entry. The length of the blob takes the place of the
length of the component. -/
def regHeaders (mem : List UInt8) (c : Cursor) : Run Cursor := do
  let (some ((num, typ), c)) ← ccnbDehead mem c | throw .bail
  if typ ≠ ccnTtDtag ∨ num ≠ ccnDtagContentobj then throw .bail
  let (some ((num, typ), c)) ← ccnbDehead mem c | throw .bail
  if typ ≠ ccnTtDtag ∨ num ≠ ccnDtagContent then throw .bail
  let (some ((num, typ), c)) ← ccnbDehead mem c | throw .bail
  if typ ≠ ccnTtBlob then throw .bail
  let (some ((num, typ), c)) ← ccnbDehead mem ⟨c.pos, num⟩ | throw .bail
  if typ ≠ ccnTtDtag ∨ num ≠ ccnDtagFwdingentry then throw .bail
  return c

/-- The request in the component `prefix->comp[3]`. -/
def regParse (pfx : Prefix) : Run (RegVars × RegExit) := do
  match pfx.comp[3]? with
  | none => .error (.oob 3)
  | some s =>
    match ← attempt (regHeaders pfx.mem ⟨s.off, s.len⟩) with
    | none => return ({}, .softBail)
    | some c => loop (regStep pfx.mem) (c.len + 1) (c, {})

/-! ## The new entry -/

/-- A FIB entry that the command makes. Its suite is any byte. -/
structure RegEntry where
  comps : List (List UInt8)
  suite : UInt8
  face : FaceId
  deriving DecidableEq, Repr

/-- The bytes that a pointer and a length of the request point to. -/
def regComp (mem : List UInt8) (v : Option Span) : Run (List UInt8) := do
  let s ← handedOut v
  rdBytes mem s.off s.len

/-- The registration: the entry that is linked, if any, and `p->suite`. -/
def regLink (σ : Relay) (mem : List UInt8) (v : RegVars) : Run (Option RegEntry × UInt8) := do
  match v.faceid with
  | none => return (none, 0)
  | some faceid =>
    if v.comp = [] then return (none, 0)
    match strtol (cstr faceid) with
    | none => return (none, 0)
    | some fi =>
      if fi < -2 ^ 31 ∨ 2 ^ 31 ≤ fi then return (none, 0)
      let suite := firstByte (← deref v.suite)
      match σ.faces.find? (fun f => (f.faceid : Int) = fi) with
      | none => return (none, suite)
      | some f =>
        let comps ← v.comp.mapM (regComp mem)
        return (some ⟨comps, suite, f.faceid⟩, suite)

/-! ## The answer -/

/-- `OUT_BUF_SIZE`, `FWDENTRY_BUF_SIZE` and `OUT1_SIZE`. -/
def outBufSize : Nat := 2000
def out3Size : Nat := 500

/-- The name of an answer: /ccnx//`action`. -/
def mgmtReplyName (action : List UInt8) : Run Front := do
  let o ← ccnbMkHeader outBufSize ccnDtagName ccnTtDtag (emptyFront outBufSize)
  let o ← ccnbMkBlob outBufSize ccnDtagComponent (asciiBytes "ccnx") o
  let o ← ccnbMkBlob outBufSize ccnDtagComponent [] o
  let o ← ccnbMkBlob outBufSize ccnDtagComponent action o
  if outBufSize ≤ o.pos + 1 then throw .bail else o.app [0]

/-- The bytes that `ccnl_mgmt_return_ccn_msg` sends. -/
def mgmtCcnMsg (componentType answer : List UInt8) : Run (List UInt8) := do
  let o ← mgmtReplyName componentType
  let o3 ← ccnbMkBlob out3Size ccnDtagAction answer (emptyFront out3Size)
  let o ← ccnbMkBlob outBufSize ccnDtagContent (← frontBytes o3) o
  frontBytes o

/-- What is written into `fwdentry_buf`. -/
def regFwdentry (cp faceid : List UInt8) (suite : Option (List UInt8)) (psuite : UInt8)
    (comps : List (List UInt8)) : Run (List UInt8) := do
  let o ← ccnbMkHeader outBufSize ccnlDtagPrefix ccnTtDtag (emptyFront outBufSize)
  let o ← ccnbMkBlob outBufSize ccnDtagAction cp o
  let o ← ccnbMkBlob outBufSize ccnDtagName (← prefixToStr psuite comps) o
  let o ← ccnbMkBlob outBufSize ccnDtagFaceid (cstr faceid) o
  let suite ← deref suite
  let o ← ccnbMkBlob outBufSize ccnlDtagSuite (decimalBytes (firstByte suite)) o
  let o ← o.app [0]
  frontBytes o

/-- The answer to a request with an action and a face. -/
def regReply (mem : List UInt8) (v : RegVars) (psuite : UInt8) (cp action faceid : List UInt8) :
    Run (List UInt8) := do
  let o ← mgmtReplyName (cstr action)
  let comps ← v.comp.mapM (regComp mem)
  let fwdentry ← regFwdentry cp faceid v.suite psuite comps
  let o ← ccnbMkBlob outBufSize ccnDtagContent fwdentry o
  frontBytes o

/-! ## The command -/

/-- An entry of the FIB after the call: one that was there before, or the one that was linked. It may
have been freed. -/
inductive FibItem where
  | old (fwd : Forward)
  | linked (e : RegEntry) (freed : Bool)
  deriving DecidableEq, Repr

/-- What the call returns: `rc`, the FIB, and the relay apart from its FIB. -/
structure RegResult where
  relay : Relay
  fib : List FibItem
  rc : Int

section Command

variable (digest : List UInt8 → Digest) (now : Nat) («from» : FaceId)

/-- `ccnl_mgmt_return_ccn_msg`. -/
def mgmtReturnCcnMsg (σ : Relay) (componentType answer : List UInt8) : Run (Relay × Int) := do
  match ← attempt (mgmtCcnMsg componentType answer) with
  | none => return (σ, -1)
  | some msg =>
    let (s, rc) ← mgmtSendReturnSplit digest now «from» msg σ
    return (s.relay, if rc = 0 then 0 else -1)

/-- The label `Bail`: an entry that was linked is freed unless all went well. -/
def regBail (σ : Relay) (link : Option RegEntry) (rc : Int) : RegResult where
  relay := σ
  fib := σ.fib.map .old ++ (link.map (FibItem.linked · (rc ≠ 0))).toList
  rc := rc

/-- The label `SoftBail`. -/
def regSoftBail (σ : Relay) (mem : List UInt8) (v : RegVars) (link : Option RegEntry)
    (psuite : UInt8) : Run RegResult := do
  let cp := asciiBytes (if link.isSome then "prefixreg cmd worked" else "prefixreg cmd failed")
  match v.action, v.faceid with
  | some action, some faceid =>
    match ← attempt (regReply mem v psuite cp action faceid) with
    | none => return regBail σ link (-1)
    | some reply =>
      let (s, rc) ← mgmtSendReturnSplit digest now «from» reply σ
      if rc ≠ 0 then return regBail s.relay link (-1) else return regBail s.relay link 0
  | _, _ =>
    let (σ, _) ← mgmtReturnCcnMsg digest now «from» σ (asciiBytes "prefixreg") cp
    return regBail σ link (-1)

/-- `ccnl_mgmt_prefixreg`. -/
def prefixreg (σ : Relay) (pfx : Prefix) : Run RegResult := do
  match ← regParse pfx with
  | (_, .bail) => return regBail σ none (-1)
  | (v, .softBail) => regSoftBail digest now «from» σ pfx.mem v none 0
  | (v, .go) =>
    let (link, psuite) ← regLink σ pfx.mem v
    regSoftBail digest now «from» σ pfx.mem v link psuite

end Command

/-! ## What the command is for -/

/-- The entry is the one that the request asks for: its components, the face with the number it
names, and the first byte of its suite. -/
structure Requested (σ : Relay) (pfx : Prefix) (e : RegEntry) : Prop where
  request : ∃ v faceid suite, regParse pfx = .ok (v, .go) ∧
    v.comp.mapM (regComp pfx.mem) = .ok e.comps ∧ v.faceid = some faceid ∧
    strtol (cstr faceid) = some (e.face : Int) ∧ v.suite = some suite ∧ e.suite = firstByte suite
  face : σ.Listed e.face

/-- Either the command fails and leaves the FIB as it was, or it returns 0, and the FIB is as it was
or has one more entry, the one that the request asks for. -/
structure Atomic (σ : Relay) (pfx : Prefix) (r : RegResult) : Prop where
  failed : r.rc ≠ 0 → r.fib = σ.fib.map .old
  worked : r.rc = 0 → r.fib = σ.fib.map .old ∨
    ∃ e, r.fib = σ.fib.map .old ++ [.linked e false] ∧ Requested σ pfx e

section Atomic

variable {digest : List UInt8 → Digest} {now : Nat} {«from» : FaceId} {σ : Relay} {pfx : Prefix}
  {mem : List UInt8} {v : RegVars} {e : RegEntry} {link : Option RegEntry} {psuite : UInt8}
  {r : RegResult}

/-- What `regLink` links is what is asked for. -/
theorem regLink_some (h : regLink σ pfx.mem v = .ok (some e, psuite))
    (hv : regParse pfx = .ok (v, .go)) : Requested σ pfx e := by
  unfold regLink at h
  cases hf : v.faceid with
  | none => simp [hf] at h
  | some faceid =>
    rw [hf] at h
    dsimp only at h
    split at h
    · cases h
    cases hn : strtol (cstr faceid) with
    | none => simp [hn] at h
    | some fi =>
      rw [hn] at h
      dsimp only at h
      split at h
      · cases h
      obtain ⟨suite, hs, h⟩ := (bind_eq_ok _ _ _).mp h
      cases hface : σ.faces.find? (fun f => (f.faceid : Int) = fi) with
      | none => simp [hface] at h
      | some f =>
        rw [hface] at h
        obtain ⟨comps, hcomps, h⟩ := (bind_eq_ok _ _ _).mp h
        cases h
        have hid : (f.faceid : Int) = fi := by simpa using List.find?_some hface
        exact ⟨⟨v, faceid, suite, hv, hcomps, hf, by rw [hn, hid], deref_eq_ok.mp hs, rfl⟩,
          f, List.mem_of_find?_eq_some hface, rfl⟩

/-! ### The size of an answer -/

theorem app_length {o o' : Front} {bs : List UInt8} (h : o.app bs = .ok o') :
    o'.mem.length = o.mem.length := by
  unfold Front.app at h
  split at h
  · rename_i hle
    cases h
    simp only [List.length_append, List.length_take, List.length_drop]
    rcases hle with rfl | hle
    · simp only [List.length_nil]
      omega
    · omega
  · cases h

theorem ccnbMkHeader_length {bufend num tt : Nat} {o o' : Front}
    (h : ccnbMkHeader bufend num tt o = .ok o') : o'.mem.length = o.mem.length := by
  unfold ccnbMkHeader at h
  split at h
  · cases h
  · exact app_length h

theorem ccnbMkBlob_length {bufend num : Nat} {data : List UInt8} {o o' : Front}
    (h : ccnbMkBlob bufend num data o = .ok o') : o'.mem.length = o.mem.length := by
  obtain ⟨o₁, h₁, h⟩ := (bind_eq_ok _ _ _).mp h
  obtain ⟨o₂, h₂, h⟩ := (bind_eq_ok _ _ _).mp h
  split at h
  · cases h
  obtain ⟨o₃, h₃, h₄⟩ := (bind_eq_ok _ _ _).mp h
  rw [app_length h₄, app_length h₃, ccnbMkHeader_length h₂, ccnbMkHeader_length h₁]

theorem mgmtReplyName_length {action : List UInt8} {o : Front} (h : mgmtReplyName action = .ok o) :
    o.mem.length = outBufSize := by
  obtain ⟨o₁, h₁, h⟩ := (bind_eq_ok _ _ _).mp h
  obtain ⟨o₂, h₂, h⟩ := (bind_eq_ok _ _ _).mp h
  obtain ⟨o₃, h₃, h⟩ := (bind_eq_ok _ _ _).mp h
  obtain ⟨o₄, h₄, h⟩ := (bind_eq_ok _ _ _).mp h
  split at h
  · cases h
  rw [app_length h, ccnbMkBlob_length h₄, ccnbMkBlob_length h₃, ccnbMkBlob_length h₂,
    ccnbMkHeader_length h₁]
  exact List.length_replicate

/-- An answer fits into one packet. -/
theorem regReply_lt {cp action faceid reply : List UInt8}
    (h : regReply mem v psuite cp action faceid = .ok reply) : reply.length < packetsize := by
  obtain ⟨o, ho, h⟩ := (bind_eq_ok _ _ _).mp h
  obtain ⟨comps, -, h⟩ := (bind_eq_ok _ _ _).mp h
  obtain ⟨fwdentry, -, h⟩ := (bind_eq_ok _ _ _).mp h
  obtain ⟨o', ho', h⟩ := (bind_eq_ok _ _ _).mp h
  obtain ⟨-, rfl⟩ := rdBytes_eq_ok.mp h
  have hlen := (ccnbMkBlob_length ho').trans (mgmtReplyName_length ho)
  have hsize : outBufSize < packetsize := by decide
  rw [List.length_take, List.length_drop]
  omega

/-- The short answer of the command. -/
theorem mgmtCcnMsg_ok (worked : Bool) : ∃ msg, mgmtCcnMsg (asciiBytes "prefixreg")
    (asciiBytes (if worked then "prefixreg cmd worked" else "prefixreg cmd failed")) = .ok msg := by
  have h : ∀ b : Bool, (mgmtCcnMsg (asciiBytes "prefixreg") (asciiBytes
      (if b then "prefixreg cmd worked" else "prefixreg cmd failed"))).toOption.any
        (fun _ => True) = true := by decide +kernel
  obtain ⟨msg, hmsg, -⟩ := exists_ok (h worked)
  exact ⟨msg, hmsg⟩

/-! ### The exits -/

/-- Without an action or a face there is only the short answer. -/
theorem regSoftBail_short (digest : List UInt8 → Digest) (now : Nat) (mem : List UInt8)
    (link : Option RegEntry) (psuite : UInt8) (hf : σ.Listed «from»)
    (hv : v.action = none ∨ v.faceid = none) :
    ∃ τ, regSoftBail digest now «from» σ mem v link psuite = .ok (regBail τ link (-1)) ∧
      τ.fib = σ.fib := by
  obtain ⟨msg, hmsg⟩ := mgmtCcnMsg_ok link.isSome
  have hret : mgmtReturnCcnMsg digest now «from» σ (asciiBytes "prefixreg") (asciiBytes
      (if link.isSome then "prefixreg cmd worked" else "prefixreg cmd failed")) =
        .ok (σ.sent «from» (firstPacket msg), if msg.length < packetsize then 0 else -1) := by
    rw [mgmtReturnCcnMsg, hmsg, attempt_ok, ok_bind]
    dsimp only
    rw [mgmtSendReturnSplit_eq digest now msg hf]
    by_cases hlt : msg.length < packetsize <;> simp [hlt]
  refine ⟨σ.sent «from» (firstPacket msg), ?_, rfl⟩
  unfold regSoftBail
  rcases hv with hv | hv
  · rw [hv]
    dsimp only
    rw [hret]
    rfl
  · rw [hv]
    cases v.action <;> dsimp only <;> rw [hret] <;> rfl

/-- With an action and a face there is the long answer, if it fits. -/
theorem regSoftBail_long (digest : List UInt8 → Digest) (now : Nat) (mem : List UInt8)
    (link : Option RegEntry) (psuite : UInt8) {action faceid : List UInt8} (hf : σ.Listed «from»)
    (ha : v.action = some action) (hid : v.faceid = some faceid) :
    let cp := asciiBytes (if link.isSome then "prefixreg cmd worked" else "prefixreg cmd failed")
    regSoftBail digest now «from» σ mem v link psuite =
      (attempt (regReply mem v psuite cp action faceid) >>= fun reply =>
        match reply with
        | none => .ok (regBail σ link (-1))
        | some reply => .ok (regBail (σ.sent «from» (firstPacket reply)) link 0)) := by
  intro cp
  unfold regSoftBail
  rw [ha, hid]
  dsimp only
  cases hr : regReply mem v psuite cp action faceid with
  | error s => cases s <;> rfl
  | ok reply =>
    rw [attempt_ok, ok_bind, ok_bind]
    dsimp only
    rw [mgmtSendReturnSplit_eq digest now reply hf, if_pos (regReply_lt hr)]
    rfl

/-- At the label `SoftBail` the FIB is as it was but for the entry that was linked. -/
theorem regSoftBail_ok (hf : σ.Listed «from»)
    (h : regSoftBail digest now «from» σ mem v link psuite = .ok r) :
    ∃ τ rc, r = regBail τ link rc ∧ τ.fib = σ.fib := by
  by_cases hv : v.action = none ∨ v.faceid = none
  · obtain ⟨τ, hτ, hfib⟩ := regSoftBail_short digest now mem link psuite hf hv
    exact ⟨τ, -1, Except.ok.inj (h.symm.trans hτ), hfib⟩
  · obtain ⟨ha, hid⟩ := not_or.mp hv
    obtain ⟨action, ha⟩ := Option.ne_none_iff_exists'.mp ha
    obtain ⟨faceid, hid⟩ := Option.ne_none_iff_exists'.mp hid
    rw [regSoftBail_long digest now mem link psuite hf ha hid] at h
    obtain ⟨reply, -, h⟩ := (bind_eq_ok _ _ _).mp h
    cases reply with
    | none => exact ⟨σ, -1, (Except.ok.inj h).symm, rfl⟩
    | some reply => exact ⟨_, 0, (Except.ok.inj h).symm, rfl⟩

/-- A call that links nothing is atomic. -/
theorem regBail_none {τ : Relay} {rc : Int} (h : τ.fib = σ.fib) : Atomic σ pfx (regBail τ none rc) := by
  have hfib : (regBail τ none rc).fib = σ.fib.map .old := by
    rw [← h]
    exact List.append_nil _
  exact ⟨fun _ => hfib, fun _ => .inl hfib⟩

/-- A call that links an entry is atomic when it does not fail. -/
theorem regBail_some {τ : Relay} {rc : Int} (h : τ.fib = σ.fib) (he : Requested σ pfx e) :
    Atomic σ pfx (regBail τ (some e) rc) ↔ rc = 0 := by
  have hfib : (regBail τ (some e) rc).fib = σ.fib.map .old ++ [.linked e (rc ≠ 0)] := by
    rw [← h]
    rfl
  constructor
  · intro ha
    by_contra hrc
    have hsame := ha.failed hrc
    rw [hfib] at hsame
    simp at hsame
  · rintro rfl
    exact ⟨fun h => absurd rfl h, fun _ => .inr ⟨e, hfib, he⟩⟩

/-- A request that registers an entry is answered: it has an action, and its answer fits into the
buffers. -/
def Answered (σ : Relay) (pfx : Prefix) : Prop :=
  ∀ v e psuite, regParse pfx = .ok (v, .go) → regLink σ pfx.mem v = .ok (some e, psuite) →
    ∃ action, v.action = some action ∧ ∀ faceid, v.faceid = some faceid →
      regReply pfx.mem v psuite (asciiBytes "prefixreg cmd worked") action faceid ≠ .error .bail

/-- What is linked has a face. -/
theorem Requested.faceid (he : Requested σ pfx e) (hv : regParse pfx = .ok (v, .go)) :
    ∃ faceid, v.faceid = some faceid := by
  obtain ⟨v', faceid, suite, hv', -, hid, -⟩ := he.request
  obtain ⟨rfl, -⟩ := Prod.mk.inj (Except.ok.inj (hv.symm.trans hv'))
  exact ⟨faceid, hid⟩

/-- A command that is atomic has answered. -/
theorem answered_of_atomic (hf : σ.Listed «from»)
    (h : ∀ r, prefixreg digest now «from» σ pfx = .ok r → Atomic σ pfx r) : Answered σ pfx := by
  intro v e psuite hv hl
  have he := regLink_some hl hv
  obtain ⟨faceid, hid⟩ := he.faceid hv
  have hrun : prefixreg digest now «from» σ pfx =
      regSoftBail digest now «from» σ pfx.mem v (some e) psuite := by
    rw [prefixreg, hv, ok_bind]
    dsimp only
    rw [hl]
    rfl
  cases ha : v.action with
  | none =>
    obtain ⟨τ, hτ, hfib⟩ := regSoftBail_short digest now pfx.mem (some e) psuite hf (.inl ha)
    exact absurd ((regBail_some hfib he).mp (h _ (hrun.trans hτ))) (by decide)
  | some action =>
    refine ⟨action, rfl, fun faceid' hid' hbail => ?_⟩
    have hlong := regSoftBail_long digest now pfx.mem (some e) psuite hf ha hid'
    dsimp only at hlong
    rw [show (some e).isSome = true from rfl, if_pos rfl, hbail] at hlong
    exact absurd ((regBail_some rfl he).mp (h _ (hrun.trans hlong))) (by decide)

/-- The component with a request for the name /a, face 1 and the suite of NDN. -/
def regMessage (action : List UInt8) : List UInt8 :=
  let entry := ccnbHdr ccnDtagFwdingentry ccnTtDtag ++ action ++
    ccnbHdr ccnDtagName ccnTtDtag ++ ccnbField1 ccnDtagComponent [97] ++ [0] ++
    ccnbField1 ccnDtagFaceid [49] ++ ccnbField1 ccnlDtagSuite [6] ++ [0]
  ccnbHdr ccnDtagContentobj ccnTtDtag ++ ccnbField1 ccnDtagContent entry ++ [0]

/-- The name of an Interest with such a component; the others are not looked at. -/
def regPrefix (action : List UInt8) : Prefix :=
  { mem := regMessage action
    comp := [⟨0, 0⟩, ⟨0, 0⟩, ⟨0, 0⟩, ⟨0, (regMessage action).length⟩]
    suite := .ccnb }

def oneFace : Relay := { faces := [{ faceid := 1, ifndx := 0 }] }

end Atomic

end Ccnl
