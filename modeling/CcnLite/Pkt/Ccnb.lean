import CcnLite.Pkt.Buffer

/-!
# The CCNB parser (`ccnl-pkt-ccnb.c`)

The elements of this format have no length; an end marker closes them. `ccnbHuntForEnd` goes to the
marker that closes the element it is in, and `ccnbConsume` goes past one element of any kind; each
calls the other. Both hand out the last blob that they came past, through a pointer and a length
that stay as they were when there is none (`Option Span`).

`cp` and `len` of `ccnl_ccnb_bytes2pkt` are such a pair. A run that uses them after a call that did
not set them stops (`Stop.uninit`), also where an earlier element has left a value there.
-/

namespace Ccnl

open CRun

/-! ## Type numbers -/

def ccnTtDtag : Nat := 2
def ccnTtDattr : Nat := 4
def ccnTtBlob : Nat := 5
def ccnTtUdata : Nat := 6

def ccnDtagName : Nat := 14
def ccnDtagComponent : Nat := 15
def ccnDtagContent : Nat := 19
def ccnDtagInterest : Nat := 26
def ccnDtagNonce : Nat := 41
def ccnDtagContentobj : Nat := 64

/-- The elements that `ccnl_ccnb_bytes2pkt` looks at. -/
inductive CcnDtag where
  | name
  | content
  | scope
  | answerOrigKind
  | minSuffComp
  | maxSuffComp
  | nonce
  | pubPubKDigest
  | other
  deriving DecidableEq, Repr

/-- The labels of the `switch`. -/
def ccnDtag : Nat → CcnDtag
  | 14 => .name
  | 19 => .content
  | 42 => .scope
  | 47 => .answerOrigKind
  | 83 => .minSuffComp
  | 84 => .maxSuffComp
  | 41 => .nonce
  | 60 => .pubPubKDigest
  | _ => .other

/-! ## Headers -/

/-- The loop of `ccnl_ccnb_dehead`: at most `k` more bytes, the last of which has its top bit
set. -/
def ccnbDeheadFrom (mem : List UInt8) : Nat → Nat → Cursor → Run (Option ((Nat × Nat) × Cursor))
  | 0, _, _ => .ok none
  | k + 1, val, c => do
    if c.len = 0 then return none
    let b ← rd mem c.pos
    if 0x80 ≤ b then
      return some ((val * 2 ^ 4 + ((b >>> 3) &&& 0xf).toNat, (b &&& 0x7).toNat),
        ⟨c.pos + 1, c.len - 1⟩)
    else ccnbDeheadFrom mem k (val * 2 ^ 7 + b.toNat) ⟨c.pos + 1, c.len - 1⟩

/-- `ccnl_ccnb_dehead`: the number and the type. On failure the cursor stays. -/
def ccnbDehead (mem : List UInt8) (c : Cursor) : Run (Option ((Nat × Nat) × Cursor)) := do
  if c.len = 0 then return none
  let b ← rd mem c.pos
  if b = 0 then return some ((0, 0), ⟨c.pos + 1, c.len - 1⟩)
  else ccnbDeheadFrom mem 8 0 c

/-! ## Elements -/

/-- `ccnl_ccnb_consume`, given the function that it calls for an element that has others inside. -/
def consumeWith (hunt : Cursor → Option Span → Run (Cursor × Option Span)) (typ num : Nat)
    (c : Cursor) (v : Option Span) : Run (Cursor × Option Span) := do
  if typ = ccnTtBlob ∨ typ = ccnTtUdata then
    let c' ← c.skip num
    return (c', some ⟨c.pos, num⟩)
  else if typ = ccnTtDtag ∨ typ = ccnTtDattr then hunt c v
  else throw .bail

/-- `ccnl_ccnb_hunt_for_end`, with fuel. -/
def huntFrom (mem : List UInt8) : Nat → Cursor → Option Span → Run (Cursor × Option Span)
  | 0, _, _ => .error .fuel
  | n + 1, c, v => do
    match ← ccnbDehead mem c with
    | none => throw .bail
    | some ((num, typ), c) =>
      if num = 0 ∧ typ = 0 then return (c, v)
      let (c, v) ← consumeWith (huntFrom mem n) typ num c v
      huntFrom mem n c v

/-- `ccnl_ccnb_hunt_for_end`. -/
def ccnbHuntForEnd (mem : List UInt8) (c : Cursor) (v : Option Span) : Run (Cursor × Option Span) :=
  huntFrom mem (c.len + 1) c v

/-- `ccnl_ccnb_consume`. -/
def ccnbConsume (mem : List UInt8) (typ num : Nat) (c : Cursor) (v : Option Span) :
    Run (Cursor × Option Span) :=
  consumeWith (ccnbHuntForEnd mem) typ num c v

/-- What a call handed out, if it did. -/
def handedOut (v : Option Span) : Run Span :=
  match v with
  | some s => .ok s
  | none => .error .uninit

/-- `ccnl_ccnb_data2uint`, in 64 bits; it fails at a byte that is not a digit. -/
def ccnbData2uint : List UInt8 → Nat → Option Nat
  | [], val => some val
  | b :: bs, val =>
    if 48 ≤ b ∧ b ≤ 57 then ccnbData2uint bs (u64 (10 * val + b.toNat - 48)) else none

/-! ## The packet loop -/

/-- The variables of `ccnl_ccnb_bytes2pkt`. A component that is counted may have no value yet. -/
structure CcnbState where
  pkt : Pkt
  comp : List (Option Span) := []
  nameptr : Option Nat := none
  namelen : Nat := 0

/-- Replace the CCNB details. -/
def Pkt.setCcnb (p : Pkt) (d : CcnbDetail) : Pkt := { p with s := .ccnb d }

/-- A pass of the loop over a Name. -/
def ccnbNameStep (mem : List UInt8) (s : Cursor × List (Option Span)) :
    Run ((Cursor × List (Option Span)) ⊕ (Cursor × List (Option Span))) := do
  match ← ccnbDehead mem s.1 with
  | none => throw .bail
  | some ((num, typ), c) =>
    if num = 0 ∧ typ = 0 then return .inr (c, s.2)
    else if (typ = ccnTtDtag ∧ num = ccnDtagComponent) ∧ s.2.length < maxNameComp then
      let (c, v) ← ccnbHuntForEnd mem c none
      return .inl (c, s.2 ++ [v])
    else
      let (c, _) ← ccnbConsume mem typ num c none
      return .inl (c, s.2)

/-- The loop over a Name. -/
def ccnbName (mem : List UInt8) (c : Cursor) (comp : List (Option Span)) :
    Run (Cursor × List (Option Span)) :=
  loop (ccnbNameStep mem) (c.len + 1) (c, comp)

/-- An element with one blob in it: its place, and the cursor after the element. -/
def ccnbField (mem : List UInt8) (c : Cursor) : Run (Span × Cursor) := do
  let (c, v) ← ccnbHuntForEnd mem c none
  return (← handedOut v, c)

/-- A field that is a decimal number up to `bound`. -/
def ccnbUint (mem : List UInt8) (c : Cursor) (bound : Nat) : Run (Nat × Cursor) := do
  let (s, c) ← ccnbField mem c
  match ccnbData2uint (← rdBytes mem s.off s.len) 0 with
  | none => throw .bail
  | some v => if bound < v then throw .bail else return (v, c)

/-- A field that is a buffer, of which the first one counts. -/
def ccnbBuf (mem : List UInt8) (c : Cursor) (old : Option (List UInt8)) :
    Run (Option (List UInt8) × Cursor) := do
  match old with
  | some _ =>
    let (c, _) ← ccnbHuntForEnd mem c none
    return (old, c)
  | none =>
    let (s, c) ← ccnbField mem c
    return (some (← rdBytes mem s.off s.len), c)

/-- The scope that a byte stands for. -/
def ccnbScope (b : UInt8) : Int := if 48 ≤ b ∧ b ≤ 57 ∧ b < 51 then b.toNat - 48 else -1

/-- The body of the packet loop for a DTAG element with its header at `hd`. -/
def ccnbElem (mem : List UInt8) (start hd num : Nat) (c : Cursor) (s : CcnbState) :
    Run (Cursor × CcnbState) := do
  let d := s.pkt.ccnb
  match ccnDtag num with
  | .name =>
    let oldpos := hd - start
    let nameptr := start + oldpos
    let (c, comp) ← ccnbName mem c s.comp
    return (c, { s with comp := comp, nameptr := some nameptr, namelen := c.pos - nameptr })
  | .content =>
    let (c, v) ← ccnbConsume mem ccnTtDtag num c s.pkt.content
    return (c, { s with pkt := { s.pkt with content := v } })
  | .scope =>
    let (v, c) ← ccnbField mem c
    if v.len = 1 then
      let b ← rd mem v.off
      return (c, { s with pkt := s.pkt.setCcnb { d with scope := ccnbScope b } })
    else return (c, s)
  | .answerOrigKind =>
    let (v, c) ← ccnbUint mem c uint16Max
    return (c, { s with pkt := s.pkt.setCcnb { d with aok := v } })
  | .minSuffComp =>
    let (v, c) ← ccnbUint mem c uint32Max
    return (c, { s with pkt := s.pkt.setCcnb { d with minsuffix := v } })
  | .maxSuffComp =>
    let (v, c) ← ccnbUint mem c uint32Max
    return (c, { s with pkt := s.pkt.setCcnb { d with maxsuffix := v } })
  | .nonce =>
    let (v, c) ← ccnbBuf mem c d.nonce
    return (c, { s with pkt := s.pkt.setCcnb { d with nonce := v } })
  | .pubPubKDigest =>
    let (v, c) ← ccnbBuf mem c d.ppkd
    return (c, { s with pkt := s.pkt.setCcnb { d with ppkd := v } })
  | .other =>
    let (c, _) ← ccnbHuntForEnd mem c none
    return (c, s)

/-- A pass of the packet loop. It ends at an end marker, and where there is no header. -/
def ccnbStep (mem : List UInt8) (start : Nat) (s : Cursor × CcnbState) :
    Run ((Cursor × CcnbState) ⊕ (Cursor × CcnbState)) := do
  match ← ccnbDehead mem s.1 with
  | none => return .inr s
  | some ((num, typ), c) =>
    if num = 0 ∧ typ = 0 then return .inr (c, s.2)
    else if typ = ccnTtDtag then return .inl (← ccnbElem mem start s.1.pos num c s.2)
    else
      let (c, _) ← ccnbConsume mem typ num c none
      return .inl (c, s.2)

/-- The packet before the loop. -/
def ccnbPkt : Pkt where
  val := 2 ^ 64 - 1
  s := .ccnb { scope := 3, aok := 3, maxsuffix := maxNameComp }
  suite := .ccnb

/-- The packet with its name, whose components all have a value. -/
def CcnbState.finish (s : CcnbState) (comp : List Span) : Pkt :=
  let p : Prefix :=
    { mem := [], comp := comp, suite := .ccnb, nameptr := s.nameptr, namelen := s.namelen }
  { s.pkt with pfx := some p }

/-- `ccnl_ccnb_bytes2pkt`. -/
def ccnbBytes2pkt (mem : List UInt8) (start : Nat) (c : Cursor) : Run (Pkt × Cursor) := do
  let (c, s) ← loop (ccnbStep mem start) (c.len + 1) (c, { pkt := ccnbPkt })
  let buf ← rdBytes mem start (c.pos - start)
  let comp ← s.comp.mapM handedOut
  return ((s.finish comp).rebase start buf, c)

/-! ## The frame -/

/-- A pass of the loop of `ccnl_ccnb_forwarder`, with `ccnl_ccnb_fwd`. `handle` is what is done
with a packet; it says whether that returned 0. The loop is left with the cursor, or with `none`
for an error. -/
def ccnbFrameStep {τ : Type} (handle : τ → Pkt → Run (τ × Bool)) (mem : List UInt8)
    (s : τ × Cursor) : Run ((τ × Cursor) ⊕ (τ × Option Cursor)) := do
  if s.2.len = 0 then return .inr (s.1, some s.2)
  match ← ccnbDehead mem s.2 with
  | none => return .inr (s.1, none)
  | some ((num, typ), c) =>
    if typ = ccnTtDtag ∧ (num = ccnDtagInterest ∨ num = ccnDtagContentobj) then
      match ← attempt (ccnbBytes2pkt mem (c.pos - 2) c) with
      | none => return .inr (s.1, none)
      | some (pkt, c) =>
        let flags := if num = ccnDtagInterest then pktRequest else pktReply
        match ← handle s.1 { pkt with type := num, flags := flags } with
        | (t, true) => return .inl (t, c)
        | (t, false) => return .inr (t, none)
    else return .inr (s.1, none)

/-- The loop of `ccnl_ccnb_forwarder`. -/
def ccnbFrame {τ : Type} (handle : τ → Pkt → Run (τ × Bool)) (mem : List UInt8) (t : τ)
    (c : Cursor) : Run (τ × Option Cursor) :=
  loop (ccnbFrameStep handle mem) (c.len + 1) (t, c)

end Ccnl
