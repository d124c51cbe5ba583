import CcnLite.Lib.Tlv
import CcnLite.Pkt.Buffer

/-!
# The CCNx-TLV parser (`ccnl-pkt-ccntlv.c`)

A header is four bytes, two for the type and two for the length. `ccntlvHeader` is the part of
`ccnl_ccntlv_forwarder` that looks at the fixed header in front of the message, `ccntlvBytes2pkt`
the parser that it calls then.

The name components of this format keep their four header bytes, so the body of the loop over a
Name uses the place of the header (`cp2`).
-/

namespace Ccnl

open CRun Tlv

/-! ## Type numbers -/

def ccnxTlvV1 : UInt8 := 1
def ccnxPtInterest : UInt8 := 0
def ccnxPtData : UInt8 := 1
def ccnxPtNack : UInt8 := 2
def ccnxTlvTlInterest : Nat := 0x0001
def ccnxTlvTlObject : Nat := 0x0002
def ccnxValidalgoHmacSha256 : Nat := 0x0004

/-- The elements that the message loop looks at. -/
inductive CcnxTlvM where
  | name
  | endChunk
  | payload
  | validationAlgo
  | validationPayload
  | other
  deriving DecidableEq, Repr

/-- The labels of the `switch` over the elements of a message. -/
def ccnxTlvM : Nat → CcnxTlvM
  | 0x0000 => .name
  | 0x0019 => .endChunk
  | 0x0001 => .payload
  | 0x0003 => .validationAlgo
  | 0x0004 => .validationPayload
  | _ => .other

/-- The elements that the loop over a Name looks at. -/
inductive CcnxTlvN where
  | chunk
  | nameSegment
  | metaData
  | other
  deriving DecidableEq, Repr

/-- The labels of the `switch` over the elements of a Name. -/
def ccnxTlvN : Nat → CcnxTlvN
  | 0x0010 => .chunk
  | 0x0001 => .nameSegment
  | 0x0011 => .metaData
  | _ => .other

/-! ## Headers and numbers -/

/-- `ccnl_ccntlv_dehead`. A length that is larger than the count was fails after the header is
taken off. -/
def ccntlvDehead (mem : List UInt8) (c : Cursor) : Run (Option (Nat × Nat) × Cursor) := do
  if c.len < 4 then return (none, c)
  let h ← rdBytes mem c.pos 4
  let typ := beNat (h.take 2)
  let vallen := beNat (h.drop 2)
  let c₁ : Cursor := ⟨c.pos + 4, c.len - 4⟩
  if c.len < vallen then return (none, c₁)
  return (some (typ, vallen), c₁)

/-- `ccnl_ccnltv_extractNetworkVarInt`: at most four bytes. -/
def extractNetworkVarInt (mem : List UInt8) (pos len : Nat) : Run (Option Nat) := do
  if 4 < len then return none
  let bs ← rdBytes mem pos len
  return some (beNat bs)

/-! ## Names -/

/-- Append a component, if there is room. -/
def Prefix.addComp (p : Prefix) (s : Span) : Prefix :=
  if p.compcnt < maxNameComp then { p with comp := p.comp ++ [s] } else p

/-- The body of the loop over a Name. The code also compares `len` with `*datalen` again, which
the loop does not change. -/
def ccntlvNameElem (mem : List UInt8) (cp2 typ len3 : Nat) (cp : Cursor) (p : Prefix) :
    Run (Elem Prefix) := do
  match ccnxTlvN typ with
  | .chunk =>
    match ← extractNetworkVarInt mem cp.pos len3 with
    | none => throw .bail
    | some v =>
      return .next cp len3
        { p.addComp ⟨cp2, cp.pos - cp2 + len3⟩ with chunknum := some v }
  | .nameSegment => return .next cp len3 (p.addComp ⟨cp2, cp.pos - cp2 + len3⟩)
  | .metaData =>
    match ← ccntlvDehead mem cp with
    | (none, _) => throw .bail
    | (some (_, len3), cp) => return .next cp len3 p
  | .other => return .next cp len3 p

/-! ## The message loop -/

/-- The variables of `ccnl_ccntlv_bytes2pkt`; `p` is the prefix that `pkt->pfx` points to. -/
structure CcntlvState where
  pkt : Pkt
  p : Prefix
  validAlgoIsHmac256 : Bool := false

/-- The body of the message loop: an element of type `typ` with its header at `hd`, whose value is
the `len` bytes at the cursor. -/
def ccntlvElem (mem : List UInt8) (start hmacStart hd typ len : Nat) (cur : Cursor)
    (s : CcntlvState) : Run CcntlvState := do
  if cur.len < len then throw .bail
  let oldpos := hd - start
  match ccnxTlvM typ with
  | .name =>
    let nameptr := start + oldpos
    let p ← nested (ccntlvDehead mem) (ccntlvNameElem mem) ⟨cur.pos, len⟩
      { s.p with nameptr := some nameptr }
    -- `*data` is still at the value
    return { s with p := { p with namelen := cur.pos - nameptr } }
  | .endChunk =>
    match ← extractNetworkVarInt mem cur.pos len with
    | none => throw .bail
    | some v => return { s with pkt := { s.pkt with val := v } }
  | .payload => return { s with pkt := { s.pkt with content := some ⟨cur.pos, len⟩ } }
  | .validationAlgo =>
    match ← ccntlvDehead mem ⟨cur.pos, len⟩ with
    | (none, _) => throw .bail
    | (some (typ, _), _) =>
      return { s with
        validAlgoIsHmac256 := s.validAlgoIsHmac256 || typ == ccnxValidalgoHmacSha256 }
  | .validationPayload =>
    if s.validAlgoIsHmac256 ∧ len = 32 then
      return { s with pkt := { s.pkt with
        hmacLen := cur.pos - hmacStart - 4
        hmacSignature := some cur.pos } }
    else return s
  | .other => return s

/-- The packet before the loop. -/
def ccntlvPkt (typ hmacStart : Nat) : Pkt where
  type := typ
  val := 2 ^ 64 - 1
  s := .ccntlv none
  hmacStart := some hmacStart
  suite := .ccntlv

/-- The variables before the loop. -/
def CcntlvState.init (typ hmacStart : Nat) : CcntlvState where
  pkt := ccntlvPkt typ hmacStart
  p := { mem := [], comp := [], suite := .ccntlv }

/-- `ccnl_ccntlv_bytes2pkt`. -/
def ccntlvBytes2pkt (mem : List UInt8) (start : Nat) (c : Cursor) : Run (Pkt × Cursor) := do
  match ← ccntlvDehead mem c with
  | (none, _) => throw .bail
  | (some (typ, len), c₁) =>
    if c₁.len < len then throw .bail
    let (c₂, s) ← top (ccntlvDehead mem) (ccntlvElem mem start c.pos) c₁ (.init typ c.pos)
    if 0 < c₂.len then throw .bail
    let buf ← rdBytes mem start (c₂.pos - start)
    let pkt := { s.pkt with
      pfx := some s.p
      hmacStart := s.pkt.hmacStart.map (· - start)
      hmacSignature := s.pkt.hmacSignature.map (· - start) }
    return (pkt.rebase start buf, c₂)

/-! ## The fixed header -/

/-- What `ccnl_ccntlv_forwarder` makes of the fixed header. -/
inductive CcntlvHeader where
  /-- The hop limit is used up; the packet is skipped. -/
  | drop (mem : List UInt8) (c : Cursor)
  /-- The message at `c` goes to the parser. -/
  | pass (pkttype : UInt8) (mem : List UInt8) (c : Cursor)
  deriving DecidableEq, Repr

/-- The checks of the fixed header, nine bytes in the receive buffer. The hop limit is decremented
there. -/
def ccntlvHeader (mem : List UInt8) (c : Cursor) : Run CcntlvHeader := do
  if c.len < 9 then throw .bail
  let version ← rd mem c.pos
  if version ≠ ccnxTlvV1 then throw .bail
  let hp ← rdBytes mem c.pos 9
  -- `hdrlen` is read in the host's byte order
  let hdrlen := beNat (hp.drop 7).reverse
  if c.len < hdrlen then throw .bail
  let payloadlen := beNat ((hp.drop 2).take 2)
  if payloadlen < hdrlen ∨ c.len < payloadlen then throw .bail
  let c₁ : Cursor := ⟨c.pos + hdrlen, c.len - hdrlen⟩
  let pkttype := hp.getD 1 0
  if pkttype = ccnxPtInterest ∨ pkttype = ccnxPtNack then
    let hoplimit := hp.getD 4 0 - 1
    let mem := mem.set (c.pos + 4) hoplimit
    if hoplimit = 0 then
      let payloadlen := payloadlen - hdrlen
      return .drop mem ⟨c₁.pos + payloadlen, c₁.len - payloadlen⟩
    else return .pass pkttype mem c₁
  else return .pass pkttype mem c₁

end Ccnl
