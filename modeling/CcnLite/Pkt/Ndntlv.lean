import CcnLite.Lib.Tlv
import CcnLite.Pkt.Buffer

/-!
# The NDN-TLV parser (`ccnl-pkt-ndntlv.c`)

The parser walks a buffer `mem`. A position and the count of bytes left there are a `Cursor`; the
count is the one that the code keeps, which is not always the number of bytes that are really
there: `dehead` compares the length of an element with the count before it took off the header.

The loops are those of `Tlv`: a loop `while (len2 > 0)` inside an element is `nested`, with the
body of the loop as its argument, and the packet loop is `top`. A body is given the place of the
header as well, which is where `oldpos` is.

A packet under construction is a `Pkt` whose pointers are indices into `mem`; `ndntlvBytes2pkt`
copies the bytes at the end and moves the pointers to the copy, except those of the HMAC check,
which stay in the receive buffer.
-/

namespace Ccnl

open CRun Tlv

/-! ## Type numbers -/

def ndnTlvInterest : Nat := 0x05
def ndnTlvData : Nat := 0x06

/-- The elements that the packet loop looks at. -/
inductive NdnTlv where
  | name
  | selectors
  | nonce
  | scope
  | interestLifetime
  | metaInfo
  /-- `NDN_TLV_Content` and `NDN_TLV_NdnlpFragment`. -/
  | content
  | signatureInfo
  | signatureValue
  | fragBeginEndFields
  | other
  deriving DecidableEq, Repr

/-- The labels of the `switch` in `ccnl_ndntlv_bytes2pkt`. -/
def ndnTlv : Nat → NdnTlv
  | 0x07 => .name
  | 0x09 => .selectors
  | 0x0a => .nonce
  | 0x0b => .scope
  | 0x0c => .interestLifetime
  | 0x14 => .metaInfo
  | 0x15 => .content
  | 0x52 => .content
  | 0x16 => .signatureInfo
  | 0x17 => .signatureValue
  | 0x5c => .fragBeginEndFields
  | _ => .other

def ndnTlvNameComponent : Nat := 0x08
def ndnTlvMinSuffixComponents : Nat := 0x0d
def ndnTlvMaxSuffixComponents : Nat := 0x0e
def ndnTlvMustBeFresh : Nat := 0x12
def ndnTlvFreshnessPeriod : Nat := 0x19
def ndnTlvFinalBlockId : Nat := 0x1a
def ndnTlvSignatureType : Nat := 0x1b
def ndnMarkerSegmentNumber : UInt8 := 0x00
def ndnValSigtypeHmac256 : UInt8 := 0x04

/-! ## Numbers and headers -/

/-- `ccnl_ndntlv_varlenint`. It reads the first byte before it looks at the count. On failure the
cursor stays. -/
def ndntlvVarlenint (mem : List UInt8) (c : Cursor) : Run (Option (Nat × Cursor)) := do
  let b ← rd mem c.pos
  if b < 253 ∧ 1 ≤ c.len then
    return some (b.toNat, ⟨c.pos + 1, c.len - 1⟩)
  else if b = 253 ∧ 3 ≤ c.len then
    let bs ← rdBytes mem (c.pos + 1) 2
    return some (beNat bs, ⟨c.pos + 3, c.len - 3⟩)
  else if b = 254 ∧ 5 ≤ c.len then
    let bs ← rdBytes mem (c.pos + 1) 4
    return some (beNat bs, ⟨c.pos + 5, c.len - 5⟩)
  else return none

/-- What `ccnl_ndntlv_nonNegInt` makes of the bytes, in 64 bits. -/
def nonNeg (bs : List UInt8) : Nat := bs.foldl (fun v b => u64 (v * 2 ^ 8) + b.toNat) 0

/-- `ccnl_ndntlv_nonNegInt`. -/
def ndntlvNonNegInt (mem : List UInt8) (pos len : Nat) : Run Nat := do
  let bs ← rdBytes mem pos len
  return nonNeg bs

/-- `ccnl_ndntlv_dehead`: the type and the length, `none` on failure, and the cursor, which has
moved past what could be read. -/
def ndntlvDehead (mem : List UInt8) (c : Cursor) : Run (Option (Nat × Nat) × Cursor) := do
  match ← ndntlvVarlenint mem c with
  | none => return (none, c)
  | some (typ, c₁) =>
    match ← ndntlvVarlenint mem c₁ with
    | none => return (none, c₁)
    | some (vallen, c₂) =>
      if c.len < vallen then return (none, c₂)
      else return (some (typ, vallen), c₂)

/-! ## Elements inside an element -/

/-- `i - 1`, the length that a marked number has left. -/
def afterMarker (i : Nat) : Run Nat := if 1 ≤ i then .ok (i - 1) else .error .wrap

/-- The number after the marker of a component, which is `i` bytes long; one that reaches `bound`
is refused. -/
def ndnMarked (mem : List UInt8) (pos i bound : Nat) : Run Nat := do
  let len ← afterMarker i
  let v ← ndntlvNonNegInt mem (pos + 1) len
  if bound ≤ v then throw .bail else return v

/-- The body of the loop over a Name. -/
def ndnNameElem (mem : List UInt8) (_ typ i : Nat) (cp : Cursor) (p : Prefix) :
    Run (Elem Prefix) := do
  if typ = ndnTlvNameComponent ∧ p.compcnt < maxNameComp then
    let b ← rd mem cp.pos
    let p := { p with comp := p.comp ++ [⟨cp.pos, i⟩] }
    if b = ndnMarkerSegmentNumber then
      let chunknum ← ndnMarked mem cp.pos i (uint32Max + 1)
      return .next cp i { p with chunknum := chunknum }
    else return .next cp i p
  else return .next cp i p

/-- The body of the loop over Selectors. -/
def ndnSelectorsElem (mem : List UInt8) (_ typ i : Nat) (cp : Cursor) (d : NdntlvDetail) :
    Run (Elem NdntlvDetail) := do
  if typ = ndnTlvMinSuffixComponents then
    let v ← ndntlvNonNegInt mem cp.pos i
    return .next cp i { d with minsuffix := v }
  else if typ = ndnTlvMaxSuffixComponents then
    let v ← ndntlvNonNegInt mem cp.pos i
    return .next cp i { d with maxsuffix := v }
  else if typ = ndnTlvMustBeFresh then return .next cp i { d with mbf := true }
  else return .next cp i d

/-- The body of the loop over MetaInfo: the freshness period and `val.final_block_id`. -/
def ndnMetaInfoElem (mem : List UInt8) (_ typ i : Nat) (cp : Cursor) (a : NdntlvDetail × Nat) :
    Run (Elem (NdntlvDetail × Nat)) := do
  if typ = ndnTlvFreshnessPeriod then
    let v ← ndntlvNonNegInt mem cp.pos i
    return .next cp i ({ a.1 with freshnessperiod := v }, a.2)
  else if typ = ndnTlvFinalBlockId then
    match ← ndntlvDehead mem cp with
    | (none, _) => throw .bail
    | (some (typ, i), cp) =>
      if typ = ndnTlvNameComponent then
        let v ← ndnMarked mem cp.pos i (2 ^ 63)
        return .next cp i (a.1, v)
      else return .next cp i a
  else return .next cp i a

/-- The body of the loop over SignatureInfo: is it an HMAC-SHA256 signature? -/
def ndnSignatureInfoElem (mem : List UInt8) (_ typ i : Nat) (cp : Cursor) (hmac : Bool) :
    Run (Elem Bool) := do
  if typ = ndnTlvSignatureType ∧ i = 1 then
    let b ← rd mem cp.pos
    if b = ndnValSigtypeHmac256 then return .stop true
    else return .next cp i hmac
  else return .next cp i hmac

/-! ## The packet loop -/

/-- The variables of `ccnl_ndntlv_bytes2pkt`. -/
structure NdnState where
  pkt : Pkt
  validAlgoIsHmac256 : Bool := false

/-- Replace the NDN details. -/
def Pkt.setNdntlv (p : Pkt) (d : NdntlvDetail) : Pkt := { p with s := .ndntlv d }

/-- The body of the packet loop: an element of type `typ` with its header at `hd`, whose value is
the `len` bytes at the cursor. -/
def ndnElem (mem : List UInt8) (start hd typ len : Nat) (cur : Cursor) (s : NdnState) :
    Run NdnState := do
  let d := s.pkt.ndntlv
  let oldpos := hd - start
  let value : Cursor := ⟨cur.pos, len⟩
  match ndnTlv typ with
  | .name =>
    if s.pkt.pfx.isSome then throw .bail
    else
      let nameptr := start + oldpos
      let p ← nested (ndntlvDehead mem) (ndnNameElem mem) value
        { mem := [], comp := [], suite := .ndntlv, nameptr := some nameptr }
      -- `*data` is still at the value
      let p := { p with namelen := cur.pos - nameptr }
      return { s with pkt := { s.pkt with pfx := some p, val := 2 ^ 64 - 1 } }
  | .selectors =>
    let d ← nested (ndntlvDehead mem) (ndnSelectorsElem mem) value d
    return { s with pkt := s.pkt.setNdntlv d }
  | .nonce =>
    let nonce ← rdBytes mem cur.pos len
    return { s with pkt := s.pkt.setNdntlv { d with nonce := some nonce } }
  | .scope =>
    let v ← ndntlvNonNegInt mem cur.pos len
    return { s with pkt := s.pkt.setNdntlv { d with scope := v } }
  | .content => return { s with pkt := { s.pkt with content := some ⟨cur.pos, len⟩ } }
  | .metaInfo =>
    let (d, v) ← nested (ndntlvDehead mem) (ndnMetaInfoElem mem) value (d, s.pkt.val)
    return { s with pkt := { s.pkt.setNdntlv d with val := v } }
  | .interestLifetime =>
    let v ← ndntlvNonNegInt mem cur.pos len
    return { s with pkt := s.pkt.setNdntlv { d with interestlifetime := v } }
  | .fragBeginEndFields =>
    let v ← ndntlvNonNegInt mem cur.pos len
    let flags := s.pkt.flags ||| (if v &&& 0x4000 ≠ 0 then pktFragBegin else 0) |||
      (if v &&& 0x8000 ≠ 0 then pktFragEnd else 0)
    return { s with pkt := { s.pkt with flags := flags, val := v &&& 0x3fff } }
  | .signatureInfo =>
    let hmac ← nested (ndntlvDehead mem) (ndnSignatureInfoElem mem) value s.validAlgoIsHmac256
    return { s with validAlgoIsHmac256 := hmac }
  | .signatureValue =>
    if s.validAlgoIsHmac256 ∧ len = 32 then
      return { s with pkt := { s.pkt with hmacLen := oldpos, hmacSignature := some cur.pos } }
    else return s
  | .other => return s

/-- The packet before the loop. -/
def ndnPkt (pkttype start : Nat) : Pkt where
  type := pkttype
  s := .ndntlv { scope := 3, maxsuffix := maxNameComp, interestlifetime := interestTimeout * 1000 }
  hmacStart := some start
  flags := if pkttype = ndnTlvInterest then pktRequest else pktReply
  suite := .ndntlv

/-- `ccnl_ndntlv_bytes2pkt`. -/
def ndntlvBytes2pkt (mem : List UInt8) (pkttype start : Nat) (c : Cursor) : Run (Pkt × Cursor) := do
  if pkttype ≠ ndnTlvInterest ∧ pkttype ≠ ndnTlvData then throw .bail
  let (c, s) ← top (ndntlvDehead mem) (ndnElem mem start) c { pkt := ndnPkt pkttype start }
  if 0 < c.len then throw .bail
  let buf ← rdBytes mem start (c.pos - start)
  return (s.pkt.rebase start buf, c)

/-- The parser as `ccnl_ndntlv_forwarder` runs it: the header of the packet, then the rest. -/
def ndntlvParse (mem : List UInt8) (c : Cursor) : Run (Pkt × Cursor) := do
  match ← ndntlvDehead mem c with
  | (none, _) => throw .bail
  | (some (typ, len), c₁) =>
    if c₁.len < len then throw .bail
    let (pkt, c₂) ← ndntlvBytes2pkt mem typ c.pos c₁
    return ({ pkt with type := typ }, c₂)

end Ccnl
