import CcnLite.Fwd.Forward
import CcnLite.Pkt.Ccnb
import CcnLite.Pkt.Ccntlv
import CcnLite.Pkt.Ndntlv

/-!
# From a frame to the handlers (`ccnl-dispatch.c`, `ccnl-pkt-switch.c`)

`coreRX` is `ccnl_core_RX`: it finds the face that a frame came from, and then goes through the
packets of the frame. In front of each packet it takes off the code switches, which say the suite
of what follows; without one the first bytes decide (`pkt2suite`). The forwarder of the suite takes
the packet off the frame.

A frame is in the receive buffer `mem`, which is longer than the frame. The CCNx forwarder writes
to it, so the buffer is part of the state of the loop (`Rx`).
-/

namespace Ccnl

open CRun

/-! ## Code switches -/

/-- `ccnl_switch_dehead`: the code, and the cursor after it. -/
def switchDehead (mem : List UInt8) (c : Cursor) : Run (Option (Nat × Cursor)) := do
  if c.len < 2 then return none
  let b ← rd mem c.pos
  if b ≠ 0x80 then return none
  let code ← rd mem (c.pos + 1)
  -- higher code values are not implemented
  if code < 253 then return some (code.toNat, ⟨c.pos + 2, c.len - 2⟩) else return none

/-- `ccnl_enc2suite`. -/
def enc2suite : Nat → Option Suite
  | 0 => some .ccnb
  | 1 => some .ndntlv
  | 2 => some .ccntlv
  | 3 => some .localrpc
  | _ => none

/-- A pass of the loop over the code switches. -/
def switchStep (mem : List UInt8) (s : Option Suite × Cursor) :
    Run ((Option Suite × Cursor) ⊕ (Option Suite × Cursor)) := do
  match ← switchDehead mem s.2 with
  | some (enc, c) => return .inl (enc2suite enc, c)
  | none => return .inr s

/-- The code switches at a cursor: the suite after the last one, and the cursor there. -/
def switches (mem : List UInt8) (suite : Option Suite) (c : Cursor) :
    Run (Option Suite × Cursor) :=
  loop (switchStep mem) (c.len + 1) (suite, c)

def ndnTlvFragment : UInt8 := 0x64

/-- `ccnl_pkt2suite`. It looks at the first byte also when nothing is left after the switches. -/
def pkt2suite (mem : List UInt8) (c : Cursor) : Run (Option Suite) := do
  if c.len = 0 then return none
  let (suite, c) ← switches mem none c
  if suite.isSome then return suite
  let b ← rd mem c.pos
  if b = 0x04 then return some .ccnb
  else if b = ccnxTlvV1 ∧ 1 < c.len then
    let typ ← rd mem (c.pos + 1)
    -- the packet types of CCNx, the fragment included
    return some (if typ ≤ 3 then .ccntlv else .ccnb)
  else if b = 0x05 ∨ b = 0x06 ∨ b = ndnTlvFragment then return some .ndntlv
  else return none

/-! ## The forwarders -/

section Forwarders

variable (E : Env) (now : Nat) («from» : FaceId) (σ : Relay) (mem : List UInt8) (c : Cursor)

/-- What `ccnl_ccnb_fwd` does with a packet. -/
def ccnbHandle (σ : Relay) (pkt : Pkt) : Run (Relay × Bool) := do
  if pkt.flags &&& pktRequest ≠ 0 then handleInterest E now (ccnbCMatch E.digest) σ «from» pkt
  else return (← handleContent E now σ pkt, true)

/-- `ccnl_ccnb_forwarder`. -/
def ccnbForwarder : Run (Relay × Option Cursor) := ccnbFrame (ccnbHandle E now «from») mem σ c

/-- What `ccnl_ccntlv_forwarder` does with a packet; `pkttype` is from the fixed header. A packet
whose message is of another type is ignored. -/
def ccntlvHandle (σ : Relay) (pkttype : UInt8) (pkt : Pkt) : Run (Relay × Bool) := do
  if pkttype = ccnxPtInterest ∧ pkt.type = ccnxTlvTlInterest then
    handleInterest E now ccntlvCMatch σ «from» { pkt with flags := pkt.flags ||| pktRequest }
  else if pkttype = ccnxPtData ∧ pkt.type = ccnxTlvTlObject then
    return (← handleContent E now σ { pkt with flags := pkt.flags ||| pktReply }, true)
  else return (σ, true)

/-- `ccnl_ccntlv_forwarder`, with the receive buffer. -/
def ccntlvForwarder : Run (Relay × List UInt8 × Option Cursor) := do
  match ← attempt (ccntlvHeader mem c) with
  | none => return (σ, mem, none)
  | some (.drop mem c) => return (σ, mem, some c)
  | some (.pass pkttype mem c₁) =>
    match ← attempt (ccntlvBytes2pkt mem c.pos c₁) with
    | none => return (σ, mem, none)
    | some (pkt, c₂) =>
      let (σ, ok) ← ccntlvHandle E now «from» σ pkttype pkt
      return (σ, mem, if ok then some c₂ else none)

/-- What `ccnl_ndntlv_forwarder` does with a packet. -/
def ndntlvHandle (σ : Relay) (pkt : Pkt) : Run (Relay × Bool) := do
  if pkt.type = ndnTlvInterest then
    handleInterest E now (ndntlvCMatch E.digest) σ «from» pkt
  else if pkt.type = ndnTlvData then return (← handleContent E now σ pkt, true)
  else return (σ, true)

/-- `ccnl_ndntlv_forwarder`. -/
def ndntlvForwarder : Run (Relay × Option Cursor) := do
  match ← attempt (ndntlvParse mem c) with
  | none => return (σ, none)
  | some (pkt, c) =>
    let (σ, ok) ← ndntlvHandle E now «from» σ pkt
    return (σ, if ok then some c else none)

/-- The forwarder of a suite that has packets of its own, without the buffer. -/
def pktForwarder (suite : Suite) : Run Relay := do
  match suite with
  | .ccnb => return (← ccnbForwarder E now «from» σ mem c).1
  | .ccntlv => return (← ccntlvForwarder E now «from» σ mem c).1
  | .ndntlv => return (← ndntlvForwarder E now «from» σ mem c).1
  | .localrpc => return σ

/-- One operation of a local RPC. -/
def RpcOp.run (σ : Relay) : RpcOp → Run Relay
  | contentRemove k => return if k < σ.contents.length then Ccnl.contentRemove σ k else σ
  | forward suite mem c => pktForwarder E now «from» σ mem c suite
  | enqueue buf => faceEnqueue σ «from» buf

/-- `ccnl_localrpc_exec`. -/
def localrpcExec : Run (Relay × Option Cursor) := do
  let r := E.rpc σ mem c «from»
  let σ ← r.1.foldlM (RpcOp.run E now «from») σ
  return (σ, r.2)

end Forwarders

/-! ## The frame -/

/-- The variables of `ccnl_core_RX`. -/
structure Rx where
  relay : Relay
  mem : List UInt8
  c : Cursor
  suite : Option Suite := none
  deriving DecidableEq, Repr

/-- The table `ccnl_core_suites[suite].RX`. -/
def rxTable (E : Env) (now : Nat) («from» : FaceId) (σ : Relay) (mem : List UInt8) (c : Cursor) :
    Suite → Run (Relay × List UInt8 × Option Cursor)
  | .ccnb => do
    let (σ, c) ← ccnbForwarder E now «from» σ mem c
    return (σ, mem, c)
  | .ccntlv => ccntlvForwarder E now «from» σ mem c
  | .ndntlv => do
    let (σ, c) ← ndntlvForwarder E now «from» σ mem c
    return (σ, mem, c)
  | .localrpc => do
    let (σ, c) ← localrpcExec E now «from» σ mem c
    return (σ, mem, c)

/-- The suite of the next packet, and the cursor there. A suite that an earlier packet had stays. -/
def nextSuite (mem : List UInt8) (suite : Option Suite) (c : Cursor) :
    Run (Option Suite × Cursor) := do
  let (suite, c) ← switches mem suite c
  match suite with
  | some s => return (some s, c)
  | none => return (← pkt2suite mem c, c)

/-- A pass of the loop over the packets of a frame. -/
def rxStep (E : Env) (now : Nat) («from» : FaceId) (s : Rx) : Run (Rx ⊕ Relay) := do
  if s.c.len = 0 then return .inr s.relay
  match ← nextSuite s.mem s.suite s.c with
  | (none, _) => return .inr s.relay
  | (some suite, c) =>
    match ← rxTable E now «from» s.relay s.mem c suite with
    | (σ, _, none) => return .inr σ
    | (σ, mem, some c) => return .inl { relay := σ, mem := mem, c := c, suite := some suite }

/-- The loop. A CCNx packet whose fixed header gives the lengths 0 may be dropped without a byte
taken off, once. -/
def rxLoop (E : Env) (now : Nat) («from» : FaceId) (σ : Relay) (mem : List UInt8) (len : Nat) :
    Run Relay :=
  loop (rxStep E now «from») (2 * len + 2) { relay := σ, mem := mem, c := ⟨0, len⟩ }

/-- `ccnl_core_RX` for a frame of `len` bytes at the start of the receive buffer. -/
def coreRX (E : Env) (now : Nat) (σ : Relay) (ifndx : Int) (sa : Option SockAddr)
    (mem : List UInt8) (len : Nat) : Run Relay :=
  match getFaceOrCreate now σ ifndx sa with
  | (σ, some f) => rxLoop E now f σ mem len
  | (σ, none) => .ok σ

end Ccnl
