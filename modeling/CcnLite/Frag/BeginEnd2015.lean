import CcnLite.Fwd.Dispatch
import CcnLite.Lib.BeginEnd
import CcnLite.Pkt.CcntlvEncode

/-!
# Fragments (`ccnl-frag.c`, `ccnl_ccntlv_mkFrag`)

The fragmentation of a `USE_FRAG` build, with the one protocol that is left in the code,
`CCNL_FRAG_BEGINEND2015`. `faceCTS` sends what is in the queue of a face, fragment by fragment;
`fragRXBeginEnd2015` puts the fragments together at the other end. The build has the CCNx packets
only; `Frag.Ndntlv` is about those of NDN. Allocation succeeds, and there is no scheduler.
-/

namespace Ccnl

open CRun BeginEnd

/-- The value of a signed 32-bit expression. -/
def i32 (n : Int) : Int := n.bmod (2 ^ 32)

/-- A signed value where an unsigned one of 64 bits is wanted. -/
def size64 (n : Int) : Nat := (n % 2 ^ 64).toNat

/-- `CCNL_FRAG_*`. -/
inductive FragProtocol where
  | none
  | sequenced2012
  | ccnx2013
  | sequenced2015
  | beginEnd2015
  deriving DecidableEq, Repr

/-- `struct ccnl_frag_s`, without the fields that only the obsolete protocols use. -/
structure Frag where
  protocol : FragProtocol
  mtu : Int
  dest : Option SockAddr := none
  bigpkt : Option (List UInt8) := none
  sendoffs : Nat := 0
  outsuite : Option Suite := none
  ifndx : Int := 0
  defrag : Option (List UInt8) := none
  sendseq : Nat := 0
  recvseq : Nat := 0
  deriving DecidableEq, Repr

/-- `struct ccnl_face_s` of a `USE_FRAG` build, with its queue. -/
structure FragFace extends Face where
  outq : List (List UInt8) := []
  frag : Option Frag := none
  deriving DecidableEq, Repr

/-- A buffer that is handed to an interface. -/
structure Sent where
  ifndx : Int
  dst : Option SockAddr
  buf : List UInt8
  deriving DecidableEq, Repr

/-- `ccnl_frag_new`. -/
def fragNew (protocol : FragProtocol) (mtu : Int) : Option Frag :=
  match protocol with
  | .beginEnd2015 => some { protocol, mtu }
  | _ => none

/-- `ccnl_frag_reset`. -/
def fragReset (e : Frag) (buf : Option (List UInt8)) (ifndx : Int) (dst : Option SockAddr) :
    Run Frag := do
  let e := { e with ifndx, dest := dst, bigpkt := buf, sendoffs := 0 }
  match buf with
  | none => return e
  | some b => return { e with outsuite := ← pkt2suite b ⟨0, b.length⟩ }

/-! ## Sending -/

def ccnxPtFragment : UInt8 := 3
def ccnxTlvTlFragment : Nat := 0x0005

/-- `CCNL_BEFRAG_FLAG_*`. -/
def befragBits : Flag → Nat
  | .first => 0x01
  | .mid => 0x00
  | .last => 0x02
  | .single => 0x03

/-- The flag of a fragment of `datalen` bytes. -/
def befragFlag (pktlen sendoffs datalen : Nat) : Flag :=
  if pktlen ≤ datalen then .single
  else if sendoffs = 0 then .first
  else if sub64 pktlen sendoffs ≤ datalen then .last
  else .mid

/-- The frame around the bytes of a fragment. -/
def ccntlvFragFrame (sendseq : Nat) (flag : Flag) (data : List UInt8) : List UInt8 :=
  [ccnxTlvV1, ccnxPtFragment] ++ beBytes 2 (ccnxHdrlen + 4 + data.length) ++ [(0 : UInt8)] ++
    beBytes 2 ((sendseq &&& 0x3fff) ||| befragBits flag <<< 14) ++ (beBytes 2 ccnxHdrlen).reverse ++
    beBytes 2 ccnxTlvTlFragment ++ beBytes 2 data.length ++ data

/-- `ccnl_ccntlv_mkFrag`: the frame, and how many bytes of the packet it takes. -/
def ccntlvMkFrag (fr : Frag) : Run (Option (List UInt8 × Nat)) := do
  let bigpkt ← deref fr.bigpkt
  let datalen := min (sub64 (size64 fr.mtu) (ccnxHdrlen + 4)) (sub64 bigpkt.length fr.sendoffs)
  if uint16Max < datalen then return none
  let data ← rdBytes bigpkt fr.sendoffs datalen
  let flag := befragFlag bigpkt.length fr.sendoffs datalen
  return some (ccntlvFragFrame fr.sendseq flag data, datalen)

/-- `ccnl_frag_getnextBE2015`. -/
def fragGetnextBE2015 (fr : Frag) : Run (Frag × Option Sent) := do
  let bigpkt ← deref fr.bigpkt
  let frag ← match fr.outsuite with
    | some .ccntlv => ccntlvMkFrag fr
    | _ => pure none
  match frag with
  | none => return (fr, none)
  | some (buf, datalen) =>
    let sendoffs := u32 (fr.sendoffs + datalen)
    let bigpkt := if u32 bigpkt.length ≤ sendoffs then none else some bigpkt
    return ({ fr with sendseq := u32 (fr.sendseq + 1), sendoffs, bigpkt },
      some { ifndx := fr.ifndx, dst := fr.dest, buf })

/-- `ccnl_frag_getnext`. -/
def fragGetnext (fr : Frag) : Run (Frag × Option Sent) :=
  if fr.bigpkt.isNone then return (fr, none)
  else
    match fr.protocol with
    | .beginEnd2015 => fragGetnextBE2015 fr
    | _ => return (fr, none)

/-- `ccnl_face_dequeue`. -/
def FragFace.dequeue (f : FragFace) : FragFace × Option (List UInt8) :=
  ({ f with outq := f.outq.tail }, f.outq.head?)

/-- One call of `ccnl_face_CTS`, with what has been handed to the interfaces. It calls itself as
long as there are fragments. -/
def faceCTSStep (s : FragFace × List Sent) :
    Run ((FragFace × List Sent) ⊕ (FragFace × List Sent)) := do
  let (f, sent) := s
  match f.frag.filter (fun fr => decide (fr.protocol ≠ .none)) with
  | none =>
    match f.dequeue with
    | (f, none) => return .inr (f, sent)
    | (f, some buf) => return .inr (f, sent ++ [{ ifndx := f.ifndx, dst := f.peer, buf }])
  | some fr =>
    match ← fragGetnext fr with
    | (fr, some x) => return .inl ({ f with frag := some fr }, sent ++ [x])
    | (fr, none) =>
      let (f, buf) := f.dequeue
      let fr ← fragReset fr buf f.ifndx f.peer
      match ← fragGetnext fr with
      | (fr, some x) => return .inl ({ f with frag := some fr }, sent ++ [x])
      | (fr, none) => return .inr ({ f with frag := some fr }, sent)

/-- `ccnl_face_CTS`, in a number of calls. -/
def faceCTS (calls : Nat) (f : FragFace) : Run (FragFace × List Sent) :=
  loop faceCTSStep calls (f, [])

/-! ## Receiving -/

/-- What the receiver is called with for a fragment. -/
structure Fragment where
  bits : Nat
  seqno : Nat
  data : List UInt8
  deriving DecidableEq, Repr

/-- What the CCNx forwarder reads from a frame with a fragment. -/
def ccntlvFragment (frame : List UInt8) : Fragment :=
  let fragfields := beNat ((frame.drop 5).take 2)
  let hdrlen := beNat ((frame.drop 7).take 2).reverse
  { bits := fragfields >>> 14, seqno := fragfields &&& 0x3fff, data := frame.drop (hdrlen + 4) }

/-- `bits & CCNL_BEFRAG_FLAG_MASK`, as the `switch` takes it. -/
def befragFlagOf (bits : Nat) : Flag :=
  match bits &&& 0x03 with
  | 0x03 => .single
  | 0x01 => .first
  | 0x02 => .last
  | _ => .mid

/-- A call of the callback: the buffer, and the `int` that says its length. -/
structure Delivery where
  buf : List UInt8
  len : Int
  deriving DecidableEq, Repr

/-- What `ccnl_frag_RX_BeginEnd2015` does. -/
structure FragRX where
  rc : Int
  «from» : Option FragFace
  /-- How many bytes are taken off `*data`. The callback takes off those of a single fragment. -/
  consumed : Nat := 0
  deliver : Option Delivery := none
  deriving DecidableEq, Repr

/-- The check of the sequence number: after a gap the partial buffer is dropped. -/
def Frag.resync (e : Frag) (seqno : Nat) : Frag :=
  if e.recvseq ≠ seqno then { e with defrag := none, recvseq := seqno } else e

/-- `ccnl_frag_RX_BeginEnd2015`, from the check of the sequence number on. -/
def Frag.recv (e : Frag) (x : Fragment) : Frag × Nat × Option Delivery :=
  let e := e.resync x.seqno
  let joined := e.defrag.map (· ++ x.data)
  match befragFlagOf x.bits with
  | .single =>
    ({ e with defrag := none, recvseq := u32 (e.recvseq + 1) }, 0,
      some { buf := x.data, len := x.data.length })
  | .first => ({ e with defrag := some x.data, recvseq := u32 (e.recvseq + 1) }, x.data.length, none)
  | .last =>
    ({ e with defrag := none, recvseq := u32 (e.recvseq + 1) }, x.data.length,
      joined.map fun buf => { buf, len := i32 buf.length })
  | .mid => ({ e with defrag := joined, recvseq := u32 (e.recvseq + 1) }, x.data.length, none)

/-- `ccnl_frag_RX_BeginEnd2015`. -/
def fragRXBeginEnd2015 (mtu : Int) («from» : Option FragFace) (x : Fragment) : FragRX :=
  match «from» with
  | none => { rc := 0, «from» }
  | some f =>
    match f.frag.or (fragNew .beginEnd2015 mtu) with
    | none => { rc := 0, «from» }
    | some e =>
      let f := { f with frag := some e }
      if e.protocol ≠ .beginEnd2015 then { rc := 0, «from» := some f }
      else
        let (e, consumed, deliver) := e.recv x
        { rc := 1, «from» := some { f with frag := some e }, consumed, deliver }

end Ccnl
