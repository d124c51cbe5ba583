import CcnLite.Lib.Run

/-!
# The relay's data

The structures of `ccnl-core/include`, as the Unix relay is built by default (`src/CMakeLists.txt`:
all four packet formats, `USE_DUP_CHECK`, `USE_HMAC256`, `USE_CCNxDIGEST`, `USE_MGMT`; no
`USE_FRAG`, `USE_SCHEDULER`, `USE_RONR` or `CCNL_APP_RX`; 64-bit, little endian). Allocation
succeeds.

A C pointer into a packet is an offset into the memory that holds it: `Prefix.mem` is that memory
for the name components (the receive buffer while a packet is parsed, its copy `Pkt.buf` after
that). A linked list is a `List`, its head first. A `uint32_t` is a `Nat` below `2 ^ 32`, and the
code that can overflow one says so (`u32`, `u64`).
-/

namespace Ccnl

open CRun

/-! ## Constants (`ccnl-defs.h`) -/

/-- `CCNL_MAX_NAME_COMP`. -/
def maxNameComp : Nat := 64

/-- `CCNL_INTEREST_TIMEOUT`, in seconds. -/
def interestTimeout : Nat := 10

/-- `CCNL_CONTENT_TIMEOUT`, in seconds. -/
def contentTimeout : Nat := 300

/-- `CCNL_FACE_TIMEOUT`, in seconds. -/
def faceTimeout : Nat := 30

/-- `CCNL_MAX_INTEREST_RETRANSMIT`. -/
def maxInterestRetransmit : Nat := 7

/-- `CCNL_MAX_NONCES`. -/
def maxNonces : Nat := 256

def uint16Max : Nat := 2 ^ 16 - 1

def uint32Max : Nat := 2 ^ 32 - 1

/-- The value of an unsigned 32-bit expression. -/
def u32 (n : Nat) : Nat := n % 2 ^ 32

/-- The value of an unsigned 64-bit expression. -/
def u64 (n : Nat) : Nat := n % 2 ^ 64

/-- The value of `a - b` in 64 bits. -/
def sub64 (a b : Nat) : Nat := u64 (a + 2 ^ 64 - b)

/-- `CCNL_PKT_REQUEST` and so on. -/
def pktRequest : Nat := 0x01
def pktReply : Nat := 0x02
def pktFragBegin : Nat := 0x04
def pktFragEnd : Nat := 0x08

/-- `CCNL_SUITE_*`: the packet formats. -/
inductive Suite where
  | ccnb
  | ccntlv
  | localrpc
  | ndntlv
  deriving DecidableEq, Repr

/-- A SHA-256 digest (`compute_ccnx_digest`). -/
abbrev Digest := { d : List UInt8 // d.length = 32 }

/-! ## Names and packets -/

/-- `struct ccnl_prefix_s`. -/
structure Prefix where
  /-- The memory that `comp` and `nameptr` point into. -/
  mem : List UInt8
  comp : List Span
  suite : Suite
  nameptr : Option Nat := none
  namelen : Nat := 0
  chunknum : Option Nat := none
  deriving DecidableEq, Repr

namespace Prefix

def compcnt (p : Prefix) : Nat := p.comp.length

/-- The bytes of the name components. -/
def comps (p : Prefix) : List (List UInt8) := p.comp.map (·.bytes p.mem)

@[simp] theorem length_comps (p : Prefix) : p.comps.length = p.compcnt := by simp [comps, compcnt]

end Prefix

/-- `struct ccnl_pktdetail_ccnb_s`. -/
structure CcnbDetail where
  minsuffix : Nat := 0
  maxsuffix : Nat := 0
  aok : Nat := 0
  scope : Int := 0
  nonce : Option (List UInt8) := none
  ppkd : Option (List UInt8) := none
  deriving DecidableEq, Repr

/-- `struct ccnl_pktdetail_ndntlv_s`. No parser sets `ppkl`. -/
structure NdntlvDetail where
  minsuffix : Nat := 0
  maxsuffix : Nat := 0
  scope : Nat := 0
  mbf : Bool := false
  nonce : Option (List UInt8) := none
  ppkl : Option (List UInt8) := none
  interestlifetime : Nat := 0
  freshnessperiod : Nat := 0
  deriving DecidableEq, Repr

/-- The union `s` of `struct ccnl_pkt_s`. No parser sets the `keyid` of a CCNx packet. -/
inductive Detail where
  | ccnb (d : CcnbDetail)
  | ccntlv (keyid : Option (List UInt8))
  | ndntlv (d : NdntlvDetail)
  deriving DecidableEq, Repr

/-- `struct ccnl_pkt_s`. While a packet is parsed `buf` is empty and `content` points into the
receive buffer; afterwards `content` points into `buf`. -/
structure Pkt where
  buf : List UInt8 := []
  pfx : Option Prefix := none
  content : Option Span := none
  type : Nat := 0
  /-- The 64 bits of the union of `final_block_id` and `seqno`. -/
  val : Nat := 0
  s : Detail
  hmacStart : Option Nat := none
  hmacLen : Nat := 0
  hmacSignature : Option Nat := none
  flags : Nat := 0
  suite : Suite
  deriving DecidableEq, Repr

/-- `val.final_block_id`, an `int64_t`. -/
def Pkt.finalBlockId (p : Pkt) : Int := if p.val < 2 ^ 63 then p.val else (p.val : Int) - 2 ^ 64

/-- The CCNB details, the default ones for another format. -/
def Pkt.ccnb (p : Pkt) : CcnbDetail :=
  match p.s with
  | .ccnb d => d
  | _ => {}

/-- The NDN details, the default ones for another format. -/
def Pkt.ndntlv (p : Pkt) : NdntlvDetail :=
  match p.s with
  | .ndntlv d => d
  | _ => {}

/-! ## The tables -/

/-- `struct ccnl_content_s`. -/
structure Content where
  pkt : Pkt
  /-- `CCNL_CONTENT_FLAGS_STATIC`. -/
  static : Bool := false
  /-- `CCNL_CONTENT_FLAGS_STALE`. -/
  stale : Bool := false
  lastUsed : Nat := 0
  servedCnt : Nat := 0
  deriving DecidableEq, Repr

/-- A face is known by its `faceid`, which `ccnl_get_face_or_create` never gives twice. -/
abbrev FaceId := Nat

/-- `struct ccnl_pendint_s`. -/
structure Pendint where
  face : FaceId
  lastUsed : Nat
  deriving DecidableEq, Repr

/-- `struct ccnl_interest_s`. -/
structure Interest where
  pkt : Pkt
  «from» : Option FaceId := none
  pending : List Pendint := []
  lifetime : Nat := 0
  lastUsed : Nat := 0
  retries : Nat := 0
  deriving DecidableEq, Repr

/-- `sockunion`: the address families of the Unix relay. -/
inductive SockAddr where
  | packet (addr : List UInt8) (halen : Nat)
  | inet (addr port : Nat)
  | inet6 (addr : List UInt8) (port : Nat)
  | unix (path : List UInt8)
  deriving DecidableEq, Repr

/-- `sa_family`. -/
inductive Family where
  | packet
  | inet
  | inet6
  | unix
  deriving DecidableEq, Repr

def SockAddr.family : SockAddr → Family
  | .packet .. => .packet
  | .inet .. => .inet
  | .inet6 .. => .inet6
  | .unix .. => .unix

/-- `struct ccnl_face_s`. Without a scheduler a buffer leaves the queue of a face in the call that
put it there, so the queue is empty between two calls; `Relay.out` records the calls. -/
structure Face where
  faceid : FaceId
  ifndx : Int
  peer : Option SockAddr := none
  /-- `CCNL_FACE_FLAGS_STATIC`. -/
  static : Bool := false
  /-- `CCNL_FACE_FLAGS_REFLECT`. -/
  reflect : Bool := false
  /-- `CCNL_FACE_FLAGS_SERVED`. -/
  served : Bool := false
  /-- `CCNL_FACE_FLAGS_FWDALLI`. -/
  fwdalli : Bool := false
  lastUsed : Nat := 0
  deriving DecidableEq, Repr

/-- `struct ccnl_forward_s`. A tap is known by a number. -/
structure Forward where
  pfx : Option Prefix
  suite : Suite
  tap : Option Nat := none
  face : Option FaceId := none
  deriving DecidableEq, Repr

/-- `struct ccnl_if_s`: what the tables ask of an interface. -/
structure Iface where
  addr : SockAddr
  reflect : Bool := false
  fwdalli : Bool := false
  deriving DecidableEq, Repr

/-- What the relay hands out, in order. -/
inductive Out where
  /-- `ccnl_face_enqueue` of a buffer to a face (`ccnl_send_pkt` calls it with a packet's bytes). -/
  | send (dst : FaceId) (buf : List UInt8)
  /-- A tap is called with an Interest. -/
  | tap (t : Nat) (buf : List UInt8)
  deriving DecidableEq, Repr

/-- `struct ccnl_relay_s`. -/
structure Relay where
  faces : List Face := []
  fib : List Forward := []
  pit : List Interest := []
  contents : List Content := []
  nonces : List (List UInt8) := []
  contentcnt : Int := 0
  maxCacheEntries : Int := 0
  pitcnt : Int := 0
  maxPitEntries : Int := -1
  ifs : List Iface := []
  /-- The static `seqno` of `ccnl_get_face_or_create`. -/
  seqno : Nat := 0
  /-- What has been handed out so far. -/
  out : List Out := []
  deriving DecidableEq, Repr

/-- Follow a pointer. -/
def deref {α : Type} (p : Option α) : Run α :=
  match p with
  | some a => .ok a
  | none => .error .null

@[simp] theorem deref_some {α : Type} (a : α) : deref (some a) = .ok a := rfl

@[simp] theorem deref_eq_ok {α : Type} {p : Option α} {a : α} : deref p = .ok a ↔ p = some a := by
  cases p <;> simp [deref]

/-- `buf_equal`: both buffers exist and have the same bytes. -/
def bufEqual (x y : Option (List UInt8)) : Bool :=
  match x, y with
  | some a, some b => a.length == b.length && a == b
  | _, _ => false

@[simp] theorem bufEqual_iff {x y : Option (List UInt8)} :
    bufEqual x y = true ↔ ∃ a, x = some a ∧ y = some a := by
  unfold bufEqual
  split
  · rename_i a b
    simp only [Bool.and_eq_true, beq_iff_eq, Option.some.injEq, exists_eq_left', eq_comm (a := b)]
    exact ⟨fun h => h.2, fun h => ⟨by rw [h], h⟩⟩
  · rename_i h
    simp only [Bool.false_eq_true, false_iff, not_exists]
    rintro a ⟨rfl, rfl⟩
    exact h a a rfl rfl

end Ccnl
