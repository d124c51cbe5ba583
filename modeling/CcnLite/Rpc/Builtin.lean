import CcnLite.Mgmt.Reply
import CcnLite.Core.Uri
import CcnLite.Fwd.System
import CcnLite.Rpc.Exec
import CcnLite.Rpc.Return

/-!
# What an RPC does (`ccnl-localrpc.c`)

The functions that a request can call by name, and `ccnl_localrpc_exec` with them. They work on a
relay and keep a note of what they do to it (`RpcState.ops`), which is what `Env.rpc` asks for:
`Env.withRpc` is the environment with the real RPCs in it.

`rpc_forward` compares the encoding only under `#ifdef CCNL_SUITE_CCNB` and the like. These names are
constants of an enumeration and no macros, so nothing is compared and no packet is forwarded.

* `rpc_confined`: what the RPCs of a frame can do to the relay.
-/

namespace Ccnl

open CRun

/-! ## The parts -/

namespace Rdr

/-- `u`, of a term that has a term there. -/
def first : Rdr → Rdr
  | null => null
  | node _ u _ _ => u

/-- `aux`, of a term that has parts. -/
def parts : Rdr → Rdr
  | null => null
  | node _ _ aux _ => aux

/-- The bytes that a leaf points to. -/
def data : Rdr → Span
  | null => ⟨0, 0⟩
  | node d _ _ _ => d.data

/-- `aux` and `u.binlen` of a node of any type. What is no leaf with bytes has another member of the
union there: a number, the address of a term, or nothing. `nil` is the null pointer, a place where
no byte can be read. -/
def asBin (addr : Rdr → Nat) (nil : Nat) : Rdr → Span
  | null => ⟨nil, 0⟩
  | node d u _ _ =>
    if d.type.IsBlob then d.data
    else if d.type = .nonnegint then ⟨nil, d.val⟩
    else if d.type.HasFirst then ⟨nil, addr u⟩
    else ⟨nil, 0⟩

end Rdr

/-- `ccnl_is_local_addr` of the peer of a face; an IPv4 address is in network byte order. -/
def isLocalAddr : Option SockAddr → Bool
  | some (.unix _) => true
  | some (.inet addr _) => addr == 0x0100007f
  | some (.inet6 addr _) =>
    addr == List.replicate 15 0 ++ [1] ||
      addr == List.replicate 10 0 ++ [0xff, 0xff, 0x7f, 0, 0, 1]
  | _ => false

/-- What a reply depends on besides the request: the variables that are not set, the bytes of a new
buffer, the addresses of nodes, and the texts of `compile_string` and `ctime`. Each may be different
for each request. -/
structure RpcWorld where
  stack : Rdr → Nat → Nat
  junk : Rdr → Nat
  raw : Rdr → Nat → UInt8
  addr : Rdr → Nat
  compileString : List UInt8
  ctime : Rdr → List UInt8

/-- The relay, and what has been done to it. -/
structure RpcState where
  relay : Relay
  ops : List RpcOp := []

/-! ## The functions -/

section Functions

variable (W : RpcWorld) (mem : List UInt8) («from» : FaceId) (req : Rdr)

/-- `ccnl_emit_RpcReturn` in the answer to `req`. The reason stands behind the frame, and the text of
a content behind that. A failure goes unnoticed. -/
def rpcReturn (nonce : Rdr) (rc : Int32) (reason : List UInt8) (val : Option (List UInt8))
    (s : RpcState) : Run RpcState := do
  let mem' := mem ++ reason ++ val.getD []
  let text := val.map fun v => mkStr ⟨mem.length + reason.length, v.length⟩
  match ← emitRpcReturn (W.stack req) (W.junk req) mem' (W.raw req)
      (nonce.asBin W.addr mem'.length) rc ⟨mem.length, reason.length⟩ text with
  | none => return s
  | some pkt => return ⟨← faceEnqueue s.relay «from» pkt, s.ops ++ [.enqueue pkt]⟩

/-- The string of a parameter, up to a NUL byte. -/
def rpcString (param : Rdr) : Run (List UInt8) := do
  return (← rdBytes mem param.data.off param.data.len).takeWhile (· ≠ 0)

/-- `rpc_syslog`. -/
def rpcSyslog (nonce param : Rdr) (s : RpcState) : Run RpcState := do
  let (t, param) ← getType mem param
  if t = RdrType.str.code then do
    let _ ← rdBytes mem param.data.off param.data.len
    rpcReturn W mem «from» req nonce 200 (asciiBytes "ok") none s
  else rpcReturn W mem «from» req nonce 415 (asciiBytes "rpc_syslog: unknown param type") none s

/-- The loop of `rpc_cacheAdd`: whether each parameter is data. -/
def allBin : Rdr → Run Bool
  | .null => return true
  | .node d u aux next => do
    let (t, _) ← getType mem (.node d u aux next)
    if t ≠ RdrType.bin.code then return false
    allBin next

/-- `rpc_cacheAdd`. -/
def rpcCacheAdd (nonce param : Rdr) (s : RpcState) : Run RpcState := do
  let face ← s.relay.face «from»
  if !isLocalAddr face.peer then
    rpcReturn W mem «from» req nonce 403 (asciiBytes "invalid access: non-local address") none s
  else if ← allBin mem param then
    rpcReturn W mem «from» req nonce 415 (asciiBytes "rpc_cacheAdd: not implemented yet") none s
  else rpcReturn W mem «from» req nonce 415 (asciiBytes "invalid or no data") none s

/-- The inner loop of `rpc_cacheRemove`, from the content at the index `k` on; the number of the
contents that were removed is counted. -/
def removeNamed (p : Prefix) : Nat → List Content → RpcState × Nat → Run (RpcState × Nat)
  | _, [], s => return s
  | k, c :: cs, (s, cnt) => do
    if prefixCmp (← deref c.pkt.pfx) none p .exact = 0 then
      removeNamed p k cs (⟨contentRemove s.relay k, s.ops ++ [.contentRemove k]⟩, cnt + 1)
    else removeNamed p (k + 1) cs (s, cnt)

/-- `ccnl_URItoPrefix(name, CCNL_SUITE_DEFAULT, NULL)`. -/
def rpcName (name : List UInt8) : Prefix := uriToPrefix name .ndntlv none

/-- The loop of `rpc_cacheRemove`, and what is replied after it. -/
def cacheRemoveFrom (nonce : Rdr) : Rdr → RpcState × Nat → Run RpcState
  | .null, (s, cnt) =>
    rpcReturn W mem «from» req nonce 415
      (asciiBytes s!"rpc_cacheRemove: removed {cnt} entries\n") none s
  | .node d u aux next, (s, cnt) => do
    let (t, _) ← getType mem (.node d u aux next)
    if t ≠ RdrType.flatname.code then
      rpcReturn W mem «from» req nonce 415 (asciiBytes "rpc_cacheRemove: invalid name") none s
    else do
      let name ← rpcString mem (.node d u aux next)
      let x ← removeNamed (rpcName name) 0 s.relay.contents (s, cnt)
      cacheRemoveFrom nonce next x

/-- `rpc_cacheRemove`. -/
def rpcCacheRemove (nonce param : Rdr) (s : RpcState) : Run RpcState := do
  let face ← s.relay.face «from»
  if !isLocalAddr face.peer then
    rpcReturn W mem «from» req nonce 403 (asciiBytes "invalid access: non-local address") none s
  else cacheRemoveFrom W mem «from» req nonce param (s, 0)

/-- `rpc_forward`. No encoding is known, so the packets behind its name are not looked at. -/
def rpcForward (nonce param : Rdr) (s : RpcState) : Run RpcState := do
  let (t, param) ← getType mem param
  if t ≠ RdrType.flatname.code then
    rpcReturn W mem «from» req nonce 415 (asciiBytes "rpc_forward: expected encoding name") none s
  else do
    let _ ← rpcString mem param
    rpcReturn W mem «from» req nonce 415 (asciiBytes "rpc_forward: no such encoding") none s

/-- `rpc_lookup`. -/
def rpcLookup (nonce param : Rdr) (s : RpcState) : Run RpcState := do
  let (t, param) ← getType mem param
  if t = RdrType.flatname.code then do
    let cp ← rpcString mem param
    if cp = asciiBytes "/rpc/config/compileString" then
      rpcReturn W mem «from» req nonce 200 (asciiBytes "ok") (some W.compileString) s
    else if cp = asciiBytes "/rpc/config/localTime" then
      -- without the line feed at its end
      rpcReturn W mem «from» req nonce 200 (asciiBytes "ok") (some (W.ctime req).dropLast) s
    else rpcReturn W mem «from» req nonce 415 (asciiBytes "rpc_lookup: no such variable") none s
  else rpcReturn W mem «from» req nonce 415 (asciiBytes "rpc_lookup: not a variable name") none s

/-- The functions of the table `builtin`. -/
inductive Builtin where
  | cacheAdd
  | cacheRemove
  | forward
  | lookup
  | syslog
  deriving DecidableEq, Repr

def Builtin.name : Builtin → List UInt8
  | cacheAdd => asciiBytes "/rpc/builtin/cache/add"
  | cacheRemove => asciiBytes "/rpc/builtin/cache/remove"
  | forward => asciiBytes "/rpc/builtin/forward"
  | lookup => asciiBytes "/rpc/builtin/lookup"
  | syslog => asciiBytes "/rpc/builtin/syslog"

def Builtin.fct : Builtin → Rdr → Rdr → RpcState → Run RpcState
  | cacheAdd => rpcCacheAdd W mem «from» req
  | cacheRemove => rpcCacheRemove W mem «from» req
  | forward => rpcForward W mem «from» req
  | lookup => rpcLookup W mem «from» req
  | syslog => rpcSyslog W mem «from» req

/-- The table `builtin`, in its order. -/
def builtin : List Builtin := [.cacheAdd, .cacheRemove, .forward, .lookup, .syslog]

/-- The loop of `rpc_getBuiltinFct`. -/
def findBuiltin (var : Span) : List Builtin → Run (Option Builtin)
  | [] => return none
  | x :: xs => do
    if x.name.length = var.len then
      if x.name = (← rdBytes mem var.off var.len) then return some x
      findBuiltin var xs
    else findBuiltin var xs

/-- `rpc_getBuiltinFct`. -/
def rpcGetBuiltinFct (var : Rdr) : Run (Option Builtin) :=
  match var with
  | .null => throw .null
  | .node d _ _ _ => if d.type ≠ .flatname then return none else findBuiltin mem d.data builtin

/-- `ccnl_localrpc_handleRequest`. -/
def localrpcHandleRequest (s : RpcState) : Run (RpcState × Int) :=
  match req.parts with
  | .null => return (s, -1)
  | nonce => do
    let (ntype, nonce') ← getType mem nonce
    let (ftype, fexpr) ← getType mem nonce.nextinseq
    if ntype ≠ RdrType.nonce.code ∨ ftype ≠ RdrType.application.code then
      return (← rpcReturn W mem «from» req nonce' 404 (asciiBytes "malformed RPC request") none s, -1)
    else do
      let (ftype, fct) ← getType mem fexpr.first
      if ftype ≠ RdrType.flatname.code then
        return (← rpcReturn W mem «from» req nonce' 404
          (asciiBytes "only constant fct names supported yet") none s, -1)
      else
        match ← rpcGetBuiltinFct mem fct with
        | none =>
          return (← rpcReturn W mem «from» req nonce' 501 (asciiBytes "unknown function") none s, -1)
        | some x => return (← x.fct W mem «from» req nonce' fexpr.parts s, 0)

end Functions

/-- A pass of the loop of `ccnl_localrpc_exec`, as in `localrpcStep`. -/
def rpcExecStep (W : RpcWorld) (freed : Rdr → Run Nat) (mem : List UInt8) («from» : FaceId)
    (x : RpcState × Int × Cursor) :
    Run ((RpcState × Int × Cursor) ⊕ (RpcState × Option Cursor)) := do
  let (s, rc, c) := x
  if rc ≠ 0 ∨ c.len = 0 then return .inr (s, some c)
  let b ← rd mem c.pos
  if b ≠ 0 ∧ b ≠ 0x81 ∧ b ≠ 0x82 then return .inr (s, none)
  let (type, a) ← getType mem (unserialize c.pos c.len)
  if type ≠ RdrType.request.code ∧ type ≠ RdrType.reply.code then return .inr (s, none)
  let (s, rc) ← (if type = RdrType.request.code then localrpcHandleRequest W mem «from» a s
    else return (s, 0))
  let flatlen ← freed a
  -- `*buflen` wraps around
  if c.len < flatlen then return .inr (s, some ⟨c.pos + flatlen, c.len + 2 ^ 64 - flatlen⟩)
  return .inl (s, rc, ⟨c.pos + flatlen, c.len - flatlen⟩)

/-- `ccnl_localrpc_exec`. -/
def rpcExec (W : RpcWorld) (freed : Rdr → Run Nat) (mem : List UInt8) («from» : FaceId) (c : Cursor)
    (s : RpcState) : Run (RpcState × Option Cursor) :=
  loop (rpcExecStep W freed mem «from») (c.len + 1) (s, 0, c)

/-- The environment with the real RPCs. Where the call does not come back, nothing is done. -/
def Env.withRpc (E : Env) (W : RpcWorld) (freed : Rdr → Run Nat) : Env := { E with
  rpc := fun σ mem c «from» =>
    match rpcExec W freed mem «from» c { relay := σ } with
    | .ok (s, c) => (s.ops, c)
    | .error _ => ([], none) }

/-! ## Decoded terms -/

/-- `type`. -/
def Rdr.type : Rdr → RdrType
  | .null => .notSerialized
  | .node d _ _ _ => d.type

/-- A term that `ccnl_rdr_getType` has made, or a part of one with those behind it. -/
def Decoded (mem : List UInt8) (t : Rdr) : Prop := ∃ lo hi, Tiles mem t lo hi

section Decoded

variable {mem : List UInt8} {t : Rdr}

theorem decoded_null : Decoded mem .null := ⟨0, 0, rfl⟩

theorem Decoded.next (h : Decoded mem t) : Decoded mem t.nextinseq := by
  cases t with
  | null => exact decoded_null
  | node d u aux next =>
    obtain ⟨lo, hi, typ, vallen, q, -, -, hnext⟩ := h
    exact ⟨_, _, hnext⟩

theorem Decoded.below (h : Decoded mem t) : Decoded mem t.first ∧ Decoded mem t.parts := by
  cases t with
  | null => exact ⟨decoded_null, decoded_null⟩
  | node d u aux next =>
    obtain ⟨lo, hi, typ, vallen, q, -, hvalue, -⟩ := h
    split at hvalue
    · obtain ⟨-, -, mid, hu, haux⟩ := hvalue
      exact ⟨⟨_, _, hu⟩, _, _, haux⟩
    · obtain ⟨rfl, rfl, -⟩ := hvalue
      exact ⟨decoded_null, decoded_null⟩

/-- To ask a decoded node for its type again changes nothing. -/
theorem Decoded.getType (h : Decoded mem t) (hne : t ≠ .null) :
    getType mem t = .ok (t.type.code, t) := by
  cases t with
  | null => exact absurd rfl hne
  | node d u aux next =>
    obtain ⟨lo, hi, typ, vallen, q, ⟨-, hhead, htype, hlen⟩, -⟩ := h
    have hq := hhead.lt
    have hset : d.type ≠ .notSerialized := by
      intro hunset
      rw [hunset] at htype
      rcases rdrType_cases htype with hcase | hcase | hcase <;> revert hcase <;> decide
    have hsize : d.flatlen ≠ 0 := by omega
    simp only [Ccnl.getType, getTypeFrom, Rdr.flatlen, if_neg hsize, if_pos hset]
    rfl

theorem getType_null : getType mem .null = .ok (-2, .null) := rfl

/-- The type of a decoded node, by its code. -/
theorem Decoded.code_iff (h : Decoded mem t) {ty : RdrType} (hty : ty ≠ .notSerialized) {r : Int}
    {t' : Rdr} (hget : Ccnl.getType mem t = .ok (r, t')) : t' = t ∧ (r = ty.code ↔ t.type = ty) := by
  by_cases hne : t = .null
  · subst hne
    cases getType_null.symm.trans hget
    refine ⟨rfl, iff_of_false ?_ hty.symm⟩
    cases ty <;> decide
  · cases (h.getType hne).symm.trans hget
    refine ⟨rfl, fun hcode => ?_, fun htype => htype ▸ rfl⟩
    revert hcode
    cases t.type <;> cases ty <;> decide

/-- What a decoded node answers, and a null pointer. -/
theorem Decoded.answer (h : Decoded mem t) :
    ∃ r, Ccnl.getType mem t = .ok (r, t) ∧
      ∀ ty, ty ≠ .notSerialized → (r = ty.code ↔ t.type = ty) := by
  by_cases hne : t = .null
  · subst hne
    exact ⟨-2, getType_null, fun ty hty => (h.code_iff hty getType_null).2⟩
  · exact ⟨_, h.getType hne, fun ty hty => (h.code_iff hty (h.getType hne)).2⟩

end Decoded

/-! ## What is done to the relay -/

/-- The content has the name. -/
def Content.isNamed (p : Prefix) (c : Content) : Bool :=
  c.pkt.pfx.any fun q => prefixCmp q none p .exact = 0

/-- The content has one of the names. -/
def Content.isAsked (names : List Prefix) (c : Content) : Bool := names.any fun p => c.isNamed p

/-- The contents with one of the names are removed, and the buffers are sent to `f`. -/
def Relay.rpcDone (σ : Relay) (f : FaceId) (names : List Prefix) (bufs : List (List UInt8)) :
    Relay :=
  { σ with
    contents := σ.contents.filter fun c => !c.isAsked names
    contentcnt := σ.contentcnt - σ.contents.countP (·.isAsked names)
    out := σ.out ++ bufs.map (.send f) }

/-- Nothing else is done between `s` and `s'`, and the note of it is right. -/
structure RpcDoes (f : FaceId) (names : List Prefix) (s s' : RpcState) : Prop where
  relay : ∃ bufs, s'.relay = s.relay.rpcDone f names bufs
  ops : ∃ ops, s'.ops = s.ops ++ ops ∧
    ∀ E now, ops.foldlM (RpcOp.run E now f) s.relay = .ok s'.relay

section Does

variable {f : FaceId} {names names' : List Prefix} {s s' s'' : RpcState} {σ : Relay}

@[simp] theorem isAsked_nil (c : Content) : c.isAsked [] = false := rfl

@[simp] theorem isAsked_append (c : Content) :
    c.isAsked (names ++ names') = (c.isAsked names || c.isAsked names') := List.any_append

@[simp] theorem rpcDone_nil : σ.rpcDone f [] [] = σ := by simp [Relay.rpcDone]

/-- What is done twice is done at once. -/
theorem rpcDone_rpcDone (bufs bufs' : List (List UInt8)) :
    (σ.rpcDone f names bufs).rpcDone f names' bufs' =
      σ.rpcDone f (names ++ names') (bufs ++ bufs') := by
  have hcount : σ.contents.countP (fun c => c.isAsked (names ++ names')) =
      σ.contents.countP (fun c => c.isAsked names) +
        (σ.contents.filter fun c => !c.isAsked names).countP fun c => c.isAsked names' := by
    simp only [isAsked_append]
    induction σ.contents with
    | nil => rfl
    | cons c cs ih =>
      rw [List.countP_cons, List.countP_cons, ih]
      cases h : c.isAsked names <;> cases h' : c.isAsked names' <;> simp [h, h'] <;> omega
  simp only [Relay.rpcDone, List.filter_filter, hcount, List.append_assoc, List.map_append]
  congr 1
  · refine List.filter_congr fun c _ => ?_
    rw [isAsked_append, Bool.not_or, Bool.and_comm]
  · omega

theorem RpcDoes.refl (f : FaceId) (s : RpcState) : RpcDoes f [] s s :=
  ⟨⟨[], rpcDone_nil.symm⟩, [], (List.append_nil _).symm, fun _ _ => rfl⟩

theorem RpcDoes.trans (h : RpcDoes f names s s') (h' : RpcDoes f names' s' s'') :
    RpcDoes f (names ++ names') s s'' := by
  obtain ⟨⟨bufs, hrelay⟩, ops, hops, hrun⟩ := h
  obtain ⟨⟨bufs', hrelay'⟩, ops', hops', hrun'⟩ := h'
  refine ⟨⟨bufs ++ bufs', ?_⟩, ops ++ ops', ?_, fun E now => ?_⟩
  · rw [hrelay', hrelay, rpcDone_rpcDone]
  · rw [hops', hops, List.append_assoc]
  · rw [List.foldlM_append, hrun, ok_bind, hrun']

/-- The faces stay. -/
theorem RpcDoes.face (h : RpcDoes f names s s') (g : FaceId) : s'.relay.face g = s.relay.face g := by
  obtain ⟨⟨bufs, hrelay⟩, -⟩ := h
  rw [hrelay]
  rfl

end Does

/-! ## What is asked for -/

namespace Rdr

/-- The names among the parameters, up to the first one that is no name. -/
def flatNames (mem : List UInt8) : Rdr → List Prefix
  | null => []
  | node d _ _ next =>
    if d.type = .flatname then
      rpcName ((d.data.bytes mem).takeWhile (· ≠ 0)) :: flatNames mem next
    else []

/-- The request has a nonce, and calls a function by its name. -/
def Calls (mem : List UInt8) (req : Rdr) (x : Builtin) : Prop :=
  req.parts.type = .nonce ∧ req.parts.nextinseq.type = .application ∧
    req.parts.nextinseq.first.type = .flatname ∧
    rdBytes mem req.parts.nextinseq.first.data.off req.parts.nextinseq.first.data.len = .ok x.name

instance (mem : List UInt8) (req : Rdr) (x : Builtin) : Decidable (req.Calls mem x) :=
  inferInstanceAs (Decidable (_ ∧ _))

/-- The names that a request wants to be removed from the cache. -/
def removes (mem : List UInt8) (req : Rdr) : List Prefix :=
  if req.Calls mem .cacheRemove then req.parts.nextinseq.parts.flatNames mem else []

end Rdr

/-- A request is decoded from some of the bytes at the cursor. -/
def RequestIn (mem : List UInt8) (c : Cursor) (req : Rdr) : Prop :=
  ∃ p n, c.pos ≤ p ∧ p + n ≤ c.pos + c.len ∧
    getType mem (unserialize p n) = .ok (RdrType.request.code, req)

/-! ## What each function does -/

section Functions

variable {W : RpcWorld} {mem : List UInt8} {f : FaceId} {req nonce param : Rdr} {s s' : RpcState}
  {x : Face}

theorem rpcReturn_does {rc : Int32} {reason : List UInt8} {val : Option (List UInt8)}
    (h : rpcReturn W mem f req nonce rc reason val s = .ok s') : RpcDoes f [] s s' := by
  obtain ⟨r, -, h⟩ := (bind_eq_ok _ _ _).mp h
  cases r with
  | none =>
    cases h
    exact .refl f s
  | some pkt =>
    obtain ⟨σ, henqueue, h⟩ := (bind_eq_ok _ _ _).mp h
    cases h
    have hrun : ∀ E now, [RpcOp.enqueue pkt].foldlM (RpcOp.run E now f) s.relay = .ok σ :=
      fun E now => by rw [List.foldlM_cons, RpcOp.run, henqueue]; rfl
    obtain ⟨y, -, hout⟩ := (bind_eq_ok _ _ _).mp henqueue
    cases hout
    exact ⟨⟨[pkt], by simp [Relay.rpcDone]⟩, [.enqueue pkt], rfl, hrun⟩

theorem rpcSyslog_does (h : rpcSyslog W mem f req nonce param s = .ok s') : RpcDoes f [] s s' := by
  obtain ⟨⟨t, param'⟩, -, h⟩ := (bind_eq_ok _ _ _).mp h
  dsimp only at h
  split at h
  · obtain ⟨_, -, h⟩ := (bind_eq_ok _ _ _).mp h
    exact rpcReturn_does h
  · exact rpcReturn_does h

theorem rpcCacheAdd_does (h : rpcCacheAdd W mem f req nonce param s = .ok s') :
    RpcDoes f [] s s' := by
  obtain ⟨x, -, h⟩ := (bind_eq_ok _ _ _).mp h
  split at h
  · exact rpcReturn_does h
  · obtain ⟨b, -, h⟩ := (bind_eq_ok _ _ _).mp h
    split at h <;> exact rpcReturn_does h

theorem rpcForward_does (h : rpcForward W mem f req nonce param s = .ok s') :
    RpcDoes f [] s s' := by
  obtain ⟨⟨t, param'⟩, -, h⟩ := (bind_eq_ok _ _ _).mp h
  dsimp only at h
  split at h
  · exact rpcReturn_does h
  · obtain ⟨_, -, h⟩ := (bind_eq_ok _ _ _).mp h
    exact rpcReturn_does h

theorem rpcLookup_does (h : rpcLookup W mem f req nonce param s = .ok s') : RpcDoes f [] s s' := by
  obtain ⟨⟨t, param'⟩, -, h⟩ := (bind_eq_ok _ _ _).mp h
  dsimp only at h
  split at h
  · obtain ⟨cp, -, h⟩ := (bind_eq_ok _ _ _).mp h
    split at h
    · exact rpcReturn_does h
    · split at h <;> exact rpcReturn_does h
  · exact rpcReturn_does h

/-- The contents from the index `k` on that have the name are removed, one after another. -/
theorem removeNamed_does {p : Prefix} {pre cs : List Content} {cnt cnt' : Nat}
    (hcs : s.relay.contents = pre ++ cs)
    (h : removeNamed p pre.length cs (s, cnt) = .ok (s', cnt')) :
    s'.relay = { s.relay with
      contents := pre ++ cs.filter fun c => !c.isNamed p
      contentcnt := s.relay.contentcnt - cs.countP (·.isNamed p) } ∧
    (∃ ops, s'.ops = s.ops ++ ops ∧
      ∀ E now, ops.foldlM (RpcOp.run E now f) s.relay = .ok s'.relay) ∧
    cnt' = cnt + cs.countP (·.isNamed p) := by
  induction cs generalizing pre s cnt with
  | nil =>
    cases h
    refine ⟨by simp [← hcs], ⟨[], by simp, fun _ _ => rfl⟩, rfl⟩
  | cons c cs ih =>
    obtain ⟨q, hq, h⟩ := (bind_eq_ok _ _ _).mp h
    rw [deref_eq_ok] at hq
    split at h
    · rename_i hcmp
      have hnamed : c.isNamed p = true := by simp [Content.isNamed, hq, hcmp]
      have hlt : pre.length < s.relay.contents.length := by simp [hcs]
      have herase : (contentRemove s.relay pre.length).contents = pre ++ cs := by
        simp [contentRemove, hcs, List.eraseIdx_append_of_length_le]
      obtain ⟨hrelay, ⟨ops, hops, hrun⟩, hcnt⟩ := ih herase h
      refine ⟨?_, ⟨.contentRemove pre.length :: ops, ?_, fun E now => ?_⟩, ?_⟩
      · rw [hrelay, List.filter_cons, hnamed, List.countP_cons, hnamed]
        simp only [contentRemove, Bool.not_true, Bool.false_eq_true, if_false, if_true]
        congr 1
        omega
      · rw [hops, List.append_assoc]
        rfl
      · rw [List.foldlM_cons, RpcOp.run, if_pos hlt]
        exact hrun E now
      · rw [hcnt, List.countP_cons, hnamed, if_pos rfl]
        omega
    · rename_i hcmp
      have hnamed : c.isNamed p = false := by simp [Content.isNamed, hq, hcmp]
      have hsplit : s.relay.contents = (pre ++ [c]) ++ cs := by rw [hcs, List.append_cons]
      have hlen : (pre ++ [c]).length = pre.length + 1 := by simp
      rw [← hlen] at h
      obtain ⟨hrelay, hops, hcnt⟩ := ih hsplit h
      refine ⟨?_, hops, ?_⟩
      · rw [hrelay, List.filter_cons, hnamed, List.countP_cons, hnamed]
        simp
      · rw [hcnt, List.countP_cons, hnamed]
        simp

theorem cacheRemoveFrom_does {cnt : Nat} (hd : Decoded mem param)
    (h : cacheRemoveFrom W mem f req nonce param (s, cnt) = .ok s') :
    RpcDoes f (param.flatNames mem) s s' := by
  induction param generalizing s cnt with
  | null => exact rpcReturn_does h
  | node d u aux next _ _ ih =>
    obtain ⟨⟨t, param'⟩, hget, h⟩ := (bind_eq_ok _ _ _).mp h
    have hcode : t = RdrType.flatname.code ↔ d.type = .flatname :=
      (hd.code_iff (by decide) hget).2
    dsimp only at h
    rw [Rdr.flatNames]
    split at h
    · rename_i hne
      rw [if_neg fun htype => hne (hcode.mpr htype)]
      exact rpcReturn_does h
    · rename_i heq
      obtain ⟨name, hname, h₁⟩ := (bind_eq_ok _ _ _).mp h
      obtain ⟨bs, hbs, hname⟩ := (bind_eq_ok _ _ _).mp hname
      cases hname
      obtain ⟨-, rfl⟩ := rdBytes_eq_ok.mp hbs
      obtain ⟨⟨s₁, cnt₁⟩, hremove, hrest⟩ := (bind_eq_ok _ _ _).mp h₁
      rw [if_pos (hcode.mp (not_not.mp heq))]
      obtain ⟨hrelay, hops, -⟩ := @removeNamed_does f s s₁ _ [] s.relay.contents cnt cnt₁ rfl hremove
      have hfirst : RpcDoes f [rpcName ((d.data.bytes mem).takeWhile (· ≠ 0))] s s₁ := by
        refine ⟨⟨[], ?_⟩, hops⟩
        rw [hrelay]
        simp [Relay.rpcDone, Content.isAsked, Span.bytes, Rdr.data]
      exact hfirst.trans (ih hd.next hrest)

/-- The names that are removed for a client. -/
def permitted (x : Face) (names : List Prefix) : List Prefix :=
  if isLocalAddr x.peer then names else []

theorem rpcCacheRemove_does (hx : s.relay.face f = .ok x) (hd : Decoded mem param)
    (h : rpcCacheRemove W mem f req nonce param s = .ok s') :
    RpcDoes f (permitted x (param.flatNames mem)) s s' := by
  obtain ⟨y, hy, h⟩ := (bind_eq_ok _ _ _).mp h
  cases hx.symm.trans hy
  unfold permitted
  split at h
  · rename_i hremote
    rw [Bool.not_eq_true'] at hremote
    rw [hremote, if_neg (by decide)]
    exact rpcReturn_does h
  · rename_i hlocal
    rw [Bool.not_eq_true', Bool.not_eq_false] at hlocal
    rw [hlocal, if_pos rfl]
    exact cacheRemoveFrom_does hd h

/-- What is found is the function with the name. -/
theorem findBuiltin_found {var : Span} {xs : List Builtin} {r : Option Builtin}
    (h : findBuiltin mem var xs = .ok r) :
    (∀ y, r = some y → rdBytes mem var.off var.len = .ok y.name) ∧
      (r = none → ∀ y ∈ xs, rdBytes mem var.off var.len ≠ .ok y.name) := by
  induction xs with
  | nil =>
    cases h
    exact ⟨nofun, fun _ y hy => nomatch hy⟩
  | cons z zs ih =>
    rw [findBuiltin] at h
    by_cases hlen : z.name.length = var.len
    · rw [if_pos hlen] at h
      obtain ⟨bs, hbs, h⟩ := (bind_eq_ok _ _ _).mp h
      by_cases hname : z.name = bs
      · rw [if_pos hname] at h
        cases h
        refine ⟨fun y hy => ?_, nofun⟩
        cases hy
        rw [hbs, hname]
      · simp only [if_neg hname] at h
        refine ⟨(ih h).1, fun hr y hy hread => ?_⟩
        rcases List.mem_cons.mp hy with rfl | hy
        · exact hname (Except.ok.inj (hread.symm.trans hbs))
        · exact (ih h).2 hr y hy hread
    · rw [if_neg hlen] at h
      refine ⟨(ih h).1, fun hr y hy hread => ?_⟩
      rcases List.mem_cons.mp hy with rfl | hy
      · obtain ⟨hin, htake⟩ := rdBytes_eq_ok.mp hread
        exact hlen (htake ▸ length_span hin)
      · exact (ih h).2 hr y hy hread

/-- A decoded request, by the types of its parts. -/
theorem localrpcHandleRequest_eq (hd : Decoded mem req) (hne : req.parts ≠ .null) :
    localrpcHandleRequest W mem f req s =
      if req.parts.type ≠ .nonce ∨ req.parts.nextinseq.type ≠ .application then
        (·, -1) <$> rpcReturn W mem f req req.parts 404 (asciiBytes "malformed RPC request") none s
      else if req.parts.nextinseq.first.type ≠ .flatname then
        (·, -1) <$> rpcReturn W mem f req req.parts 404
          (asciiBytes "only constant fct names supported yet") none s
      else findBuiltin mem req.parts.nextinseq.first.data builtin >>= fun b =>
        match b with
        | none =>
          (·, -1) <$> rpcReturn W mem f req req.parts 501 (asciiBytes "unknown function") none s
        | some x => (·, 0) <$> x.fct W mem f req req.parts req.parts.nextinseq.parts s := by
  obtain ⟨ntype, hnonce, hn⟩ := hd.below.2.answer
  obtain ⟨ftype, hfexpr, hf⟩ := hd.below.2.next.answer
  obtain ⟨vtype, hfct, hv⟩ := hd.below.2.next.below.1.answer
  have hn := hn .nonce (by decide)
  have hf := hf .application (by decide)
  have hv := hv .flatname (by decide)
  unfold localrpcHandleRequest
  split
  · exact absurd ‹_› hne
  simp only [hnonce, hfexpr, hfct, ok_bind]
  by_cases hbad : req.parts.type ≠ .nonce ∨ req.parts.nextinseq.type ≠ .application
  · rw [if_pos hbad, if_pos (by rwa [ne_eq, hn, ne_eq, hf])]
    rfl
  rw [if_neg hbad, if_neg (by rwa [ne_eq, hn, ne_eq, hf])]
  by_cases hname : req.parts.nextinseq.first.type ≠ .flatname
  · rw [if_pos hname, if_pos (by rwa [ne_eq, hv])]
    rfl
  rw [if_neg hname, if_neg (by rwa [ne_eq, hv])]
  have hfind : rpcGetBuiltinFct mem req.parts.nextinseq.first =
      findBuiltin mem req.parts.nextinseq.first.data builtin := by
    revert hname
    cases req.parts.nextinseq.first with
    | null => exact fun hname => absurd (not_not.mp hname) (by decide)
    | node d u aux next => exact fun hname => if_neg hname
  rw [hfind]
  rfl

/-- What a request does: a client on the same host can have contents removed by their names, and
everybody gets replies. -/
theorem localrpcHandleRequest_does {rc : Int} (hx : s.relay.face f = .ok x) (hd : Decoded mem req)
    (h : localrpcHandleRequest W mem f req s = .ok (s', rc)) :
    RpcDoes f (permitted x (req.removes mem)) s s' := by
  have hidle : ¬ req.Calls mem .cacheRemove → permitted x (req.removes mem) = [] := by
    intro hnot
    rw [Rdr.removes, if_neg hnot]
    exact ite_self []
  by_cases hnull : req.parts = .null
  · have hnot : ¬ req.Calls mem .cacheRemove := by
      intro hcalls
      have htype := hcalls.1
      rw [hnull] at htype
      cases htype
    unfold localrpcHandleRequest at h
    rw [hnull] at h
    cases h
    rw [hidle hnot]
    exact .refl f s
  rw [localrpcHandleRequest_eq hd hnull] at h
  by_cases hbad : req.parts.type ≠ .nonce ∨ req.parts.nextinseq.type ≠ .application
  · rw [if_pos hbad] at h
    obtain ⟨s₁, h₁, h⟩ := (map_eq_ok _ _ _).mp h
    cases h
    rw [hidle fun hcalls => hbad.elim (· hcalls.1) (· hcalls.2.1)]
    exact rpcReturn_does h₁
  rw [if_neg hbad] at h
  by_cases hname : req.parts.nextinseq.first.type ≠ .flatname
  · rw [if_pos hname] at h
    obtain ⟨s₁, h₁, h⟩ := (map_eq_ok _ _ _).mp h
    cases h
    rw [hidle fun hcalls => hname hcalls.2.2.1]
    exact rpcReturn_does h₁
  rw [if_neg hname] at h
  obtain ⟨hntype, hftype⟩ := not_or.mp hbad
  obtain ⟨b, hb, h⟩ := (bind_eq_ok _ _ _).mp h
  obtain ⟨hsome, hnone⟩ := findBuiltin_found hb
  cases b with
  | none =>
    obtain ⟨s₁, h₁, h⟩ := (map_eq_ok _ _ _).mp h
    cases h
    rw [hidle fun hcalls => hnone rfl .cacheRemove (by decide) hcalls.2.2.2]
    exact rpcReturn_does h₁
  | some y =>
    obtain ⟨s₁, h₁, h⟩ := (map_eq_ok _ _ _).mp h
    cases h
    have hcalls : req.Calls mem y :=
      ⟨not_not.mp hntype, not_not.mp hftype, not_not.mp hname, hsome y rfl⟩
    have hother : y ≠ .cacheRemove → permitted x (req.removes mem) = [] := by
      intro hne
      refine hidle fun hremove => ?_
      have hsame : y.name = Builtin.cacheRemove.name :=
        Except.ok.inj (hcalls.2.2.2.symm.trans hremove.2.2.2)
      revert hsame hne
      cases y <;> decide
    cases y with
    | cacheRemove =>
      rw [Rdr.removes, if_pos hcalls]
      exact rpcCacheRemove_does hx hd.below.2.next.below.2 h₁
    | cacheAdd => rw [hother (by decide)]; exact rpcCacheAdd_does h₁
    | forward => rw [hother (by decide)]; exact rpcForward_does h₁
    | lookup => rw [hother (by decide)]; exact rpcLookup_does h₁
    | syslog => rw [hother (by decide)]; exact rpcSyslog_does h₁

end Functions

/-! ## A frame -/

section Frame

variable {W : RpcWorld} {freed : Rdr → Run Nat} {mem : List UInt8} {f : FaceId} {c : Cursor}
  {s s' : RpcState} {x : Face}

theorem permitted_append (names names' : List Prefix) :
    permitted x (names ++ names') = permitted x names ++ permitted x names' := by
  unfold permitted
  split
  · rfl
  · rfl

theorem getType_decoded {p n : Nat} {r : Int} {t : Rdr}
    (h : getType mem (unserialize p n) = .ok (r, t)) (hr : 0 ≤ r) : Decoded mem t :=
  ⟨_, _, ((getTypeFrom_tiles (Nat.lt_succ_self n)).tiles r t h hr).2.2.2⟩

/-- What the requests that were decoded so far ask for, up to the cursor of the loop. -/
structure RpcLoop (mem : List UInt8) (f : FaceId) (x : Face) (c : Cursor) (s s' : RpcState)
    (c' : Cursor) : Prop where
  reqs : ∃ reqs : List Rdr, (∀ q ∈ reqs, RequestIn mem c q) ∧
    RpcDoes f (permitted x (reqs.flatMap (Rdr.removes mem))) s s'
  pos : c.pos ≤ c'.pos
  last : c'.pos + c'.len ≤ c.pos + c.len

/-- A request more. -/
theorem RpcLoop.request {c' : Cursor} {s'' : RpcState} {a : Rdr} {rc : Int}
    (hx : s.relay.face f = .ok x) (h : RpcLoop mem f x c s s' c')
    (hget : getType mem (unserialize c'.pos c'.len) = .ok (RdrType.request.code, a))
    (hreq : localrpcHandleRequest W mem f a s' = .ok (s'', rc)) : RpcLoop mem f x c s s'' c' := by
  obtain ⟨⟨reqs, hin, hdoes⟩, hpos, hlast⟩ := h
  refine ⟨⟨reqs ++ [a], ?_, ?_⟩, hpos, hlast⟩
  · intro q hq
    rcases List.mem_append.mp hq with hq | hq
    · exact hin q hq
    · cases List.mem_singleton.mp hq
      exact ⟨c'.pos, c'.len, hpos, hlast, hget⟩
  · rw [List.flatMap_append, permitted_append, List.flatMap_singleton]
    refine hdoes.trans (localrpcHandleRequest_does ?_ (getType_decoded hget (by decide)) hreq)
    rw [hdoes.face, hx]

/-- A pass of the loop. -/
theorem rpcExecStep_loop {y : RpcState × Int × Cursor}
    {r : (RpcState × Int × Cursor) ⊕ (RpcState × Option Cursor)}
    (hx : s.relay.face f = .ok x) (h : RpcLoop mem f x c s y.1 y.2.2)
    (hs : rpcExecStep W freed mem f y = .ok r) :
    r.elim (fun y => RpcLoop mem f x c s y.1 y.2.2) fun y => ∃ c', RpcLoop mem f x c s y.1 c' := by
  obtain ⟨s', rc, c'⟩ := y
  unfold rpcExecStep at hs
  dsimp only at hs
  split at hs
  · cases hs
    exact ⟨c', h⟩
  obtain ⟨b, -, hs⟩ := (bind_eq_ok _ _ _).mp hs
  split at hs
  · cases hs
    exact ⟨c', h⟩
  obtain ⟨⟨type, a⟩, hget, hs⟩ := (bind_eq_ok _ _ _).mp hs
  dsimp only at hs
  split at hs
  · cases hs
    exact ⟨c', h⟩
  obtain ⟨⟨s₁, rc₁⟩, hhandle, hs⟩ := (bind_eq_ok _ _ _).mp hs
  have h₁ : RpcLoop mem f x c s s₁ c' := by
    split at hhandle
    · rename_i htype
      rw [htype] at hget
      exact h.request hx hget hhandle
    · cases hhandle
      exact h
  obtain ⟨n, -, hs⟩ := (bind_eq_ok _ _ _).mp hs
  dsimp only at hs
  split at hs
  · cases hs
    exact ⟨c', h₁⟩
  · rename_i hle
    cases hs
    obtain ⟨hreqs, hpos, hlast⟩ := h₁
    exact ⟨hreqs, by simp only; omega, by simp only; omega⟩

/-- All that the RPCs of a frame do. -/
theorem rpcExec_loop {r : Option Cursor} (hx : s.relay.face f = .ok x)
    (h : rpcExec W freed mem f c s = .ok (s', r)) : ∃ c', RpcLoop mem f x c s s' c' := by
  have hstart : RpcLoop mem f x c s s c := by
    refine ⟨⟨[], nofun, ?_⟩, Nat.le_refl _, Nat.le_refl _⟩
    have hnone : permitted x ([].flatMap (Rdr.removes mem)) = [] := ite_self []
    rw [hnone]
    exact .refl f s
  refine @loop_inv _ _ _ (fun y : RpcState × Int × Cursor => RpcLoop mem f x c s y.1 y.2.2)
    (fun y : RpcState × Option Cursor => ∃ c', RpcLoop mem f x c s y.1 c') _ _ _ h hstart
    (fun y y' hy hs => ?_) fun y z hy hs => ?_
  · exact rpcExecStep_loop hx hy (r := .inl y') hs
  · exact rpcExecStep_loop hx hy (r := .inr z) hs

variable {E : Env} {now : Nat} {σ τ : Relay}

/-- What `ccnl_localrpc_exec` does is what the operations that it notes do. -/
theorem localrpcExec_withRpc {r : Option Cursor} (hx : σ.face f = .ok x)
    (h : rpcExec W freed mem f c { relay := σ } = .ok (s, r)) :
    localrpcExec (E.withRpc W freed) now f σ mem c = .ok (s.relay, r) := by
  obtain ⟨c', ⟨reqs, -, -, ops, hops, hrun⟩, -, -⟩ := rpcExec_loop hx h
  have hrpc : (E.withRpc W freed).rpc σ mem c f = (s.ops, r) := by
    simp only [Env.withRpc, h]
  rw [localrpcExec, hrpc]
  dsimp only
  rw [hops]
  have hall := hrun (E.withRpc W freed) now
  rw [List.nil_append, hall]
  rfl

end Frame

/-- The RPCs of a frame change nothing in the relay but this: the client gets replies, and when it is
on the same host the contents go whose names a request in the frame wants removed. -/
theorem rpc_confined (E : Env) (W : RpcWorld) (freed : Rdr → Run Nat) (now : Nat) (f : FaceId)
    (x : Face) (σ τ : Relay) (mem : List UInt8) (c : Cursor) (r : Option Cursor)
    (hx : σ.face f = .ok x) (h : localrpcExec (E.withRpc W freed) now f σ mem c = .ok (τ, r)) :
    ∃ (reqs : List Rdr) (bufs : List (List UInt8)), (∀ q ∈ reqs, RequestIn mem c q) ∧
      τ = σ.rpcDone f
        (if isLocalAddr x.peer then reqs.flatMap (Rdr.removes mem) else []) bufs := by
  cases hexec : rpcExec W freed mem f c { relay := σ } with
  | error e =>
    have hrpc : (E.withRpc W freed).rpc σ mem c f = ([], none) := by
      simp only [Env.withRpc, hexec]
    rw [localrpcExec, hrpc] at h
    cases h
    refine ⟨[], [], nofun, ?_⟩
    rw [List.flatMap_nil, ite_self, rpcDone_nil]
  | ok y =>
    obtain ⟨s, r'⟩ := y
    rw [localrpcExec_withRpc hx hexec] at h
    cases h
    obtain ⟨c', ⟨reqs, hin, ⟨bufs, hrelay⟩, -⟩, -, -⟩ := rpcExec_loop hx hexec
    exact ⟨reqs, bufs, hin, hrelay⟩

/-- Where every variable that is not set holds 0. -/
def RpcWorld.zero : RpcWorld :=
  ⟨fun _ _ => 0, fun _ => 0, fun _ _ => 0, fun _ => 0, [], fun _ => []⟩

/-- A request with the nonce 5 to remove `/a`. -/
def removeA : List UInt8 :=
  [0x81, 36, 7, 1, 5, 2, 31, 0, 25] ++ Builtin.cacheRemove.name ++ [0, 2, 47, 97]

/-- A relay that has `/a`, with one client. -/
def relayOfClient (peer : SockAddr) : Relay where
  faces := [{ faceid := 1, ifndx := 0, peer := some peer }]
  contents := [{ pkt :=
    { pfx := some { mem := [97], comp := [⟨0, 1⟩], suite := .ndntlv }
      s := .ndntlv {}
      suite := .ndntlv } }]
  contentcnt := 1

/-- A client with a Unix socket has `/a` removed. -/
theorem rpc_confined_remove :
    ∃ τ r, localrpcExec (Env.still.withRpc .zero fun a => .ok a.flatlen) 0 1
        (relayOfClient (.unix [])) removeA ⟨0, 38⟩ = .ok (τ, r) ∧ τ.contents = [] ∧
      ∃ (reqs : List Rdr) (bufs : List (List UInt8)),
        (∀ q ∈ reqs, RequestIn removeA ⟨0, 38⟩ q) ∧
        τ = (relayOfClient (.unix [])).rpcDone 1
          (if isLocalAddr (some (.unix [])) then reqs.flatMap (Rdr.removes removeA) else [])
          bufs := by
  obtain ⟨x, hx, hempty⟩ : ∃ x, localrpcExec (Env.still.withRpc .zero fun a => .ok a.flatlen) 0 1
      (relayOfClient (.unix [])) removeA ⟨0, 38⟩ = .ok x ∧ x.1.contents = [] :=
    exists_ok (by decide +kernel)
  exact ⟨x.1, x.2, hx, hempty, rpc_confined _ _ _ _ _
    { faceid := 1, ifndx := 0, peer := some (.unix []) } _ _ _ _ _ rfl hx⟩

end Ccnl
