import CcnLite.Rpc.Rdr
import CcnLite.Pkt.NdntlvEncode

/-!
# Building and serialising RPC terms (`ccnl-pkt-localrpc.c`)

The constructors, `ccnl_rdr_getFlatLen` and `ccnl_rdr_serialize`. Serialising is two walks over the
term: the first one measures it and leaves the size of each node in its `flatlen`, and the second one
writes it with these sizes.

Two local variables called `len` are added to before they are set. What they hold is a parameter:
`junk` in `ccnl_rdr_serialize`, and `stack at` in the call of `ccnl_rdr_serialize_fill` that writes at
the index `at`.
-/

namespace Ccnl

open CRun

/-! ## Constructors -/

/-- `ccnl_rdr_mkApp`. -/
def mkApp (expr arg : Rdr) : Rdr := .node { type := .application } expr arg .null

/-- `ccnl_rdr_mkSeq`. -/
def mkSeq : Rdr := .node { type := .sequence } .null .null .null

/-- The list of parts with `el` at its end. -/
def Rdr.append : Rdr → Rdr → Rdr
  | .null, el => el
  | .node d u aux next, el => .node d u aux (next.append el)

/-- `ccnl_rdr_seqAppend`. -/
def seqAppend : Rdr → Rdr → Rdr
  | .null, _ => .null
  | .node d u aux next, el => .node d u (aux.append el) next

/-- `ccnl_rdr_mkNonNegInt`. -/
def mkNonNegInt (val : Nat) : Rdr := .node { type := .nonnegint, val := val } .null .null .null

/-- `ccnl_rdr_mkVar`, of a string at the place `s`. -/
def mkVar (s : Span) : Rdr := .node { type := .flatname, data := s } .null .null .null

/-- `ccnl_rdr_mkBin`. -/
def mkBin (data : Span) : Rdr := .node { type := .bin, data := data } .null .null .null

/-- `ccnl_rdr_mkStr`. -/
def mkStr (s : Span) : Rdr := .node { type := .str, data := s } .null .null .null

/-- `ccnl_rdr_mkNonce`. -/
def mkNonce (data : Span) : Rdr := .node { type := .nonce, data := data } .null .null .null

/-! ## Measuring -/

/-- `ccnl_lrpc_fieldlen`. -/
def lrpcFieldlen (val : Nat) : Nat :=
  if val < 253 then 1 else if val ≤ 0xffff then 3 else if val ≤ 0xffffffff then 5 else 9

/-- `ccnl_lrpc_TLVlen`. -/
def lrpcTLVlen (typ : RdrType) (nofbytes : Nat) : Nat :=
  u64 (lrpcFieldlen typ.code.toNat + lrpcFieldlen nofbytes + nofbytes)

/-- The bytes of a number, as the loop counts them: at least one. A 64-bit number has seven at most
after the first pass. -/
def nonNegIntLen (val : Nat) : Nat := byteCount 7 (val / 2 ^ 8) + 1

/-- `ccnl_rdr_getFlatLen` of the first node, and with `more` of the nodes behind it as well, as the
loops over the parts call it. `flatlen` is what `*flatlen` holds before. The result is the term with
its sizes, and what `*flatlen` holds after; `none` is a failure. A node with bytes of its own sets
`*flatlen`, and every other one adds to it. -/
def getFlatLen (more : Bool) : Rdr → Nat → Option (Rdr × Nat)
  | .null, flatlen => if more then some (.null, flatlen) else none
  | .node d u aux next, flatlen => do
    let (d, u, aux, flatlen) ← (
      if d.flat.isSome then some (d, u, aux, d.flatlen)
      else if d.type = .nonnegint then
        let len := lrpcTLVlen .nonnegint (nonNegIntLen d.val)
        some ({ d with flatlen := len }, u, aux, u64 (flatlen + len))
      else if d.type.IsBlob then
        -- a string is measured as a name
        let len := lrpcTLVlen (if d.type = .str then .flatname else d.type) d.data.len
        some ({ d with flatlen := len }, u, aux, u64 (flatlen + len))
      else if d.type.IsComposite then do
        let (u, len) ← (if d.type.HasFirst then getFlatLen false u 0 else some (u, 0))
        let (aux, len) ← getFlatLen true aux len
        let len := lrpcTLVlen d.type len
        some ({ d with flatlen := len }, u, aux, u64 (flatlen + len))
      else none)
    let (next, flatlen) ← (if more then getFlatLen true next flatlen else some (next, flatlen))
    some (.node d u aux next, flatlen)

/-! ## Writing -/

/-- `ccnl_rdr_serialize_fillTorL`. The bytes after the first one are written from the last one on. -/
def fillTorL (val : Nat) (o : Front) : Run Front :=
  o.app ((tlvalForm val).2 :: beBytes (tlvalForm val).1 val)

/-- `ccnl_rdr_serialize_fillTandL`. -/
def fillTandL (typ : RdrType) (len : Nat) (o : Front) : Run Front := do
  let o ← fillTorL typ.code.toNat o
  fillTorL len o

/-- The length of a value with parts, as `ccnl_rdr_serialize_fill` computes it at `at`. -/
def fillLen (stack : Nat → Nat) (d : RdrFields) (u aux : Rdr) («at» : Nat) : Option Nat := do
  let (_, len) ← (if d.type.HasFirst then getFlatLen false u (stack «at») else some (u, 0))
  let (_, len) ← getFlatLen true aux len
  return len

/-- `ccnl_rdr_serialize_fill` of the first node, and with `more` of the nodes behind it, each at the
end of the one before. It is given a term that has its sizes; to measure its parts again changes
nothing in them. A failed call writes nothing, and nobody looks at what it returns. -/
def serializeFill (stack : Nat → Nat) (mem : List UInt8) (more : Bool) :
    Rdr → Nat → List UInt8 → Run (List UInt8)
  | .null, _, buf => .ok buf
  | .node d u aux next, «at», buf => do
    let buf ← (
      if d.type.IsBlob then do
        let o ← fillTandL d.type d.data.len ⟨buf, «at»⟩
        let o ← o.app (← rdBytes mem d.data.off d.data.len)
        return o.mem
      else if d.type = .nonnegint then do
        let o ← fillTandL .nonnegint (sub64 d.flatlen 2) ⟨buf, «at»⟩
        -- the value ends where the node does
        let o ← (⟨o.mem, «at» + 2⟩ : Front).app (beBytes (sub64 d.flatlen 2) d.val)
        return o.mem
      else if d.type.IsComposite then
        match fillLen stack d u aux «at» with
        | none => .ok buf
        | some len => do
          let o ← fillTandL d.type len ⟨buf, «at»⟩
          if d.type.HasFirst then do
            let buf ← serializeFill stack mem false u o.pos o.mem
            serializeFill stack mem true aux (o.pos + u.flatlen) buf
          else serializeFill stack mem true aux o.pos o.mem
      else .ok buf)
    if more then serializeFill stack mem true next («at» + d.flatlen) buf else .ok buf

/-- `ccnl_rdr_serialize` into the first `buflen` bytes of `buf`: the buffer and `*res`, or `none` for
a failure. -/
def serialize (stack : Nat → Nat) (junk : Nat) (mem : List UInt8) (ds : Rdr) (buf : List UInt8)
    (buflen : Nat) : Run (Option (List UInt8 × Nat)) :=
  match getFlatLen false ds junk with
  | none => return none
  | some (ds, len) => do
    if buflen < len then return none
    let buf ← serializeFill stack mem false ds 0 buf
    return some (buf, len)

end Ccnl
