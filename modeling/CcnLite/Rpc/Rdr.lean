import CcnLite.Pkt.Ndntlv

/-!
# RPC terms (`ccnl-pkt-localrpc.c`)

A term is a tree of `struct rdr_ds_s`: `u` is the function of an application or the variable of a
lambda, `aux` the first of the other parts, and `nextinseq` leads from a part to the next one. The
union `u` and the pointer `aux` also hold the value of a leaf, which is a field of its own here. The
bytes that a leaf points to lie in a memory `mem`.

`unserialize` makes a node of a byte string, and `getType` decodes it.
-/

namespace Ccnl

open CRun

/-! ## Terms -/

/-- `LRPC_*`. -/
inductive RdrType where
  | notSerialized
  | flatname
  | nonnegint
  | application
  | str
  | sequence
  | lambda
  | bin
  | nonce
  | request
  | reply
  deriving DecidableEq, Repr

namespace RdrType

def code : RdrType → Int
  | notSerialized => -1
  | flatname => 0x0
  | nonnegint => 0x1
  | application => 0x2
  | str => 0x3
  | sequence => 0x4
  | lambda => 0x5
  | bin => 0x6
  | nonce => 0x7
  | request => 0x81
  | reply => 0x82

/-- The value is a byte string. -/
def IsBlob (t : RdrType) : Prop := t = flatname ∨ t = str ∨ t = bin ∨ t = nonce

/-- One of the parts comes first, and is in `u`. -/
def HasFirst (t : RdrType) : Prop := t = application ∨ t = lambda

/-- There are parts. -/
def IsComposite (t : RdrType) : Prop := t.HasFirst ∨ t = sequence ∨ t = request ∨ t = reply

instance (t : RdrType) : Decidable t.IsBlob := inferInstanceAs (Decidable (_ ∨ _))

instance (t : RdrType) : Decidable t.HasFirst := inferInstanceAs (Decidable (_ ∨ _))

instance (t : RdrType) : Decidable t.IsComposite := inferInstanceAs (Decidable (_ ∨ _))

end RdrType

/-- The labels of the `switch` in `ccnl_rdr_getType`. -/
def rdrType : Nat → Option RdrType
  | 0x0 => some .flatname
  | 0x1 => some .nonnegint
  | 0x2 => some .application
  | 0x3 => some .str
  | 0x4 => some .sequence
  | 0x5 => some .lambda
  | 0x6 => some .bin
  | 0x7 => some .nonce
  | 0x81 => some .request
  | 0x82 => some .reply
  | _ => none

/-- The fields of `struct rdr_ds_s` that are no terms. -/
structure RdrFields where
  type : RdrType := .notSerialized
  flatlen : Nat := 0
  flat : Option Nat := none
  /-- `u.nonnegintval`. -/
  val : Nat := 0
  /-- `aux`, with the length in `u`. -/
  data : Span := ⟨0, 0⟩
  deriving DecidableEq, Repr

/-- `struct rdr_ds_s *`. -/
inductive Rdr where
  | null
  | node (d : RdrFields) (u aux nextinseq : Rdr)
  deriving DecidableEq, Repr

namespace Rdr

def flatlen : Rdr → Nat
  | null => 0
  | node d _ _ _ => d.flatlen

def nextinseq : Rdr → Rdr
  | null => null
  | node _ _ _ next => next

/-- `ds->nextinseq = next`. -/
def setNext : Rdr → Rdr → Rdr
  | null, _ => null
  | node d u aux _, next => node d u aux next

end Rdr

/-! ## Decoding -/

def int32Max : Nat := 2 ^ 31 - 1

/-- `ccnl_lrpc_dehead`: the type and the length of the value. -/
def lrpcDehead (mem : List UInt8) (c : Cursor) : Run (Option ((Nat × Nat) × Cursor)) := do
  match ← ndntlvVarlenint mem c with
  | none => return none
  | some (typ, c) =>
    match ← ndntlvVarlenint mem c with
    | none => return none
    | some (vallen, c) => return some ((typ, vallen), c)

/-- `ccnl_rdr_unserialize`. -/
def unserialize (buf buflen : Nat) : Rdr := .node { flat := some buf, flatlen := buflen } .null .null .null

/-- The loop of `ccnl_rdr_getType` over the bytes that are left of a value: the sum of the sizes of
the parts, and the first part with the others behind it. -/
def rdrParts (getType : Rdr → Run (Int × Rdr)) : Nat → Cursor → Run (Option (Nat × Rdr))
  | 0, _ => .error .fuel
  | k + 1, c =>
    if c.len = 0 then return some (0, .null)
    else do
      let (r, a) ← getType (unserialize c.pos c.len)
      if r < 0 then return none
      else do
        match ← rdrParts getType k (← c.skip a.flatlen) with
        | none => return none
        | some (n, next) => return some (a.flatlen + n, a.setNext next)

/-- The end of `ccnl_rdr_getType` for a term with parts: so many bytes are used, and `c` is what is
left of the value. A failed call returns the node that it was given. -/
def rdrFinish (getType : Rdr → Run (Int × Rdr)) (ds next : Rdr) (d : RdrFields) (u : Rdr)
    (used : Nat) (c : Cursor) : Run (Int × Rdr) := do
  match ← rdrParts getType (c.len + 1) c with
  | none => return (-10, ds)
  | some (n, aux) => return (d.type.code, .node { d with flatlen := used + n } u aux next)

/-- `ccnl_rdr_getType`, with fuel. What a failed call leaves in the node is left out. -/
def getTypeFrom (mem : List UInt8) : Nat → Rdr → Run (Int × Rdr)
  | _, .null => return (-2, .null)
  | 0, .node .. => .error .fuel
  | k + 1, .node d u aux next => do
    let ds := Rdr.node d u aux next
    if d.flatlen = 0 then return (-2, ds)
    else if d.type ≠ .notSerialized then return (d.type.code, ds)
    else do
      let flat ← deref d.flat
      match ← lrpcDehead mem ⟨flat, d.flatlen⟩ with
      | none => return (-3, ds)
      | some ((typ, vallen), c) =>
        let hdr := c.pos - flat
        if int32Max < typ then return (-3, ds)
        else if c.len < vallen then return (-4, ds)
        else
          match rdrType typ with
          | none => return (-1, ds)
          | some t =>
            let d := { d with type := t }
            if t = .nonnegint then do
              let v ← ndntlvNonNegInt mem c.pos vallen
              return (0, .node { d with val := v, flatlen := hdr + vallen } u aux next)
            else if t.IsBlob then
              return (0, .node { d with data := ⟨c.pos, vallen⟩, flatlen := hdr + vallen } u aux next)
            else if t.HasFirst then do
              let (r, a) ← getTypeFrom mem k (unserialize c.pos vallen)
              if r < 0 then return (if t = .application then -5 else -6, ds)
              else do
                let rest ← (⟨c.pos, vallen⟩ : Cursor).skip a.flatlen
                rdrFinish (getTypeFrom mem k) ds next d a (hdr + a.flatlen) rest
            else rdrFinish (getTypeFrom mem k) ds next d u hdr ⟨c.pos, vallen⟩

/-- `ccnl_rdr_getType`. -/
def getType (mem : List UInt8) (ds : Rdr) : Run (Int × Rdr) :=
  getTypeFrom mem (ds.flatlen + 1) ds

end Ccnl
