import CcnLite.Lib.Write
import CcnLite.Pkt.Ndntlv

/-!
# The NDN-TLV encoder (`ccnl-pkt-ndntlv.c`)

The `ccnl_ndntlv_prepend` functions write a packet from its end: the value of an element first, then
its length and its type. Each is a definition on the buffer (`Back`), and next to it stands the
byte string that it writes, with the equation between the two (`prependTL_eq` and so on): the
function writes these bytes in front of the offset, or returns -1 when they do not fit.
-/

namespace Ccnl

open CRun Back

/-! ## Numbers -/

/-- The loop over the `len` bytes of a number, which starts with the last one. -/
def prependBytes : Nat → Nat → Back → Run Back
  | 0, _, o => .ok o
  | len + 1, val, o => do
    let o ← o.put (UInt8.ofNat val)
    prependBytes len (val / 2 ^ 8) o

/-- The bytes that follow the first byte of a type or a length, and that first byte. -/
def tlvalForm (val : Nat) : Nat × UInt8 :=
  if val < 253 then (0, UInt8.ofNat val)
  else if val ≤ 0xffff then (2, 253)
  else if val ≤ 0xffffffff then (4, 254)
  else (8, 255)

/-- `ccnl_ndntlv_prependTLval`. -/
def ndntlvPrependTLval (val : Nat) (o : Back) : Run Back := do
  let (len, t) := tlvalForm val
  if o.offset < len + 1 then throw .bail
  let o ← prependBytes len val o
  o.put t

/-- `ccnl_ndntlv_prependTL`. -/
def ndntlvPrependTL (type len : Nat) (o : Back) : Run Back := do
  let o ← ndntlvPrependTLval len o
  ndntlvPrependTLval type o

/-- The loop `while (val)`, which a 64-bit number leaves after eight passes; it counts the bytes. -/
def prependDigits : Nat → Nat → Nat → Back → Run (Nat × Back)
  | 0, _, len, o => .ok (len, o)
  | k + 1, val, len, o => do
    if val = 0 then return (len, o)
    let o ← o.tryPut (UInt8.ofNat val)
    prependDigits k (val / 2 ^ 8) (len + 1) o

/-- The table of padding bytes, by the length of the number. -/
def fill : List Nat := [1, 0, 0, 1, 0, 3, 2, 1, 0]

/-- The loop over the padding. A padding byte makes `len` larger, so the loop compares `i` with the
next entry of the table then. -/
def prependFill : List Nat → Nat → Back → Run Back
  | [], _, _ => .error (.oob fill.length)
  | f :: fs, i, o => do
    if i < f then
      let o ← o.tryPut 0
      prependFill fs (i + 1) o
    else return o

/-- `ccnl_ndntlv_prependNonNegIntVal`. -/
def ndntlvPrependNonNegIntVal (val : Nat) (o : Back) : Run Back := do
  let (len, o) ← prependDigits 8 val 0 o
  prependFill (fill.drop len) 0 o

/-- `ccnl_ndntlv_prependNonNegInt`. -/
def ndntlvPrependNonNegInt (type val : Nat) (o : Back) : Run Back := do
  let oldoffset := o.offset
  let o ← ndntlvPrependNonNegIntVal val o
  ndntlvPrependTL type (oldoffset - o.offset) o

/-- `ccnl_ndntlv_prependIncludedNonNegInt`. -/
def ndntlvPrependIncludedNonNegInt (type val : Nat) (marker : UInt8) (o : Back) : Run Back := do
  let oldoffset := o.offset
  let o ← ndntlvPrependNonNegIntVal val o
  let o ← o.tryPut marker
  ndntlvPrependTL type (oldoffset - o.offset) o

/-- `ccnl_ndntlv_prependBlob`. -/
def ndntlvPrependBlob (type : Nat) (blob : List UInt8) (o : Back) : Run Back := do
  let o ← o.pre blob
  ndntlvPrependTL type blob.length o

/-! ## Names and packets -/

def ndnTlvName : Nat := 0x07
def ndnTlvSelectors : Nat := 0x09
def ndnTlvNonce : Nat := 0x0a
def ndnTlvScope : Nat := 0x0b
def ndnTlvInterestLifetime : Nat := 0x0c
def ndnTlvMetaInfo : Nat := 0x14
def ndnTlvContent : Nat := 0x15
def ndnTlvSignatureInfo : Nat := 0x16
def ndnTlvSignatureValue : Nat := 0x17
def ndnValSigtypeDigestsha256 : UInt8 := 0x00

/-- The component with the chunk number. -/
def ndntlvPrependChunk (name : Prefix) (o : Back) : Run Back :=
  match name.chunknum with
  | some k => ndntlvPrependIncludedNonNegInt ndnTlvNameComponent k ndnMarkerSegmentNumber o
  | none => pure o

/-- `ccnl_ndntlv_prependName`. -/
def ndntlvPrependName (name : Prefix) (o : Back) : Run Back := do
  let oldoffset := o.offset
  let o ← ndntlvPrependChunk name o
  let o ← name.comps.reverse.foldlM (fun o c => ndntlvPrependBlob ndnTlvNameComponent c o) o
  ndntlvPrependTL ndnTlvName (oldoffset - o.offset) o

/-- `struct ccnl_ndntlv_interest_opts_s`. -/
structure NdnInterestOpts where
  nonce : UInt32 := 0
  mustbefresh : Bool := false
  interestlifetime : UInt32 := 0
  deriving DecidableEq, Repr

/-! The parts of `ccnl_ndntlv_prependInterest`, from the end of the packet on. -/

def ndntlvPrependScope (scope : Int) (o : Back) : Run Back :=
  if 0 ≤ scope then
    if 2 < scope then throw .bail else ndntlvPrependNonNegInt ndnTlvScope scope.toNat o
  else pure o

def ndntlvPrependLifetime (opts : NdnInterestOpts) (o : Back) : Run Back :=
  if opts.interestlifetime ≠ 0 then
    ndntlvPrependNonNegInt ndnTlvInterestLifetime opts.interestlifetime.toNat o
  else pure o

def ndntlvPrependSelectors (opts : NdnInterestOpts) (o : Back) : Run Back :=
  if opts.mustbefresh then do
    let selOffset := o.offset
    let o ← ndntlvPrependTL ndnTlvMustBeFresh 0 o
    ndntlvPrependTL ndnTlvSelectors (selOffset - o.offset) o
  else pure o

/-- `ccnl_ndntlv_prependInterest`, with `*reslen`. -/
def ndntlvPrependInterest (name : Prefix) (scope : Int) (opts : NdnInterestOpts) (o : Back) :
    Run (Back × Nat) := do
  let oldoffset := o.offset
  let o ← ndntlvPrependScope scope o
  let o ← ndntlvPrependLifetime opts o
  let o ← ndntlvPrependBlob ndnTlvNonce (wordBytes opts.nonce) o
  let o ← ndntlvPrependSelectors opts o
  let o ← ndntlvPrependName name o
  let o ← ndntlvPrependTL ndnTlvInterest (oldoffset - o.offset) o
  return (o, oldoffset - o.offset)

/-- `struct ccnl_ndntlv_data_opts_s`. -/
structure NdnDataOpts where
  freshnessperiod : UInt32 := 0
  finalblockid : UInt32 := 0
  deriving DecidableEq, Repr

/-! The parts of `ccnl_ndntlv_prependContent`, from the end of the packet on. -/

/-- The signature type is always that of a digest, so there is no KeyLocator. -/
def ndntlvPrependSignatureInfo (o : Back) : Run Back := do
  let oldoffset2 := o.offset
  let o ← ndntlvPrependBlob ndnTlvSignatureType [ndnValSigtypeDigestsha256] o
  ndntlvPrependTL ndnTlvSignatureInfo (oldoffset2 - o.offset) o

def ndntlvPrependFinalBlockId (opts : NdnDataOpts) (o : Back) : Run Back :=
  if opts.finalblockid.toNat ≠ uint32Max then do
    let oldoffset2 := o.offset
    let o ← ndntlvPrependIncludedNonNegInt ndnTlvNameComponent opts.finalblockid.toNat
      ndnMarkerSegmentNumber o
    ndntlvPrependTL ndnTlvFinalBlockId (oldoffset2 - o.offset) o
  else pure o

def ndntlvPrependFreshnessPeriod (opts : NdnDataOpts) (o : Back) : Run Back :=
  if opts.freshnessperiod ≠ 0 then
    ndntlvPrependNonNegInt ndnTlvFreshnessPeriod opts.freshnessperiod.toNat o
  else pure o

def ndntlvPrependMetaInfo (opts : Option NdnDataOpts) (o : Back) : Run Back := do
  let oldoffset2 := o.offset
  let o ← match opts with
    | none => pure o
    | some opts => ndntlvPrependFinalBlockId opts o >>= ndntlvPrependFreshnessPeriod opts
  ndntlvPrependTL ndnTlvMetaInfo (oldoffset2 - o.offset) o

/-- `ccnl_ndntlv_prependContent`, with `*contentpos` and `*reslen`. -/
def ndntlvPrependContent (name : Prefix) (payload : List UInt8) (opts : Option NdnDataOpts)
    (o : Back) : Run (Back × Nat × Nat) := do
  let oldoffset := o.offset
  let contentpos := sub64 o.offset payload.length
  let o ← ndntlvPrependTL ndnTlvSignatureValue 0 o
  let o ← ndntlvPrependSignatureInfo o
  let o ← ndntlvPrependBlob ndnTlvContent payload o
  let o ← ndntlvPrependMetaInfo opts o
  let o ← ndntlvPrependName name o
  let o ← ndntlvPrependTL ndnTlvData (oldoffset - o.offset) o
  return (o, sub64 contentpos o.offset, oldoffset - o.offset)

/-! ## What the functions write -/

section Numbers

variable {o : Back}

theorem prependBytes_eq {len val : Nat} (h : len ≤ o.offset) :
    prependBytes len val o = pre (beBytes len val) o := by
  induction len generalizing val o with
  | zero => rw [prependBytes, beBytes, pre_nil]
  | succ len ih =>
    rw [prependBytes, put_eq _ (by omega), beBytes]
    refine pre_bind fun o₁ h₁ => ih ?_
    have := offset_pre h₁
    simp only [List.length_singleton] at this
    omega

/-- A type or a length. -/
def ndnTLval (val : Nat) : List UInt8 := (tlvalForm val).2 :: beBytes (tlvalForm val).1 val

theorem prependTLval_eq (val : Nat) (o : Back) :
    ndntlvPrependTLval val o = pre (ndnTLval val) o := by
  unfold ndntlvPrependTLval ndnTLval
  split
  rename_i len t hform
  rw [hform]
  dsimp only
  split
  · rename_i h
    rw [pre, dif_neg (by rw [List.length_cons, length_beBytes]; omega)]
    rfl
  · rename_i h
    show (prependBytes len val o >>= put t) = _
    rw [prependBytes_eq (by omega)]
    refine pre_bind fun o₁ h₁ => put_eq t ?_
    have := offset_pre h₁
    rw [length_beBytes] at this
    omega

/-- The header of an element. -/
def ndnTL (type len : Nat) : List UInt8 := ndnTLval type ++ ndnTLval len

theorem prependTL_eq (type len : Nat) (o : Back) :
    ndntlvPrependTL type len o = pre (ndnTL type len) o := by
  unfold ndntlvPrependTL
  rw [prependTLval_eq]
  exact pre_bind fun o₁ _ => prependTLval_eq type o₁

/-- An element. -/
def ndnTLV (type : Nat) (value : List UInt8) : List UInt8 := ndnTL type value.length ++ value

/-- A function that writes a value, and the header in front of it. -/
theorem pre_tl {type : Nat} {value : List UInt8} :
    (pre value o >>= fun o₁ => ndntlvPrependTL type (o.offset - o₁.offset) o₁) =
      pre (ndnTLV type value) o := by
  refine pre_bind fun o₁ h₁ => ?_
  have := offset_pre h₁
  rw [prependTL_eq, show o.offset - o₁.offset = value.length by omega]

/-- The digits are written, and counted. -/
theorem prependDigits_eq (k val len : Nat) (o : Back) :
    prependDigits k val len o =
      pre (beBytes (byteCount k val) val) o >>= fun o₁ => pure (len + byteCount k val, o₁) := by
  induction k generalizing val len o with
  | zero => rw [prependDigits, byteCount, beBytes, pre_nil]; rfl
  | succ k ih =>
    rw [prependDigits, byteCount]
    split
    · rw [beBytes, pre_nil]
      rfl
    · rw [beBytes_succ, ← pre_pre, bind_assoc, tryPut_eq]
      refine bind_congr fun o₁ => ?_
      rw [ih, Nat.add_right_comm, Nat.add_assoc]

/-- How many bytes a number of `n` digits takes with its padding. -/
def numWidth (n : Nat) : Nat := [1, 1, 2, 4, 4, 7, 7, 8, 8].getD n 8

/-- A number in an element. -/
def ndnNonNegVal (val : Nat) : List UInt8 := beBytes (numWidth (byteCount 8 val)) val

theorem prependFill_go {f i : Nat} {fs : List Nat} {zs : List UInt8} (h : i < f)
    (hfs : prependFill fs (i + 1) = pre zs) : prependFill (f :: fs) i = pre (zs ++ [0]) := by
  funext o
  rw [prependFill, if_pos h, tryPut_eq, hfs, pre_pre]

theorem prependFill_stop {f i : Nat} {fs : List Nat} (h : ¬ i < f) :
    prependFill (f :: fs) i = pre [] := by
  funext o
  rw [prependFill, if_neg h, pre_nil]
  rfl

theorem prependFill_eq : ∀ {n : Nat}, n ≤ 8 →
    prependFill (fill.drop n) 0 = pre (List.replicate (numWidth n - n) 0)
  | 0, _ => prependFill_go (by decide) (prependFill_stop (by decide))
  | 1, _ => prependFill_stop (by decide)
  | 2, _ => prependFill_stop (by decide)
  | 3, _ => prependFill_go (by decide) (prependFill_stop (by decide))
  | 4, _ => prependFill_stop (by decide)
  | 5, _ => prependFill_go (by decide) (prependFill_go (by decide) (prependFill_stop (by decide)))
  | 6, _ => prependFill_go (by decide) (prependFill_stop (by decide))
  | 7, _ => prependFill_go (by decide) (prependFill_stop (by decide))
  | 8, _ => prependFill_stop (by decide)
  | n + 9, h => absurd h (by omega)

theorem le_numWidth : ∀ {n : Nat}, n ≤ 8 → n ≤ numWidth n ∧ numWidth n ≤ 8 := by decide

theorem prependNonNegIntVal_eq {val : Nat} (h : val < 2 ^ 64) (o : Back) :
    ndntlvPrependNonNegIntVal val o = pre (ndnNonNegVal val) o := by
  have hle := byteCount_le 8 val
  have hwidth := Nat.sub_add_cancel (le_numWidth hle).1
  rw [ndnNonNegVal, ← hwidth, ← replicate_append_beBytes (lt_of_byteCount (k := 8) h), ← pre_pre]
  unfold ndntlvPrependNonNegIntVal
  rw [prependDigits_eq, bind_assoc, Nat.zero_add]
  refine bind_congr fun o₁ => ?_
  show prependFill (fill.drop (byteCount 8 val)) 0 o₁ = _
  rw [prependFill_eq hle]

theorem prependNonNegInt_eq (type : Nat) {val : Nat} (h : val < 2 ^ 64) (o : Back) :
    ndntlvPrependNonNegInt type val o = pre (ndnTLV type (ndnNonNegVal val)) o := by
  unfold ndntlvPrependNonNegInt
  rw [prependNonNegIntVal_eq h]
  exact pre_tl

theorem prependIncludedNonNegInt_eq (type : Nat) {val : Nat} (h : val < 2 ^ 64) (marker : UInt8)
    (o : Back) : ndntlvPrependIncludedNonNegInt type val marker o =
      pre (ndnTLV type (marker :: ndnNonNegVal val)) o := by
  unfold ndntlvPrependIncludedNonNegInt
  simp only [prependNonNegIntVal_eq h, tryPut_eq]
  rw [← bind_assoc, pre_pre]
  exact pre_tl

theorem prependBlob_eq (type : Nat) (blob : List UInt8) (o : Back) :
    ndntlvPrependBlob type blob o = pre (ndnTLV type blob) o := by
  unfold ndntlvPrependBlob
  exact pre_bind fun o₁ _ => prependTL_eq type blob.length o₁

end Numbers

/-! ## What the names and the packets are -/

/-- The component that says which chunk it is. -/
def chunkComp (chunknum : Option Nat) : List (List UInt8) :=
  match chunknum with
  | some k => [ndnMarkerSegmentNumber :: ndnNonNegVal k]
  | none => []

/-- The components of a name on the wire. -/
def wireComps (name : Prefix) : List (List UInt8) := name.comps ++ chunkComp name.chunknum

/-- Name components, one after the other. -/
def ndnComps (vs : List (List UInt8)) : List UInt8 := vs.flatMap (ndnTLV ndnTlvNameComponent)

/-- A Name. -/
def ndnName (name : Prefix) : List UInt8 := ndnTLV ndnTlvName (ndnComps (wireComps name))

theorem foldlM_blobs (vs : List (List UInt8)) (o : Back) :
    vs.reverse.foldlM (fun o c => ndntlvPrependBlob ndnTlvNameComponent c o) o =
      pre (ndnComps vs) o := by
  rw [List.foldlM_reverse]
  induction vs with
  | nil => exact (pre_nil o).symm
  | cons v vs ih =>
    rw [List.foldrM_cons, ih, funext (prependBlob_eq ndnTlvNameComponent v), pre_pre]
    rfl

theorem prependChunk_eq {name : Prefix} (h : ∀ k ∈ name.chunknum, k < 2 ^ 64) (o : Back) :
    ndntlvPrependChunk name o = pre (ndnComps (chunkComp name.chunknum)) o := by
  unfold ndntlvPrependChunk chunkComp ndnComps
  split
  · rename_i k hk
    rw [prependIncludedNonNegInt_eq _ (h k hk), List.flatMap_singleton]
  · exact (pre_nil o).symm

theorem prependName_eq {name : Prefix} (h : ∀ k ∈ name.chunknum, k < 2 ^ 64) (o : Back) :
    ndntlvPrependName name o = pre (ndnName name) o := by
  unfold ndntlvPrependName ndnName wireComps
  simp only [prependChunk_eq h, foldlM_blobs]
  rw [← bind_assoc, pre_pre, show ndnComps (name.comps ++ chunkComp name.chunknum) =
    ndnComps name.comps ++ ndnComps (chunkComp name.chunknum) from List.flatMap_append]
  exact pre_tl

/-! ### Interests -/

section Interest

variable (name : Prefix) (scope : Int) (opts : NdnInterestOpts)

def ndnScope : List UInt8 :=
  if 0 ≤ scope then ndnTLV ndnTlvScope (ndnNonNegVal scope.toNat) else []

def ndnLifetime : List UInt8 :=
  if opts.interestlifetime ≠ 0 then
    ndnTLV ndnTlvInterestLifetime (ndnNonNegVal opts.interestlifetime.toNat)
  else []

def ndnNonce : List UInt8 := ndnTLV ndnTlvNonce (wordBytes opts.nonce)

def ndnSelectors : List UInt8 :=
  if opts.mustbefresh then ndnTLV ndnTlvSelectors (ndnTLV ndnTlvMustBeFresh []) else []

/-- The elements of an Interest. -/
def ndnInterestElems : List UInt8 :=
  ndnName name ++ (ndnSelectors opts ++ (ndnNonce opts ++ (ndnLifetime opts ++ ndnScope scope)))

/-- An Interest. -/
def ndnInterest : List UInt8 := ndnTLV ndnTlvInterest (ndnInterestElems name scope opts)

variable {name scope} (o : Back)

theorem prependScope_eq (h : scope ≤ 2) : ndntlvPrependScope scope o = pre (ndnScope scope) o := by
  unfold ndntlvPrependScope ndnScope
  split
  · rw [if_neg (by omega)]
    exact prependNonNegInt_eq _ (by omega) o
  · exact (pre_nil o).symm

theorem prependLifetime_eq : ndntlvPrependLifetime opts o = pre (ndnLifetime opts) o := by
  unfold ndntlvPrependLifetime ndnLifetime
  split
  · exact prependNonNegInt_eq _ (by have := opts.interestlifetime.toNat_lt; omega) o
  · exact (pre_nil o).symm

theorem prependSelectors_eq : ndntlvPrependSelectors opts o = pre (ndnSelectors opts) o := by
  unfold ndntlvPrependSelectors ndnSelectors
  split
  · simp only [prependTL_eq ndnTlvMustBeFresh]
    rw [show ndnTL ndnTlvMustBeFresh 0 = ndnTLV ndnTlvMustBeFresh [] from
      (List.append_nil _).symm]
    exact pre_tl
  · exact (pre_nil o).symm

theorem prependInterest_eq (hs : scope ≤ 2) (hk : ∀ k ∈ name.chunknum, k < 2 ^ 64) :
    ndntlvPrependInterest name scope opts o =
      pre (ndnInterest name scope opts) o >>= fun o₁ => pure (o₁, o.offset - o₁.offset) := by
  unfold ndntlvPrependInterest ndnInterest ndnInterestElems
  rw [← pre_tl, bind_assoc, ← List.append_assoc, ← List.append_assoc, ← List.append_assoc]
  simp only [← pre_pre, bind_assoc, prependScope_eq _ hs, prependLifetime_eq, prependBlob_eq,
    prependSelectors_eq, prependName_eq hk]
  rfl

end Interest

/-! ### Data -/

section Data

variable (name : Prefix) (payload : List UInt8) (opts : Option NdnDataOpts)

def ndnFinalBlockId (opts : NdnDataOpts) : List UInt8 :=
  if opts.finalblockid.toNat ≠ uint32Max then
    ndnTLV ndnTlvFinalBlockId (ndnTLV ndnTlvNameComponent
      (ndnMarkerSegmentNumber :: ndnNonNegVal opts.finalblockid.toNat))
  else []

def ndnFreshnessPeriod (opts : NdnDataOpts) : List UInt8 :=
  if opts.freshnessperiod ≠ 0 then
    ndnTLV ndnTlvFreshnessPeriod (ndnNonNegVal opts.freshnessperiod.toNat)
  else []

/-- The elements of a MetaInfo. -/
def ndnMetaInfoElems : List UInt8 :=
  match opts with
  | none => []
  | some opts => ndnFreshnessPeriod opts ++ ndnFinalBlockId opts

def ndnMetaInfo : List UInt8 := ndnTLV ndnTlvMetaInfo (ndnMetaInfoElems opts)

def ndnContent : List UInt8 := ndnTLV ndnTlvContent payload

def ndnSignatureInfo : List UInt8 :=
  ndnTLV ndnTlvSignatureInfo (ndnTLV ndnTlvSignatureType [ndnValSigtypeDigestsha256])

def ndnSignatureValue : List UInt8 := ndnTLV ndnTlvSignatureValue []

/-- The elements of a Data packet. -/
def ndnDataElems : List UInt8 :=
  ndnName name ++ (ndnMetaInfo opts ++ (ndnContent payload ++
    (ndnSignatureInfo ++ ndnSignatureValue)))

/-- A Data packet. -/
def ndnData : List UInt8 := ndnTLV ndnTlvData (ndnDataElems name payload opts)

variable {name} (o : Back)

theorem prependFinalBlockId_eq (opts : NdnDataOpts) :
    ndntlvPrependFinalBlockId opts o = pre (ndnFinalBlockId opts) o := by
  unfold ndntlvPrependFinalBlockId ndnFinalBlockId
  split
  · have := opts.finalblockid.toNat_lt
    simp only [prependIncludedNonNegInt_eq ndnTlvNameComponent
      (show opts.finalblockid.toNat < 2 ^ 64 by omega)]
    exact pre_tl
  · exact (pre_nil o).symm

theorem prependFreshnessPeriod_eq (opts : NdnDataOpts) :
    ndntlvPrependFreshnessPeriod opts o = pre (ndnFreshnessPeriod opts) o := by
  unfold ndntlvPrependFreshnessPeriod ndnFreshnessPeriod
  split
  · exact prependNonNegInt_eq _ (by have := opts.freshnessperiod.toNat_lt; omega) o
  · exact (pre_nil o).symm

theorem prependMetaInfo_eq : ndntlvPrependMetaInfo opts o = pre (ndnMetaInfo opts) o := by
  unfold ndntlvPrependMetaInfo ndnMetaInfo ndnMetaInfoElems
  rw [← pre_tl]
  cases opts with
  | none => rw [pre_nil]; rfl
  | some opts =>
    rw [← pre_pre, ← prependFinalBlockId_eq, funext fun o₁ => (prependFreshnessPeriod_eq o₁ opts).symm]

theorem prependSignatureInfo_eq : ndntlvPrependSignatureInfo o = pre ndnSignatureInfo o := by
  unfold ndntlvPrependSignatureInfo ndnSignatureInfo
  simp only [prependBlob_eq]
  exact pre_tl

theorem prependContent_eq (hk : ∀ k ∈ name.chunknum, k < 2 ^ 64) :
    ndntlvPrependContent name payload opts o =
      pre (ndnData name payload opts) o >>= fun o₁ =>
        pure (o₁, sub64 (sub64 o.offset payload.length) o₁.offset, o.offset - o₁.offset) := by
  unfold ndntlvPrependContent ndnData ndnDataElems
  rw [← pre_tl, bind_assoc, ← List.append_assoc, ← List.append_assoc, ← List.append_assoc]
  simp only [← pre_pre, bind_assoc, prependSignatureInfo_eq, prependBlob_eq, prependMetaInfo_eq,
    prependName_eq hk]
  rw [show ndnSignatureValue = ndnTL ndnTlvSignatureValue 0 from List.append_nil _,
    ← prependTL_eq]
  rfl

end Data

end Ccnl
