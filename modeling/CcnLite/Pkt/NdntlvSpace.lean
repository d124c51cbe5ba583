import CcnLite.Lib.Pen
import CcnLite.Pkt.NdntlvEncode

/-!
# The space of the NDN-TLV encoder (`ccnl-pkt-ndntlv.c`)

The `ccnl_ndntlv_prepend` functions once more, on memory: the offset is a `size_t`, nothing but
the checks of the code itself keeps a write inside the buffer, and a function that gives up leaves
what it has written. Each keeps the rule `Prepends` for its byte string, so the checks are enough.
-/

namespace Ccnl

open CRun

/-! ## Arguments -/

/-- `SIZE_MAX`. -/
def sizeMax : Nat := 2 ^ 64 - 1

/-- Bytes in memory: their number is a `size_t`, and so is the length of an element with them. -/
abbrev Blob := { bs : List UInt8 // bs.length ≤ sizeMax - 4 }

/-- A name in memory: the chunk number is a `uint32_t`. -/
structure Prefix.InMemory (name : Prefix) : Prop where
  comps : ∀ c ∈ name.comps, c.length ≤ sizeMax - 4
  chunknum : ∀ k ∈ name.chunknum, k < 2 ^ 32

abbrev WireName := { name : Prefix // name.InMemory }

theorem lt_of_le_sizeMax {n : Nat} (h : n ≤ sizeMax - 4) : n + 4 < 2 ^ 64 := by
  unfold sizeMax at h
  omega

namespace OnPen

open PenM

/-! ## Numbers -/

/-- The loop over the `len` bytes of a number, which starts with the last one. -/
def prependBytes : Nat → Nat → PenM Unit
  | 0, _ => pure ()
  | len + 1, val => do
    put (UInt8.ofNat val)
    prependBytes len (val / 2 ^ 8)

/-- `ccnl_ndntlv_prependTLval`. -/
def ndntlvPrependTLval (val : Nat) : PenM Unit := do
  let (len, t) := tlvalForm val
  let o ← offset
  if o < .ofNat (len + 1) then throw (-1)
  else do
    prependBytes len val
    put t

/-- `ccnl_ndntlv_prependTL`. -/
def ndntlvPrependTL (type len : Nat) : PenM Unit := do
  ndntlvPrependTLval len
  ndntlvPrependTLval type

/-- The call `ccnl_ndntlv_prependTL(type, oldoffset - *offset, offset, buf)`. -/
def ndntlvPrependTLSince (type : Nat) (oldoffset : UInt64) : PenM Unit := do
  let o ← offset
  ndntlvPrependTL type (oldoffset - o).toNat

/-- The loop `while (val)`, which a 64-bit number leaves after eight passes; it counts the bytes. -/
def prependDigits : Nat → Nat → Nat → PenM Nat
  | 0, _, len => pure len
  | k + 1, val, len =>
    if val = 0 then pure len
    else do
      tryPut (UInt8.ofNat val)
      prependDigits k (val / 2 ^ 8) (len + 1)

/-- The loop over the padding. A padding byte makes `len` larger, so the loop compares `i` with the
next entry of the table then. It never comes to the end of the table. -/
def prependFill : List Nat → Nat → PenM Unit
  | [], _ => pure ()
  | f :: fs, i =>
    if i < f then do
      tryPut 0
      prependFill fs (i + 1)
    else pure ()

/-- `ccnl_ndntlv_prependNonNegIntVal`. -/
def ndntlvPrependNonNegIntVal (val : Nat) : PenM Unit := do
  let len ← prependDigits 8 val 0
  prependFill (fill.drop len) 0

/-- `ccnl_ndntlv_prependNonNegInt`. -/
def ndntlvPrependNonNegInt (type val : Nat) : PenM Unit := do
  let oldoffset ← offset
  ndntlvPrependNonNegIntVal val
  ndntlvPrependTLSince type oldoffset

/-- `ccnl_ndntlv_prependIncludedNonNegInt`. -/
def ndntlvPrependIncludedNonNegInt (type val : Nat) (marker : UInt8) : PenM Unit := do
  let oldoffset ← offset
  ndntlvPrependNonNegIntVal val
  tryPut marker
  ndntlvPrependTLSince type oldoffset

/-- `ccnl_ndntlv_prependBlob`. -/
def ndntlvPrependBlob (type : Nat) (blob : List UInt8) : PenM Unit := do
  let len := UInt64.ofNat blob.length
  let o ← offset
  if o < len then throw (-1)
  else do
    copy blob
    ndntlvPrependTL type len.toNat

/-! ## Names and packets -/

/-- The component with the chunk number. -/
def ndntlvPrependChunk (name : Prefix) : PenM Unit :=
  match name.chunknum with
  | some k => ndntlvPrependIncludedNonNegInt ndnTlvNameComponent k ndnMarkerSegmentNumber
  | none => pure ()

/-- `ccnl_ndntlv_prependName`. -/
def ndntlvPrependName (name : Prefix) : PenM Unit := do
  let oldoffset ← offset
  ndntlvPrependChunk name
  name.comps.reverse.forM (ndntlvPrependBlob ndnTlvNameComponent)
  ndntlvPrependTLSince ndnTlvName oldoffset

/-! The parts of `ccnl_ndntlv_prependInterest`, from the end of the packet on. -/

def ndntlvPrependScope (scope : Int) : PenM Unit :=
  if 0 ≤ scope then
    if 2 < scope then throw (-1) else ndntlvPrependNonNegInt ndnTlvScope scope.toNat
  else pure ()

def ndntlvPrependLifetime (opts : NdnInterestOpts) : PenM Unit :=
  if opts.interestlifetime ≠ 0 then
    ndntlvPrependNonNegInt ndnTlvInterestLifetime opts.interestlifetime.toNat
  else pure ()

def ndntlvPrependSelectors (opts : NdnInterestOpts) : PenM Unit :=
  if opts.mustbefresh then do
    let selOffset ← offset
    ndntlvPrependTL ndnTlvMustBeFresh 0
    ndntlvPrependTLSince ndnTlvSelectors selOffset
  else pure ()

/-- `ccnl_ndntlv_prependInterest`, with `*reslen`. -/
def ndntlvPrependInterest (name : Prefix) (scope : Int) (opts : NdnInterestOpts) :
    PenM UInt64 := do
  let oldoffset ← offset
  ndntlvPrependScope scope
  ndntlvPrependLifetime opts
  ndntlvPrependBlob ndnTlvNonce (wordBytes opts.nonce)
  ndntlvPrependSelectors opts
  ndntlvPrependName name
  ndntlvPrependTLSince ndnTlvInterest oldoffset
  let o ← offset
  return oldoffset - o

/-! The parts of `ccnl_ndntlv_prependContent`, from the end of the packet on. -/

/-- A signature type that does not fit is the error 1. -/
def ndntlvPrependSignatureInfo : PenM Unit := do
  let oldoffset2 ← offset
  EStateM.adaptExcept (fun _ => 1) (ndntlvPrependBlob ndnTlvSignatureType [ndnValSigtypeDigestsha256])
  ndntlvPrependTLSince ndnTlvSignatureInfo oldoffset2

def ndntlvPrependFinalBlockId (opts : NdnDataOpts) : PenM Unit :=
  if opts.finalblockid.toNat ≠ uint32Max then do
    let oldoffset2 ← offset
    ndntlvPrependIncludedNonNegInt ndnTlvNameComponent opts.finalblockid.toNat
      ndnMarkerSegmentNumber
    ndntlvPrependTLSince ndnTlvFinalBlockId oldoffset2
  else pure ()

def ndntlvPrependFreshnessPeriod (opts : NdnDataOpts) : PenM Unit :=
  if opts.freshnessperiod ≠ 0 then
    ndntlvPrependNonNegInt ndnTlvFreshnessPeriod opts.freshnessperiod.toNat
  else pure ()

def ndntlvPrependMetaInfoElems : Option NdnDataOpts → PenM Unit
  | none => pure ()
  | some opts => do
    ndntlvPrependFinalBlockId opts
    ndntlvPrependFreshnessPeriod opts

def ndntlvPrependMetaInfo (opts : Option NdnDataOpts) : PenM Unit := do
  let oldoffset2 ← offset
  ndntlvPrependMetaInfoElems opts
  ndntlvPrependTLSince ndnTlvMetaInfo oldoffset2

/-- `ccnl_ndntlv_prependContent`, with `*contentpos` and `*reslen`. -/
def ndntlvPrependContent (name : Prefix) (payload : List UInt8) (opts : Option NdnDataOpts) :
    PenM (UInt64 × UInt64) := do
  let oldoffset ← offset
  let contentpos := oldoffset - .ofNat payload.length
  ndntlvPrependTL ndnTlvSignatureValue 0
  ndntlvPrependSignatureInfo
  ndntlvPrependBlob ndnTlvContent payload
  ndntlvPrependMetaInfo opts
  ndntlvPrependName name
  ndntlvPrependTLSince ndnTlvData oldoffset
  let o ← offset
  return (contentpos - o, oldoffset - o)

/-! ## What the functions write -/

section Numbers

variable {p : Pen} {g : Prop} {bs : List UInt8} {α : Type} {a : α} {m : PenM α}

theorem put_run (b : UInt8) (p : Pen) : put b p = .ok () (p.pre [b]) := rfl

theorem copy_run (bs : List UInt8) (p : Pen) : copy bs p = .ok () (p.pre bs) := rfl

/-- The loop does not ask for room, so it runs wherever the offset is. -/
theorem prependBytes_run (len val : Nat) (p : Pen) :
    prependBytes len val p = .ok () (p.pre (beBytes len val)) := by
  induction len generalizing val p with
  | zero =>
    rw [beBytes, Pen.pre_nil]
    rfl
  | succ len ih =>
    rw [beBytes_succ, ← Pen.pre_pre]
    exact ih (val / 2 ^ 8) (p.pre [UInt8.ofNat val])

theorem lt_ofNat_iff {n : Nat} {o : UInt64} (h : n < 2 ^ 64) : o < UInt64.ofNat n ↔ o.toNat < n := by
  rw [UInt64.lt_iff_toNat_lt, UInt64.toNat_ofNat_of_lt' h]

theorem tlvalForm_le (val : Nat) : (tlvalForm val).1 ≤ 8 := by
  unfold tlvalForm
  split
  · exact Nat.zero_le _
  split
  · decide
  split <;> decide

theorem prependTLval_prepends (val : Nat) (p : Pen) :
    Prepends p True (ndnTLval val) () (ndntlvPrependTLval val) := by
  have hform := tlvalForm_le val
  have hlen : (ndnTLval val).length = (tlvalForm val).1 + 1 := by
    rw [ndnTLval, List.length_cons, length_beBytes]
  have hdef : ndntlvPrependTLval val = (offset >>= fun o =>
      if o < .ofNat ((tlvalForm val).1 + 1) then throw (-1)
      else prependBytes (tlvalForm val).1 val >>= fun _ => put (tlvalForm val).2) := rfl
  have hroom : p.offset < .ofNat ((tlvalForm val).1 + 1) ↔ p.offset.toNat < (tlvalForm val).1 + 1 :=
    lt_ofNat_iff (by omega)
  rw [hdef]
  refine .read (.check (by decide) (fun hlt hall => ?_) fun hge => .of_ok ?_ ?_)
  · have := hroom.mp hlt
    omega
  · show EStateM.bind _ _ _ = _
    rw [EStateM.bind, prependBytes_run, ndnTLval, show (tlvalForm val).2 :: beBytes (tlvalForm val).1 val =
      [(tlvalForm val).2] ++ beBytes (tlvalForm val).1 val from rfl, ← Pen.pre_pre]
    rfl
  · rw [hroom] at hge
    omega

theorem prependTL_prepends (type len : Nat) (p : Pen) :
    Prepends p True (ndnTL type len) () (ndntlvPrependTL type len) :=
  (prependTLval_prepends len p).next fun _ => prependTLval_prepends type _

theorem prependTLSince_prepends (type : Nat) {oldoffset : UInt64} {n : Nat}
    (hn : (oldoffset - p.offset).toNat = n) :
    Prepends p True (ndnTL type n) () (ndntlvPrependTLSince type oldoffset) :=
  .read (hn ▸ prependTL_prepends type _ p)

/-- A function that writes a value, and the header in front of it. -/
theorem tlv_prepends (type : Nat) (hm : Prepends p g bs a m) :
    Prepends p g (ndnTLV type bs) () (m >>= fun _ => ndntlvPrependTLSince type p.offset) :=
  hm.next fun hle => prependTLSince_prepends type (by rw [Pen.sub_pre, toNat_ofNat_le hle])

theorem prependDigits_prepends (k val len : Nat) (p : Pen) :
    Prepends p True (beBytes (byteCount k val) val) (len + byteCount k val) (prependDigits k val len) := by
  induction k generalizing val len p with
  | zero => exact .pure len p
  | succ k ih =>
    rw [byteCount, prependDigits]
    by_cases h0 : val = 0
    · rw [if_pos h0, if_pos h0]
      exact .pure len p
    · rw [if_neg h0, if_neg h0, beBytes_succ, Nat.add_comm _ 1, ← Nat.add_assoc]
      exact (Prepends.tryPut _ p).next fun _ => ih (val / 2 ^ 8) (len + 1) _

theorem prependFill_go {f i : Nat} {fs : List Nat} {zs : List UInt8} (h : i < f)
    (hfs : ∀ p, Prepends p True zs () (prependFill fs (i + 1))) (p : Pen) :
    Prepends p True (zs ++ [0]) () (prependFill (f :: fs) i) := by
  rw [prependFill, if_pos h]
  exact (Prepends.tryPut 0 p).next fun _ => hfs _

theorem prependFill_stop {f i : Nat} {fs : List Nat} (h : ¬ i < f) (p : Pen) :
    Prepends p True [] () (prependFill (f :: fs) i) := by
  rw [prependFill, if_neg h]
  exact .pure () p

theorem prependFill_prepends : ∀ {n : Nat}, n ≤ 8 → ∀ p,
    Prepends p True (List.replicate (numWidth n - n) 0) () (prependFill (fill.drop n) 0)
  | 0, _ => prependFill_go (by decide) (prependFill_stop (by decide))
  | 1, _ => prependFill_stop (by decide)
  | 2, _ => prependFill_stop (by decide)
  | 3, _ => prependFill_go (by decide) (prependFill_stop (by decide))
  | 4, _ => prependFill_stop (by decide)
  | 5, _ => prependFill_go (by decide) (prependFill_go (by decide) (prependFill_stop (by decide)))
  | 6, _ => prependFill_go (by decide) (prependFill_stop (by decide))
  | 7, _ => prependFill_go (by decide) (prependFill_stop (by decide))
  | 8, _ => prependFill_stop (by decide)
  | n + 9, h => absurd h (by omega)

theorem prependNonNegIntVal_prepends {val : Nat} (h : val < 2 ^ 64) (p : Pen) :
    Prepends p True (ndnNonNegVal val) () (ndntlvPrependNonNegIntVal val) := by
  have hle := byteCount_le 8 val
  have hwidth := Nat.sub_add_cancel (le_numWidth hle).1
  rw [ndnNonNegVal, ← hwidth, ← replicate_append_beBytes (lt_of_byteCount (k := 8) h)]
  have hdigits := prependDigits_prepends 8 val 0 p
  rw [Nat.zero_add] at hdigits
  exact (hdigits.bind fun _ => prependFill_prepends hle _).congr (and_iff_left trivial).symm

theorem prependNonNegInt_prepends (type : Nat) {val : Nat} (h : val < 2 ^ 64) (p : Pen) :
    Prepends p True (ndnTLV type (ndnNonNegVal val)) () (ndntlvPrependNonNegInt type val) :=
  .read (tlv_prepends type (prependNonNegIntVal_prepends h p))

theorem prependIncludedNonNegInt_prepends (type : Nat) {val : Nat} (h : val < 2 ^ 64) (marker : UInt8)
    (p : Pen) : Prepends p True (ndnTLV type (marker :: ndnNonNegVal val)) ()
      (ndntlvPrependIncludedNonNegInt type val marker) := by
  have hmarked : Prepends p True ([marker] ++ ndnNonNegVal val) ()
      (ndntlvPrependNonNegIntVal val >>= fun _ => tryPut marker) :=
    (prependNonNegIntVal_prepends h p).next fun _ => .tryPut marker _
  refine .read ?_
  rw [← bind_assoc]
  exact tlv_prepends type hmarked

theorem prependBlob_prepends (type : Nat) {blob : List UInt8} (h : blob.length < 2 ^ 64) (p : Pen) :
    Prepends p True (ndnTLV type blob) () (ndntlvPrependBlob type blob) := by
  have hroom : p.offset < .ofNat blob.length ↔ p.offset.toNat < blob.length := lt_ofNat_iff h
  unfold ndntlvPrependBlob
  refine .read (.check (by decide) (fun hlt hall => ?_) fun hge => ?_)
  · have hfit := hall.2
    rw [ndnTLV, List.length_append] at hfit
    have := hroom.mp hlt
    omega
  · rw [hroom] at hge
    rw [UInt64.toNat_ofNat_of_lt' h]
    exact (Prepends.of_ok (copy_run blob p) (by omega)).next fun _ => prependTL_prepends type blob.length _

end Numbers

/-! ### Names -/

section Names

variable {name : Prefix} (p : Pen)

theorem forM_blobs {vs : List (List UInt8)} (h : ∀ v ∈ vs, v.length ≤ sizeMax - 4) (p : Pen) :
    Prepends p True (ndnComps vs) () (vs.reverse.forM (ndntlvPrependBlob ndnTlvNameComponent)) := by
  induction vs generalizing p with
  | nil => exact .pure () p
  | cons v vs ih =>
    have hv := lt_of_le_sizeMax (h v List.mem_cons_self)
    have hlast : (v :: vs).reverse.forM (ndntlvPrependBlob ndnTlvNameComponent) =
        vs.reverse.forM (ndntlvPrependBlob ndnTlvNameComponent) >>= fun _ =>
          ndntlvPrependBlob ndnTlvNameComponent v := by
      rw [List.reverse_cons, List.forM_eq_forM, List.forM_append]
      simp
    rw [hlast]
    exact (ih (fun w hw => h w (List.mem_cons_of_mem v hw)) p).next fun _ =>
      prependBlob_prepends ndnTlvNameComponent (by omega) _

theorem prependChunk_prepends (h : ∀ k ∈ name.chunknum, k < 2 ^ 32) :
    Prepends p True (ndnComps (chunkComp name.chunknum)) () (ndntlvPrependChunk name) := by
  unfold ndntlvPrependChunk chunkComp ndnComps
  cases hk : name.chunknum with
  | none => exact .pure () p
  | some k =>
    have := h k hk
    dsimp only
    rw [List.flatMap_singleton]
    exact prependIncludedNonNegInt_prepends _ (by omega) _ p

theorem prependName_prepends (h : name.InMemory) :
    Prepends p True (ndnName name) () (ndntlvPrependName name) := by
  have helems : Prepends p True (ndnComps name.comps ++ ndnComps (chunkComp name.chunknum)) ()
      (ndntlvPrependChunk name >>= fun _ =>
        name.comps.reverse.forM (ndntlvPrependBlob ndnTlvNameComponent)) :=
    (prependChunk_prepends p h.chunknum).next fun _ => forM_blobs h.comps _
  have hcomps : ndnComps (wireComps name) =
      ndnComps name.comps ++ ndnComps (chunkComp name.chunknum) := List.flatMap_append
  refine .read ?_
  rw [← bind_assoc, ndnName, hcomps]
  exact tlv_prepends ndnTlvName helems

end Names

/-! ### Interests -/

section Interest

variable {name : Prefix} {scope : Int} (opts : NdnInterestOpts) (p : Pen)

/-- A scope above 2 is an error. -/
theorem prependScope_prepends :
    Prepends p (scope ≤ 2) (ndnScope scope) () (ndntlvPrependScope scope) := by
  unfold ndntlvPrependScope ndnScope
  by_cases h0 : 0 ≤ scope
  · rw [if_pos h0, if_pos h0]
    refine .check (by decide) (fun h2 hall => by omega) fun h2 => ?_
    exact (prependNonNegInt_prepends _ (by omega) p).congr (iff_true_intro (by omega))
  · rw [if_neg h0, if_neg h0]
    exact (Prepends.pure () p).congr (iff_true_intro (by omega))

theorem prependLifetime_prepends :
    Prepends p True (ndnLifetime opts) () (ndntlvPrependLifetime opts) := by
  unfold ndntlvPrependLifetime ndnLifetime
  by_cases h : opts.interestlifetime ≠ 0
  · have := opts.interestlifetime.toNat_lt
    rw [if_pos h, if_pos h]
    exact prependNonNegInt_prepends _ (by omega) p
  · rw [if_neg h, if_neg h]
    exact .pure () p

theorem prependNonce_prepends : Prepends p True (ndnNonce opts) ()
    (ndntlvPrependBlob ndnTlvNonce (wordBytes opts.nonce)) :=
  prependBlob_prepends ndnTlvNonce (by rw [length_wordBytes]; decide) p

theorem prependSelectors_prepends :
    Prepends p True (ndnSelectors opts) () (ndntlvPrependSelectors opts) := by
  unfold ndntlvPrependSelectors ndnSelectors
  by_cases h : opts.mustbefresh = true
  · rw [if_pos h, if_pos h]
    have hfresh := prependTL_prepends ndnTlvMustBeFresh 0 p
    rw [show ndnTL ndnTlvMustBeFresh 0 = ndnTLV ndnTlvMustBeFresh [] from
      (List.append_nil _).symm] at hfresh
    exact .read (tlv_prepends ndnTlvSelectors hfresh)
  · rw [if_neg h, if_neg h]
    exact .pure () p

theorem prependInterest_prepends (h : name.InMemory) : Prepends p (scope ≤ 2)
    (ndnInterest name scope opts) (.ofNat (ndnInterest name scope opts).length)
    (ndntlvPrependInterest name scope opts) := by
  have hscope : Prepends p (scope ≤ 2) _ _ _ := prependScope_prepends p
  have hlifetime := hscope.next fun _ => prependLifetime_prepends opts _
  have hnonce := hlifetime.next fun _ => prependNonce_prepends opts _
  have hselectors := hnonce.next fun _ => prependSelectors_prepends opts _
  have hname := hselectors.next fun _ => prependName_prepends _ h
  have hall := (tlv_prepends ndnTlvInterest hname).finish fun o => p.offset - o
  rw [Pen.sub_pre] at hall
  refine .read ?_
  simp only [bind_assoc] at hall
  exact hall

end Interest

/-! ### Data -/

section Data

variable {name : Prefix} {payload : List UInt8} (opts : Option NdnDataOpts) (p : Pen)

theorem prependSignatureInfo_prepends :
    Prepends p True ndnSignatureInfo () ndntlvPrependSignatureInfo := by
  have hblob := @prependBlob_prepends ndnTlvSignatureType [ndnValSigtypeDigestsha256] (by decide) p
  exact .read (tlv_prepends ndnTlvSignatureInfo (hblob.adapt fun _ _ => Int.one_ne_zero))

theorem prependFinalBlockId_prepends (opts : NdnDataOpts) :
    Prepends p True (ndnFinalBlockId opts) () (ndntlvPrependFinalBlockId opts) := by
  unfold ndntlvPrependFinalBlockId ndnFinalBlockId
  by_cases h : opts.finalblockid.toNat ≠ uint32Max
  · have := opts.finalblockid.toNat_lt
    rw [if_pos h, if_pos h]
    exact .read (tlv_prepends ndnTlvFinalBlockId (prependIncludedNonNegInt_prepends _ (by omega) _ p))
  · rw [if_neg h, if_neg h]
    exact .pure () p

theorem prependFreshnessPeriod_prepends (opts : NdnDataOpts) :
    Prepends p True (ndnFreshnessPeriod opts) () (ndntlvPrependFreshnessPeriod opts) := by
  unfold ndntlvPrependFreshnessPeriod ndnFreshnessPeriod
  by_cases h : opts.freshnessperiod ≠ 0
  · have := opts.freshnessperiod.toNat_lt
    rw [if_pos h, if_pos h]
    exact prependNonNegInt_prepends _ (by omega) p
  · rw [if_neg h, if_neg h]
    exact .pure () p

theorem prependMetaInfo_prepends :
    Prepends p True (ndnMetaInfo opts) () (ndntlvPrependMetaInfo opts) := by
  have helems : Prepends p True (ndnMetaInfoElems opts) () (ndntlvPrependMetaInfoElems opts) := by
    cases opts with
    | none => exact .pure () p
    | some opts =>
      exact (prependFinalBlockId_prepends p opts).next fun _ => prependFreshnessPeriod_prepends _ opts
  exact .read (tlv_prepends ndnTlvMetaInfo helems)

theorem prependContent_prepends (h : name.InMemory) (hpay : payload.length ≤ sizeMax - 4) :
    Prepends p True (ndnData name payload opts)
      (p.offset - .ofNat payload.length - (p.pre (ndnData name payload opts)).offset,
        .ofNat (ndnData name payload opts).length)
      (ndntlvPrependContent name payload opts) := by
  have hlt := lt_of_le_sizeMax hpay
  have hvalue := prependTL_prepends ndnTlvSignatureValue 0 p
  rw [show ndnTL ndnTlvSignatureValue 0 = ndnSignatureValue from (List.append_nil _).symm] at hvalue
  have hinfo := hvalue.next fun _ => prependSignatureInfo_prepends _
  have hcontent := hinfo.next fun _ => @prependBlob_prepends ndnTlvContent payload (by omega) _
  have hmeta := hcontent.next fun _ => prependMetaInfo_prepends opts _
  have hname := hmeta.next fun _ => prependName_prepends _ h
  have hall := (tlv_prepends ndnTlvData hname).finish fun o =>
    (p.offset - .ofNat payload.length - o, p.offset - o)
  rw [Pen.sub_pre] at hall
  refine .read ?_
  simp only [bind_assoc] at hall
  exact hall

end Data

end OnPen

end Ccnl
