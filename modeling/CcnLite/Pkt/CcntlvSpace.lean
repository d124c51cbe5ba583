import CcnLite.Pkt.CcntlvEncode
import CcnLite.Pkt.NdntlvSpace

/-!
# The space of the CCNx-TLV encoder (`ccnl-pkt-ccntlv.c`)

The `ccnl_ccntlv_prepend` functions on memory, as in `NdntlvSpace`. They fail when a length does not
fit into 16 bits too, which is the guard of their rules.

`encoders_inSpace` is the result for the two encoders, and the `refines` theorems say that they are
the functions on a checked buffer.
-/

namespace Ccnl

open CRun

namespace OnPen

open PenM

/-! ## The functions -/

/-- `ccnl_ccntlv_prependTL`. -/
def ccntlvPrependTL (type len : Nat) : PenM Unit := do
  let o ← offset
  if o < 4 ∨ uint16Max < len then throw (-1)
  else copy [highByte type, lowByte type, highByte len, lowByte len]

/-- The call `ccnl_ccntlv_prependTL(type, oldoffset - *offset, offset, buf)`. -/
def ccntlvPrependTLSince (type : Nat) (oldoffset : UInt64) : PenM Unit := do
  let o ← offset
  ccntlvPrependTL type (oldoffset - o).toNat

/-- `ccnl_ccntlv_prependBlob`. The sum `len + 4` is a `size_t`. -/
def ccntlvPrependBlob (type : Nat) (blob : List UInt8) : PenM Unit := do
  let len := UInt64.ofNat blob.length
  let o ← offset
  if o < len + 4 then throw (-1)
  else do
    copy blob
    ccntlvPrependTL type len.toNat

/-- The loop of `ccnl_ccntlv_prependNetworkVarUInt`, which a 32-bit number leaves after four passes;
it counts the bytes. -/
def prependVarDigits : Nat → Nat → Nat → PenM Nat
  | 0, _, len => pure len
  | k + 1, intval, len => do
    let offs ← offset
    if offs = 0 then pure len
    else do
      put (UInt8.ofNat intval)
      if intval / 2 ^ 8 = 0 then pure (len + 1)
      else prependVarDigits k (intval / 2 ^ 8) (len + 1)

/-- `ccnl_ccntlv_prependNetworkVarUInt`. -/
def ccntlvPrependNetworkVarUInt (type intval : Nat) : PenM Unit := do
  let len ← prependVarDigits 4 intval 0
  ccntlvPrependTL type len

/-- `ccnl_ccntlv_prependFixedHdr`. `hdrlen` is written in the host's byte order. -/
def ccntlvPrependFixedHdr (ver packettype : UInt8) (payloadlen : UInt64) (hoplimit : UInt8) :
    PenM Unit := do
  let pktlen := .ofNat ccnxHdrlen + payloadlen
  let o ← offset
  if uint16Max < pktlen.toNat then throw (-1)
  else if o < .ofNat ccnxHdrlen then throw (-1)
  else copy ([ver, packettype] ++ beBytes 2 pktlen.toNat ++ [hoplimit, 0, 0] ++
    (beBytes 2 ccnxHdrlen).reverse)

/-- One component of `ccnl_ccntlv_prependName`. -/
def ccntlvPrependComp (comp : List UInt8) : PenM Unit := do
  let o ← offset
  if o < .ofNat comp.length then throw (-1) else copy comp

/-- An optional number of `ccnl_ccntlv_prependName`. -/
def ccntlvPrependOptional (type : Nat) : Option Nat → PenM Unit
  | some k => ccntlvPrependNetworkVarUInt type k
  | none => pure ()

/-- `ccnl_ccntlv_prependName`. -/
def ccntlvPrependName (name : Prefix) (lastchunknum : Option UInt32) : PenM Unit := do
  ccntlvPrependOptional ccnxTlvMEndChunk (lastchunknum.map UInt32.toNat)
  let nameend ← offset
  ccntlvPrependOptional ccnxTlvNChunk name.chunknum
  name.comps.reverse.forM ccntlvPrependComp
  ccntlvPrependTLSince ccnxTlvMName nameend

/-- `ccnl_ccntlv_prependInterest`, with `*len`. -/
def ccntlvPrependInterest (name : Prefix) : PenM UInt64 := do
  let oldoffset ← offset
  ccntlvPrependName name none
  ccntlvPrependTLSince ccnxTlvTlInterest oldoffset
  let o ← offset
  return oldoffset - o

/-- `ccnl_ccntlv_prependInterestWithHdr`, with `*len`. -/
def ccntlvPrependInterestWithHdr (name : Prefix) : PenM UInt64 := do
  let oldoffset ← offset
  let len ← ccntlvPrependInterest name
  if uint16Max - ccnxHdrlen < len.toNat then throw (-1)
  else do
    ccntlvPrependFixedHdr ccnxTlvV1 ccnxPtInterest len 64
    let o ← offset
    return oldoffset - o

/-- `ccnl_ccntlv_prependContent`, with `*contentpos` and `*reslen`. -/
def ccntlvPrependContent (name : Prefix) (payload : List UInt8) (lastchunknum : Option UInt32) :
    PenM (UInt64 × UInt64) := do
  let tloffset ← offset
  let contentpos := tloffset - .ofNat payload.length
  ccntlvPrependBlob ccnxTlvMPayload payload
  ccntlvPrependName name lastchunknum
  ccntlvPrependTLSince ccnxTlvTlObject tloffset
  let o ← offset
  return (contentpos, tloffset - o)

/-- `ccnl_ccntlv_prependContentWithHdr`, with `*contentpos` and `*reslen`. -/
def ccntlvPrependContentWithHdr (name : Prefix) (payload : List UInt8)
    (lastchunknum : Option UInt32) : PenM (UInt64 × UInt64) := do
  let oldoffset ← offset
  let (contentpos, len) ← ccntlvPrependContent name payload lastchunknum
  if uint16Max - ccnxHdrlen < len.toNat then throw (-1)
  else do
    ccntlvPrependFixedHdr ccnxTlvV1 ccnxPtData len 255
    let o ← offset
    return (contentpos, oldoffset - o)

/-! ## What they write -/

section Elements

variable {p : Pen} {g : Prop} {bs : List UInt8} {α : Type} {a : α} {m : PenM α}

/-- A length that does not fit into 16 bits is an error. -/
theorem ccntlvPrependTL_prepends (type len : Nat) (p : Pen) :
    Prepends p (len ≤ uint16Max) (ccnxTL type len) () (ccntlvPrependTL type len) := by
  have hbytes : [highByte type, lowByte type, highByte len, lowByte len] = ccnxTL type len := by
    rw [highByte_eq, highByte_eq, lowByte_eq, lowByte_eq]
    rfl
  have hfour : (ccnxTL type len).length = 4 := rfl
  have hroom : p.offset < 4 ↔ p.offset.toNat < 4 := UInt64.lt_iff_toNat_lt
  unfold ccntlvPrependTL
  rw [hbytes]
  refine .read (.check (by decide) (fun h hall => ?_) fun h => ?_)
  · rw [hroom] at h
    omega
  · rw [hroom] at h
    exact (Prepends.of_ok (copy_run _ p) (by omega)).congr (iff_true_intro (by omega))

/-- The header in front of a value that has been written. -/
theorem ccntlvPrependTLSince_prepends (type : Nat) (hle : bs.length ≤ p.offset.toNat) :
    Prepends (p.pre bs) (bs.length ≤ uint16Max) (ccnxTL type bs.length) ()
      (ccntlvPrependTLSince type p.offset) := by
  refine .read ?_
  rw [Pen.sub_pre, toNat_ofNat_le hle]
  exact ccntlvPrependTL_prepends type bs.length _

/-- A function that writes a value, and the header in front of it. -/
theorem ccnx_tlv_prepends (type : Nat) (hm : Prepends p g bs a m) :
    Prepends p (g ∧ bs.length ≤ uint16Max) (ccnxTLV type bs) ()
      (m >>= fun _ => ccntlvPrependTLSince type p.offset) :=
  hm.andThen fun hle => ccntlvPrependTLSince_prepends type hle

theorem ccntlvPrependBlob_prepends (type : Nat) {blob : List UInt8} (h : blob.length ≤ sizeMax - 4)
    (p : Pen) : Prepends p (blob.length ≤ uint16Max) (ccnxTLV type blob) ()
      (ccntlvPrependBlob type blob) := by
  have hlt := lt_of_le_sizeMax h
  have hlen : (ccnxTLV type blob).length = 4 + blob.length := by
    rw [ccnxTLV, List.length_append]
    rfl
  have hroom : p.offset < .ofNat blob.length + 4 ↔ p.offset.toNat < blob.length + 4 := by
    rw [show UInt64.ofNat blob.length + 4 = .ofNat (blob.length + 4) from (UInt64.ofNat_add _ 4).symm]
    exact lt_ofNat_iff hlt
  unfold ccntlvPrependBlob
  refine .read (.check (by decide) (fun hfit hall => ?_) fun hfit => ?_)
  · rw [hroom] at hfit
    omega
  · rw [hroom] at hfit
    rw [UInt64.toNat_ofNat_of_lt' (show blob.length < 2 ^ 64 by omega)]
    exact ((Prepends.of_ok (copy_run blob p) (by omega)).andThen fun _ =>
      ccntlvPrependTL_prepends type blob.length _).congr (and_iff_right trivial).symm

/-- The digits are written and counted, or the loop ends where there is no room left. -/
theorem prependVarDigits_run (k val len : Nat) (p : Pen) :
    varCount k val ≤ p.offset.toNat ∧ prependVarDigits k val len p =
        .ok (len + varCount k val) (p.pre (beBytes (varCount k val) val)) ∨
      p.offset.toNat < varCount k val ∧ ∃ n zs, zs.length = p.offset.toNat ∧
        prependVarDigits k val len p = .ok n (p.pre zs) := by
  induction k generalizing val len p with
  | zero =>
    refine .inl ⟨Nat.zero_le _, ?_⟩
    rw [varCount, beBytes, Pen.pre_nil]
    rfl
  | succ k ih =>
    have hpos : 0 < varCount (k + 1) val := by
      rw [varCount]
      split <;> omega
    have hdef : prependVarDigits (k + 1) val len p = if p.offset = 0 then .ok len p
        else if val / 2 ^ 8 = 0 then .ok (len + 1) (p.pre [UInt8.ofNat val])
        else prependVarDigits k (val / 2 ^ 8) (len + 1) (p.pre [UInt8.ofNat val]) := by
      rw [prependVarDigits]
      show EStateM.bind _ _ _ = _
      rw [EStateM.bind]
      dsimp only [offset]
      split
      · rfl
      · show EStateM.bind _ _ _ = _
        rw [EStateM.bind, put_run]
        dsimp only
        split <;> rfl
    rw [hdef]
    by_cases h0 : p.offset = 0
    · have hzero : p.offset.toNat = 0 := by rw [h0]; rfl
      rw [if_pos h0]
      exact .inr ⟨by omega, len, [], hzero.symm, by rw [Pen.pre_nil]⟩
    rw [if_neg h0]
    have hroom : 1 ≤ p.offset.toNat := by
      refine Nat.pos_of_ne_zero fun hn => h0 (UInt64.toNat_inj.mp ?_)
      exact hn
    rw [varCount]
    by_cases hlast : val / 2 ^ 8 = 0
    · rw [if_pos hlast, if_pos hlast]
      exact .inl ⟨hroom, rfl⟩
    · rw [if_neg hlast, if_neg hlast]
      have hoff : (p.pre [UInt8.ofNat val]).offset.toNat = p.offset.toNat - 1 :=
        @Pen.toNat_pre [UInt8.ofNat val] p hroom
      rcases ih (val / 2 ^ 8) (len + 1) (p.pre [UInt8.ofNat val]) with ⟨hle, h⟩ | ⟨hlt, n, zs, hzs, h⟩
      · refine .inl ⟨by omega, ?_⟩
        rw [h, beBytes_succ, Pen.pre_pre, Nat.add_right_comm, Nat.add_assoc]
      · refine .inr ⟨by omega, n, zs ++ [UInt8.ofNat val], ?_, ?_⟩
        · rw [List.length_append, List.length_singleton]
          omega
        · rw [h, Pen.pre_pre]

theorem ccntlvPrependNetworkVarUInt_prepends (type val : Nat) (p : Pen) :
    Prepends p True (ccnxTLV type (ccnxVar val)) () (ccntlvPrependNetworkVarUInt type val) := by
  have hcount : varCount 4 val ≤ uint16Max := Nat.le_trans (varCount_le 4 val) (by decide)
  have hlen : (ccnxVar val).length = varCount 4 val := length_beBytes _ _
  rcases prependVarDigits_run 4 val 0 p with ⟨hle, h⟩ | ⟨hlt, n, zs, hzs, h⟩
  · have hdigits := Prepends.of_ok h (by rw [length_beBytes]; exact hle)
    rw [Nat.zero_add] at hdigits
    refine (hdigits.bind fun _ => ?_).congr (and_iff_right trivial).symm
    rw [hlen]
    exact (ccntlvPrependTL_prepends type _ _).congr (iff_of_true trivial hcount)
  · have hfull : (p.pre zs).offset.toNat = 0 := by
      rw [Pen.toNat_pre (by omega)]
      omega
    have htl := (ccntlvPrependTL_prepends type n (p.pre zs)).fails fun hall => by
      have hfour : (ccnxTL type n).length = 4 := rfl
      omega
    obtain ⟨e, q, ws, hrun, he, hws, hlog⟩ := htl
    refine ⟨fun _ hfit => ?_, fun _ => ⟨e, q, ws ++ zs, ?_, he, ?_, by rw [hlog, Pen.pre_pre]⟩⟩
    · rw [ccnxTLV, List.length_append, hlen] at hfit
      omega
    · show EStateM.bind _ _ _ = _
      rw [EStateM.bind, h]
      exact hrun
    · rw [List.length_append]
      omega

theorem ccntlvPrependOptional_prepends (type : Nat) (num : Option Nat) (p : Pen) :
    Prepends p True (ccnxOptional type num) () (ccntlvPrependOptional type num) := by
  cases num with
  | none => exact .pure () p
  | some k => exact ccntlvPrependNetworkVarUInt_prepends type k p

theorem ccntlvPrependComp_prepends {comp : List UInt8} (h : comp.length < 2 ^ 64) (p : Pen) :
    Prepends p True comp () (ccntlvPrependComp comp) := by
  refine .read (.check (by decide) (fun hfit hall => ?_) fun hfit => .of_ok (copy_run comp p) ?_)
  · rw [lt_ofNat_iff h] at hfit
    omega
  · rw [lt_ofNat_iff h] at hfit
    omega

end Elements

/-! ### Names and packets -/

section Packets

variable {name : Prefix} {payload : List UInt8} {last : Option UInt32} (p : Pen)

theorem forM_comps {vs : List (List UInt8)} (h : ∀ v ∈ vs, v.length ≤ sizeMax - 4) (p : Pen) :
    Prepends p True vs.flatten () (vs.reverse.forM ccntlvPrependComp) := by
  induction vs generalizing p with
  | nil => exact .pure () p
  | cons v vs ih =>
    have hv := lt_of_le_sizeMax (h v List.mem_cons_self)
    have hlast : (v :: vs).reverse.forM ccntlvPrependComp =
        vs.reverse.forM ccntlvPrependComp >>= fun _ => ccntlvPrependComp v := by
      rw [List.reverse_cons, List.forM_eq_forM, List.forM_append]
      simp
    rw [hlast]
    exact (ih (fun w hw => h w (List.mem_cons_of_mem v hw)) p).next fun _ =>
      ccntlvPrependComp_prepends (by omega) _

theorem ccntlvPrependName_prepends (h : name.InMemory) : Prepends p
    ((ccnxNameElems name).length ≤ uint16Max)
    (ccnxName name ++ ccnxOptional ccnxTlvMEndChunk (last.map UInt32.toNat)) ()
    (ccntlvPrependName name last) := by
  have hname : ∀ p, Prepends p ((ccnxNameElems name).length ≤ uint16Max) (ccnxName name) ()
      (offset >>= fun nameend => ccntlvPrependOptional ccnxTlvNChunk name.chunknum >>= fun _ =>
        name.comps.reverse.forM ccntlvPrependComp >>= fun _ =>
          ccntlvPrependTLSince ccnxTlvMName nameend) := fun p => by
    have helems := (ccntlvPrependOptional_prepends ccnxTlvNChunk name.chunknum p).next fun _ =>
      forM_comps h.comps _
    have hall := (ccnx_tlv_prepends ccnxTlvMName helems).congr (and_iff_right trivial).symm
    simp only [bind_assoc] at hall
    exact .read hall
  exact ((ccntlvPrependOptional_prepends ccnxTlvMEndChunk _ p).andThen fun _ => hname _).congr
    (and_iff_right trivial).symm

theorem ccntlvPrependInterest_prepends (h : name.InMemory) : Prepends p
    ((ccnxNameElems name).length ≤ uint16Max ∧ (ccnxName name).length ≤ uint16Max)
    (ccnxTLV ccnxTlvTlInterest (ccnxName name))
    (.ofNat (ccnxTLV ccnxTlvTlInterest (ccnxName name)).length) (ccntlvPrependInterest name) := by
  have hname := @ccntlvPrependName_prepends name none p h
  rw [show ccnxOptional ccnxTlvMEndChunk ((none : Option UInt32).map UInt32.toNat) = [] from rfl,
    List.append_nil] at hname
  have hall := (ccnx_tlv_prepends ccnxTlvTlInterest hname).finish fun o => p.offset - o
  rw [Pen.sub_pre] at hall
  simp only [bind_assoc] at hall
  exact .read hall

theorem ccntlvPrependContent_prepends (h : name.InMemory) (hpay : payload.length ≤ sizeMax - 4) :
    Prepends p ((payload.length ≤ uint16Max ∧ (ccnxNameElems name).length ≤ uint16Max) ∧
        (ccnxContentElems name payload last).length ≤ uint16Max)
      (ccnxTLV ccnxTlvTlObject (ccnxContentElems name payload last))
      (p.offset - .ofNat payload.length,
        .ofNat (ccnxTLV ccnxTlvTlObject (ccnxContentElems name payload last)).length)
      (ccntlvPrependContent name payload last) := by
  have hpayload := ccntlvPrependBlob_prepends ccnxTlvMPayload hpay p
  have hname := hpayload.andThen fun _ => @ccntlvPrependName_prepends name last _ h
  have hall := (ccnx_tlv_prepends ccnxTlvTlObject hname).finish fun o =>
    (p.offset - .ofNat payload.length, p.offset - o)
  rw [Pen.sub_pre] at hall
  simp only [bind_assoc] at hall
  exact .read hall

/-- A packet whose length does not fit into 16 bits is an error. -/
theorem ccntlvPrependFixedHdr_prepends {packettype hoplimit : UInt8} {len : Nat} (h : len ≤ uint16Max) :
    Prepends p (len ≤ uint16Max - ccnxHdrlen) (ccnxFixedHdr packettype len hoplimit) ()
      (ccntlvPrependFixedHdr ccnxTlvV1 packettype (.ofNat len) hoplimit) := by
  have hmax : uint16Max = 65535 := rfl
  have hnine : ccnxHdrlen = 9 := rfl
  have hpktlen : (UInt64.ofNat ccnxHdrlen + .ofNat len).toNat = ccnxHdrlen + len := by
    rw [← UInt64.ofNat_add]
    exact UInt64.toNat_ofNat_of_lt' (show ccnxHdrlen + len < 2 ^ 64 by omega)
  have hroom : p.offset < .ofNat ccnxHdrlen ↔ p.offset.toNat < ccnxHdrlen := lt_ofNat_iff (by decide)
  have hlen := length_ccnxFixedHdr packettype len hoplimit
  unfold ccntlvPrependFixedHdr
  refine .read ?_
  rw [hpktlen]
  refine .check (by decide) (fun hlt hall => by omega) fun hle => ?_
  refine .check (by decide) (fun hlt hall => ?_) fun hge => ?_
  · rw [hroom] at hlt
    omega
  · rw [hroom] at hge
    refine (Prepends.of_ok (copy_run _ p) ?_).congr (iff_true_intro (by omega))
    show (ccnxFixedHdr packettype len hoplimit).length ≤ _
    omega

/-- A message, and the fixed header in front of it when the packet's length fits into 16 bits. `len` is
where the length of the message is returned. -/
theorem ccnx_packet_prepends {α β : Type} {g : Prop} {type : Nat} {elems : List UInt8} {a : α} {m : PenM α}
    {p : Pen} (packettype hoplimit : UInt8) (len : α → UInt64) (f : α → UInt64 → β)
    (hlen : len a = .ofNat (ccnxTLV type elems).length) (hm : Prepends p g (ccnxTLV type elems) a m)
    (hg : elems.length ≤ uint16Max → g) :
    Prepends p ((ccnxPacket packettype hoplimit type elems).length ≤ uint16Max)
      (ccnxPacket packettype hoplimit type elems)
      (f a (p.pre (ccnxPacket packettype hoplimit type elems)).offset)
      (m >>= fun a => if uint16Max - ccnxHdrlen < (len a).toNat then throw (-1)
        else ccntlvPrependFixedHdr ccnxTlvV1 packettype (len a) hoplimit >>= fun _ =>
          offset >>= fun o => pure (f a o)) := by
  have hmax : uint16Max - ccnxHdrlen = 65526 := rfl
  have hmax' : uint16Max = 65535 := rfl
  have hnine : ccnxHdrlen = 9 := rfl
  have hmsg : (ccnxTLV type elems).length = 4 + elems.length := by
    rw [ccnxTLV, List.length_append]
    rfl
  have hpkt : (ccnxPacket packettype hoplimit type elems).length =
      ccnxHdrlen + (ccnxTLV type elems).length := by
    rw [ccnxPacket, List.length_append, length_ccnxFixedHdr]
  have hguard : (ccnxPacket packettype hoplimit type elems).length ≤ uint16Max ↔
      g ∧ (ccnxTLV type elems).length ≤ uint16Max - ccnxHdrlen :=
    ⟨fun h => ⟨hg (by omega), by omega⟩, fun h => by omega⟩
  refine (hm.bind fun hle => ?_).congr hguard
  rw [hlen, toNat_ofNat_le hle]
  refine .check (by decide) (fun hlt hall => by omega) fun hge => ?_
  rw [ccnxPacket, ← Pen.pre_pre]
  exact (ccntlvPrependFixedHdr_prepends (p.pre (ccnxTLV type elems)) (by omega)).finish (f a)

theorem ccntlvPrependInterestWithHdr_prepends (h : name.InMemory) :
    Prepends p ((ccnxInterest name).length ≤ uint16Max) (ccnxInterest name)
      (.ofNat (ccnxInterest name).length) (ccntlvPrependInterestWithHdr name) := by
  have helems : (ccnxNameElems name).length ≤ (ccnxName name).length := by
    rw [ccnxName, ccnxTLV, List.length_append]
    exact Nat.le_add_left _ _
  have hall := ccnx_packet_prepends ccnxPtInterest 64 id (fun _ o => p.offset - o) rfl
    (ccntlvPrependInterest_prepends p h) fun hle => ⟨Nat.le_trans helems hle, hle⟩
  rw [Pen.sub_pre] at hall
  exact .read hall

theorem ccntlvPrependContentWithHdr_prepends (h : name.InMemory) (hpay : payload.length ≤ sizeMax - 4) :
    Prepends p ((ccnxContent name payload last).length ≤ uint16Max) (ccnxContent name payload last)
      (p.offset - .ofNat payload.length, .ofNat (ccnxContent name payload last).length)
      (ccntlvPrependContentWithHdr name payload last) := by
  have hpayload : payload.length ≤ (ccnxContentElems name payload last).length := by
    rw [ccnxContentElems, ccnxTLV, List.length_append, @List.length_append _ (ccnxTL _ _) _]
    omega
  have helems : (ccnxNameElems name).length ≤ (ccnxContentElems name payload last).length := by
    rw [ccnxContentElems, ccnxName, ccnxTLV, List.length_append, List.length_append,
      List.length_append]
    omega
  have hall := ccnx_packet_prepends ccnxPtData 255 Prod.snd (fun a o => (a.1, p.offset - o)) rfl
    (@ccntlvPrependContent_prepends name payload last p h hpay) fun hle =>
      ⟨⟨Nat.le_trans hpayload hle, Nat.le_trans helems hle⟩, hle⟩
  rw [Pen.sub_pre] at hall
  exact .read hall

end Packets

/-! ## The result -/

/-- `*reslen` of a function that returns the place of the payload too. -/
def contentReslen (r : UInt64 × UInt64) : Option UInt64 := some r.2

/-- A function without `*reslen`. -/
def noReslen (_ : Unit) : Option UInt64 := none

section Result

variable {g : Prop} {enc : List UInt8}

theorem inSpace_of_prepends {m : PenM Unit} (h : ∀ p, Prepends p g enc () m) : InSpace noReslen enc m :=
  .of_prepends fun o => ⟨(), h ⟨o, []⟩, fun n hn => by cases hn⟩

theorem inSpace_reslen {m : PenM UInt64} (h : ∀ p, Prepends p g enc (.ofNat enc.length) m) :
    InSpace some enc m :=
  .of_prepends fun o => ⟨_, h ⟨o, []⟩, fun _ hn => (Option.some.inj hn).symm⟩

theorem inSpace_content {m : PenM (UInt64 × UInt64)} {pos : Pen → UInt64}
    (h : ∀ p, Prepends p g enc (pos p, .ofNat enc.length) m) : InSpace contentReslen enc m :=
  .of_prepends fun o => ⟨_, h ⟨o, []⟩, fun _ hn => (Option.some.inj hn).symm⟩

/-- Every encoder stays in the space in front of its offset. -/
theorem encoders_inSpace :
    (∀ val : UInt64, InSpace noReslen (ndnTLval val.toNat) (ndntlvPrependTLval val.toNat)) ∧
    (∀ type len : UInt64,
      InSpace noReslen (ndnTL type.toNat len.toNat) (ndntlvPrependTL type.toNat len.toNat)) ∧
    (∀ type val : UInt64, InSpace noReslen (ndnTLV type.toNat (ndnNonNegVal val.toNat))
      (ndntlvPrependNonNegInt type.toNat val.toNat)) ∧
    (∀ (type val : UInt64) (marker : UInt8),
      InSpace noReslen (ndnTLV type.toNat (marker :: ndnNonNegVal val.toNat))
        (ndntlvPrependIncludedNonNegInt type.toNat val.toNat marker)) ∧
    (∀ (type : UInt64) (blob : Blob),
      InSpace noReslen (ndnTLV type.toNat blob.1) (ndntlvPrependBlob type.toNat blob.1)) ∧
    (∀ name : WireName, InSpace noReslen (ndnName name.1) (ndntlvPrependName name.1)) ∧
    (∀ (name : WireName) (scope : Int) (opts : NdnInterestOpts),
      InSpace some (ndnInterest name.1 scope opts) (ndntlvPrependInterest name.1 scope opts)) ∧
    (∀ (name : WireName) (payload : Blob) (opts : Option NdnDataOpts), InSpace contentReslen
      (ndnData name.1 payload.1 opts) (ndntlvPrependContent name.1 payload.1 opts)) ∧
    (∀ (type : UInt16) (len : UInt64),
      InSpace noReslen (ccnxTL type.toNat len.toNat) (ccntlvPrependTL type.toNat len.toNat)) ∧
    (∀ (type : UInt16) (blob : Blob),
      InSpace noReslen (ccnxTLV type.toNat blob.1) (ccntlvPrependBlob type.toNat blob.1)) ∧
    (∀ (type : UInt16) (intval : UInt32), InSpace noReslen (ccnxTLV type.toNat (ccnxVar intval.toNat))
      (ccntlvPrependNetworkVarUInt type.toNat intval.toNat)) ∧
    (∀ (name : WireName) (last : Option UInt32), InSpace noReslen
      (ccnxName name.1 ++ ccnxOptional ccnxTlvMEndChunk (last.map UInt32.toNat))
      (ccntlvPrependName name.1 last)) ∧
    (∀ name : WireName, InSpace some (ccnxTLV ccnxTlvTlInterest (ccnxName name.1))
      (ccntlvPrependInterest name.1)) ∧
    (∀ name : WireName, InSpace some (ccnxInterest name.1) (ccntlvPrependInterestWithHdr name.1)) ∧
    (∀ (name : WireName) (payload : Blob) (last : Option UInt32), InSpace contentReslen
      (ccnxTLV ccnxTlvTlObject (ccnxContentElems name.1 payload.1 last))
      (ccntlvPrependContent name.1 payload.1 last)) ∧
    (∀ (name : WireName) (payload : Blob) (last : Option UInt32), InSpace contentReslen
      (ccnxContent name.1 payload.1 last) (ccntlvPrependContentWithHdr name.1 payload.1 last)) := by
  refine ⟨fun val => ?_, fun type len => ?_, fun type val => ?_, fun type val marker => ?_,
    fun type blob => ?_, fun name => ?_, fun name scope opts => ?_, fun name payload opts => ?_,
    fun type len => ?_, fun type blob => ?_, fun type intval => ?_, fun name last => ?_,
    fun name => ?_, fun name => ?_, fun name payload last => ?_, fun name payload last => ?_⟩
  · exact inSpace_of_prepends (prependTLval_prepends _)
  · exact inSpace_of_prepends (prependTL_prepends _ _)
  · exact inSpace_of_prepends (prependNonNegInt_prepends _ val.toNat_lt)
  · exact inSpace_of_prepends (prependIncludedNonNegInt_prepends _ val.toNat_lt marker)
  · have hlt := lt_of_le_sizeMax blob.2
    exact inSpace_of_prepends (prependBlob_prepends _ (by omega))
  · exact inSpace_of_prepends fun p => prependName_prepends p name.2
  · exact inSpace_reslen fun p => prependInterest_prepends opts p name.2
  · exact inSpace_content fun p => prependContent_prepends opts p name.2 payload.2
  · exact inSpace_of_prepends (ccntlvPrependTL_prepends _ _)
  · exact inSpace_of_prepends (ccntlvPrependBlob_prepends _ blob.2)
  · exact inSpace_of_prepends (ccntlvPrependNetworkVarUInt_prepends _ _)
  · exact inSpace_of_prepends fun p => ccntlvPrependName_prepends p name.2
  · exact inSpace_reslen fun p => ccntlvPrependInterest_prepends p name.2
  · exact inSpace_reslen fun p => ccntlvPrependInterestWithHdr_prepends p name.2
  · exact inSpace_content fun p => ccntlvPrependContent_prepends p name.2 payload.2
  · exact inSpace_content fun p => ccntlvPrependContentWithHdr_prepends p name.2 payload.2

end Result

/-! ## The functions on a checked buffer -/

section Refines

variable {name : Prefix} {payload : List UInt8} {bs : List UInt8} {o o' : Back}

theorem toNat_length_of_pre (hlt : o.offset < 2 ^ 64) (h : Back.pre bs o = .ok o') :
    (UInt64.ofNat bs.length).toNat = o.offset - o'.offset := by
  have := Back.offset_pre h
  rw [UInt64.toNat_ofNat_of_lt' (show bs.length < 2 ^ 64 by omega)]
  omega

/-- A difference in 64 bits. -/
theorem toNat_sub_ofNat {a b : Nat} (ha : a < 2 ^ 64) (hb : b < 2 ^ 64) :
    (UInt64.ofNat a - UInt64.ofNat b).toNat = sub64 a b := by
  rw [UInt64.toNat_sub, UInt64.toNat_ofNat_of_lt' ha, UInt64.toNat_ofNat_of_lt' hb, sub64, u64,
    Nat.add_comm, Nat.add_sub_assoc (Nat.le_of_lt hb)]

theorem scope_of_prependInterest {scope : Int} {opts : NdnInterestOpts} {n : Nat}
    (h : Ccnl.ndntlvPrependInterest name scope opts o = .ok (o', n)) : scope ≤ 2 := by
  obtain ⟨o₁, hscope, -⟩ := (bind_eq_ok _ _ _).mp h
  refine Int.not_lt.mp fun hlt => ?_
  rw [Ccnl.ndntlvPrependScope, if_pos (by omega), if_pos hlt] at hscope
  cases hscope

theorem ndntlvPrependInterest_refines (h : name.InMemory) (scope : Int) (opts : NdnInterestOpts) :
    Refines UInt64.toNat (Ccnl.ndntlvPrependInterest name scope opts)
      (ndntlvPrependInterest name scope opts) := by
  have hk : ∀ k ∈ name.chunknum, k < 2 ^ 64 := fun k hk => by
    have := h.chunknum k hk
    omega
  refine .of_prepends (fun o o' => o.offset - o'.offset) (fun o o' n => ?_) (fun p => prependInterest_prepends opts p h)
    fun o o' hlt hok => toNat_length_of_pre hlt hok
  constructor
  · intro hok
    have hscope := scope_of_prependInterest hok
    rw [prependInterest_eq opts o hscope hk] at hok
    obtain ⟨o₁, hpre, hres⟩ := (bind_eq_ok _ _ _).mp hok
    obtain ⟨rfl, rfl⟩ := Prod.mk.inj ((pure_eq_ok _ _).mp hres)
    exact ⟨⟨hscope, hpre⟩, rfl⟩
  · rintro ⟨⟨hscope, hpre⟩, rfl⟩
    rw [prependInterest_eq opts o hscope hk, hpre]
    rfl

theorem ndntlvPrependContent_refines (h : name.InMemory) (hpay : payload.length ≤ sizeMax - 4)
    (opts : Option NdnDataOpts) : Refines (fun r => (r.1.toNat, r.2.toNat))
      (Ccnl.ndntlvPrependContent name payload opts) (ndntlvPrependContent name payload opts) := by
  have hk : ∀ k ∈ name.chunknum, k < 2 ^ 64 := fun k hk => by
    have := h.chunknum k hk
    omega
  have hlen := lt_of_le_sizeMax hpay
  refine .of_prepends (fun o o' => (sub64 (sub64 o.offset payload.length) o'.offset, o.offset - o'.offset))
    (fun o o' n => ?_) (fun p => prependContent_prepends opts p h hpay)
    fun o o' hlt hok => Prod.ext ?_ (toNat_length_of_pre hlt hok)
  · rw [prependContent_eq payload opts o hk, bind_eq_ok]
    constructor
    · rintro ⟨o₁, hpre, hres⟩
      obtain ⟨rfl, rfl⟩ := Prod.mk.inj ((pure_eq_ok _ _).mp hres)
      exact ⟨⟨trivial, hpre⟩, rfl⟩
    · rintro ⟨⟨-, hpre⟩, rfl⟩
      exact ⟨o', hpre, rfl⟩
  · have hoff := Back.offset_pre hok
    have hnat : (UInt64.ofNat o.offset).toNat = o.offset := UInt64.toNat_ofNat_of_lt' hlt
    have hpre : ((⟨.ofNat o.offset, []⟩ : Pen).pre (ndnData name payload opts)).offset =
        .ofNat o'.offset := UInt64.toNat_inj.mp <| by
      rw [@Pen.toNat_pre (ndnData name payload opts) ⟨.ofNat o.offset, []⟩ (by rw [hnat]; omega), hnat,
        UInt64.toNat_ofNat_of_lt' (show o'.offset < 2 ^ 64 by omega)]
      omega
    have hpos := toNat_sub_ofNat hlt (show payload.length < 2 ^ 64 by omega)
    show (UInt64.ofNat o.offset - .ofNat payload.length - _).toNat = _
    rw [hpre, show UInt64.ofNat o.offset - .ofNat payload.length =
      .ofNat (sub64 o.offset payload.length) by rw [← hpos, UInt64.ofNat_toNat]]
    exact toNat_sub_ofNat (Nat.mod_lt _ (by decide)) (by omega)

theorem ccntlvPrependInterestWithHdr_refines (h : name.InMemory) : Refines UInt64.toNat
    (Ccnl.ccntlvPrependInterestWithHdr name) (ccntlvPrependInterestWithHdr name) := by
  refine .of_prepends (fun o o' => o.offset - o'.offset) (fun o o' n => ?_)
    (fun p => ccntlvPrependInterestWithHdr_prepends p h)
    fun o o' hlt hok => toNat_length_of_pre hlt hok
  rw [ccntlvPrependInterestWithHdr_eq_ok, ← and_assoc]
  refine and_congr_right fun hok => ?_
  have := Back.offset_pre hok.2
  omega

theorem ccntlvPrependContentWithHdr_refines (h : name.InMemory) (hpay : payload.length ≤ sizeMax - 4)
    (last : Option UInt32) : Refines (fun r => (r.1.toNat, r.2.toNat))
      (Ccnl.ccntlvPrependContentWithHdr name payload last)
      (ccntlvPrependContentWithHdr name payload last) := by
  have hlen := lt_of_le_sizeMax hpay
  refine .of_prepends (fun o o' => (sub64 o.offset payload.length, o.offset - o'.offset))
    (fun o o' n => ?_) (fun p => ccntlvPrependContentWithHdr_prepends p h hpay)
    fun o o' hlt hok => Prod.ext (toNat_sub_ofNat hlt (by omega)) (toNat_length_of_pre hlt hok)
  obtain ⟨pos, n⟩ := n
  rw [ccntlvPrependContentWithHdr_eq_ok, ← and_assoc, and_assoc, Prod.mk.injEq]
  refine and_congr_right fun hok => ?_
  have := Back.offset_pre hok.2
  rw [and_comm]
  refine and_congr_right fun _ => ?_
  omega

end Refines

end OnPen

end Ccnl
