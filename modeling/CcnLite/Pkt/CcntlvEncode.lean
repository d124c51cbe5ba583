import CcnLite.Lib.Write
import CcnLite.Pkt.Ccntlv

/-!
# The CCNx-TLV encoder (`ccnl-pkt-ccntlv.c`)

The `ccnl_ccntlv_prepend` functions write a message from its end, and the fixed header in front of
it. In `ccnl_ccntlv_prependTL` a cast comes before a shift, so the high byte of a type and of a
length is always zero (`highByte_eq`).

Next to the functions stand the byte strings that they write. A function succeeds when these fit in
front of the offset and the lengths fit into 16 bits (`prependMessage_eq_ok` and so on).
-/

namespace Ccnl

open CRun Back

/-! ## Type numbers -/

def ccnxTlvMName : Nat := 0x0000
def ccnxTlvMPayload : Nat := 0x0001
def ccnxTlvMEndChunk : Nat := 0x0019
def ccnxTlvNNameSegment : Nat := 0x0001
def ccnxTlvNChunk : Nat := 0x0010

/-! ## The functions -/

/-- `(uint8_t) (x & 0xff00U) >> 8U`: the cast comes before the shift. -/
def highByte (x : Nat) : UInt8 := UInt8.ofNat ((UInt8.ofNat (x &&& 0xff00)).toNat >>> 8)

/-- `(uint8_t) (x & 0xffU)`. -/
def lowByte (x : Nat) : UInt8 := UInt8.ofNat (x &&& 0xff)

/-- `ccnl_ccntlv_prependTL`. -/
def ccntlvPrependTL (type len : Nat) (o : Back) : Run Back :=
  if o.offset < 4 ∨ uint16Max < len then throw .bail
  else o.pre [highByte type, lowByte type, highByte len, lowByte len]

/-- `ccnl_ccntlv_prependBlob`. -/
def ccntlvPrependBlob (type : Nat) (blob : List UInt8) (o : Back) : Run Back := do
  if o.offset < blob.length + 4 then throw .bail
  let o ← o.pre blob
  ccntlvPrependTL type blob.length o

/-- The loop of `ccnl_ccntlv_prependNetworkVarUInt`, which a 32-bit number leaves after four passes;
it counts the bytes. -/
def prependVarDigits : Nat → Nat → Nat → Back → Run (Nat × Back)
  | 0, _, len, o => .ok (len, o)
  | k + 1, intval, len, o =>
    if o.offset = 0 then .ok (len, o)
    else do
      let o ← o.put (UInt8.ofNat intval)
      if intval / 2 ^ 8 = 0 then return (len + 1, o)
      else prependVarDigits k (intval / 2 ^ 8) (len + 1) o

/-- `ccnl_ccntlv_prependNetworkVarUInt`. -/
def ccntlvPrependNetworkVarUInt (type intval : Nat) (o : Back) : Run Back := do
  let (len, o) ← prependVarDigits 4 intval 0 o
  ccntlvPrependTL type len o

/-- `sizeof(struct ccnx_tlvhdr_ccnx2015_s)`. -/
def ccnxHdrlen : Nat := 9

/-- `ccnl_ccntlv_prependFixedHdr`. `hdrlen` is written in the host's byte order. -/
def ccntlvPrependFixedHdr (ver packettype : UInt8) (payloadlen : Nat) (hoplimit : UInt8)
    (o : Back) : Run Back :=
  let pktlen := ccnxHdrlen + payloadlen
  if uint16Max < pktlen then throw .bail
  else if o.offset < ccnxHdrlen then throw .bail
  else o.pre ([ver, packettype] ++ beBytes 2 pktlen ++ [hoplimit, 0, 0] ++ (beBytes 2 ccnxHdrlen).reverse)

/-- One component of `ccnl_ccntlv_prependName`. -/
def ccntlvPrependComp (o : Back) (comp : List UInt8) : Run Back :=
  if o.offset < comp.length then throw .bail else o.pre comp

/-- An optional number of `ccnl_ccntlv_prependName`. -/
def ccntlvPrependOptional (type : Nat) (num : Option Nat) (o : Back) : Run Back :=
  match num with
  | some k => ccntlvPrependNetworkVarUInt type k o
  | none => pure o

/-- `ccnl_ccntlv_prependName`. -/
def ccntlvPrependName (name : Prefix) (lastchunknum : Option UInt32) (o : Back) : Run Back := do
  let o ← ccntlvPrependOptional ccnxTlvMEndChunk (lastchunknum.map UInt32.toNat) o
  let nameend := o.offset
  let o ← ccntlvPrependOptional ccnxTlvNChunk name.chunknum o
  let o ← name.comps.reverse.foldlM ccntlvPrependComp o
  ccntlvPrependTL ccnxTlvMName (nameend - o.offset) o

/-- `ccnl_ccntlv_prependInterest`, with `*len`. -/
def ccntlvPrependInterest (name : Prefix) (o : Back) : Run (Back × Nat) := do
  let oldoffset := o.offset
  let o ← ccntlvPrependName name none o
  let o ← ccntlvPrependTL ccnxTlvTlInterest (oldoffset - o.offset) o
  return (o, oldoffset - o.offset)

/-- `ccnl_ccntlv_prependInterestWithHdr`, with `*len`. -/
def ccntlvPrependInterestWithHdr (name : Prefix) (o : Back) : Run (Back × Nat) := do
  let oldoffset := o.offset
  let (o, len) ← ccntlvPrependInterest name o
  if uint16Max - ccnxHdrlen < len then throw .bail
  let o ← ccntlvPrependFixedHdr ccnxTlvV1 ccnxPtInterest len 64 o
  return (o, oldoffset - o.offset)

/-- `ccnl_ccntlv_prependContent`, with `*contentpos` and `*reslen`. -/
def ccntlvPrependContent (name : Prefix) (payload : List UInt8) (lastchunknum : Option UInt32)
    (o : Back) : Run (Back × Nat × Nat) := do
  let tloffset := o.offset
  let contentpos := sub64 o.offset payload.length
  let o ← ccntlvPrependBlob ccnxTlvMPayload payload o
  let o ← ccntlvPrependName name lastchunknum o
  let o ← ccntlvPrependTL ccnxTlvTlObject (tloffset - o.offset) o
  return (o, contentpos, tloffset - o.offset)

/-- `ccnl_ccntlv_prependContentWithHdr`, with `*contentpos` and `*reslen`. -/
def ccntlvPrependContentWithHdr (name : Prefix) (payload : List UInt8)
    (lastchunknum : Option UInt32) (o : Back) : Run (Back × Nat × Nat) := do
  let oldoffset := o.offset
  let (o, contentpos, len) ← ccntlvPrependContent name payload lastchunknum o
  if uint16Max - ccnxHdrlen < len then throw .bail
  let o ← ccntlvPrependFixedHdr ccnxTlvV1 ccnxPtData len 255 o
  return (o, contentpos, oldoffset - o.offset)

/-! ## What they write -/

/-- The high byte is lost. -/
theorem highByte_eq (x : Nat) : highByte x = 0 := by
  have hand : UInt8.ofNat (x &&& 0xff00) = 0 := by
    rw [← UInt8.toNat_inj, UInt8.toNat_ofNat', show (0xff00 : Nat) = 255 * 2 ^ 8 from rfl,
      ← Nat.shiftLeft_eq, ← Nat.and_two_pow_sub_one_eq_mod]
    apply Nat.eq_of_testBit_eq
    intro i
    simp only [Nat.testBit_and, Nat.testBit_shiftLeft, Nat.testBit_two_pow_sub_one]
    by_cases hi : i < 8
    · have hle : ¬ 8 ≤ i := by omega
      simp [hle]
    · simp [hi]
  rw [highByte, hand]
  rfl

theorem lowByte_eq (x : Nat) : lowByte x = UInt8.ofNat x := by
  rw [lowByte, ← UInt8.toNat_inj, UInt8.toNat_ofNat', UInt8.toNat_ofNat',
    show (0xff : Nat) = 2 ^ 8 - 1 from rfl, Nat.and_two_pow_sub_one_eq_mod, Nat.mod_mod]

/-- A header. -/
def ccnxTL (type len : Nat) : List UInt8 := [0, UInt8.ofNat type, 0, UInt8.ofNat len]

/-- An element, with the header that is written in front of it. -/
def ccnxTLV (type : Nat) (value : List UInt8) : List UInt8 := ccnxTL type value.length ++ value

/-- How many bytes a number takes, `k` at most. -/
def varCount : Nat → Nat → Nat
  | 0, _ => 0
  | k + 1, val => if val / 2 ^ 8 = 0 then 1 else varCount k (val / 2 ^ 8) + 1

/-- A number. -/
def ccnxVar (val : Nat) : List UInt8 := beBytes (varCount 4 val) val

/-- An optional number. -/
def ccnxOptional (type : Nat) (num : Option Nat) : List UInt8 :=
  match num with
  | some k => ccnxTLV type (ccnxVar k)
  | none => []

/-- The elements of a Name. -/
def ccnxNameElems (name : Prefix) : List UInt8 :=
  name.comps.flatten ++ ccnxOptional ccnxTlvNChunk name.chunknum

/-- A Name. -/
def ccnxName (name : Prefix) : List UInt8 := ccnxTLV ccnxTlvMName (ccnxNameElems name)

section Written

variable {o o' : Back} {type len : Nat} {bs : List UInt8}

theorem ccntlvPrependTL_eq_ok : ccntlvPrependTL type len o = .ok o' ↔
    len ≤ uint16Max ∧ pre (ccnxTL type len) o = .ok o' := by
  unfold ccntlvPrependTL
  rw [highByte_eq, highByte_eq, lowByte_eq, lowByte_eq, show [0, UInt8.ofNat type, 0, UInt8.ofNat len] =
    ccnxTL type len from rfl]
  have hroom := @pre_ok_iff o (ccnxTL type len)
  rw [show (ccnxTL type len).length = 4 from rfl] at hroom
  split
  · rename_i h
    simp only [throw_ne_ok, false_iff, not_and]
    intro hle hok
    have := hroom.mp ⟨o', hok⟩
    omega
  · rename_i h
    exact ⟨fun hok => ⟨by omega, hok⟩, fun hok => hok.2⟩

/-- A value, and the header in front of it. -/
theorem ccntlv_value_eq_ok :
    (∃ o₁, pre bs o = .ok o₁ ∧ ccntlvPrependTL type (o.offset - o₁.offset) o₁ = .ok o') ↔
      bs.length ≤ uint16Max ∧ pre (ccnxTLV type bs) o = .ok o' := by
  have hlen : ∀ o₁, pre bs o = .ok o₁ → o.offset - o₁.offset = bs.length := fun o₁ h₁ => by
    have := offset_pre h₁
    omega
  rw [ccnxTLV, pre_append_eq_ok]
  constructor
  · rintro ⟨o₁, h₁, h₂⟩
    rw [hlen o₁ h₁, ccntlvPrependTL_eq_ok] at h₂
    exact ⟨h₂.1, o₁, h₁, h₂.2⟩
  · rintro ⟨hle, o₁, h₁, h₂⟩
    rw [← hlen o₁ h₁] at hle h₂
    exact ⟨o₁, h₁, ccntlvPrependTL_eq_ok.mpr ⟨hle, h₂⟩⟩

theorem ccntlvPrependBlob_eq_ok : ccntlvPrependBlob type bs o = .ok o' ↔
    bs.length ≤ uint16Max ∧ pre (ccnxTLV type bs) o = .ok o' := by
  have hroom := @pre_ok_iff o (ccnxTLV type bs)
  rw [show (ccnxTLV type bs).length = 4 + bs.length by rw [ccnxTLV, List.length_append]; rfl] at hroom
  unfold ccntlvPrependBlob
  split
  · rename_i h
    simp only [bind_eq_ok, throw_ne_ok, false_and, exists_const, false_iff, not_and]
    intro hle hok
    have := hroom.mp ⟨o', hok⟩
    omega
  · simp only [bind_eq_ok, ccntlvPrependTL_eq_ok, ccnxTLV, pre_append_eq_ok]
    grind

theorem varCount_le (k val : Nat) : varCount k val ≤ k := by
  induction k generalizing val with
  | zero => exact Nat.le_refl _
  | succ k ih =>
    rw [varCount]
    split
    · omega
    · have := ih (val / 2 ^ 8)
      omega

theorem lt_of_varCount {k val : Nat} (h : val < 2 ^ (8 * k)) : val < 2 ^ (8 * varCount k val) := by
  induction k generalizing val with
  | zero => exact h
  | succ k ih =>
    have hdiv : ∀ n, val / 2 ^ 8 < 2 ^ (8 * n) ↔ val < 2 ^ (8 * (n + 1)) := fun n => by
      rw [Nat.div_lt_iff_lt_mul (Nat.two_pow_pos 8), ← Nat.pow_add]
      exact Iff.rfl
    rw [varCount]
    split
    · rename_i h0
      exact (hdiv 0).mp (by rw [h0]; decide)
    · exact (hdiv _).mp (ih ((hdiv k).mpr h))

/-- The digits are written and counted, or the loop ends where there is no room left. -/
theorem prependVarDigits_eq (k val len : Nat) (o : Back) :
    prependVarDigits k val len o =
        (pre (beBytes (varCount k val) val) o >>= fun o₁ => pure (len + varCount k val, o₁)) ∨
      o.offset < varCount k val ∧
        ∃ n o₁, prependVarDigits k val len o = .ok (n, o₁) ∧ o₁.offset = 0 := by
  induction k generalizing val len o with
  | zero =>
    left
    rw [prependVarDigits, varCount, beBytes, pre_nil]
    rfl
  | succ k ih =>
    have hpos : 0 < varCount (k + 1) val := by
      rw [varCount]
      split <;> omega
    rw [prependVarDigits]
    split
    · rename_i h0
      exact .inr ⟨by omega, len, o, rfl, h0⟩
    · rename_i h0
      rw [put_eq _ (by omega)]
      rw [varCount]
      split
      · exact .inl rfl
      · obtain ⟨o₁, h₁⟩ := pre_ok_iff.mpr (show [UInt8.ofNat val].length ≤ o.offset by
          rw [List.length_singleton]
          omega)
        have hoff := offset_pre h₁
        rw [List.length_singleton] at hoff
        rw [h₁, ok_bind]
        rcases ih (val / 2 ^ 8) (len + 1) o₁ with h | ⟨hlt, n, o₂, h, h0'⟩
        · left
          rw [h, beBytes, ← pre_pre, bind_assoc, h₁, ok_bind, Nat.add_right_comm, Nat.add_assoc]
        · exact .inr ⟨by omega, n, o₂, h, h0'⟩

theorem ccntlvPrependNetworkVarUInt_eq_ok {val : Nat} :
    ccntlvPrependNetworkVarUInt type val o = .ok o' ↔ pre (ccnxTLV type (ccnxVar val)) o = .ok o' := by
  unfold ccntlvPrependNetworkVarUInt
  have hcount := varCount_le 4 val
  have hlen : (ccnxVar val).length = varCount 4 val := length_beBytes _ _
  rcases prependVarDigits_eq 4 val 0 o with h | ⟨hlt, n, o₁, h, h0⟩
  · rw [h, bind_assoc, ccnxTLV, hlen, pre_append_eq_ok, bind_eq_ok]
    refine exists_congr fun o₁ => and_congr_right fun _ => ?_
    show ccntlvPrependTL type (0 + varCount 4 val) o₁ = .ok o' ↔ _
    have hle : varCount 4 val ≤ uint16Max := Nat.le_trans hcount (by decide)
    rw [Nat.zero_add, ccntlvPrependTL_eq_ok, and_iff_right hle]
  · rw [h, ok_bind]
    dsimp only
    rw [ccntlvPrependTL_eq_ok]
    constructor
    · rintro ⟨-, hok⟩
      have := offset_pre hok
      rw [show (ccnxTL type n).length = 4 from rfl] at this
      omega
    · intro hok
      have := offset_pre hok
      rw [ccnxTLV, List.length_append, hlen] at this
      omega

theorem ccntlvPrependOptional_eq_ok {num : Option Nat} :
    ccntlvPrependOptional type num o = .ok o' ↔ pre (ccnxOptional type num) o = .ok o' := by
  cases num with
  | none =>
    rw [show ccnxOptional type none = [] from rfl, pre_nil]
    rfl
  | some k => exact ccntlvPrependNetworkVarUInt_eq_ok

theorem foldlM_ccntlvPrependComp (vs : List (List UInt8)) (o : Back) :
    vs.reverse.foldlM ccntlvPrependComp o = pre vs.flatten o := by
  have hcomp : ∀ v, (fun o => ccntlvPrependComp o v) = pre v := fun v => by
    funext o
    unfold ccntlvPrependComp
    split
    · rename_i h
      rw [pre, dif_neg (by omega)]
      rfl
    · rfl
  rw [List.foldlM_reverse]
  induction vs with
  | nil => exact (pre_nil o).symm
  | cons v vs ih => rw [List.foldrM_cons, ih, hcomp, pre_pre, List.flatten_cons]

/-- The Name, with an optional number behind it, is written when its elements fit into 16 bits. -/
theorem ccntlvPrependName_eq_ok {name : Prefix} {last : Option UInt32} :
    ccntlvPrependName name last o = .ok o' ↔ (ccnxNameElems name).length ≤ uint16Max ∧
      pre (ccnxName name ++ ccnxOptional ccnxTlvMEndChunk (last.map UInt32.toNat)) o = .ok o' := by
  unfold ccntlvPrependName ccnxName
  rw [pre_append_eq_ok, bind_eq_ok]
  simp only [ccntlvPrependOptional_eq_ok, foldlM_ccntlvPrependComp]
  have hname : ∀ o₁, ((ccntlvPrependOptional ccnxTlvNChunk name.chunknum o₁ >>= fun o₂ =>
      pre name.comps.flatten o₂ >>= fun o₃ => ccntlvPrependTL ccnxTlvMName (o₁.offset - o₃.offset) o₃) =
        .ok o') ↔ (ccnxNameElems name).length ≤ uint16Max ∧
          pre (ccnxTLV ccnxTlvMName (ccnxNameElems name)) o₁ = .ok o' := fun o₁ => by
    rw [← ccntlv_value_eq_ok, ccnxNameElems, bind_eq_ok]
    simp only [ccntlvPrependOptional_eq_ok, pre_append_eq_ok, bind_eq_ok]
    grind
  simp only [hname]
  grind

/-- The fixed header in front of a message. -/
def ccnxFixedHdr (packettype : UInt8) (payloadlen : Nat) (hoplimit : UInt8) : List UInt8 :=
  [ccnxTlvV1, packettype] ++ beBytes 2 (ccnxHdrlen + payloadlen) ++ [hoplimit, 0, 0] ++
    (beBytes 2 ccnxHdrlen).reverse

theorem length_ccnxFixedHdr (packettype : UInt8) (payloadlen : Nat) (hoplimit : UInt8) :
    (ccnxFixedHdr packettype payloadlen hoplimit).length = ccnxHdrlen := by
  simp [ccnxFixedHdr, ccnxHdrlen]

/-- A packet: the fixed header and a message. -/
def ccnxPacket (packettype : UInt8) (hoplimit : UInt8) (type : Nat) (elems : List UInt8) :
    List UInt8 :=
  ccnxFixedHdr packettype (ccnxTLV type elems).length hoplimit ++ ccnxTLV type elems

/-- The fixed header is written when the packet's length fits into 16 bits. -/
theorem ccntlvPrependFixedHdr_eq_ok {packettype hoplimit : UInt8} :
    ccntlvPrependFixedHdr ccnxTlvV1 packettype len hoplimit o = .ok o' ↔
      ccnxHdrlen + len ≤ uint16Max ∧ pre (ccnxFixedHdr packettype len hoplimit) o = .ok o' := by
  have hroom := @pre_ok_iff o (ccnxFixedHdr packettype len hoplimit)
  rw [length_ccnxFixedHdr] at hroom
  unfold ccntlvPrependFixedHdr
  dsimp only
  split
  · simp only [throw_ne_ok, false_iff, not_and]
    omega
  split
  · simp only [throw_ne_ok, false_iff, not_and]
    intro _ hok
    have := hroom.mp ⟨o', hok⟩
    omega
  · exact ⟨fun hok => ⟨by omega, hok⟩, fun hok => hok.2⟩

/-- A packet around a message that is written. -/
theorem ccntlv_packet_eq_ok {packettype hoplimit : UInt8} {elems : List UInt8} {reslen : Nat} :
    (∃ o₁, (elems.length ≤ uint16Max ∧ pre (ccnxTLV type elems) o = .ok o₁) ∧
      ((if uint16Max - ccnxHdrlen < o.offset - o₁.offset then throw .bail else do
        let o₂ ← ccntlvPrependFixedHdr ccnxTlvV1 packettype (o.offset - o₁.offset) hoplimit o₁
        return (o₂, o.offset - o₂.offset) : Run (Back × Nat)) = .ok (o', reslen))) ↔
      (ccnxPacket packettype hoplimit type elems).length ≤ uint16Max ∧
        pre (ccnxPacket packettype hoplimit type elems) o = .ok o' ∧
          reslen = (ccnxPacket packettype hoplimit type elems).length := by
  have hlen : (ccnxTLV type elems).length = 4 + elems.length := by
    rw [ccnxTLV, List.length_append]
    rfl
  have hpkt : (ccnxPacket packettype hoplimit type elems).length =
      ccnxHdrlen + (ccnxTLV type elems).length := by
    rw [ccnxPacket, List.length_append, length_ccnxFixedHdr]
  have hsub : uint16Max - ccnxHdrlen = 65526 := rfl
  have hmax : uint16Max = 65535 := rfl
  have hnine : ccnxHdrlen = 9 := rfl
  constructor
  · rintro ⟨o₁, ⟨-, h₁⟩, h⟩
    have hoff := offset_pre h₁
    have hdiff : o.offset - o₁.offset = (ccnxTLV type elems).length := by omega
    rw [hdiff] at h
    split at h
    · simp at h
    · obtain ⟨o₂, h₂, h⟩ := (bind_eq_ok _ _ _).mp h
      obtain ⟨rfl, rfl⟩ := Prod.mk.inj ((pure_eq_ok _ _).mp h)
      obtain ⟨-, h₂⟩ := ccntlvPrependFixedHdr_eq_ok.mp h₂
      have hpre : pre (ccnxPacket packettype hoplimit type elems) o = .ok o₂ :=
        pre_append_eq_ok.mpr ⟨o₁, h₁, h₂⟩
      have := offset_pre hpre
      exact ⟨by omega, hpre, by omega⟩
  · rintro ⟨hle, hpre, rfl⟩
    obtain ⟨o₁, h₁, h₂⟩ := pre_append_eq_ok.mp hpre
    have hoff := offset_pre h₁
    have hoff' := offset_pre hpre
    have hdiff : o.offset - o₁.offset = (ccnxTLV type elems).length := by omega
    refine ⟨o₁, ⟨by omega, h₁⟩, ?_⟩
    rw [hdiff, if_neg (by omega), ccntlvPrependFixedHdr_eq_ok.mpr ⟨by omega, h₂⟩]
    show (pure (o', o.offset - o'.offset) : Run (Back × Nat)) = _
    rw [show o.offset - o'.offset = (ccnxPacket packettype hoplimit type elems).length by omega]
    rfl

/-! ### Interests and content objects -/

/-- An Interest. -/
def ccnxInterest (name : Prefix) : List UInt8 :=
  ccnxPacket ccnxPtInterest 64 ccnxTlvTlInterest (ccnxName name)

/-- The elements of a content object. -/
def ccnxContentElems (name : Prefix) (payload : List UInt8) (last : Option UInt32) : List UInt8 :=
  ccnxName name ++ ccnxOptional ccnxTlvMEndChunk (last.map UInt32.toNat) ++
    ccnxTLV ccnxTlvMPayload payload

/-- A content object. -/
def ccnxContent (name : Prefix) (payload : List UInt8) (last : Option UInt32) : List UInt8 :=
  ccnxPacket ccnxPtData 255 ccnxTlvTlObject (ccnxContentElems name payload last)

theorem ccntlvPrependInterest_eq_ok {name : Prefix} :
    ccntlvPrependInterest name o = .ok (o', len) ↔ (ccnxNameElems name).length ≤ uint16Max ∧
      ((ccnxName name).length ≤ uint16Max ∧
        pre (ccnxTLV ccnxTlvTlInterest (ccnxName name)) o = .ok o') ∧ o.offset - o'.offset = len := by
  unfold ccntlvPrependInterest
  rw [← ccntlv_value_eq_ok]
  simp only [bind_eq_ok, ccntlvPrependName_eq_ok, pure_eq_ok, Prod.mk.injEq]
  rw [show ccnxOptional ccnxTlvMEndChunk ((none : Option UInt32).map UInt32.toNat) = [] from rfl,
    List.append_nil]
  constructor
  · rintro ⟨o₁, ⟨hle, h₁⟩, o₂, h₂, rfl, rfl⟩
    exact ⟨hle, ⟨o₁, h₁, h₂⟩, rfl⟩
  · rintro ⟨hle, ⟨o₁, h₁, h₂⟩, rfl⟩
    exact ⟨o₁, ⟨hle, h₁⟩, o', h₂, rfl, rfl⟩

theorem ccntlvPrependContent_eq_ok {name : Prefix} {payload : List UInt8} {last : Option UInt32}
    {contentpos : Nat} :
    ccntlvPrependContent name payload last o = .ok (o', contentpos, len) ↔
      (payload.length ≤ uint16Max ∧ (ccnxNameElems name).length ≤ uint16Max) ∧
      ((ccnxContentElems name payload last).length ≤ uint16Max ∧
        pre (ccnxTLV ccnxTlvTlObject (ccnxContentElems name payload last)) o = .ok o') ∧
      sub64 o.offset payload.length = contentpos ∧ o.offset - o'.offset = len := by
  unfold ccntlvPrependContent
  rw [← ccntlv_value_eq_ok, ccnxContentElems]
  simp only [bind_eq_ok, ccntlvPrependBlob_eq_ok, ccntlvPrependName_eq_ok, pure_eq_ok,
    Prod.mk.injEq, @pre_append_eq_ok _ _ _ (_ ++ _)]
  constructor
  · rintro ⟨o₁, ⟨hp, h₁⟩, o₂, ⟨hn, h₂⟩, o₃, h₃, rfl, rfl, rfl⟩
    exact ⟨⟨hp, hn⟩, ⟨o₂, ⟨o₁, h₁, h₂⟩, h₃⟩, rfl, rfl⟩
  · rintro ⟨⟨hp, hn⟩, ⟨o₂, ⟨o₁, h₁, h₂⟩, h₃⟩, rfl, rfl⟩
    exact ⟨o₁, ⟨hp, h₁⟩, o₂, ⟨hn, h₂⟩, o', h₃, rfl, rfl, rfl⟩

/-- An Interest is written when its length fits into 16 bits and there is room. -/
theorem ccntlvPrependInterestWithHdr_eq_ok {name : Prefix} {reslen : Nat} :
    ccntlvPrependInterestWithHdr name o = .ok (o', reslen) ↔
      (ccnxInterest name).length ≤ uint16Max ∧ pre (ccnxInterest name) o = .ok o' ∧
        reslen = (ccnxInterest name).length := by
  have helems : (ccnxNameElems name).length ≤ (ccnxName name).length := by
    rw [ccnxName, ccnxTLV, List.length_append]
    exact Nat.le_add_left _ _
  rw [ccnxInterest, ← ccntlv_packet_eq_ok]
  unfold ccntlvPrependInterestWithHdr
  rw [bind_eq_ok]
  constructor
  · rintro ⟨⟨o₁, l⟩, h₁, h⟩
    obtain ⟨-, hmsg, rfl⟩ := ccntlvPrependInterest_eq_ok.mp h₁
    exact ⟨o₁, hmsg, h⟩
  · rintro ⟨o₁, h₁, h⟩
    exact ⟨⟨o₁, _⟩, ccntlvPrependInterest_eq_ok.mpr
      ⟨Nat.le_trans helems h₁.1, h₁, rfl⟩, h⟩

/-- A content object is written when its length fits into 16 bits and there is room. -/
theorem ccntlvPrependContentWithHdr_eq_ok {name : Prefix} {payload : List UInt8}
    {last : Option UInt32} {contentpos reslen : Nat} :
    ccntlvPrependContentWithHdr name payload last o = .ok (o', contentpos, reslen) ↔
      ((ccnxContent name payload last).length ≤ uint16Max ∧
        pre (ccnxContent name payload last) o = .ok o' ∧
          reslen = (ccnxContent name payload last).length) ∧
      sub64 o.offset payload.length = contentpos := by
  have hpayload : payload.length ≤ (ccnxContentElems name payload last).length := by
    rw [ccnxContentElems, ccnxTLV, List.length_append, @List.length_append _ (ccnxTL _ _) _]
    omega
  have helems : (ccnxNameElems name).length ≤ (ccnxContentElems name payload last).length := by
    rw [ccnxContentElems, ccnxName, ccnxTLV, List.length_append, List.length_append,
      List.length_append]
    omega
  rw [ccnxContent, ← ccntlv_packet_eq_ok]
  unfold ccntlvPrependContentWithHdr
  rw [bind_eq_ok]
  constructor
  · rintro ⟨⟨o₁, pos, l⟩, h₁, h⟩
    obtain ⟨-, hmsg, rfl, rfl⟩ := ccntlvPrependContent_eq_ok.mp h₁
    dsimp only at h
    split at h
    · simp at h
    · rename_i hle
      obtain ⟨o₂, h₂, h⟩ := (bind_eq_ok _ _ _).mp h
      obtain ⟨rfl, hpos, rfl⟩ := by simpa only [pure_eq_ok, Prod.mk.injEq] using h
      refine ⟨⟨o₁, hmsg, ?_⟩, hpos⟩
      rw [if_neg hle, h₂]
      rfl
  · rintro ⟨⟨o₁, hmsg, h⟩, rfl⟩
    refine ⟨⟨o₁, _, _⟩, ccntlvPrependContent_eq_ok.mpr ⟨⟨Nat.le_trans hpayload hmsg.1,
      Nat.le_trans helems hmsg.1⟩, hmsg, rfl, rfl⟩, ?_⟩
    dsimp only
    split at h
    · simp at h
    · rename_i hle
      obtain ⟨o₂, h₂, h⟩ := (bind_eq_ok _ _ _).mp h
      obtain ⟨rfl, rfl⟩ := Prod.mk.inj ((pure_eq_ok _ _).mp h)
      rw [if_neg hle, h₂]
      rfl

end Written

end Ccnl
