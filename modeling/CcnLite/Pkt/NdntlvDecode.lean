import CcnLite.Pkt.NdntlvEncode
import CcnLite.Pkt.NdntlvGrammar

/-!
# Parsing what the NDN-TLV encoder wrote

Where the bytes of an element lie in the memory (`At`), the parser takes off the header that the
encoder wrote (`dehead_tlv`), so each pass of its loops is known (`nested_tlv`, `top_tlv`). The
loops are then run over the elements of a packet in order.
-/

namespace Ccnl

open CRun Tlv

/-! ## Numbers -/

section Numbers

variable {mem : List UInt8} {p : Nat}

/-- Eight bytes and less are read without a bit lost. -/
theorem nonNeg_beBytes {k : Nat} (h : k ≤ 8) (v : Nat) :
    nonNeg (beBytes k v) = v % 2 ^ (8 * k) := by
  induction k generalizing v with
  | zero => simp [beBytes, nonNeg, Nat.mod_one]
  | succ k ih =>
    have ih := ih (by omega) (v / 2 ^ 8)
    unfold nonNeg at ih ⊢
    have hb : (UInt8.ofNat v).toNat = v % 2 ^ 8 := UInt8.toNat_ofNat'
    have hpow : 2 ^ (8 * (k + 1)) = 2 ^ (8 * k) * 2 ^ 8 := by rw [Nat.mul_succ, Nat.pow_add]
    have hlt : v / 2 ^ 8 % 2 ^ (8 * k) * 2 ^ 8 < 2 ^ 64 :=
      calc v / 2 ^ 8 % 2 ^ (8 * k) * 2 ^ 8
        _ < 2 ^ (8 * k) * 2 ^ 8 :=
          Nat.mul_lt_mul_of_pos_right (Nat.mod_lt _ (Nat.two_pow_pos _)) (Nat.two_pow_pos 8)
        _ = 2 ^ (8 * (k + 1)) := hpow.symm
        _ ≤ 2 ^ 64 := Nat.pow_le_pow_right (by omega) (by omega)
    rw [beBytes, List.foldl_append, ih, List.foldl_cons, List.foldl_nil, hb, u64,
      Nat.mod_eq_of_lt hlt, hpow, Nat.mul_comm (2 ^ (8 * k)), Nat.mod_mul, Nat.add_comm,
      Nat.mul_comm]

theorem nonNeg_ndnNonNegVal {val : Nat} (h : val < 2 ^ 64) : nonNeg (ndnNonNegVal val) = val := by
  have hw := le_numWidth (byteCount_le 8 val)
  rw [ndnNonNegVal, nonNeg_beBytes hw.2, Nat.mod_eq_of_lt]
  calc val
    _ < 2 ^ (8 * byteCount 8 val) := lt_of_byteCount (k := 8) h
    _ ≤ 2 ^ (8 * numWidth (byteCount 8 val)) := Nat.pow_le_pow_right (by omega) (by omega)

theorem length_ndnNonNegVal (val : Nat) : (ndnNonNegVal val).length ≤ 8 := by
  rw [ndnNonNegVal, length_beBytes]
  exact (le_numWidth (byteCount_le 8 val)).2

/-- A number is read where its bytes are. -/
theorem nonNegInt_at {bs : List UInt8} (h : At mem p bs) :
    ndntlvNonNegInt mem p bs.length = .ok (nonNeg bs) := by
  rw [ndntlvNonNegInt, h.rdBytes]
  rfl

/-- A type or a length below 2^32 is read back. -/
theorem numAt_tlval {val : Nat} (hv : val < 2 ^ 32) (h : At mem p (ndnTLval val)) :
    numAt mem p = some (val, p + (ndnTLval val).length) := by
  have hle := h.le (by simp [ndnTLval])
  unfold ndnTLval at h hle ⊢
  obtain ⟨hb, hbs⟩ := at_cons.mp h
  have htake := hbs.take
  rw [List.length_cons, length_beBytes] at hle
  rw [length_beBytes] at htake
  unfold numAt
  rw [hb, List.length_cons, length_beBytes]
  dsimp only
  -- the four forms; the last one stands for no number
  unfold tlvalForm at hle htake ⊢
  split
  · rename_i h₁
    have hlt : UInt8.ofNat val < 253 := by
      rw [UInt8.lt_iff_toNat_lt, UInt8.toNat_ofNat']
      show val % 2 ^ 8 < 253
      omega
    have hsize : numSize (UInt8.ofNat val) = 1 := by rw [numSize, if_pos hlt]
    rw [if_pos h₁] at hle
    rw [hsize, if_neg (by omega), if_pos hlt, UInt8.toNat_ofNat', Nat.mod_eq_of_lt (by omega)]
  split
  · rename_i h₁ h₂
    rw [if_neg h₁, if_pos h₂] at hle htake
    have hsize : numSize 253 = 3 := rfl
    rw [hsize, if_neg (by omega), if_neg (by decide), show 3 - 1 = 2 from rfl, htake, beNat_beBytes,
      Nat.mod_eq_of_lt (show val < 2 ^ (8 * 2) by omega)]
  split
  · rename_i h₁ h₂ h₃
    rw [if_neg h₁, if_neg h₂, if_pos h₃] at hle htake
    have hsize : numSize 254 = 5 := rfl
    rw [hsize, if_neg (by omega), if_neg (by decide), show 5 - 1 = 4 from rfl, htake, beNat_beBytes,
      Nat.mod_eq_of_lt (show val < 2 ^ (8 * 4) by omega)]
  · omega

end Numbers

/-! ## Elements -/

section Elements

variable {mem : List UInt8} {p type n : Nat} {v : List UInt8}

/-- Where the value of an element starts. -/
def valuePos (p type len : Nat) : Nat := p + (ndnTL type len).length

@[simp] theorem valuePos_add (p type : Nat) (v : List UInt8) :
    valuePos p type v.length + v.length = p + (ndnTLV type v).length := by
  rw [valuePos, ndnTLV, List.length_append, Nat.add_assoc]

theorem at_tlv : At mem p (ndnTLV type v) ↔
    At mem p (ndnTL type v.length) ∧ At mem (valuePos p type v.length) v := at_append

theorem tlv_ne_nil (type : Nat) (v : List UInt8) : ndnTLV type v ≠ [] := by
  simp [ndnTLV, ndnTL, ndnTLval]

/-- The header of an element is taken off. -/
theorem dehead_tlv (h : At mem p (ndnTLV type v)) (ht : type < 2 ^ 32) (hv : v.length < 2 ^ 32)
    (n : Nat) : ndntlvDehead mem ⟨p, (ndnTLV type v).length + n⟩ =
      .ok (some (type, v.length), ⟨valuePos p type v.length, v.length + n⟩) := by
  have hlen : (ndnTLV type v).length = (ndnTL type v.length).length + v.length :=
    List.length_append
  obtain ⟨h₁, h₂⟩ := at_append.mp (at_tlv.mp h).1
  have hsum : (ndnTL type v.length).length = (ndnTLval type).length + (ndnTLval v.length).length :=
    List.length_append
  refine dehead_eq_ok.mpr ⟨⟨_, numAt_tlval ht h₁, ?_, ?_, ?_, ?_⟩, ?_⟩
  · simp only
    omega
  · rw [numAt_tlval hv h₂, valuePos, hsum, Nat.add_assoc]
  · simp only [valuePos]
    omega
  · simp only
    omega
  · simp only [valuePos]
    omega

variable {α β : Type} {elem : Nat → Nat → Nat → Cursor → α → Run (Elem α)} {S : ElemSpec β}
  {abs : α → β} {a a' : α}

/-- A nested loop takes an element. -/
theorem nested_tlv (hm : Models S elem abs) (h : At mem p (ndnTLV type v)) (ht : type < 2 ^ 32)
    (hv : v.length < 2 ^ 32)
    (he : elem p type v.length ⟨valuePos p type v.length, v.length + n⟩ a =
      .ok (.next ⟨valuePos p type v.length, v.length + n⟩ v.length a')) :
    nested (ndntlvDehead mem) elem ⟨p, (ndnTLV type v).length + n⟩ a =
      nested (ndntlvDehead mem) elem ⟨p + (ndnTLV type v).length, n⟩ a' := by
  have hpos : 0 < (ndnTLV type v).length := List.length_pos_iff.mpr (tlv_ne_nil type v)
  rw [nested_next (dehead_decodes mem) hm (dehead_tlv h ht hv n) (by simp only; omega) he
    (by simp only; omega)]
  simp only [valuePos_add, Nat.add_sub_cancel_left]

/-- The packet loop takes an element. -/
theorem top_tlv {elem : Nat → Nat → Nat → Cursor → α → Run α} (h : At mem p (ndnTLV type v))
    (ht : type < 2 ^ 32) (hv : v.length < 2 ^ 32)
    (he : elem p type v.length ⟨valuePos p type v.length, v.length + n⟩ a = .ok a') :
    top (ndntlvDehead mem) elem ⟨p, (ndnTLV type v).length + n⟩ a =
      top (ndntlvDehead mem) elem ⟨p + (ndnTLV type v).length, n⟩ a' := by
  rw [top_next (dehead_decodes mem) (dehead_tlv h ht hv n) he (by simp only; omega)]
  simp only [valuePos_add, Nat.add_sub_cancel_left]

/-- Behind the last element the parser looks at one more byte. -/
theorem dehead_end (p : Nat) :
    ndntlvDehead mem ⟨p, 0⟩ = (rd mem p >>= fun _ => .ok (none, ⟨p, 0⟩)) := by
  unfold ndntlvDehead ndntlvVarlenint
  cases hb : rd mem p with
  | error e => rfl
  | ok b =>
    rw [ok_bind, ok_bind]
    simp

theorem top_ndn_end {elem : Nat → Nat → Nat → Cursor → α → Run α} (p : Nat) :
    top (ndntlvDehead mem) elem ⟨p, 0⟩ a = (rd mem p >>= fun _ => .ok (⟨p, 0⟩, a)) := by
  cases hb : rd mem p with
  | error e => exact top_error (by rw [topStep, dehead_end, hb]; rfl)
  | ok b => exact top_end (by rw [dehead_end, hb]; rfl)

end Elements

/-! ## Names -/

section Names

variable {mem : List UInt8} {p n : Nat} {vs : List (List UInt8)} {P : Prefix}

/-- Where the components lie whose elements stand from `p` on. -/
def compSpans : Nat → List (List UInt8) → List Span
  | _, [] => []
  | p, v :: vs =>
    ⟨valuePos p ndnTlvNameComponent v.length, v.length⟩ ::
      compSpans (p + (ndnTLV ndnTlvNameComponent v).length) vs

theorem ndnComps_cons (v : List UInt8) (vs : List (List UInt8)) :
    ndnComps (v :: vs) = ndnTLV ndnTlvNameComponent v ++ ndnComps vs := List.flatMap_cons

theorem bytes_compSpans (h : At mem p (ndnComps vs)) :
    (compSpans p vs).map (·.bytes mem) = vs := by
  induction vs generalizing p with
  | nil => rfl
  | cons v vs ih =>
    rw [ndnComps_cons] at h
    obtain ⟨h₁, h₂⟩ := at_append.mp h
    rw [compSpans, List.map_cons, ih h₂, (at_tlv.mp h₁).2.bytes]

theorem within_compSpans : ∀ s ∈ compSpans p vs, s.Within p (p + (ndnComps vs).length) := by
  induction vs generalizing p with
  | nil => intro s hs; cases hs
  | cons v vs ih =>
    intro s hs
    have hadd := valuePos_add p ndnTlvNameComponent v
    rw [ndnComps_cons, List.length_append]
    rcases List.mem_cons.mp hs with rfl | hs
    · exact ⟨Nat.le_add_right _ _, by simp only; omega⟩
    · exact (ih s hs).mono (Nat.le_add_right _ _) (by omega)

/-- The chunk number after a component. -/
def chunkOf (k : Option Nat) (v : List UInt8) : Option Nat :=
  if v.head? = some ndnMarkerSegmentNumber then some (nonNeg v.tail) else k

/-- A component that the parser takes: it has a first byte, and the number after a marker is not
too large. -/
def Takable (v : List UInt8) : Prop :=
  v ≠ [] ∧ (v.head? = some ndnMarkerSegmentNumber → nonNeg v.tail ≤ uint32Max)

/-- The parser takes in a component. -/
theorem nameElem_at {v : List UInt8} (h : At mem p v) (hv : Takable v)
    (hcnt : P.compcnt < maxNameComp) (hd n : Nat) :
    ndnNameElem mem hd ndnTlvNameComponent v.length ⟨p, n⟩ P =
      .ok (.next ⟨p, n⟩ v.length
        { P with comp := P.comp ++ [⟨p, v.length⟩], chunknum := chunkOf P.chunknum v }) := by
  obtain ⟨hne, hk⟩ := hv
  match v, hne with
  | b :: bs, _ =>
    have hb : mem[p]? = some b := (at_cons.mp h).1
    have hbs : At mem (p + 1) bs := (at_cons.mp h).2
    have hi : (b :: bs).length - 1 = bs.length := rfl
    have huint : uintAt mem (p + 1) bs.length = nonNeg bs := by rw [uintAt, hbs.take]
    rw [nameElem_eq_ok]
    refine ⟨fun _ => ⟨(List.getElem?_eq_some_iff.mp hb).1, fun hm => ⟨⟨?_, ?_⟩, ?_⟩⟩, ?_⟩
    · exact Nat.succ_pos _
    · exact hbs.inBuf
    · simp only [hi, huint]
      exact hk (hb.symm.trans hm)
    · rw [withComponent, if_pos ⟨rfl, hcnt⟩, chunkOf, hi]
      simp only [hb, huint, List.head?_cons, List.tail_cons]
      rfl

theorem nested_comps (h : At mem p (ndnComps vs)) (hlen : (ndnComps vs).length < 2 ^ 32)
    (hvs : ∀ v ∈ vs, Takable v) (hcnt : P.compcnt + vs.length ≤ maxNameComp) :
    nested (ndntlvDehead mem) (ndnNameElem mem) ⟨p, (ndnComps vs).length⟩ P =
      .ok { P with comp := P.comp ++ compSpans p vs, chunknum := vs.foldl chunkOf P.chunknum } := by
  induction vs generalizing p P with
  | nil =>
    rw [compSpans, List.append_nil]
    exact nested_end p P
  | cons v vs ih =>
    rw [ndnComps_cons] at h hlen
    rw [List.length_append] at hlen
    obtain ⟨h₁, h₂⟩ := at_append.mp h
    have hvlen : v.length < 2 ^ 32 := by
      rw [ndnTLV, List.length_append] at hlen
      omega
    have hone := nameElem_at (P := P) (at_tlv.mp h₁).2 (hvs v List.mem_cons_self)
      (by rw [List.length_cons] at hcnt; omega) p (v.length + (ndnComps vs).length)
    rw [ndnComps_cons, List.length_append,
      nested_tlv (nameSpec_models mem) h₁ (by decide) hvlen hone,
      ih h₂ (by omega) fun w hw => hvs w (List.mem_cons_of_mem _ hw)]
    · simp only [compSpans, List.append_assoc, List.singleton_append, List.foldl_cons]
    · simp only [Prefix.compcnt, List.length_append, List.length_cons, List.length_nil] at hcnt ⊢
      omega

/-- A name that the encoder and the parser agree on: at most 63 components, none empty and none with
the marker of a chunk number in front, and a 32-bit chunk number. -/
structure NdnEncodable (name : Prefix) : Prop where
  count : name.comps.length ≤ 63
  comp : ∀ v ∈ name.comps, v ≠ [] ∧ v.head? ≠ some ndnMarkerSegmentNumber
  chunknum : ∀ k ∈ name.chunknum, k ≤ uint32Max

theorem NdnEncodable.chunk_lt {name : Prefix} (h : NdnEncodable name) :
    ∀ k ∈ name.chunknum, k < 2 ^ 64 := fun k hk => by
  have := h.chunknum k hk
  unfold uint32Max at this
  omega

theorem NdnEncodable.takable {name : Prefix} (h : NdnEncodable name) :
    ∀ v ∈ wireComps name, Takable v := by
  intro v hv
  rcases List.mem_append.mp hv with hv | hv
  · exact ⟨(h.comp v hv).1, fun hm => absurd hm (h.comp v hv).2⟩
  · unfold chunkComp at hv
    split at hv
    · rename_i k hk
      rw [List.mem_singleton.mp hv]
      exact ⟨List.cons_ne_nil _ _, fun _ => by
        rw [List.tail_cons, nonNeg_ndnNonNegVal (h.chunk_lt k hk)]
        exact h.chunknum k hk⟩
    · cases hv

theorem NdnEncodable.chunkOf {name : Prefix} (h : NdnEncodable name) :
    (wireComps name).foldl chunkOf none = name.chunknum := by
  have hplain : name.comps.foldl Ccnl.chunkOf none = none := by
    have := h.comp
    generalize name.comps = vs at this
    induction vs with
    | nil => rfl
    | cons v vs ih =>
      rw [List.foldl_cons, Ccnl.chunkOf, if_neg (this v List.mem_cons_self).2]
      exact ih fun w hw => this w (List.mem_cons_of_mem _ hw)
  rw [wireComps, List.foldl_append, hplain]
  unfold chunkComp
  split
  · rename_i k hk
    rw [List.foldl_cons, List.foldl_nil, Ccnl.chunkOf, List.head?_cons, if_pos rfl, List.tail_cons,
      nonNeg_ndnNonNegVal (h.chunk_lt k hk), hk]
  · rename_i hk
    rw [hk]
    rfl

theorem NdnEncodable.length {name : Prefix} (h : NdnEncodable name) :
    (wireComps name).length ≤ maxNameComp := by
  have := h.count
  rw [wireComps, List.length_append]
  unfold chunkComp maxNameComp
  split
  · rw [List.length_singleton]
    omega
  · rw [List.length_nil]
    omega

end Names

/-! ## The elements of a packet -/

/-- The packet under construction with the details `d`. -/
def NdnState.set (s : NdnState) (d : NdntlvDetail) : NdnState :=
  { s with pkt := s.pkt.setNdntlv d }

/-- The name that the parser makes of an element at `p`. -/
def parsedName (p : Nat) (name : Prefix) : Prefix :=
  let q := valuePos p ndnTlvName (ndnComps (wireComps name)).length
  { mem := [], comp := compSpans q (wireComps name), suite := .ndntlv, nameptr := some p,
    namelen := q - p, chunknum := name.chunknum }

section Elems

variable {mem : List UInt8} {start p n : Nat} {s : NdnState} {d : NdntlvDetail} {name : Prefix}

/-- The packet loop of the parser. -/
abbrev ndnTop (mem : List UInt8) (start : Nat) : Cursor → NdnState → Run (Cursor × NdnState) :=
  top (ndntlvDehead mem) (ndnElem mem start)

theorem length_value_le (type : Nat) (v : List UInt8) : v.length ≤ (ndnTLV type v).length := by
  rw [ndnTLV, List.length_append]
  omega

theorem top_name (hname : NdnEncodable name) (h : At mem p (ndnName name))
    (hlen : (ndnName name).length < 2 ^ 32) (hs : s.pkt.pfx = none) (hle : start ≤ p) :
    ndnTop mem start ⟨p, (ndnName name).length + n⟩ s =
      ndnTop mem start ⟨p + (ndnName name).length, n⟩
        { s with pkt := { s.pkt with pfx := some (parsedName p name), val := 2 ^ 64 - 1 } } := by
  have hv := Nat.lt_of_le_of_lt (length_value_le _ _) hlen
  refine top_tlv h (by decide) hv ?_
  unfold ndnElem
  rw [show ndnTlv ndnTlvName = .name from rfl]
  dsimp only
  have hnone : ¬ s.pkt.pfx.isSome = true := by rw [hs]; decide
  have hcomps := nested_comps (P := { mem := [], comp := [], suite := .ndntlv, nameptr := some p })
    (at_tlv.mp h).2 hv hname.takable (by
      rw [Prefix.compcnt, List.length_nil, Nat.zero_add]
      exact hname.length)
  rw [if_neg hnone, Nat.add_sub_cancel' hle, hcomps, ok_bind, hname.chunkOf]
  rfl

theorem top_selectors (opts : NdnInterestOpts) (h : At mem p (ndnSelectors opts)) :
    ndnTop mem start ⟨p, (ndnSelectors opts).length + n⟩ (s.set d) =
      ndnTop mem start ⟨p + (ndnSelectors opts).length, n⟩
        (s.set (if opts.mustbefresh then { d with mbf := true } else d)) := by
  unfold ndnSelectors at h ⊢
  split
  · rename_i hm
    rw [if_pos hm] at h
    have hv := (at_tlv.mp h).2
    refine top_tlv h (by decide) (by decide) ?_
    have hnested := @nested_tlv mem _ _ 0 _ _ _ _ _ _ d { d with mbf := true }
      (selectorsSpec_models mem) hv (by decide) (by decide) rfl
    unfold ndnElem
    rw [show ndnTlv ndnTlvSelectors = .selectors from rfl]
    dsimp only
    rw [Nat.add_zero, nested_end] at hnested
    rw [show (s.set d).pkt.ndntlv = d from rfl, hnested]
    rfl
  · rw [List.length_nil, Nat.zero_add, Nat.add_zero]

theorem top_nonce (opts : NdnInterestOpts) (h : At mem p (ndnNonce opts)) :
    ndnTop mem start ⟨p, (ndnNonce opts).length + n⟩ (s.set d) =
      ndnTop mem start ⟨p + (ndnNonce opts).length, n⟩
        (s.set { d with nonce := some (wordBytes opts.nonce) }) := by
  refine top_tlv h (by decide) (by rw [wordBytes, List.length_reverse, length_beBytes]; decide) ?_
  unfold ndnElem
  rw [show ndnTlv ndnTlvNonce = .nonce from rfl]
  dsimp only
  rw [(at_tlv.mp h).2.rdBytes]
  rfl

/-- An element with a number in it. -/
theorem top_number {type val : Nat} (ht : type < 2 ^ 32) (hval : val < 2 ^ 64)
    {f : Nat → NdntlvDetail} (h : At mem p (ndnTLV type (ndnNonNegVal val)))
    (he : ∀ hd len cur, ndnElem mem start hd type len cur (s.set d) =
      (ndntlvNonNegInt mem cur.pos len >>= fun v => .ok (s.set (f v)))) :
    ndnTop mem start ⟨p, (ndnTLV type (ndnNonNegVal val)).length + n⟩ (s.set d) =
      ndnTop mem start ⟨p + (ndnTLV type (ndnNonNegVal val)).length, n⟩ (s.set (f val)) := by
  refine top_tlv h ht (Nat.lt_of_le_of_lt (length_ndnNonNegVal val) (by decide)) ?_
  rw [he, nonNegInt_at (at_tlv.mp h).2, nonNeg_ndnNonNegVal hval]
  rfl

theorem top_lifetime (opts : NdnInterestOpts) (h : At mem p (ndnLifetime opts)) :
    ndnTop mem start ⟨p, (ndnLifetime opts).length + n⟩ (s.set d) =
      ndnTop mem start ⟨p + (ndnLifetime opts).length, n⟩
        (s.set (if opts.interestlifetime ≠ 0 then
          { d with interestlifetime := opts.interestlifetime.toNat } else d)) := by
  unfold ndnLifetime at h ⊢
  split
  · rename_i hl
    rw [if_pos hl] at h
    have := opts.interestlifetime.toNat_lt
    exact top_number (f := fun v => { d with interestlifetime := v }) (by decide) (by omega) h
      fun _ _ _ => rfl
  · rw [List.length_nil, Nat.zero_add, Nat.add_zero]

theorem top_scope {scope : Int} (hs : scope ≤ 2) (h : At mem p (ndnScope scope)) :
    ndnTop mem start ⟨p, (ndnScope scope).length + n⟩ (s.set d) =
      ndnTop mem start ⟨p + (ndnScope scope).length, n⟩
        (s.set (if 0 ≤ scope then { d with scope := scope.toNat } else d)) := by
  unfold ndnScope at h ⊢
  split
  · rename_i h0
    rw [if_pos h0] at h
    exact top_number (f := fun v => { d with scope := v }) (by decide) (by omega) h
      fun _ _ _ => rfl
  · rw [List.length_nil, Nat.zero_add, Nat.add_zero]

theorem top_content (payload : List UInt8) (h : At mem p (ndnContent payload))
    (hlen : (ndnContent payload).length < 2 ^ 32) :
    ndnTop mem start ⟨p, (ndnContent payload).length + n⟩ s =
      ndnTop mem start ⟨p + (ndnContent payload).length, n⟩
        { s with pkt := { s.pkt with
          content := some ⟨valuePos p ndnTlvContent payload.length, payload.length⟩ } } :=
  top_tlv h (by decide) (Nat.lt_of_le_of_lt (length_value_le _ _) hlen) rfl

/-- The signature is that of a digest, so there is no HMAC to remember. -/
theorem top_signatureInfo (h : At mem p ndnSignatureInfo) :
    ndnTop mem start ⟨p, ndnSignatureInfo.length + n⟩ s =
      ndnTop mem start ⟨p + ndnSignatureInfo.length, n⟩ s := by
  have hv := (at_tlv.mp h).2
  refine top_tlv h (by decide) (by decide) ?_
  have hb := (at_cons.mp (at_tlv.mp hv).2).1
  have hdigest : some ndnValSigtypeDigestsha256 ≠ some ndnValSigtypeHmac256 := by decide
  rw [← hb] at hdigest
  have hnested := @nested_tlv mem _ _ 0 _ _ _ _ _ _ s.validAlgoIsHmac256 s.validAlgoIsHmac256
    (signatureInfoSpec_models mem) hv (by decide) (by decide)
    (signatureInfoElem_eq_ok.mpr
      (.inr ⟨fun _ => ⟨(List.getElem?_eq_some_iff.mp hb).1, hdigest⟩, rfl⟩))
  rw [Nat.add_zero, nested_end] at hnested
  unfold ndnElem
  rw [show ndnTlv ndnTlvSignatureInfo = .signatureInfo from rfl]
  dsimp only
  rw [hnested]
  rfl

theorem top_signatureValue (h : At mem p ndnSignatureValue) :
    ndnTop mem start ⟨p, ndnSignatureValue.length + n⟩ s =
      ndnTop mem start ⟨p + ndnSignatureValue.length, n⟩ s := by
  refine top_tlv h (by decide) (by decide) ?_
  unfold ndnElem
  rw [show ndnTlv ndnTlvSignatureValue = .signatureValue from rfl]
  dsimp only
  rw [if_neg (fun h => absurd h.2 (by decide))]
  rfl

/-! ### MetaInfo -/

/-- The number of a FinalBlockId is read. -/
theorem metaInfoElem_final {val hd : Nat} {a : NdntlvDetail × Nat} (hval : val < 2 ^ 63)
    (h : At mem p (ndnTLV ndnTlvNameComponent (ndnMarkerSegmentNumber :: ndnNonNegVal val)))
    (i n : Nat) :
    let v := ndnMarkerSegmentNumber :: ndnNonNegVal val
    ndnMetaInfoElem mem hd ndnTlvFinalBlockId i ⟨p, (ndnTLV ndnTlvNameComponent v).length + n⟩ a =
      .ok (.next ⟨valuePos p ndnTlvNameComponent v.length, v.length + n⟩ v.length (a.1, val)) := by
  intro v
  have hlen : v.length < 2 ^ 32 :=
    Nat.lt_of_le_of_lt (Nat.succ_le_succ (length_ndnNonNegVal val)) (by decide)
  have hat := (at_cons.mp (at_tlv.mp h).2).2
  have hmarked : ndnMarked mem (valuePos p ndnTlvNameComponent v.length) v.length (2 ^ 63) =
      .ok val := by
    have huint : uintAt mem (valuePos p ndnTlvNameComponent v.length + 1) (v.length - 1) = val := by
      rw [uintAt, show v.length - 1 = (ndnNonNegVal val).length from rfl, hat.take,
        nonNeg_ndnNonNegVal (by omega)]
    exact marked_eq_ok.mpr ⟨⟨Nat.succ_pos _, hat.inBuf⟩, huint, hval⟩
  unfold ndnMetaInfoElem
  rw [if_neg (by decide), if_pos rfl, dehead_tlv h (by decide) hlen]
  dsimp only [ok_bind]
  rw [if_pos rfl, hmarked]
  rfl

theorem nested_freshness (opts : NdnDataOpts) (v : Nat) (h : At mem p (ndnFreshnessPeriod opts)) :
    nested (ndntlvDehead mem) (ndnMetaInfoElem mem) ⟨p, (ndnFreshnessPeriod opts).length + n⟩ (d, v) =
      nested (ndntlvDehead mem) (ndnMetaInfoElem mem) ⟨p + (ndnFreshnessPeriod opts).length, n⟩
        (if opts.freshnessperiod ≠ 0 then
          { d with freshnessperiod := opts.freshnessperiod.toNat } else d, v) := by
  unfold ndnFreshnessPeriod at h ⊢
  split
  · rename_i hf
    rw [if_pos hf] at h
    have := opts.freshnessperiod.toNat_lt
    refine nested_tlv (metaInfoSpec_models mem) h (by decide)
      (Nat.lt_of_le_of_lt (length_ndnNonNegVal _) (by decide)) ?_
    unfold ndnMetaInfoElem
    rw [if_pos rfl, nonNegInt_at (at_tlv.mp h).2, nonNeg_ndnNonNegVal (by omega)]
    rfl
  · rw [List.length_nil, Nat.zero_add, Nat.add_zero]

theorem length_ndnTLval (val : Nat) : (ndnTLval val).length ≤ 9 := by
  have hform : (tlvalForm val).1 ≤ 8 := by
    unfold tlvalForm
    split
    · exact Nat.zero_le _
    split
    · decide
    split <;> decide
  rw [ndnTLval, List.length_cons, length_beBytes]
  omega

theorem nested_marked {val : Nat} (hval : val < 2 ^ 63) (v : Nat)
    (h : At mem p (ndnTLV ndnTlvFinalBlockId
      (ndnTLV ndnTlvNameComponent (ndnMarkerSegmentNumber :: ndnNonNegVal val)))) :
    let w := ndnTLV ndnTlvFinalBlockId
      (ndnTLV ndnTlvNameComponent (ndnMarkerSegmentNumber :: ndnNonNegVal val))
    nested (ndntlvDehead mem) (ndnMetaInfoElem mem) ⟨p, w.length + n⟩ (d, v) =
      nested (ndntlvDehead mem) (ndnMetaInfoElem mem) ⟨p + w.length, n⟩ (d, val) := by
  intro w
  have hcomp : (ndnTLV ndnTlvNameComponent (ndnMarkerSegmentNumber :: ndnNonNegVal val)).length <
      2 ^ 32 := by
    have hnn := length_ndnNonNegVal val
    have htype := length_ndnTLval ndnTlvNameComponent
    have hlen := length_ndnTLval (ndnMarkerSegmentNumber :: ndnNonNegVal val).length
    rw [ndnTLV, ndnTL, List.length_append, List.length_append, List.length_cons]
    rw [List.length_cons] at hlen
    omega
  have hpos : 0 < w.length := List.length_pos_iff.mpr (tlv_ne_nil _ _)
  rw [nested_next (dehead_decodes mem) (metaInfoSpec_models mem)
    (dehead_tlv h (by decide) hcomp n) (Nat.add_pos_left hpos n)
    (@metaInfoElem_final mem _ val p (d, v) hval (at_tlv.mp h).2 _ n) (by simp only; omega)]
  simp only [valuePos_add, Nat.add_sub_cancel_left]
  rfl

theorem nested_final (opts : NdnDataOpts) (v : Nat) (h : At mem p (ndnFinalBlockId opts)) :
    nested (ndntlvDehead mem) (ndnMetaInfoElem mem) ⟨p, (ndnFinalBlockId opts).length + n⟩ (d, v) =
      nested (ndntlvDehead mem) (ndnMetaInfoElem mem) ⟨p + (ndnFinalBlockId opts).length, n⟩
        (d, if opts.finalblockid.toNat ≠ uint32Max then opts.finalblockid.toNat else v) := by
  unfold ndnFinalBlockId at h ⊢
  split
  · rename_i hf
    rw [if_pos hf] at h
    have := opts.finalblockid.toNat_lt
    exact nested_marked (by omega) v h
  · rw [List.length_nil, Nat.zero_add, Nat.add_zero]

/-- The freshness period that a Data packet carries. -/
def freshnessOf (opts : Option NdnDataOpts) : Nat :=
  match opts with
  | some opts => opts.freshnessperiod.toNat
  | none => 0

/-- The 64 bits of `final_block_id` that a Data packet carries, those of -1 when there is none. -/
def finalBlockOf (opts : Option NdnDataOpts) : Nat :=
  match opts with
  | some opts => if opts.finalblockid.toNat ≠ uint32Max then opts.finalblockid.toNat else 2 ^ 64 - 1
  | none => 2 ^ 64 - 1

theorem nested_metaInfo (opts : Option NdnDataOpts) (h : At mem p (ndnMetaInfoElems opts))
    (hd : d.freshnessperiod = 0) :
    nested (ndntlvDehead mem) (ndnMetaInfoElem mem) ⟨p, (ndnMetaInfoElems opts).length⟩
        (d, 2 ^ 64 - 1) =
      .ok ({ d with freshnessperiod := freshnessOf opts }, finalBlockOf opts) := by
  cases opts with
  | none =>
    rw [show freshnessOf none = d.freshnessperiod from hd.symm]
    rfl
  | some opts =>
    obtain ⟨h₁, h₂⟩ := at_append.mp h
    have hfresh : (if opts.freshnessperiod ≠ 0 then
        { d with freshnessperiod := opts.freshnessperiod.toNat } else d) =
          { d with freshnessperiod := freshnessOf (some opts) } := by
      split
      · rfl
      · rename_i h0
        have h0 : opts.freshnessperiod = 0 := Decidable.not_not.mp h0
        rw [show freshnessOf (some opts) = d.freshnessperiod by rw [freshnessOf, h0, hd]; rfl]
    rw [show (ndnMetaInfoElems (some opts)).length =
      (ndnFreshnessPeriod opts).length + (ndnFinalBlockId opts).length from List.length_append,
      nested_freshness opts _ h₁, hfresh]
    exact nested_final (n := 0) opts (2 ^ 64 - 1) h₂

theorem top_metaInfo (opts : Option NdnDataOpts) (h : At mem p (ndnMetaInfo opts))
    (hlen : (ndnMetaInfo opts).length < 2 ^ 32) (hd : d.freshnessperiod = 0)
    (hs : s.pkt.val = 2 ^ 64 - 1) :
    ndnTop mem start ⟨p, (ndnMetaInfo opts).length + n⟩ (s.set d) =
      ndnTop mem start ⟨p + (ndnMetaInfo opts).length, n⟩
        { s with pkt := { s.pkt.setNdntlv { d with freshnessperiod := freshnessOf opts } with
          val := finalBlockOf opts } } := by
  refine top_tlv h (by decide) (Nat.lt_of_le_of_lt (length_value_le _ _) hlen) ?_
  unfold ndnElem
  rw [show ndnTlv ndnTlvMetaInfo = .metaInfo from rfl]
  dsimp only
  rw [show (s.set d).pkt.ndntlv = d from rfl, show (s.set d).pkt.val = 2 ^ 64 - 1 from hs,
    nested_metaInfo opts (at_tlv.mp h).2 hd]
  rfl

end Elems

end Ccnl
