import Mathlib.Data.Nat.Find
import CcnLite.Pkt.NdntlvDecode

/-!
# NDN numbers and packets there and back

A number is written in one of four widths and read back. The table of padding bytes has a number of
five or six bytes written in seven, which is none of them (`writesIn_iff`).

An Interest or a Data packet that the encoder wrote, parsed: every field is the one that was given.
Behind the last element the parser looks at one more byte, so this takes a byte that can be read
there (`interest_roundtrip_iff`, `data_roundtrip_iff`).
-/

namespace Ccnl

open CRun Tlv

/-! ## Numbers -/

section Numbers

variable {k j n val w : Nat}

theorem byteCount_le_iff (h : val < 2 ^ (8 * k)) (hj : j ≤ k) :
    byteCount k val ≤ j ↔ val < 2 ^ (8 * j) := by
  induction k generalizing val j with
  | zero =>
    obtain rfl : j = 0 := Nat.le_zero.mp hj
    exact iff_of_true (Nat.le_refl _) h
  | succ k ih =>
    have hdiv (i : Nat) : val / 2 ^ 8 < 2 ^ (8 * i) ↔ val < 2 ^ (8 * (i + 1)) := by
      rw [Nat.div_lt_iff_lt_mul (Nat.two_pow_pos 8), ← Nat.pow_add, Nat.mul_succ]
    rw [byteCount]
    split
    · rename_i hzero
      rw [hzero]
      exact iff_of_true (Nat.zero_le _) (Nat.two_pow_pos _)
    · cases j with
      | zero => omega
      | succ j => rw [Nat.succ_le_succ_iff, ih ((hdiv k).mpr h) (by omega), hdiv]

/-- The smallest of the four widths of a number that `val` fits into, in octets. -/
def NdnWidth (val w : Nat) : Prop :=
  (w ∈ [1, 2, 4, 8] ∧ val < 2 ^ (8 * w)) ∧ ∀ v ∈ [1, 2, 4, 8], val < 2 ^ (8 * v) → w ≤ v

instance : Decidable (NdnWidth val w) := inferInstanceAs (Decidable (_ ∧ _))

theorem exists_ndnWidth (h : val < 2 ^ 64) : ∃ w, NdnWidth val w := by
  have hne : ∃ w, w ∈ [1, 2, 4, 8] ∧ val < 2 ^ (8 * w) := ⟨8, by decide, h⟩
  exact ⟨Nat.find hne, Nat.find_spec hne, fun _ hv hlt => Nat.find_min' hne ⟨hv, hlt⟩⟩

/-- The table leaves numbers of five bytes and of six bytes at seven. -/
theorem numWidth_eq_iff : ∀ {n : Nat}, n ≤ 8 → ∀ w ∈ [1, 2, 4, 8], n ≤ w →
    (∀ v ∈ [1, 2, 4, 8], n ≤ v → w ≤ v) → (numWidth n = w ↔ ¬ (4 < n ∧ n ≤ 6)) := by decide

theorem NdnWidth.numWidth_iff (h : NdnWidth val w) (hval : val < 2 ^ 64) :
    numWidth (byteCount 8 val) = w ↔ ¬ (2 ^ 32 ≤ val ∧ val < 2 ^ 48) := by
  have hcount {v : Nat} (hv : v ≤ 8) : byteCount 8 val ≤ v ↔ val < 2 ^ (8 * v) :=
    byteCount_le_iff hval hv
  obtain ⟨⟨hmem, hlt⟩, hleast⟩ := h
  have hle : ∀ v ∈ [1, 2, 4, 8], v ≤ 8 := by decide
  rw [numWidth_eq_iff (byteCount_le 8 val) w hmem ((hcount (hle w hmem)).mpr hlt) fun v hv hn =>
    hleast v hv ((hcount (hle v hv)).mp hn), hcount (by decide), ← Nat.not_le, hcount (by decide),
    Nat.not_lt]

/-- With `w` octets of room, the number is written in `w` octets and read back. -/
def WritesIn (w val : Nat) (o : Back) : Prop :=
  ∃ o', ndntlvPrependNonNegIntVal val o = .ok o' ∧ o'.offset + w = o.offset ∧
    ndntlvNonNegInt o'.buf o'.offset w = .ok val

/-- A number is written in the smallest of the four widths, except that one of five or six bytes
takes seven. What is written is read back in every case. -/
theorem writesIn_iff (val : UInt64) (hw : NdnWidth val.toNat w) {o : Back} (ho : w ≤ o.offset) :
    WritesIn w val.toNat o ↔ ¬ (2 ^ 32 ≤ val.toNat ∧ val.toNat < 2 ^ 48) := by
  have hval := val.toNat_lt
  have hlen : (ndnNonNegVal val.toNat).length = numWidth (byteCount 8 val.toNat) := by
    rw [ndnNonNegVal, length_beBytes]
  rw [← hw.numWidth_iff hval, ← hlen]
  constructor
  · rintro ⟨o', hrun, hoff, -⟩
    rw [prependNonNegIntVal_eq hval] at hrun
    have := Back.offset_pre hrun
    omega
  · rintro rfl
    obtain ⟨o', hrun⟩ := Back.pre_ok_iff.mpr ho
    refine ⟨o', (prependNonNegIntVal_eq hval o).trans hrun, Back.offset_pre hrun, ?_⟩
    rw [nonNegInt_at (Back.at_pre hrun), nonNeg_ndnNonNegVal hval]

/-- The first number of three bytes takes four octets. -/
theorem writesIn_four :
    WritesIn 4 (65536 : UInt64).toNat (Back.room 4) ↔
      ¬ (2 ^ 32 ≤ (65536 : UInt64).toNat ∧ (65536 : UInt64).toNat < 2 ^ 48) :=
  writesIn_iff 65536 (by decide) (by decide)

/-- The first number of five bytes takes seven octets, where eight is the width. -/
theorem writes_seven_octets : NdnWidth (2 ^ 32) 8 ∧ ¬ WritesIn 8 (2 ^ 32) (Back.room 8) ∧
    (ndntlvPrependNonNegIntVal (2 ^ 32) (Back.room 8)).toOption.map Back.offset = some 1 := by
  have hrun : (ndntlvPrependNonNegIntVal (2 ^ 32) (Back.room 8)).toOption.map Back.offset = some 1 := by
    decide
  refine ⟨by decide, fun ⟨o', hrun', hoff, _⟩ => ?_, hrun⟩
  rw [hrun'] at hrun
  have hone : o'.offset = 1 := Option.some.inj hrun
  rw [hone] at hoff
  cases hoff

end Numbers

/-! ## Packets -/

section Parse

variable {mem : List UInt8} {p type : Nat} {body : List UInt8} {s : NdnState}

/-- The parser behind the header of a packet whose elements end in the state `s`. -/
theorem bytes2pkt_tlv (ht : type = ndnTlvInterest ∨ type = ndnTlvData)
    (h : At mem p (ndnTLV type body))
    (htop : ndnTop mem p ⟨valuePos p type body.length, body.length⟩ { pkt := ndnPkt type p } =
      ndnTop mem p ⟨valuePos p type body.length + body.length, 0⟩ s) :
    ndntlvBytes2pkt mem type p ⟨valuePos p type body.length, body.length⟩ =
      (rd mem (p + (ndnTLV type body).length) >>= fun _ =>
        .ok (s.pkt.rebase p (ndnTLV type body), ⟨p + (ndnTLV type body).length, 0⟩)) := by
  have hbail : ¬ (type ≠ ndnTlvInterest ∧ type ≠ ndnTlvData) := by
    rcases ht with rfl | rfl <;> decide
  unfold ndntlvBytes2pkt
  rw [if_neg hbail]
  dsimp only
  have hend : ndnTop mem p ⟨valuePos p type body.length + body.length, 0⟩ s = _ := top_ndn_end _
  rw [show top (ndntlvDehead mem) (ndnElem mem p) _ _ = _ from htop, hend, valuePos_add]
  cases hb : rd mem (p + (ndnTLV type body).length) with
  | error e => rfl
  | ok b =>
    simp only [ok_bind, Nat.lt_irrefl, ↓reduceIte, Nat.add_sub_cancel_left, h.rdBytes]
    rfl

/-- The parser on a packet whose elements end in the state `s`. -/
theorem parse_tlv (ht : type = ndnTlvInterest ∨ type = ndnTlvData)
    (h : At mem p (ndnTLV type body)) (hlen : body.length < 2 ^ 32)
    (htop : ndnTop mem p ⟨valuePos p type body.length, body.length + 0⟩ { pkt := ndnPkt type p } =
      ndnTop mem p ⟨valuePos p type body.length + body.length, 0⟩ s) :
    ndntlvParse mem ⟨p, (ndnTLV type body).length⟩ =
      (rd mem (p + (ndnTLV type body).length) >>= fun _ =>
        .ok ({ s.pkt.rebase p (ndnTLV type body) with type := type },
          ⟨p + (ndnTLV type body).length, 0⟩)) := by
  have ht32 : type < 2 ^ 32 := by rcases ht with rfl | rfl <;> decide
  have hhead := dehead_tlv h ht32 hlen 0
  rw [Nat.add_zero] at hhead
  unfold ndntlvParse
  rw [hhead, ok_bind]
  dsimp only
  rw [if_neg (by omega), Nat.add_zero, bytes2pkt_tlv ht h htop]
  cases hb : rd mem (p + (ndnTLV type body).length) with
  | error e => rfl
  | ok b => rfl

end Parse

/-! ## Names -/

/-- The packet has the name that was given, with the chunk number as a last component. -/
def Named (name : Prefix) (pkt : Pkt) : Prop :=
  ∃ q, pkt.pfx = some q ∧ q.comps = wireComps name ∧ q.chunknum = name.chunknum

/-- The name of a packet whose bytes are copied. -/
theorem named_rebase {mem buf : List UInt8} {p k : Nat} {name : Prefix} {pkt : Pkt}
    (h : At mem k (ndnName name)) (hp : p ≤ k) (hbuf : At mem p buf)
    (hle : k + (ndnName name).length ≤ p + buf.length)
    (hpkt : pkt.pfx = some (parsedName k name)) : Named name (pkt.rebase p buf) := by
  let q : Prefix := { parsedName k name with
    mem := buf
    comp := (parsedName k name).comp.map (·.rebase p)
    nameptr := (parsedName k name).nameptr.map (· - p) }
  refine ⟨q, congrArg (Option.map _) hpkt, ?_, rfl⟩
  have hq : valuePos k ndnTlvName (ndnComps (wireComps name)).length +
      (ndnComps (wireComps name)).length = k + (ndnName name).length := valuePos_add _ _ _
  have hk : k ≤ valuePos k ndnTlvName (ndnComps (wireComps name)).length := Nat.le_add_right _ _
  show ((compSpans _ (wireComps name)).map (·.rebase p)).map (·.bytes buf) = wireComps name
  have hw : ∀ sp ∈ compSpans (valuePos k ndnTlvName (ndnComps (wireComps name)).length)
      (wireComps name), sp.Within p (p + buf.length) :=
    fun sp hsp => (within_compSpans sp hsp).mono (by omega) (by omega)
  have hcopy := @map_bytes_rebase _ mem _ _ hw
  rw [Nat.add_sub_cancel_left, hbuf.take] at hcopy
  exact hcopy.trans (bytes_compSpans (at_tlv.mp h).2)

/-- The byte behind a packet that lies between other bytes. -/
theorem rd_behind_iff {before bs after : List UInt8} {n : Nat} {I : Pkt → Prop} {pkt : Pkt}
    (hI : I pkt) :
    (∃ pkt', (rd (before ++ (bs ++ after)) (before.length + bs.length) >>= fun _ =>
        (.ok (pkt, ⟨n, 0⟩) : Run (Pkt × Cursor))) = .ok (pkt', ⟨n, 0⟩) ∧ I pkt') ↔ after ≠ [] := by
  have hbehind : (before ++ (bs ++ after))[before.length + bs.length]? = after[0]? := by
    rw [← List.append_assoc, ← List.length_append, List.getElem?_append_right (Nat.le_refl _),
      Nat.sub_self]
  cases after with
  | nil =>
    simp only [bind_eq_ok, rd_eq_ok, hbehind, List.getElem?_nil, reduceCtorEq, false_and,
      exists_false, ne_eq, not_true_eq_false]
  | cons b bs' =>
    simp only [ne_eq, reduceCtorEq, not_false_eq_true, iff_true]
    exact ⟨pkt, by rw [rd_eq_ok.mpr hbehind]; rfl, hI⟩

/-- The name /a/b, chunk 300. -/
def nameAB : Prefix :=
  { mem := [97, 98], comp := [⟨0, 1⟩, ⟨1, 1⟩], suite := .ndntlv, chunknum := some 300 }

theorem nameAB_encodable : NdnEncodable nameAB :=
  ⟨by decide, by decide, fun k hk => by cases hk; decide⟩

/-! ## Interests -/

section Interest

variable {name : Prefix} {scope : Int} {opts : NdnInterestOpts} {mem : List UInt8} {p : Nat}

/-- The Interest that was given. A scope below zero is left out, and so is a lifetime of zero. -/
structure SameInterest (name : Prefix) (scope : Int) (opts : NdnInterestOpts) (pkt : Pkt) :
    Prop where
  type : pkt.type = ndnTlvInterest
  name : Named name pkt
  scope : pkt.ndntlv.scope = if 0 ≤ scope then scope.toNat else 3
  nonce : pkt.ndntlv.nonce = some (wordBytes opts.nonce)
  mbf : pkt.ndntlv.mbf = opts.mustbefresh
  interestlifetime : pkt.ndntlv.interestlifetime =
    if opts.interestlifetime ≠ 0 then opts.interestlifetime.toNat else interestTimeout * 1000

/-- The details of a packet after the elements of an Interest. -/
def interestDetail (scope : Int) (opts : NdnInterestOpts) (d : NdntlvDetail) : NdntlvDetail :=
  { d with
    scope := if 0 ≤ scope then scope.toNat else d.scope
    nonce := some (wordBytes opts.nonce)
    mbf := opts.mustbefresh || d.mbf
    interestlifetime :=
      if opts.interestlifetime ≠ 0 then opts.interestlifetime.toNat else d.interestlifetime }

/-- The packet loop over the elements of an Interest. -/
theorem top_interestElems {start q : Nat} {s : NdnState} {d : NdntlvDetail}
    (hname : NdnEncodable name) (hs : scope ≤ 2)
    (h : At mem q (ndnInterestElems name scope opts))
    (hlen : (ndnInterestElems name scope opts).length < 2 ^ 32) (hpfx : s.pkt.pfx = none)
    (hle : start ≤ q) :
    ndnTop mem start ⟨q, (ndnInterestElems name scope opts).length + 0⟩ (s.set d) =
      ndnTop mem start ⟨q + (ndnInterestElems name scope opts).length, 0⟩
        (NdnState.set { s with pkt := { s.pkt with
          pfx := some (parsedName q name), val := 2 ^ 64 - 1 } } (interestDetail scope opts d)) := by
  obtain ⟨h₁, h'⟩ := at_append.mp h
  obtain ⟨h₂, h'⟩ := at_append.mp h'
  obtain ⟨h₃, h'⟩ := at_append.mp h'
  obtain ⟨h₄, h₅⟩ := at_append.mp h'
  have hlens : (ndnInterestElems name scope opts).length + 0 = (ndnName name).length +
      ((ndnSelectors opts).length + ((ndnNonce opts).length +
        ((ndnLifetime opts).length + ((ndnScope scope).length + 0)))) := by
    simp only [ndnInterestElems, List.length_append, Nat.add_zero]
  have hend : q + (ndnInterestElems name scope opts).length = q + (ndnName name).length +
      (ndnSelectors opts).length + (ndnNonce opts).length + (ndnLifetime opts).length +
        (ndnScope scope).length := by
    simp only [ndnInterestElems, List.length_append, Nat.add_assoc]
  have hset : ∀ v : Nat, { s.set d with pkt := { (s.set d).pkt with
      pfx := some (parsedName q name), val := v } } = NdnState.set { s with pkt := { s.pkt with
        pfx := some (parsedName q name), val := v } } d := fun v => rfl
  rw [hlens, hend, top_name (s := s.set d) hname h₁ (by omega) hpfx hle, hset, top_selectors opts h₂,
    top_nonce opts h₃, top_lifetime opts h₄, top_scope hs h₅]
  congr 2
  unfold interestDetail
  cases opts.mustbefresh <;> by_cases h0 : 0 ≤ scope <;> by_cases hl : opts.interestlifetime = 0 <;>
    simp [h0, hl]

/-- The parser on an Interest: the fields are those that were given, if there is a byte behind it. -/
theorem parse_interest (hname : NdnEncodable name) (hs : scope ≤ 2)
    (h : At mem p (ndnInterest name scope opts))
    (hlen : (ndnInterest name scope opts).length < 2 ^ 32) :
    ∃ pkt, SameInterest name scope opts pkt ∧
      ndntlvParse mem ⟨p, (ndnInterest name scope opts).length⟩ =
        (rd mem (p + (ndnInterest name scope opts).length) >>= fun _ =>
          .ok (pkt, ⟨p + (ndnInterest name scope opts).length, 0⟩)) := by
  have hbody := Nat.lt_of_le_of_lt (length_value_le _ _) hlen
  have hq : p ≤ valuePos p ndnTlvInterest (ndnInterestElems name scope opts).length :=
    Nat.le_add_right _ _
  have hend : valuePos p ndnTlvInterest (ndnInterestElems name scope opts).length +
      (ndnInterestElems name scope opts).length = p + (ndnInterest name scope opts).length :=
    valuePos_add _ _ _
  have hle : (ndnName name).length ≤ (ndnInterestElems name scope opts).length := by
    rw [ndnInterestElems, List.length_append]
    exact Nat.le_add_right _ _
  have hat := (at_tlv.mp h).2
  let s : NdnState := { pkt := ndnPkt ndnTlvInterest p }
  let s' : NdnState := NdnState.set { s with pkt := { s.pkt with
    pfx := some (parsedName (valuePos p ndnTlvInterest
      (ndnInterestElems name scope opts).length) name)
    val := 2 ^ 64 - 1 } } (interestDetail scope opts s.pkt.ndntlv)
  have hnamed : Named name (s'.pkt.rebase p (ndnInterest name scope opts)) :=
    named_rebase (at_append.mp hat).1 hq h (by omega) rfl
  exact ⟨_, ⟨rfl, hnamed, rfl, rfl, Bool.or_false _, rfl⟩, parse_tlv (.inl rfl) h hbody
    (top_interestElems (s := s) hname hs hat hbody rfl hq)⟩

/-- An Interest that was written, anywhere in the memory, comes back from the parser exactly when a
byte can be read behind it. -/
theorem interest_roundtrip_iff {o o₁ : Back} {reslen : Nat} (hname : NdnEncodable name)
    (hs : scope ≤ 2) (h : ndntlvPrependInterest name scope opts o = .ok (o₁, reslen))
    (hlen : reslen < 2 ^ 32) (before after : List UInt8) :
    let written := (o₁.buf.drop o₁.offset).take reslen
    (∃ pkt, ndntlvParse (before ++ (written ++ after)) ⟨before.length, reslen⟩ =
        .ok (pkt, ⟨before.length + reslen, 0⟩) ∧ SameInterest name scope opts pkt) ↔
      after ≠ [] := by
  intro written
  rw [prependInterest_eq opts o hs hname.chunk_lt] at h
  obtain ⟨o₂, h₂, h⟩ := (bind_eq_ok _ _ _).mp h
  obtain ⟨rfl, rfl⟩ := Prod.mk.inj ((pure_eq_ok _ _).mp h)
  have hoff := Back.offset_pre h₂
  have hreslen : o.offset - o₂.offset = (ndnInterest name scope opts).length := by omega
  have hwritten : written = ndnInterest name scope opts := by
    show (o₂.buf.drop o₂.offset).take (o.offset - o₂.offset) = _
    rw [hreslen, (Back.at_pre h₂).take]
  rw [hreslen] at hlen ⊢
  rw [hwritten]
  obtain ⟨pkt, hsame, hparse⟩ := parse_interest hname hs
    (at_mid before (ndnInterest name scope opts) after) hlen
  rw [hparse]
  exact rd_behind_iff hsame

/-- An Interest at the end of the buffer that it was written into. -/
def wroteInterest : Back :=
  ⟨[5, 26, 7, 11, 8, 1, 97, 8, 1, 98, 8, 3, 0, 1, 44, 9, 2, 18, 0, 10, 4, 0, 0, 0, 0, 11, 1, 1], 0,
    Nat.zero_le _⟩

theorem prependInterest_ab :
    ndntlvPrependInterest nameAB 1 { mustbefresh := true } (.room 28) = .ok (wroteInterest, 28) := by
  decide +kernel

/-- The parser reads behind it. -/
theorem interest_overread :
    (NdnEncodable nameAB ∧ ndntlvPrependInterest nameAB 1 { mustbefresh := true } (.room 28) =
      .ok (wroteInterest, 28)) ∧
      ¬ ∃ pkt, ndntlvParse wroteInterest.buf ⟨wroteInterest.offset, 28⟩ = .ok (pkt, ⟨28, 0⟩) ∧
        SameInterest nameAB 1 { mustbefresh := true } pkt := by
  refine ⟨⟨nameAB_encodable, prependInterest_ab⟩, fun ⟨pkt, hparse, _⟩ => ?_⟩
  have hoob : ndntlvParse wroteInterest.buf ⟨0, 28⟩ = .error (.oob 28) := by decide +kernel
  exact nomatch hoob.symm.trans hparse

theorem interest_roundtrip_ab :
    (∃ pkt, ndntlvParse ([] ++ (wroteInterest.buf ++ [0])) ⟨0, 28⟩ = .ok (pkt, ⟨28, 0⟩) ∧
      SameInterest nameAB 1 { mustbefresh := true } pkt) ↔ [(0 : UInt8)] ≠ [] :=
  interest_roundtrip_iff nameAB_encodable (by decide) prependInterest_ab (by decide) [] [0]

end Interest

/-! ## Data -/

section Data

variable {name : Prefix} {payload : List UInt8} {opts : Option NdnDataOpts} {mem : List UInt8}
  {p : Nat}

/-- `final_block_id` of a Data packet, -1 when it carries none. -/
def finalBlockIdOf (opts : Option NdnDataOpts) : Int :=
  match opts with
  | some opts => if opts.finalblockid.toNat ≠ uint32Max then opts.finalblockid.toNat else -1
  | none => -1

/-- The Data packet that was given. -/
structure SameData (name : Prefix) (payload : List UInt8) (opts : Option NdnDataOpts) (pkt : Pkt) :
    Prop where
  type : pkt.type = ndnTlvData
  name : Named name pkt
  content : ∃ c, pkt.content = some c ∧ c.bytes pkt.buf = payload ∧ c.Within 0 pkt.buf.length
  freshnessperiod : pkt.ndntlv.freshnessperiod = freshnessOf opts
  finalBlockId : pkt.finalBlockId = finalBlockIdOf opts

/-- The packet loop over the elements of a Data packet. -/
theorem top_dataElems {start q : Nat} {s : NdnState} {d : NdntlvDetail}
    (hname : NdnEncodable name) (h : At mem q (ndnDataElems name payload opts))
    (hlen : (ndnDataElems name payload opts).length < 2 ^ 32) (hpfx : s.pkt.pfx = none)
    (hd : d.freshnessperiod = 0) (hle : start ≤ q) :
    ndnTop mem start ⟨q, (ndnDataElems name payload opts).length + 0⟩ (s.set d) =
      ndnTop mem start ⟨q + (ndnDataElems name payload opts).length, 0⟩
        (NdnState.set { s with pkt := { s.pkt with
          pfx := some (parsedName q name)
          content := some ⟨valuePos (q + (ndnName name).length + (ndnMetaInfo opts).length)
            ndnTlvContent payload.length, payload.length⟩
          val := finalBlockOf opts } } { d with freshnessperiod := freshnessOf opts }) := by
  obtain ⟨h₁, h'⟩ := at_append.mp h
  obtain ⟨h₂, h'⟩ := at_append.mp h'
  obtain ⟨h₃, h'⟩ := at_append.mp h'
  obtain ⟨h₄, h₅⟩ := at_append.mp h'
  have hlens : (ndnDataElems name payload opts).length + 0 = (ndnName name).length +
      ((ndnMetaInfo opts).length + ((ndnContent payload).length +
        (ndnSignatureInfo.length + (ndnSignatureValue.length + 0)))) := by
    simp only [ndnDataElems, List.length_append, Nat.add_zero]
  have hend : q + (ndnDataElems name payload opts).length = q + (ndnName name).length +
      (ndnMetaInfo opts).length + (ndnContent payload).length + ndnSignatureInfo.length +
        ndnSignatureValue.length := by
    simp only [ndnDataElems, List.length_append, Nat.add_assoc]
  have hset : ∀ v : Nat, { s.set d with pkt := { (s.set d).pkt with
      pfx := some (parsedName q name), val := v } } = NdnState.set { s with pkt := { s.pkt with
        pfx := some (parsedName q name), val := v } } d := fun v => rfl
  rw [hlens, hend, top_name (s := s.set d) hname h₁ (by omega) hpfx hle, hset,
    top_metaInfo opts h₂ (by omega) hd rfl, top_content payload h₃ (by omega),
    top_signatureInfo h₄, top_signatureValue h₅]
  rfl

theorem finalBlockId_of {pkt : Pkt} (h : pkt.val = finalBlockOf opts) :
    pkt.finalBlockId = finalBlockIdOf opts := by
  have hnone : ((2 ^ 64 - 1 : Nat) : Int) - 2 ^ 64 = -1 := by decide
  rw [Pkt.finalBlockId, h]
  cases opts with
  | none => exact hnone
  | some opts =>
    have := opts.finalblockid.toNat_lt
    unfold finalBlockOf finalBlockIdOf
    dsimp only
    split
    · rw [if_pos (by omega)]
    · exact hnone

/-- The parser on a Data packet: the fields are those that were given, if there is a byte behind
it. -/
theorem parse_data (hname : NdnEncodable name) (h : At mem p (ndnData name payload opts))
    (hlen : (ndnData name payload opts).length < 2 ^ 32) :
    ∃ pkt, SameData name payload opts pkt ∧
      ndntlvParse mem ⟨p, (ndnData name payload opts).length⟩ =
        (rd mem (p + (ndnData name payload opts).length) >>= fun _ =>
          .ok (pkt, ⟨p + (ndnData name payload opts).length, 0⟩)) := by
  have hbody := Nat.lt_of_le_of_lt (length_value_le _ _) hlen
  have hat := (at_tlv.mp h).2
  have hq : p ≤ valuePos p ndnTlvData (ndnDataElems name payload opts).length :=
    Nat.le_add_right _ _
  have hend : valuePos p ndnTlvData (ndnDataElems name payload opts).length +
      (ndnDataElems name payload opts).length = p + (ndnData name payload opts).length :=
    valuePos_add _ _ _
  have hsum : (ndnDataElems name payload opts).length = (ndnName name).length +
      ((ndnMetaInfo opts).length + ((ndnContent payload).length +
        (ndnSignatureInfo.length + ndnSignatureValue.length))) := by
    simp only [ndnDataElems, List.length_append]
  obtain ⟨h₁, h'⟩ := at_append.mp hat
  obtain ⟨-, h'⟩ := at_append.mp h'
  have hcontent := (at_tlv.mp (at_append.mp h').1).2
  let s : NdnState := { pkt := ndnPkt ndnTlvData p }
  let q := valuePos p ndnTlvData (ndnDataElems name payload opts).length
  let c : Span := ⟨valuePos (q + (ndnName name).length + (ndnMetaInfo opts).length) ndnTlvContent
    payload.length, payload.length⟩
  let s' : NdnState := NdnState.set { s with pkt := { s.pkt with
    pfx := some (parsedName q name)
    content := some c
    val := finalBlockOf opts } } { s.pkt.ndntlv with freshnessperiod := freshnessOf opts }
  have hc : c.Within p (p + (ndnData name payload opts).length) := by
    have hv : c.off + c.len = q + (ndnName name).length + (ndnMetaInfo opts).length +
        (ndnContent payload).length := valuePos_add _ _ _
    have hoff : q + (ndnName name).length + (ndnMetaInfo opts).length ≤ c.off :=
      Nat.le_add_right _ _
    exact ⟨by omega, by omega⟩
  have hbytes : (c.rebase p).bytes (ndnData name payload opts) = payload := by
    have hcopy := @bytes_rebase _ mem _ _ hc
    rw [Nat.add_sub_cancel_left, h.take] at hcopy
    rw [hcopy]
    exact hcontent.bytes
  have hwithin : (c.rebase p).Within 0 (ndnData name payload opts).length := by
    have := within_rebase hc
    rwa [Nat.add_sub_cancel_left] at this
  have hnamed : Named name (s'.pkt.rebase p (ndnData name payload opts)) :=
    named_rebase h₁ hq h (by omega) rfl
  exact ⟨_, ⟨rfl, hnamed, ⟨c.rebase p, rfl, hbytes, hwithin⟩, rfl, finalBlockId_of rfl⟩,
    parse_tlv (.inr rfl) h hbody (top_dataElems (s := s) hname hat hbody rfl rfl hq)⟩

/-- A Data packet that was written, anywhere in the memory, comes back from the parser exactly when
a byte can be read behind it. -/
theorem data_roundtrip_iff {o o₁ : Back} {contentpos reslen : Nat} (hname : NdnEncodable name)
    (h : ndntlvPrependContent name payload opts o = .ok (o₁, contentpos, reslen))
    (hlen : reslen < 2 ^ 32) (before after : List UInt8) :
    let written := (o₁.buf.drop o₁.offset).take reslen
    (∃ pkt, ndntlvParse (before ++ (written ++ after)) ⟨before.length, reslen⟩ =
        .ok (pkt, ⟨before.length + reslen, 0⟩) ∧ SameData name payload opts pkt) ↔
      after ≠ [] := by
  intro written
  rw [prependContent_eq payload opts o hname.chunk_lt] at h
  obtain ⟨o₂, h₂, h⟩ := (bind_eq_ok _ _ _).mp h
  obtain ⟨rfl, hres⟩ := Prod.mk.inj ((pure_eq_ok _ _).mp h)
  obtain ⟨-, rfl⟩ := Prod.mk.inj hres
  have hoff := Back.offset_pre h₂
  have hreslen : o.offset - o₂.offset = (ndnData name payload opts).length := by omega
  have hwritten : written = ndnData name payload opts := by
    show (o₂.buf.drop o₂.offset).take (o.offset - o₂.offset) = _
    rw [hreslen, (Back.at_pre h₂).take]
  rw [hreslen] at hlen ⊢
  rw [hwritten]
  obtain ⟨pkt, hsame, hparse⟩ := parse_data hname
    (at_mid before (ndnData name payload opts) after) hlen
  rw [hparse]
  exact rd_behind_iff hsame

/-- A Data packet at the end of the buffer that it was written into. -/
def wroteData : Back :=
  ⟨[6, 39, 7, 11, 8, 1, 97, 8, 1, 98, 8, 3, 0, 1, 44, 20, 12, 25, 4, 0, 1, 17, 112, 26, 4, 8, 2, 0, 7,
    21, 3, 1, 2, 3, 22, 3, 27, 1, 0, 23, 0], 0, Nat.zero_le _⟩

theorem prependContent_ab :
    ndntlvPrependContent nameAB [1, 2, 3] (some { freshnessperiod := 70000, finalblockid := 7 })
      (.room 41) = .ok (wroteData, 38, 41) := by
  decide +kernel

/-- The parser reads behind it. -/
theorem data_overread :
    (NdnEncodable nameAB ∧ ndntlvPrependContent nameAB [1, 2, 3]
      (some { freshnessperiod := 70000, finalblockid := 7 }) (.room 41) = .ok (wroteData, 38, 41)) ∧
      ¬ ∃ pkt, ndntlvParse wroteData.buf ⟨wroteData.offset, 41⟩ = .ok (pkt, ⟨41, 0⟩) ∧
        SameData nameAB [1, 2, 3] (some { freshnessperiod := 70000, finalblockid := 7 }) pkt := by
  refine ⟨⟨nameAB_encodable, prependContent_ab⟩, fun ⟨pkt, hparse, _⟩ => ?_⟩
  have hoob : ndntlvParse wroteData.buf ⟨0, 41⟩ = .error (.oob 41) := by decide +kernel
  exact nomatch hoob.symm.trans hparse

theorem data_roundtrip_ab :
    (∃ pkt, ndntlvParse ([] ++ (wroteData.buf ++ [0])) ⟨0, 41⟩ = .ok (pkt, ⟨41, 0⟩) ∧
      SameData nameAB [1, 2, 3] (some { freshnessperiod := 70000, finalblockid := 7 }) pkt) ↔
      [(0 : UInt8)] ≠ [] :=
  data_roundtrip_iff nameAB_encodable prependContent_ab (by decide) [] [0]

end Data

end Ccnl
