import CcnLite.Core.Path
import CcnLite.Pkt.CcnbDecode
import CcnLite.Pkt.CcnbSpace

/-!
# CCNB headers and packets there and back

A header that is written is read back, and bytes that are read as a header, but for an end marker,
are the ones that are written for it (`ccnb_header_roundtrip`).

An Interest or a content object that the encoder wrote, parsed. A Nonce is written without an end
marker, so the one of the Interest closes the Nonce, and the parser goes on in the bytes that
follow; a length of 2 ^ 53 or more has a header that the parser does not read. What the parser
returns is what was given exactly when neither happens (`ccnb_interest_roundtrip_iff`,
`ccnb_content_roundtrip_iff`).
-/

namespace Ccnl

open CRun

/-! ## Headers -/

section Header

variable {mem bs xs : List UInt8} {c c' : Cursor} {num tt typ k v : Nat} {b : UInt8}

/-- The value of the septets. -/
def septetsValue (xs : List UInt8) : Nat := xs.foldl (fun v b => v * 2 ^ 7 + b.toNat) 0

theorem septetsValue_concat : septetsValue (xs ++ [b]) = septetsValue xs * 2 ^ 7 + b.toNat := by
  rw [septetsValue, List.foldl_append]
  rfl

theorem septetsValue_pos (hne : xs ≠ []) (hfirst : xs.head? ≠ some 0) : 0 < septetsValue xs := by
  induction xs using List.reverseRecOn with
  | nil => exact absurd rfl hne
  | append_singleton xs b ih =>
    rw [septetsValue_concat]
    cases xs with
    | nil =>
      have hb : b.toNat ≠ 0 := fun h => hfirst (by
        rw [UInt8.toNat_inj.mp (show b.toNat = (0 : UInt8).toNat from h)]
        rfl)
      omega
    | cons x xs =>
      have := ih (List.cons_ne_nil x xs) hfirst
      omega

/-- A number has the septets that it is the value of, when the first of them is not zero. -/
theorem septets_septetsValue (hxs : ∀ x ∈ xs, x < 0x80) (hfirst : xs.head? ≠ some 0)
    (hk : septetsValue xs ≤ k) : ccnbSeptets k (septetsValue xs) = xs.reverse := by
  induction xs using List.reverseRecOn generalizing k with
  | nil => exact ccnbSeptets_zero k
  | append_singleton xs b ih =>
    have hb : b.toNat < 2 ^ 7 := UInt8.lt_iff_toNat_lt.mp (hxs b (by simp))
    have hpos := septetsValue_pos (by simp) hfirst
    have hxs' : ∀ x ∈ xs, x < 0x80 := fun x hx => hxs x (List.mem_append_left _ hx)
    have hfirst' : xs.head? ≠ some 0 := fun h => hfirst (by rw [List.head?_append, h]; rfl)
    have hval := @septetsValue_concat xs b
    obtain ⟨k, rfl⟩ : ∃ j, k = j + 1 := ⟨k - 1, by omega⟩
    have hdiv : septetsValue (xs ++ [b]) / 2 ^ 7 = septetsValue xs := by omega
    have hlow : UInt8.ofNat (septetsValue (xs ++ [b]) % 2 ^ 7) = b := by
      rw [← UInt8.toNat_inj, UInt8.toNat_ofNat']
      omega
    rw [ccnbSeptets_succ hpos, hdiv, hlow, ih hxs' hfirst' (by omega), List.reverse_append]
    rfl

theorem lastByte_nibble : ∀ b : UInt8, ((b >>> 3) &&& 0xf).toNat < 2 ^ 4 :=
  forall_byte (by decide +kernel)

/-- A byte with the top bit set is the last one of the header that it is read as. -/
theorem lastByte_read (hb : 0x80 ≤ b) (v : Nat) :
    lastByte (v * 2 ^ 4 + ((b >>> 3) &&& 0xf).toNat) (b &&& 0x7).toNat = b := by
  have hall : ∀ b : UInt8, 0x80 ≤ b →
      UInt8.ofNat (0x80 ||| (((b >>> 3) &&& 0xf).toNat <<< 3) ||| (b &&& 0x7).toNat) = b :=
    forall_byte (by decide +kernel)
  rw [lastByte, show (0x0f : Nat) = 2 ^ 4 - 1 from rfl, Nat.and_two_pow_sub_one_eq_mod,
    Nat.mul_comm, Nat.mul_add_mod, Nat.mod_eq_of_lt (lastByte_nibble b)]
  exact hall b hb

/-- A number that is read ends with the first byte that has the top bit set. -/
theorem ccnbNumber_inv (he : ccnbNumber bs v = some ((num, typ), k)) :
    ∃ (xs : List UInt8) (b : UInt8), bs.take k = xs ++ [b] ∧ (∀ x ∈ xs, x < 0x80) ∧ 0x80 ≤ b ∧
      num = xs.foldl (fun v b => v * 2 ^ 7 + b.toNat) v * 2 ^ 4 + ((b >>> 3) &&& 0xf).toNat ∧
      typ = (b &&& 0x7).toNat := by
  induction bs generalizing v k with
  | nil => cases he
  | cons b bs ih =>
    rw [ccnbNumber] at he
    split at he
    · rename_i hb
      cases he
      exact ⟨[], b, rfl, by simp, hb, rfl, rfl⟩
    · rename_i hb
      obtain ⟨⟨h, k⟩, hrest, he⟩ := Option.map_eq_some_iff.mp he
      cases he
      obtain ⟨xs, c, htake, hxs, hc, hnum, htyp⟩ := ih hrest
      refine ⟨b :: xs, c, by rw [List.take_succ_cons, htake]; rfl, fun x hx => ?_, hc, hnum, htyp⟩
      rcases List.mem_cons.mp hx with rfl | hx
      · exact UInt8.not_le.mp hb
      · exact hxs x hx

/-- The bytes of a header that is no end marker are those that are written for it. -/
theorem hdr_of_ccnbHeader (he : ccnbHeader bs = some ((num, typ), k)) (hfirst : bs.head? ≠ some 0) :
    bs.take k = ccnbHdr num typ ∧ num < 2 ^ 53 ∧ typ < 8 := by
  cases bs with
  | nil => cases he
  | cons y ys =>
    have hy : y ≠ 0 := fun h => hfirst (by rw [h]; rfl)
    rw [ccnbHeader_first hy] at he
    obtain ⟨xs, b, htake, hxs, hb, rfl, rfl⟩ := ccnbNumber_inv he
    obtain ⟨hpos, hsize⟩ := ccnbNumber_size he
    have hk : k ≤ 8 := Nat.le_trans hsize (List.length_take_le _ _)
    rw [List.take_take, Nat.min_eq_left hk] at htake
    have hhead : xs.head? ≠ some 0 := fun h => hfirst (by
      obtain ⟨j, rfl⟩ : ∃ j, k = j + 1 := ⟨k - 1, by omega⟩
      have hy := congrArg List.head? htake
      rw [List.head?_append, h] at hy
      exact hy)
    have hlt : ∀ b : UInt8, (b &&& 0x7).toNat < 8 := forall_byte (by decide +kernel)
    have hdiv : (septetsValue xs * 2 ^ 4 + ((b >>> 3) &&& 0xf).toNat) >>> 4 = septetsValue xs := by
      have := lastByte_nibble b
      rw [Nat.shiftRight_eq_div_pow]
      omega
    have heq : ccnbHdr (septetsValue xs * 2 ^ 4 + ((b >>> 3) &&& 0xf).toNat) (b &&& 0x7).toNat =
        xs ++ [b] := by
      rw [ccnbHdr_eq, hdiv, septets_septetsValue hxs hhead (Nat.le_refl _), lastByte_read hb,
        List.reverse_reverse]
    have hlen := Nat.le_trans (List.length_take_le k (y :: ys)) hk
    rw [htake, ← heq] at hlen
    exact ⟨htake.trans heq.symm, length_hdr_le.mp hlen, hlt b⟩

/-- `ccnl_ccnb_mkHeader` adds the number of the bytes to `*retlen` and writes the bytes, whenever there
is room. -/
def MakesHeader (num tt : Nat) (bs : List UInt8) : Prop :=
  ∀ buf bufend retlen log, buf + bs.length < bufend →
    OnStore.ccnbMkHeader buf bufend num tt retlen log = .ok (retlen + bs.length) (log ++ places buf bs)

theorem makesHeader_hdr : MakesHeader num tt (ccnbHdr num tt) := fun _ _ _ log h =>
  (OnStore.ccnbMkHeader_lays rfl rfl).done h log

/-- A header that is written is no end marker and is read back, whatever follows it. And bytes that
are read as a header, but for an end marker, are those that are written for it. -/
theorem ccnb_header_roundtrip :
    (∀ num < 2 ^ 53, ∀ tt < 8, ∃ b bs, b ≠ 0 ∧ MakesHeader num tt (b :: bs) ∧ ∀ before rest,
      ccnbDehead (before ++ ((b :: bs) ++ rest)) ⟨before.length, (b :: bs).length + rest.length⟩ =
        .ok (some ((num, tt), ⟨before.length + (b :: bs).length, rest.length⟩))) ∧
    (∀ mem c num tt c', c.pos + c.len ≤ mem.length → mem[c.pos]? ≠ some 0 →
      ccnbDehead mem c = .ok (some ((num, tt), c')) →
        num < 2 ^ 53 ∧ tt < 8 ∧ ∃ len ≤ c.len, c' = ⟨c.pos + len, c.len - len⟩ ∧
          MakesHeader num tt ((mem.drop c.pos).take len)) := by
  refine ⟨fun num hnum tt htt => ?_, fun mem c num tt c' hlim hfirst he => ?_⟩
  · obtain ⟨b, bs, hbs, hb⟩ := @hdr_first num tt htt
    refine ⟨b, bs, hb, hbs ▸ makesHeader_hdr, fun before rest => ?_⟩
    rw [← hbs, ccnbDehead_eq (by simp only [List.length_append]; omega), List.drop_left,
      List.take_of_length_le (by simp only [List.length_append]; omega), ccnbHeader_hdr htt hnum]
    simp only [Option.map_some, Nat.add_sub_cancel_left]
  · rw [ccnbDehead_eq hlim] at he
    obtain ⟨⟨h, len⟩, hhead, heq⟩ := Option.map_eq_some_iff.mp (Except.ok.inj he)
    cases heq
    obtain ⟨-, hsize⟩ := ccnbHeader_size hhead
    rw [List.length_take] at hsize
    obtain ⟨hbs, hnum, htt⟩ := hdr_of_ccnbHeader hhead fun h => hfirst (by
      rw [List.head?_take, List.head?_drop] at h
      split at h
      · cases h
      · exact h)
    rw [List.take_take, Nat.min_eq_left (by omega)] at hbs
    exact ⟨hnum, htt, len, by omega, rfl, hbs ▸ makesHeader_hdr⟩

/-- Headers on both sides of the first border between two lengths, and one read from the bytes. -/
theorem ccnb_header_roundtrip_border :
    (∃ b bs, b ≠ 0 ∧ MakesHeader 15 2 (b :: bs) ∧ ∀ before rest,
      ccnbDehead (before ++ ((b :: bs) ++ rest)) ⟨before.length, (b :: bs).length + rest.length⟩ =
        .ok (some ((15, 2), ⟨before.length + (b :: bs).length, rest.length⟩))) ∧
      16 < 2 ^ 53 ∧ 2 < 8 ∧ ∃ len ≤ 3, (⟨2, 1⟩ : Cursor) = ⟨0 + len, 3 - len⟩ ∧
        MakesHeader 16 2 (([0x01, 0x82, 0x00].drop 0).take len) :=
  ⟨ccnb_header_roundtrip.1 15 (by decide) 2 (by decide),
    ccnb_header_roundtrip.2 [0x01, 0x82, 0x00] ⟨0, 3⟩ 16 2 ⟨2, 1⟩ (by decide) (by decide) (by decide)⟩

end Header

/-! ## Packets -/

/-- The packet has the name that was given. -/
def CcnbNamed (name : Prefix) (pkt : Pkt) : Prop :=
  ∃ q, pkt.pfx = some q ∧ q.comps = name.comps

structure CcnbSameInterest (name : Prefix) (nonce : Option UInt32) (pkt : Pkt) : Prop where
  name : CcnbNamed name pkt
  nonce : pkt.ccnb.nonce = nonce.map wordBytes

structure CcnbSameContent (name : Prefix) (payload : List UInt8) (pkt : Pkt) : Prop where
  name : CcnbNamed name pkt
  content : ∃ c, pkt.content = some c ∧ c.bytes pkt.buf = payload

section Packet

variable {mem : List UInt8} {name : Prefix} {nonce : Option UInt32} {payload : List UInt8}
  {start p r : Nat} {s : CcnbState}

/-- The variables of the parser after the Name of a packet. -/
def ccnbNamedState (start p : Nat) (name : Prefix) : CcnbState :=
  CcnbState.withName { pkt := ccnbPkt } (start + (p - start)) (p + (ccnbNameBytes name).length)
    (ccnbSpans (p + (ccnbHdr ccnDtagName ccnTtDtag).length) name.comps)

/-- The packet that the parser makes of its variables at the end of the loop. -/
theorem ccnbBytes2pkt_of_top {spans : List Span} {s : CcnbState}
    (h : ccnbTop mem start p { pkt := ccnbPkt } = .ok (behind mem r, s))
    (hs : s.comp = spans.map some) (hr : r ≤ mem.length) :
    ccnbBytes2pkt mem start (behind mem p) =
      .ok ((s.finish spans).rebase start ((mem.drop start).take (r - start)), behind mem r) := by
  have hbuf : rdBytes mem start (r - start) = .ok ((mem.drop start).take (r - start)) :=
    rdBytes_eq_ok.mpr ⟨by unfold InBuf; omega, rfl⟩
  unfold ccnbBytes2pkt
  rw [show loop _ _ _ = _ from h, ok_bind]
  dsimp only
  rw [show (behind mem r).pos = r from rfl, hbuf, ok_bind, mapM_handedOut.mpr hs]
  rfl

/-- A packet that the parser returns comes from the end of the packet loop. -/
theorem top_of_ccnbBytes2pkt {pkt : Pkt} {c : Cursor}
    (h : ccnbBytes2pkt mem start (behind mem p) = .ok (pkt, c)) :
    ∃ s, ccnbTop mem start p { pkt := ccnbPkt } = .ok (c, s) := by
  obtain ⟨⟨c₁, s⟩, htop, h⟩ := (bind_eq_ok _ _ _).mp h
  obtain ⟨buf, -, h⟩ := (bind_eq_ok _ _ _).mp h
  obtain ⟨comp, -, h⟩ := (bind_eq_ok _ _ _).mp h
  cases h
  exact ⟨s, htop⟩

/-- The components of a packet, from their bytes in the receive buffer. -/
theorem ccnbNamed_finish (h : At mem p (ccnbNameBytes name)) (hp : start ≤ p)
    (hr : p + (ccnbNameBytes name).length ≤ r) (s : CcnbState) :
    CcnbNamed name ((s.finish (ccnbSpans (p + (ccnbHdr ccnDtagName ccnTtDtag).length)
      name.comps)).rebase start ((mem.drop start).take (r - start))) := by
  refine ⟨_, rfl, ?_⟩
  have hlen : (ccnbNameBytes name).length = (ccnbHdr ccnDtagName ccnTtDtag).length +
      ((ccnbComps name.comps).length + 1) := by
    rw [ccnbNameBytes, List.length_append, List.length_append, List.length_singleton]
  refine (map_bytes_rebase fun sp hsp => ?_).trans
    (bytes_ccnbSpans (at_append.mp (at_append.mp h).2).1)
  exact (within_ccnbSpans sp hsp).mono (by omega) (by omega)

/-! ## Interests -/

/-- The variables of the parser after an Interest. -/
def ccnbInterestState (start p : Nat) (name : Prefix) (nonce : Option UInt32) : CcnbState :=
  { ccnbNamedState start p name with
    pkt := ccnbPkt.setCcnb { ccnbPkt.ccnb with nonce := nonce.map wordBytes } }

/-- The packet loop over an Interest ends behind it when every component is short, and no header
comes behind a Nonce. -/
theorem top_ccnbInterest (hn : name.compcnt ≤ maxNameComp)
    (h : At mem p (ccnbInterestElems name nonce)) :
    ccnbTop mem start p { pkt := ccnbPkt } =
        .ok (behind mem (p + (ccnbInterestElems name nonce).length), s) ↔
      (∀ v ∈ name.comps, v.length < 2 ^ 53) ∧
        (nonce ≠ none →
          ccnbHeader (mem.drop (p + (ccnbInterestElems name nonce).length)) = none) ∧
        s = ccnbInterestState start p name nonce := by
  have hle := h.le (List.append_ne_nil_of_right_ne_nil _
    (List.append_ne_nil_of_right_ne_nil _ (List.cons_ne_nil _ _)))
  obtain ⟨hname, hrest⟩ := at_append.mp h
  have hlen : p + (ccnbInterestElems name nonce).length =
      p + (ccnbNameBytes name).length + (ccnbNonce nonce ++ [0]).length := by
    rw [ccnbInterestElems, List.length_append, Nat.add_assoc]
  rw [hlen] at hle ⊢
  rw [top_ccnbName hname rfl hn, and_congr_right_iff]
  intro _
  cases nonce with
  | none =>
    rw [top_end_ccnb hrest]
    simp only [ne_eq, not_true_eq_false, false_implies, true_and, Except.ok.injEq, Prod.mk.injEq]
    exact ⟨fun h => h.2.symm, fun h => ⟨rfl, h.symm⟩⟩
  | some w =>
    have hfield : ccnbNonce (some w) ++ [0] = ccnbField1 ccnDtagNonce (wordBytes w) :=
      List.append_assoc _ _ _
    rw [hfield] at hrest hle ⊢
    rw [top_ccnbNonce hrest rfl, top_stays hle]
    simp only [ne_eq, reduceCtorEq, not_false_eq_true, forall_const]
    rfl

/-- The parser on an Interest that was written. -/
theorem parse_ccnbInterest (hn : name.compcnt ≤ maxNameComp) (hp : start ≤ p)
    (h : At mem p (ccnbInterestElems name nonce)) :
    (∃ pkt, ccnbBytes2pkt mem start (behind mem p) =
        .ok (pkt, behind mem (p + (ccnbInterestElems name nonce).length)) ∧
      CcnbSameInterest name nonce pkt) ↔
      (∀ v ∈ name.comps, v.length < 2 ^ 53) ∧
        (nonce ≠ none →
          ccnbHeader (mem.drop (p + (ccnbInterestElems name nonce).length)) = none) := by
  constructor
  · rintro ⟨pkt, hparse, -⟩
    obtain ⟨s, htop⟩ := top_of_ccnbBytes2pkt hparse
    obtain ⟨hshort, hclosed, -⟩ := (top_ccnbInterest hn h).mp htop
    exact ⟨hshort, hclosed⟩
  · rintro ⟨hshort, hclosed⟩
    have htop := (@top_ccnbInterest mem name nonce start p _ hn h).mpr ⟨hshort, hclosed, rfl⟩
    have hle := h.le (List.append_ne_nil_of_right_ne_nil _
      (List.append_ne_nil_of_right_ne_nil _ (List.cons_ne_nil _ _)))
    refine ⟨_, ccnbBytes2pkt_of_top htop rfl hle, ?_, rfl⟩
    refine ccnbNamed_finish (at_append.mp h).1 hp ?_ _
    rw [ccnbInterestElems, List.length_append]
    omega

/-! ## Content objects -/

/-- The packet loop over a content object ends behind it when the components and the payload are
short. -/
theorem top_ccnbContentElems (hn : name.compcnt ≤ maxNameComp)
    (h : At mem p (ccnbContentElems name payload)) :
    ccnbTop mem start p { pkt := ccnbPkt } =
        .ok (behind mem (p + (ccnbContentElems name payload).length), s) ↔
      ((∀ v ∈ name.comps, v.length < 2 ^ 53) ∧ payload.length < 2 ^ 53) ∧
        s = { ccnbNamedState start p name with pkt := { ccnbPkt with
          content := some (blobSpan (p + (ccnbNameBytes name).length +
            (ccnbHdr ccnDtagContent ccnTtDtag).length) payload) } } := by
  obtain ⟨hname, hrest⟩ := at_append.mp h
  obtain ⟨hcontent, hend⟩ := at_append.mp hrest
  have hlen : p + (ccnbContentElems name payload).length =
      p + (ccnbNameBytes name).length + (ccnbField1 ccnDtagContent payload).length + 1 := by
    rw [ccnbContentElems, List.length_append, List.length_append, List.length_singleton]
    omega
  rw [hlen, top_ccnbName hname rfl hn, top_ccnbContent hcontent, top_end_ccnb hend, and_assoc,
    Except.ok.injEq, Prod.mk.injEq, and_iff_right rfl, eq_comm]
  rfl

/-- The parser on a content object that was written. -/
theorem parse_ccnbContent (hn : name.compcnt ≤ maxNameComp) (hp : start ≤ p)
    (h : At mem p (ccnbContentElems name payload)) :
    (∃ pkt, ccnbBytes2pkt mem start (behind mem p) =
        .ok (pkt, behind mem (p + (ccnbContentElems name payload).length)) ∧
      CcnbSameContent name payload pkt) ↔
      (∀ v ∈ name.comps, v.length < 2 ^ 53) ∧ payload.length < 2 ^ 53 := by
  constructor
  · rintro ⟨pkt, hparse, -⟩
    obtain ⟨s, htop⟩ := top_of_ccnbBytes2pkt hparse
    exact ((top_ccnbContentElems hn h).mp htop).1
  · intro hshort
    have htop := (@top_ccnbContentElems mem name payload start p _ hn h).mpr ⟨hshort, rfl⟩
    have hle := h.le (List.append_ne_nil_of_right_ne_nil _
      (List.append_ne_nil_of_right_ne_nil _ (List.cons_ne_nil _ _)))
    obtain ⟨hname, hrest⟩ := at_append.mp h
    obtain ⟨-, hblob⟩ := at_field1.mp (at_append.mp hrest).1
    have hlen : p + (ccnbContentElems name payload).length = p + (ccnbNameBytes name).length +
        (ccnbHdr ccnDtagContent ccnTtDtag).length + (ccnbBlob payload).length + 2 := by
      simp only [ccnbContentElems, ccnbField1, List.length_append, List.length_singleton]
      omega
    refine ⟨_, ccnbBytes2pkt_of_top htop rfl hle, ccnbNamed_finish hname hp (by omega) _, _, rfl, ?_⟩
    refine (bytes_rebase ?_).trans (bytes_blobSpan (at_append.mp hblob).1)
    exact (blobSpan_within _ _).mono (by omega) (by omega)

end Packet

/-! ## Both -/

/-- A packet with an outer tag of two bytes, between other bytes. -/
theorem at_ccnbPacket {hdr : List UInt8} (hhdr : hdr.length = 2) (before elems after : List UInt8) :
    let mem := before ++ ((hdr ++ elems) ++ after)
    At mem (before.length + 2) elems ∧
      behind mem (before.length + 2) =
        ⟨before.length + 2, (hdr ++ elems).length - 2 + after.length⟩ ∧
      behind mem (before.length + 2 + elems.length) =
        ⟨before.length + (hdr ++ elems).length, after.length⟩ ∧
      mem.drop (before.length + 2 + elems.length) = after := by
  intro mem
  have hmem : mem = (before ++ hdr) ++ (elems ++ after) := by simp only [mem, List.append_assoc]
  have hlen : (before ++ hdr).length = before.length + 2 := by rw [List.length_append, hhdr]
  have htotal : mem.length = before.length + 2 + elems.length + after.length := by
    rw [hmem, List.length_append, hlen, List.length_append, ← Nat.add_assoc]
  rw [List.length_append, hhdr, behind, behind, htotal]
  refine ⟨?_, ?_, ?_, ?_⟩
  · rw [hmem, ← hlen]
    exact at_mid _ _ _
  · congr 1
    omega
  · congr 1 <;> omega
  · rw [hmem, ← hlen, ← List.length_append, ← List.append_assoc, List.drop_left]

/-- An Interest or a content object that was written comes back from the parser, which stops behind
it, exactly when no length is lost and no header comes behind a Nonce. -/
theorem ccnb_roundtrip_iff {name : Prefix} (hn : name.compcnt ≤ maxNameComp) (bufend : Nat)
    (out : Front) (before after : List UInt8) :
    (∀ nonce o retlen, ccnbFillInterest name nonce bufend out = .ok (o, retlen) →
      let written := (o.mem.drop out.pos).take retlen
      ((∃ pkt, ccnbBytes2pkt (before ++ (written ++ after)) before.length
          ⟨before.length + 2, retlen - 2 + after.length⟩ =
            .ok (pkt, ⟨before.length + retlen, after.length⟩) ∧
        CcnbSameInterest name nonce pkt) ↔
        (∀ v ∈ name.comps, v.length < 2 ^ 53) ∧ (nonce ≠ none → ccnbHeader after = none))) ∧
    (∀ payload o contentpos retlen,
      ccnbFillContent name payload bufend out = .ok (o, contentpos, retlen) →
      let written := (o.mem.drop out.pos).take retlen
      ((∃ pkt, ccnbBytes2pkt (before ++ (written ++ after)) before.length
          ⟨before.length + 2, retlen - 2 + after.length⟩ =
            .ok (pkt, ⟨before.length + retlen, after.length⟩) ∧
        CcnbSameContent name payload pkt) ↔
        (∀ v ∈ name.comps, v.length < 2 ^ 53) ∧ payload.length < 2 ^ 53)) := by
  refine ⟨fun nonce o retlen h => ?_, fun payload o contentpos retlen h => ?_⟩
  · obtain ⟨hwrote, rfl⟩ := ccnbFillInterest_wrote h
    obtain ⟨hat, hstart, hstop, hdrop⟩ :=
      at_ccnbPacket (show (ccnbHdr ccnDtagInterest ccnTtDtag).length = 2 from rfl) before
        (ccnbInterestElems name nonce) after
    have hparse := parse_ccnbInterest hn (Nat.le_add_right before.length 2) hat
    rw [hstart, hstop, hdrop] at hparse
    rw [hwrote.at_pos.take]
    exact hparse
  · obtain ⟨hwrote, rfl⟩ := ccnbFillContent_wrote h
    obtain ⟨hat, hstart, hstop, -⟩ :=
      at_ccnbPacket (show (ccnbHdr ccnDtagContentobj ccnTtDtag).length = 2 from rfl) before
        (ccnbContentElems name payload) after
    have hparse := parse_ccnbContent hn (Nat.le_add_right before.length 2) hat
    rw [hstart, hstop] at hparse
    rw [hwrote.at_pos.take]
    exact hparse

/-- The name /a. -/
def uriA : Prefix := { mem := [97], comp := [⟨0, 1⟩], suite := .ccnb }

/-- An Interest for /a with the Nonce 1, in a buffer of 32 bytes. -/
def wroteCcnbInterest : Front :=
  ⟨[0x01, 0xd2, 0xf2, 0xfa, 0x8d, 97, 0, 0, 0x02, 0xca, 0xa5, 1, 0, 0, 0, 0] ++
    List.replicate 16 0, 16⟩

theorem ccnb_roundtrip_a :
    (∃ pkt, ccnbBytes2pkt ([] ++ (wroteCcnbInterest.mem.take 16 ++ [])) 0 ⟨2, 14⟩ =
        .ok (pkt, ⟨16, 0⟩) ∧ CcnbSameInterest uriA (some 1) pkt) ↔
      (∀ v ∈ uriA.comps, v.length < 2 ^ 53) ∧ (some (1 : UInt32) ≠ none → ccnbHeader [] = none) :=
  (ccnb_roundtrip_iff (by decide) 32 ⟨List.replicate 32 0, 0⟩ [] []).1 (some 1) wroteCcnbInterest 16
    (by decide +kernel)

/-- Two Interests with a Nonce, one after the other: the parser of the first goes on in the second,
and fails. -/
theorem ccnb_interest_runs_on :
    (uriA.compcnt ≤ maxNameComp ∧ ccnbFillInterest uriA (some 1) 32 ⟨List.replicate 32 0, 0⟩ =
      .ok (wroteCcnbInterest, 16)) ∧
      ¬ ∃ pkt, ccnbBytes2pkt (wroteCcnbInterest.mem.take 16 ++ wroteCcnbInterest.mem.take 16) 0
          ⟨2, 30⟩ = .ok (pkt, ⟨16, 16⟩) ∧ CcnbSameInterest uriA (some 1) pkt := by
  refine ⟨by decide +kernel, fun ⟨pkt, hparse, _⟩ => ?_⟩
  have hfails : (ccnbBytes2pkt (wroteCcnbInterest.mem.take 16 ++ wroteCcnbInterest.mem.take 16) 0
      ⟨2, 30⟩).toOption.isNone = true := by
    decide +kernel
  rw [hparse] at hfails
  cases hfails

end Ccnl
