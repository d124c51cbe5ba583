import CcnLite.Pkt.CcnbDecode

/-!
# CCNB packets that are cut off

The main loop of `ccnl_ccnb_bytes2pkt` ends at an end marker, and it ends as well where there is no
header; the code does not ask which. So a packet is taken that stops between two of its elements, or
in a header there. In a blob it is not looked for the end of the buffer at all.
`accepts_complete_iff` says which bytes are only taken as a complete packet, and where the packets
of the encoder can be cut off without being refused.
-/

namespace Ccnl

open CRun Relation

/-! ## The main loop -/

/-- The main loop of `ccnl_ccnb_bytes2pkt`. -/
def ccnbLoop (mem : List UInt8) (start : Nat) (c : Cursor) : Run (Cursor × CcnbState) :=
  loop (ccnbStep mem start) (c.len + 1) (c, { pkt := ccnbPkt })

section Leads

variable (mem : List UInt8) (lim : Nat)

/-- The packet from `p` on is closed: complete elements lead to its end marker, before `p'`. -/
def PacketClosed (p p' : Nat) : Prop :=
  ∃ t, ReflTransGen (PacketPass mem lim) (p, {}) t ∧ CcnbAt mem lim t.1 0 0 p'

/-- At every place that complete elements lead to, `R` holds and the element there is confined. -/
def Leads (R : Nat → Prop) (s : Nat × CcnbMemo) : Prop :=
  ∀ t, ReflTransGen (PacketPass mem lim) s t → PacketFine mem lim t ∧ R t.1

/-- There is a header at `p`, perhaps an end marker. -/
def HeaderAt (p : Nat) : Prop := ∃ num typ q, CcnbAt mem lim p num typ q

/-- There is the header of an element at `p`. -/
def ElemAt (p : Nat) : Prop := ∃ num typ q, CcnbAt mem lim p num typ q ∧ ¬ IsEnd num typ

end Leads

/-- The parser takes a closed packet only: either it refuses the bytes, or its main loop comes to the
end marker that closes the packet. -/
def AcceptsClosed (mem : List UInt8) (start : Nat) (c : Cursor) : Prop :=
  ccnbBytes2pkt mem start c = .error .bail ∨
    ∃ c' s, ccnbLoop mem start c = .ok (c', s) ∧
      PacketClosed mem (c.pos + c.len) c.pos c'.pos

section Loop

variable {mem : List UInt8} {lim start : Nat} {c c' : Cursor} {pkt : Pkt} {R : Nat → Prop}
  {s t : Nat × CcnbMemo}

/-- A run gives up where its first part does, or the rest. -/
theorem bind_eq_bail {α β : Type} {x : Run α} {f : α → Run β} :
    (x >>= f) = .error .bail ↔ x = .error .bail ∨ ∃ a, x = .ok a ∧ f a = .error .bail := by
  cases x with
  | ok a => simp
  | error e => simp

/-- A component without a value is not a reason to refuse a packet. -/
theorem mapM_handedOut_ne_bail (l : List (Option Span)) : l.mapM handedOut ≠ .error .bail := by
  induction l with
  | nil => exact fun h => nomatch h
  | cons v l ih =>
    rw [List.mapM_cons]
    cases v with
    | none => exact fun h => nomatch h
    | some sp =>
      show (l.mapM handedOut >>= fun vs => pure (sp :: vs)) ≠ _
      cases hl : l.mapM handedOut with
      | ok vs => exact fun h => nomatch h
      | error e => exact fun h => ih (hl.trans h)

/-- The parser refuses the bytes when the loop gives up. -/
theorem ccnbBytes2pkt_bail_iff : ccnbBytes2pkt mem start c = .error .bail ↔
    ccnbLoop mem start c = .error .bail := by
  have hdef : ccnbBytes2pkt mem start c = (ccnbLoop mem start c >>= fun r =>
      rdBytes mem start (r.1.pos - start) >>= fun buf => r.2.comp.mapM handedOut >>= fun comp =>
        pure ((r.2.finish comp).rebase start buf, r.1)) := rfl
  rw [hdef, bind_eq_bail]
  refine or_iff_left ?_
  rintro ⟨r, -, h⟩
  rcases bind_eq_bail.mp h with hbuf | ⟨buf, -, h⟩
  · unfold rdBytes at hbuf
    split at hbuf <;> exact nomatch hbuf
  rcases bind_eq_bail.mp h with hcomp | ⟨comp, -, h⟩
  · exact mapM_handedOut_ne_bail _ hcomp
  · exact nomatch h

/-- A packet that is returned is closed, then. -/
theorem AcceptsClosed.closed (h : AcceptsClosed mem start c)
    (hpkt : ccnbBytes2pkt mem start c = .ok (pkt, c')) :
    PacketClosed mem (c.pos + c.len) c.pos c'.pos := by
  obtain ⟨⟨c₁, s⟩, hloop, hpkt⟩ := (bind_eq_ok _ _ _).mp hpkt
  obtain ⟨buf, -, hpkt⟩ := (bind_eq_ok _ _ _).mp hpkt
  obtain ⟨comp, -, hpkt⟩ := (bind_eq_ok _ _ _).mp hpkt
  cases hpkt
  rcases h with hbail | ⟨c₂, s₂, hok, hclosed⟩
  · exact nomatch (ccnbBytes2pkt_bail_iff.mp hbail).symm.trans hloop
  · cases hok.symm.trans hloop
    exact hclosed

theorem safe_ccnbLoop (hl : c.pos + c.len ≤ mem.length) : Safe (ccnbLoop mem start c) ↔
    ∀ t, ReflTransGen (PacketPass mem (c.pos + c.len)) (c.pos, {}) t →
      PacketFine mem (c.pos + c.len) t :=
  loop_safe_iff_map (fun u : Cursor × CcnbState => (u.1.pos, u.2.memo))
    (I := fun u => u.1.pos + u.1.len = c.pos + c.len)
    (fun _ _ hi hs => (ccnbStep_again hi hl hs).2)
    (fun _ _ hi hs => (ccnbStep_again hi hl hs).1)
    (fun _ t hi hp => by
      obtain ⟨s', hs', hm⟩ := ccnbStep_of_pass hi hl hp
      exact ⟨_, hs', Prod.ext rfl hm⟩)
    (fun _ hi => safe_ccnbStep hi hl) (m := fun u => u.1.len)
    (fun _ _ hi hs => ccnbStep_lt hi hl hs) (Nat.lt_succ_self _) rfl

/-- The loop is left where the packet ends. -/
theorem ccnbLoop_leaves (hl : c.pos + c.len ≤ mem.length) {p' : Nat}
    (ht : ReflTransGen (PacketPass mem (c.pos + c.len)) (c.pos, {}) t)
    (hend : PacketEndAt mem (c.pos + c.len) t.1 p') (hp : p' ≤ c.pos + c.len) :
    ∃ u, Reached (ccnbStep mem start) (c, { pkt := ccnbPkt }) u ∧ (u.1.pos, u.2.memo) = t ∧
      ccnbStep mem start u = .ok (.inr (⟨p', c.pos + c.len - p'⟩, u.2)) ∧
      ccnbLoop mem start c = .ok (⟨p', c.pos + c.len - p'⟩, u.2) := by
  obtain ⟨u, hu, rfl⟩ := (@packet_reaches mem c start { pkt := ccnbPkt } _ hl).mpr ht
  have hsum : p' + (c.pos + c.len - p') = c.pos + c.len := by omega
  refine ⟨u, hu, rfl, (ccnbStep_leaves (packet_limit hl hu) hl).mpr ⟨hend, rfl, hsum⟩, ?_⟩
  exact (packetLoop_eq_ok hl).mpr ⟨u.1, hu, hend, hsum⟩

theorem safe_bail {α : Type} : Safe (.error .bail : Run α) := fun _ h => (Except.error.inj h).symm

/-- A safe run that is not left gives up. -/
theorem eq_bail {α : Type} {r : Run α} (hsafe : Safe r) (h : ∀ a, r ≠ .ok a) : r = .error .bail := by
  cases r with
  | ok a => exact absurd rfl (h a)
  | error e => rw [hsafe e rfl]

theorem walk_le (h : ReflTransGen (PacketPass mem lim) s t) (hs : s.1 ≤ lim) : t.1 ≤ lim := by
  induction h with
  | refl => exact hs
  | tail _ hp _ => exact hp.le.2

/-- The loop gives up exactly when it always finds another element and comes to no end. -/
theorem ccnbLoop_bail_iff (hl : c.pos + c.len ≤ mem.length) : ccnbLoop mem start c = .error .bail ↔
    Leads mem (c.pos + c.len) (ElemAt mem (c.pos + c.len)) (c.pos, {}) := by
  constructor
  · intro h t ht
    have hsafe : Safe (ccnbLoop mem start c) := by
      rw [h]
      exact safe_bail
    refine ⟨(safe_ccnbLoop hl).mp hsafe t ht, by_contra fun hno => ?_⟩
    have hend : ∃ p' ≤ c.pos + c.len, PacketEndAt mem (c.pos + c.len) t.1 p' := by
      by_cases hhead : HeaderAt mem (c.pos + c.len) t.1
      · obtain ⟨num, typ, q, hat⟩ := hhead
        have hisEnd : IsEnd num typ := by_contra fun he => hno ⟨num, typ, q, hat, he⟩
        obtain ⟨rfl, rfl⟩ := hisEnd
        exact ⟨q, hat.lt.2.1, .inl hat⟩
      · exact ⟨t.1, walk_le ht (Nat.le_add_right _ _), .inr ⟨fun num typ q hat =>
          hhead ⟨num, typ, q, hat⟩, rfl⟩⟩
    obtain ⟨p', hp', hend⟩ := hend
    obtain ⟨u, -, -, -, hok⟩ := @ccnbLoop_leaves mem start c t hl p' ht hend hp'
    exact nomatch h.symm.trans hok
  · intro h
    refine eq_bail ((safe_ccnbLoop hl).mpr fun t ht => (h t ht).1) ?_
    rintro ⟨c', s⟩ hok
    obtain ⟨u, hu, hend, -⟩ := (packetLoop_eq_ok hl).mp hok
    obtain ⟨num, typ, q, hat, he⟩ := (h _ ((packet_reaches hl).mp ⟨_, hu, rfl⟩)).2
    rcases hend with hmark | ⟨hnone, -⟩
    · obtain ⟨rfl, rfl, -⟩ := hat.unique hmark
      exact he ⟨rfl, rfl⟩
    · exact hnone _ _ _ hat

/-- The parser takes closed packets only, exactly when it always finds another header. -/
theorem acceptsClosed_iff (hl : c.pos + c.len ≤ mem.length) : AcceptsClosed mem start c ↔
    Leads mem (c.pos + c.len) (HeaderAt mem (c.pos + c.len)) (c.pos, {}) := by
  constructor
  · intro h t ht
    have hsafe : Safe (ccnbLoop mem start c) := by
      rcases h with hbail | ⟨c', s, hok, -⟩
      · rw [ccnbBytes2pkt_bail_iff.mp hbail]
        exact safe_bail
      · rw [hok]
        exact safe_ok _
    refine ⟨(safe_ccnbLoop hl).mp hsafe t ht, by_contra fun hno => ?_⟩
    have hend : PacketEndAt mem (c.pos + c.len) t.1 t.1 :=
      .inr ⟨fun num typ q hat => hno ⟨num, typ, q, hat⟩, rfl⟩
    obtain ⟨u, hu, rfl, hleave, hok⟩ := @ccnbLoop_leaves mem start c t hl t.1 ht hend
      (walk_le ht (Nat.le_add_right _ _))
    rcases h with hbail | ⟨c', s, hok', t', ht', hmark⟩
    · exact nomatch (ccnbBytes2pkt_bail_iff.mp hbail).symm.trans hok
    -- both places end the loop, so they are one
    obtain ⟨v, hv, rfl, hleave', -⟩ := @ccnbLoop_leaves mem start c t' hl c'.pos ht' (.inl hmark)
      hmark.lt.2.1
    have huv : u = v := by
      rcases ReflTransGen.cases_head (hu.before_leaving hv hleave') with rfl | ⟨w, hw, -⟩
      · rfl
      · exact nomatch hleave.symm.trans hw
    subst huv
    exact hno ⟨_, _, _, hmark⟩
  · intro h
    have hsafe : Safe (ccnbLoop mem start c) := (safe_ccnbLoop hl).mpr fun t ht => (h t ht).1
    by_cases hok : ∃ a, ccnbLoop mem start c = .ok a
    · obtain ⟨⟨c', s⟩, hok⟩ := hok
      obtain ⟨u, hu, hend, -⟩ := (packetLoop_eq_ok hl).mp hok
      have hwalk := (packet_reaches hl).mp ⟨_, hu, rfl⟩
      rcases hend with hmark | ⟨hnone, -⟩
      · exact .inr ⟨c', s, hok, _, hwalk, hmark⟩
      · obtain ⟨num, typ, q, hat⟩ := (h _ hwalk).2
        exact absurd hat (hnone _ _ _)
    · exact .inl (ccnbBytes2pkt_bail_iff.mpr (eq_bail hsafe fun a ha => hok ⟨a, ha⟩))

end Loop

/-! ## One element after the other -/

section Unroll

variable {mem : List UInt8} {lim : Nat} {R : Nat → Prop} {s t : Nat × CcnbMemo}

theorem leads_iff : Leads mem lim R s ↔
    (PacketFine mem lim s ∧ R s.1) ∧ ∀ t, PacketPass mem lim s t → Leads mem lim R t := by
  constructor
  · exact fun h => ⟨h s .refl, fun t ht u hu => h u (.head ht hu)⟩
  · rintro ⟨hs, hnext⟩ t ht
    rcases ReflTransGen.cases_head ht with rfl | ⟨u, hu, hut⟩
    · exact hs
    · exact hnext u hu t hut

/-- Where the element is the last one that is read. -/
theorem leads_of_stuck (hstuck : ∀ t, ¬ PacketPass mem lim s t) :
    Leads mem lim R s ↔ PacketFine mem lim s ∧ R s.1 := by
  rw [leads_iff]
  exact and_iff_left fun t ht => absurd ht (hstuck t)

/-- Where the element is complete. -/
theorem leads_of_pass (hpass : ∀ u, PacketPass mem lim s u ↔ u = t) (hfine : PacketFine mem lim s)
    (hR : R s.1) : Leads mem lim R s ↔ Leads mem lim R t := by
  rw [leads_iff]
  constructor
  · exact fun h => h.2 t ((hpass t).mpr rfl)
  · intro h
    refine ⟨⟨hfine, hR⟩, fun u hu => ?_⟩
    rw [(hpass u).mp hu]
    exact h

end Unroll

/-! ## Bytes that are cut off -/

/-- From `p` to the end of the memory there are the first bytes of `xs`, but not all of them. -/
def CutAt (mem : List UInt8) (p : Nat) (xs : List UInt8) : Prop :=
  ∃ n < xs.length, mem.drop p = xs.take n ∧ mem.length = p + n

section Cut

variable {mem xs ys bs : List UInt8} {p num tt k : Nat}

theorem CutAt.lt (h : CutAt mem p xs) : p ≤ mem.length ∧ mem.length < p + xs.length := by
  obtain ⟨n, hn, -, hlen⟩ := h
  omega

/-- What is cut off in two pieces is cut off in the first or in the second. -/
theorem cutAt_append : CutAt mem p (xs ++ ys) ↔
    CutAt mem p xs ∨ At mem p xs ∧ CutAt mem (p + xs.length) ys := by
  constructor
  · rintro ⟨n, hn, hdrop, hlen⟩
    rw [List.length_append] at hn
    by_cases h : n < xs.length
    · rw [List.take_append_of_le_length (Nat.le_of_lt h)] at hdrop
      exact .inl ⟨n, h, hdrop, hlen⟩
    · rw [List.take_append, List.take_of_length_le (Nat.not_lt.mp h)] at hdrop
      refine .inr ⟨⟨_, hdrop.symm⟩, n - xs.length, by omega, ?_, by omega⟩
      rw [← List.drop_drop, hdrop, List.drop_left]
  · rintro (⟨n, hn, hdrop, hlen⟩ | ⟨⟨t, ht⟩, n, hn, hdrop, hlen⟩)
    · refine ⟨n, by rw [List.length_append]; omega, ?_, hlen⟩
      rw [List.take_append_of_le_length (Nat.le_of_lt hn)]
      exact hdrop
    · rw [← List.drop_drop, ← ht, List.drop_left] at hdrop
      refine ⟨xs.length + n, by rw [List.length_append]; omega, ?_, by omega⟩
      rw [← ht, hdrop, List.take_length_add_append]

theorem cutAt_take {k : Nat} (h : k < xs.length) : CutAt (xs.take k) 0 xs :=
  ⟨k, h, rfl, by rw [List.length_take]; omega⟩

/-- A header that is cut off is none. -/
theorem not_headerAt_cut (h : CutAt mem p (ccnbHdr num tt)) (ht : tt < 8) :
    ¬ HeaderAt mem mem.length p := by
  obtain ⟨n, hn, hdrop, -⟩ := h
  rintro ⟨num', typ', q, hat⟩
  obtain ⟨k, hk, -⟩ := ccnbAt_iff.mp hat
  have hsep : (ccnbHdr num tt).take n = (ccnbSeptets (num >>> 4) (num >>> 4)).reverse.take n := by
    rw [ccnbHdr_eq, List.length_append, List.length_singleton] at hn
    rw [ccnbHdr_eq, List.take_append_of_le_length (by omega)]
  obtain ⟨y, ys, hy, h0⟩ := @hdr_first num tt ht
  rw [hdrop] at hk
  cases n with
  | zero => exact nomatch hk
  | succ n =>
    rw [hy, List.take_succ_cons, ccnbHeader_first h0, ← List.take_succ_cons, ← hy, hsep,
      ccnbNumber_none fun b hb => lt_of_mem_septets (List.mem_reverse.mp
        (List.mem_of_mem_take (List.mem_of_mem_take hb)))] at hk
    exact nomatch hk

theorem not_headerAt_end (h : CutAt mem p [0]) : ¬ HeaderAt mem mem.length p := by
  rintro ⟨num, typ, q, hat⟩
  have := h.lt
  have := hat.lt
  rw [List.length_singleton] at *
  omega

theorem not_hunts_of_no_header (h : ¬ HeaderAt mem mem.length p) {q : Nat} {r : Option Span} :
    ¬ Hunts mem mem.length p q r := fun hunts => h <| by
  cases hunts with
  | fin hat => exact ⟨_, _, _, hat⟩
  | blob hat => exact ⟨_, _, _, hat⟩
  | elem hat => exact ⟨_, _, _, hat⟩

theorem not_overruns_of_no_header (h : ¬ HeaderAt mem mem.length p) :
    ¬ Overruns mem mem.length p := fun hover => h <| by
  cases hover with
  | here hat => exact ⟨_, _, _, hat⟩
  | blob hat => exact ⟨_, _, _, hat⟩
  | inside hat => exact ⟨_, _, _, hat⟩
  | elem hat => exact ⟨_, _, _, hat⟩

/-- A packet that ends after `k` bytes ends in the bytes of a blob at `p`, behind a header that can be
read. -/
def InBlob (k p : Nat) (bs : List UInt8) : Prop :=
  bs.length < 2 ^ 53 ∧ p + (ccnbHdr bs.length ccnTtBlob).length ≤ k ∧ k < p + (ccnbBlob bs).length

instance (k p : Nat) (bs : List UInt8) : Decidable (InBlob k p bs) := inferInstanceAs (Decidable (_ ∧ _))

/-- The memory from `p` on starts with `xs`, or `xs` is cut off there. -/
def Starts (mem : List UInt8) (p : Nat) (xs : List UInt8) : Prop := At mem p xs ∨ CutAt mem p xs

theorem starts_append : Starts mem p (xs ++ ys) ↔
    CutAt mem p xs ∨ At mem p xs ∧ Starts mem (p + xs.length) ys := by
  unfold Starts
  rw [at_append, cutAt_append]
  constructor
  · rintro (⟨hxs, hys⟩ | hxs | ⟨hxs, hys⟩)
    · exact .inr ⟨hxs, .inl hys⟩
    · exact .inl hxs
    · exact .inr ⟨hxs, .inr hys⟩
  · rintro (hxs | ⟨hxs, hys | hys⟩)
    · exact .inr (.inl hxs)
    · exact .inl ⟨hxs, hys⟩
    · exact .inr (.inr ⟨hxs, hys⟩)

/-- A blob with an end marker overruns when it is cut off in its bytes. -/
theorem overruns_blob (h : Starts mem p (ccnbBlob bs ++ [0])) :
    Overruns mem mem.length p ↔ InBlob mem.length p bs := by
  have hlen : p + (ccnbBlob bs).length = p + (ccnbHdr bs.length ccnTtBlob).length + bs.length := by
    rw [ccnbBlob, List.length_append, Nat.add_assoc]
  rw [InBlob, hlen]
  rw [ccnbBlob, List.append_assoc, starts_append] at h
  rcases h with hcut | ⟨hhdr, hrest⟩
  · have := hcut.lt
    exact iff_of_false (not_overruns_of_no_header (not_headerAt_cut hcut (by decide))) (by omega)
  by_cases hn : bs.length < 2 ^ 53
  swap
  · have hno : ¬ HeaderAt mem mem.length p := fun hat => by
      obtain ⟨num, typ, q, hat⟩ := hat
      exact not_ccnbAt_hdr hhdr (by decide) (Nat.not_lt.mp hn) _ _ _ hat
    exact iff_of_false (not_overruns_of_no_header hno) fun h => hn h.1
  have hat := ccnbAt_hdr hhdr (by decide) hn
  have hq := hat.lt
  have hmark : ¬ Overruns mem mem.length (p + (ccnbHdr bs.length ccnTtBlob).length + bs.length) := by
    rcases starts_append.mp hrest with hcut | ⟨-, hend | hend⟩
    · have := hcut.lt
      exact fun hover => by
        have hle : HeaderAt mem mem.length
            (p + (ccnbHdr bs.length ccnTtBlob).length + bs.length) := by
          by_contra hno
          exact not_overruns_of_no_header hno hover
        obtain ⟨_, _, _, hat'⟩ := hle
        have := hat'.lt
        omega
    · exact not_overruns_of_isEnd (ccnbAt_end hend) ⟨rfl, rfl⟩
    · exact not_overruns_of_no_header (not_headerAt_end hend)
  rw [overruns_iff hat]
  simp only [SkipOverruns, IsBlob, IsOpen, skips_blob]
  constructor
  · rintro ((⟨-, hlt⟩ | ⟨hopen, -⟩) | ⟨q', r, ⟨-, rfl, -⟩, hover⟩)
    · exact ⟨hn, hq.2.1, hlt⟩
    · exact absurd hopen (by decide)
    · exact absurd hover hmark
  · exact fun hin => .inl (.inl ⟨.inl trivial, hin.2.2⟩)

/-- A blob that is cut off has no end. -/
theorem not_hunts_blob_cut (h : CutAt mem p (ccnbBlob bs ++ [0])) {q : Nat} {r : Option Span} :
    ¬ Hunts mem mem.length p q r := by
  have hlt := h.lt
  rw [ccnbBlob, List.append_assoc, cutAt_append] at h
  rcases h with hcut | ⟨hhdr, hrest⟩
  · exact not_hunts_of_no_header (not_headerAt_cut hcut (by decide))
  by_cases hn : bs.length < 2 ^ 53
  swap
  · refine not_hunts_of_no_header fun hat => ?_
    obtain ⟨num, typ, q, hat⟩ := hat
    exact not_ccnbAt_hdr hhdr (by decide) (Nat.not_lt.mp hn) _ _ _ hat
  have hat := ccnbAt_hdr hhdr (by decide) hn
  rw [hunts_iff_of_not_isEnd hat (not_isEnd_of_blob (.inl rfl))]
  rintro ⟨q', r₁, r₂, hskip, hrest', -⟩
  obtain ⟨-, rfl, -⟩ := skips_blob.mp hskip
  have := hrest'.lt
  rw [List.length_append, ccnbBlob, List.length_append, List.length_singleton] at hlt
  omega

end Cut

/-! ## Names that are cut off -/

/-- A packet that ends after `k` bytes ends in the blob of a component that the parser comes to. The
components are at `p`. -/
def InComps (k : Nat) : Nat → List (List UInt8) → Prop
  | _, [] => False
  | p, v :: vs => InBlob k (p + (ccnbHdr ccnDtagComponent ccnTtDtag).length) v ∨
      v.length < 2 ^ 53 ∧ InComps k (p + (ccnbField1 ccnDtagComponent v).length) vs

instance decidableInComps (k : Nat) : ∀ p vs, Decidable (InComps k p vs)
  | _, [] => inferInstanceAs (Decidable False)
  | p, v :: vs =>
    have := decidableInComps k (p + (ccnbField1 ccnDtagComponent v).length) vs
    inferInstanceAs (Decidable (_ ∨ _ ∧ _))

section Name

variable {mem v : List UInt8} {vs : List (List UInt8)} {p k : Nat} {comp : List (Option Span)}
  {u : Nat × List (Option Span)}

theorem InComps.le (h : InComps k p vs) : p ≤ k := by
  induction vs generalizing p with
  | nil => exact h.elim
  | cons v vs ih =>
    rcases h with ⟨-, hle, -⟩ | ⟨-, h⟩
    · omega
    · have := ih h
      omega

theorem InComps.lt (h : InComps k p vs) : k < p + (ccnbComps vs).length := by
  induction vs generalizing p with
  | nil => exact h.elim
  | cons v vs ih =>
    rw [ccnbComps_cons, List.length_append]
    rcases h with ⟨-, -, hlt⟩ | ⟨-, h⟩
    · rw [length_field1, List.length_append]
      omega
    · have := ih h
      omega

theorem nameConfined_iff {lim : Nat} {s : Nat × List (Option Span)} : NameConfined mem lim s ↔
    NameFine mem lim s ∧ ∀ t, NamePass mem lim s t → NameConfined mem lim t := by
  constructor
  · exact fun h => ⟨h s .refl, fun t ht w hw => h w (.head ht hw)⟩
  · rintro ⟨hs, hnext⟩ t ht
    rcases ReflTransGen.cases_head ht with rfl | ⟨w, hw, hwt⟩
    · exact hs
    · exact hnext w hw t hwt

theorem nameEnds_iff {lim : Nat} {s t : Nat × List (Option Span)} : NameEnds mem lim s t ↔
    CcnbAt mem lim s.1 0 0 t.1 ∧ t.2 = s.2 ∨ ∃ w, NamePass mem lim s w ∧ NameEnds mem lim w t := by
  constructor
  · rintro ⟨w, hw, hend⟩
    rcases ReflTransGen.cases_head hw with rfl | ⟨x, hx, hxw⟩
    · exact .inl hend
    · exact .inr ⟨x, hx, w, hxw, hend⟩
  · rintro (hend | ⟨w, hw, x, hx, hend⟩)
    · exact ⟨s, .refl, hend⟩
    · exact ⟨x, .head hw hx, hend⟩

/-- The components after one more; a Name keeps so many. -/
def takenIn (comp : List (Option Span)) (r : Option Span) : List (Option Span) :=
  if comp.length < maxNameComp then comp ++ [r] else comp

/-- A component, also one too many, goes to its end marker. -/
theorem namePass_comp (h : At mem p (ccnbHdr ccnDtagComponent ccnTtDtag)) :
    NamePass mem mem.length (p, comp) u ↔
      ∃ r, Hunts mem mem.length (p + (ccnbHdr ccnDtagComponent ccnTtDtag).length) u.1 r ∧
        u.2 = takenIn comp r := by
  have hat := ccnbAt_hdr h (by decide) (by decide)
  have hne : ¬ IsEnd ccnDtagComponent ccnTtDtag := not_isEnd_of_open (.inl rfl)
  unfold NamePass takenIn
  rw [hat.exists_iff, and_iff_right hne]
  have hcomp : IsCcnbComponent ccnDtagComponent ccnTtDtag comp.length ↔ comp.length < maxNameComp :=
    and_iff_right ⟨rfl, rfl⟩
  simp only [hcomp]
  by_cases hlt : comp.length < maxNameComp
  · simp only [if_pos hlt]
  · simp only [if_neg hlt, Skips, IsBlob, IsOpen]
    simp [ccnTtDtag, ccnTtBlob, ccnTtUdata]

theorem nameFine_comp (h : At mem p (ccnbHdr ccnDtagComponent ccnTtDtag)) :
    NameFine mem mem.length (p, comp) ↔
      ¬ Overruns mem mem.length (p + (ccnbHdr ccnDtagComponent ccnTtDtag).length) := by
  have hat := ccnbAt_hdr h (by decide) (by decide)
  have hne : ¬ IsEnd ccnDtagComponent ccnTtDtag := not_isEnd_of_open (.inl rfl)
  unfold NameFine
  rw [hat.forall_iff]
  simp only [hne, not_false_eq_true, forall_const, SkipOverruns, IsBlob, IsOpen]
  simp [ccnTtDtag, ccnTtBlob, ccnTtUdata]

theorem not_namePass_of_no_header (h : ¬ HeaderAt mem mem.length p) :
    ¬ NamePass mem mem.length (p, comp) u := fun ⟨_, _, _, hat, _⟩ => h ⟨_, _, _, hat⟩

theorem nameFine_of_no_header (h : ¬ HeaderAt mem mem.length p) :
    NameFine mem mem.length (p, comp) := fun _ _ _ hat => absurd ⟨_, _, _, hat⟩ h

theorem nameConfined_of_stuck (hfine : NameFine mem mem.length (p, comp))
    (hstuck : ∀ u, ¬ NamePass mem mem.length (p, comp) u) : NameConfined mem mem.length (p, comp) :=
  nameConfined_iff.mpr ⟨hfine, fun u hu => absurd hu (hstuck u)⟩

/-- A Name is confined when it is not cut off in a blob. -/
theorem nameConfined_comps (h : Starts mem p (ccnbComps vs ++ [0])) :
    NameConfined mem mem.length (p, comp) ↔ ¬ InComps mem.length p vs := by
  induction vs generalizing p comp with
  | nil =>
    refine iff_of_true ?_ id
    rcases h with hend | hcut
    · have hat := ccnbAt_end hend
      refine nameConfined_of_stuck (fun num typ q hat' he => ?_) ?_
      · exact absurd ⟨(hat'.unique hat).1, (hat'.unique hat).2.1⟩ he
      · rintro u ⟨num, typ, q, hat', he, -⟩
        exact he ⟨(hat'.unique hat).1, (hat'.unique hat).2.1⟩
    · have hno := not_headerAt_end hcut
      exact nameConfined_of_stuck (nameFine_of_no_header hno) fun u => not_namePass_of_no_header hno
  | cons v vs ih =>
    rw [ccnbComps_cons, List.append_assoc, ccnbField1, List.append_assoc, starts_append] at h
    rcases h with hcut | ⟨hhdr, hrest⟩
    · have hno := not_headerAt_cut hcut (by decide)
      have hlt := hcut.lt
      refine iff_of_true (nameConfined_of_stuck (nameFine_of_no_header hno)
        fun u => not_namePass_of_no_header hno) ?_
      rintro (⟨-, hle, -⟩ | ⟨-, hin⟩)
      · omega
      · have := hin.le
        rw [length_field1] at this
        omega
    have hfield : p + (ccnbHdr ccnDtagComponent ccnTtDtag).length + (ccnbBlob v ++ [0]).length =
        p + (ccnbField1 ccnDtagComponent v).length := by rw [length_field1, Nat.add_assoc]
    rcases starts_append.mp hrest with hcut | ⟨hblob, hrest⟩
    · have hlt := hcut.lt
      have hout : ¬ InComps mem.length (p + (ccnbField1 ccnDtagComponent v).length) vs := fun hin => by
        have := hin.le
        omega
      have hstuck : ∀ u, ¬ NamePass mem mem.length (p, comp) u := fun u hu => by
        obtain ⟨r, hr, -⟩ := (namePass_comp hhdr).mp hu
        exact not_hunts_blob_cut hcut hr
      have hfine := @nameFine_comp mem p comp hhdr
      rw [overruns_blob (.inr hcut)] at hfine
      rw [InComps, not_or, ← hfine, and_iff_left fun h => hout h.2]
      exact ⟨fun h => (nameConfined_iff.mp h).1, fun h => nameConfined_of_stuck h hstuck⟩
    · have hle := hblob.le (List.append_ne_nil_of_right_ne_nil _ (List.cons_ne_nil _ _))
      have hnotIn : ¬ InBlob mem.length (p + (ccnbHdr ccnDtagComponent ccnTtDtag).length) v := by
        rintro ⟨-, -, hlt⟩
        rw [List.length_append] at hle
        omega
      have hfine : NameFine mem mem.length (p, comp) :=
        (nameFine_comp hhdr).mpr fun hover => hnotIn ((overruns_blob (.inl hblob)).mp hover)
      rw [hfield] at hrest
      rw [nameConfined_iff, and_iff_right hfine, InComps, or_iff_right hnotIn]
      constructor
      · rintro h ⟨hshort, hin⟩
        have hruns := (hunts_blob hblob).mpr ⟨hshort, rfl, rfl⟩
        rw [hfield] at hruns
        exact (ih hrest).mp (h (_, takenIn comp _) ((namePass_comp hhdr).mpr ⟨_, hruns, rfl⟩)) hin
      · rintro h ⟨q, comp'⟩ hu
        obtain ⟨r, hr, -⟩ := (namePass_comp hhdr).mp hu
        obtain ⟨hshort, hq, -⟩ := (hunts_blob hblob).mp hr
        obtain rfl : q = p + (ccnbField1 ccnDtagComponent v).length := hq.trans hfield
        exact (ih hrest).mpr fun hin => h ⟨hshort, hin⟩

/-- A Name ends where it was written to end, when its components are short. -/
theorem nameEnds_written (h : At mem p (ccnbComps vs ++ [0])) (comp : List (Option Span)) :
    ∃ comp', ∀ t, NameEnds mem mem.length (p, comp) t ↔
      (∀ v ∈ vs, v.length < 2 ^ 53) ∧ t = (p + (ccnbComps vs ++ [0]).length, comp') := by
  induction vs generalizing p comp with
  | nil =>
    have hat := ccnbAt_end h
    refine ⟨comp, fun t => ?_⟩
    have hstuck : ¬ ∃ w, NamePass mem mem.length (p, comp) w ∧ NameEnds mem mem.length w t := by
      rintro ⟨w, ⟨num, typ, q, hat', he, -⟩, -⟩
      exact he ⟨(hat'.unique hat).1, (hat'.unique hat).2.1⟩
    rw [nameEnds_iff, or_iff_left hstuck, and_iff_right fun v hv => nomatch hv]
    constructor
    · exact fun ht => Prod.ext (ht.1.unique hat).2.2 ht.2
    · rintro rfl
      exact ⟨hat, rfl⟩
  | cons v vs ih =>
    rw [ccnbComps_cons, List.append_assoc] at h
    obtain ⟨hv, hvs⟩ := at_append.mp h
    obtain ⟨hhdr, hblob⟩ := at_field1.mp hv
    have hat := ccnbAt_hdr hhdr (by decide) (by decide)
    have hfield : p + (ccnbHdr ccnDtagComponent ccnTtDtag).length + (ccnbBlob v ++ [0]).length =
        p + (ccnbField1 ccnDtagComponent v).length := by rw [length_field1, Nat.add_assoc]
    obtain ⟨comp', hends⟩ := ih hvs (takenIn comp
      (some (blobSpan (p + (ccnbHdr ccnDtagComponent ccnTtDtag).length) v)))
    refine ⟨comp', fun t => ?_⟩
    have hnotEnd : ¬ (CcnbAt mem mem.length p 0 0 t.1 ∧ t.2 = comp) := fun hend =>
      nomatch (hat.unique hend.1).2.1
    rw [nameEnds_iff, or_iff_right hnotEnd, List.forall_mem_cons, ccnbComps_cons, List.append_assoc,
      List.length_append, ← Nat.add_assoc, and_assoc, ← hends]
    constructor
    · rintro ⟨⟨q, c⟩, hpass, hrest⟩
      obtain ⟨r, hr, rfl⟩ := (namePass_comp hhdr).mp hpass
      obtain ⟨hshort, hq, rfl⟩ := (hunts_blob hblob).mp hr
      obtain rfl : q = p + (ccnbField1 ccnDtagComponent v).length := hq.trans hfield
      exact ⟨hshort, hrest⟩
    · rintro ⟨hshort, hrest⟩
      refine ⟨_, (namePass_comp hhdr).mpr ⟨_, ?_, rfl⟩, hrest⟩
      exact (hunts_blob hblob).mpr ⟨hshort, hfield.symm, rfl⟩

/-- A Name that is cut off does not end. -/
theorem not_nameEnds_cut (h : CutAt mem p (ccnbComps vs ++ [0])) (comp : List (Option Span))
    (t : Nat × List (Option Span)) : ¬ NameEnds mem mem.length (p, comp) t := by
  induction vs generalizing p comp with
  | nil =>
    have hno := not_headerAt_end h
    rw [nameEnds_iff]
    rintro (⟨hat, -⟩ | ⟨w, hw, -⟩)
    · exact hno ⟨_, _, _, hat⟩
    · exact not_namePass_of_no_header hno hw
  | cons v vs ih =>
    rw [ccnbComps_cons, List.append_assoc, ccnbField1, List.append_assoc, cutAt_append] at h
    rw [nameEnds_iff]
    rcases h with hcut | ⟨hhdr, hrest⟩
    · have hno := not_headerAt_cut hcut (by decide)
      rintro (⟨hat, -⟩ | ⟨w, hw, -⟩)
      · exact hno ⟨_, _, _, hat⟩
      · exact not_namePass_of_no_header hno hw
    have hat := ccnbAt_hdr hhdr (by decide) (by decide)
    rintro (⟨hend, -⟩ | ⟨⟨q, c⟩, hpass, hends⟩)
    · exact nomatch (hat.unique hend).2.1
    obtain ⟨r, hr, -⟩ := (namePass_comp hhdr).mp hpass
    rcases cutAt_append.mp hrest with hcut | ⟨hblob, hrest⟩
    · exact not_hunts_blob_cut hcut hr
    · obtain ⟨-, hq, -⟩ := (hunts_blob hblob).mp hr
      obtain rfl := hq
      exact ih hrest _ hends

end Name

/-! ## Packets that are cut off -/

section Packet

variable {mem bs : List UInt8} {name : Prefix} {p num : Nat} {m : CcnbMemo} {u : Nat × CcnbMemo}

theorem packetPass_hdr (h : At mem p (ccnbHdr num ccnTtDtag)) (hn : num < 2 ^ 53) :
    PacketPass mem mem.length (p, m) u ↔
      ElemTaken mem mem.length num (p + (ccnbHdr num ccnTtDtag).length) m u.1 u.2 := by
  have hat := ccnbAt_hdr h (by decide) hn
  have hne : ¬ IsEnd num ccnTtDtag := not_isEnd_of_open (.inl rfl)
  unfold PacketPass
  rw [hat.exists_iff, and_iff_right hne, if_pos rfl]

theorem packetFine_hdr (h : At mem p (ccnbHdr num ccnTtDtag)) (hn : num < 2 ^ 53) :
    PacketFine mem mem.length (p, m) ↔
      ElemFine mem mem.length num (p + (ccnbHdr num ccnTtDtag).length) m := by
  have hat := ccnbAt_hdr h (by decide) hn
  have hne : ¬ IsEnd num ccnTtDtag := not_isEnd_of_open (.inl rfl)
  unfold PacketFine
  rw [hat.forall_iff]
  simp only [hne, not_false_eq_true, forall_const, if_pos]

theorem elemAt_hdr (h : At mem p (ccnbHdr num ccnTtDtag)) (hn : num < 2 ^ 53) :
    ElemAt mem mem.length p :=
  ⟨_, _, _, ccnbAt_hdr h (by decide) hn, not_isEnd_of_open (.inl rfl)⟩

theorem not_leads_of_no_header (h : ¬ HeaderAt mem mem.length p) :
    ¬ Leads mem mem.length (ElemAt mem mem.length) (p, m) := fun hleads => by
  obtain ⟨num, typ, q, hat, -⟩ := (hleads _ .refl).2
  exact h ⟨num, typ, q, hat⟩

/-- A packet that ends in its Name is refused where the Name has begun and no blob is cut off. -/
theorem leads_name_cut (h : CutAt mem p (ccnbNameBytes name)) :
    Leads mem mem.length (ElemAt mem mem.length) (p, m) ↔ p ≠ mem.length ∧
      ¬ InComps mem.length (p + (ccnbHdr ccnDtagName ccnTtDtag).length) name.comps := by
  have hone : (ccnbHdr ccnDtagName ccnTtDtag).length = 1 := by decide
  rcases cutAt_append.mp h with hcut | ⟨hhdr, hrest⟩
  · have := hcut.lt
    exact iff_of_false (not_leads_of_no_header (not_headerAt_cut hcut (by decide))) fun h => h.1 (by omega)
  have hle := hrest.lt.1
  have hstuck : ∀ u, ¬ PacketPass mem mem.length (p, m) u := fun u hu => by
    obtain ⟨comp, hends, -⟩ := (packetPass_hdr hhdr (by decide)).mp hu
    exact not_nameEnds_cut hrest _ _ hends
  rw [leads_of_stuck hstuck, and_iff_left (elemAt_hdr hhdr (by decide)),
    packetFine_hdr hhdr (by decide), and_iff_right (show p ≠ mem.length by omega)]
  exact nameConfined_comps (.inr hrest)

/-- Behind a Name the parser goes on, when its components are short. -/
theorem leads_name (h : At mem p (ccnbNameBytes name)) (m : CcnbMemo) : ∃ m' : CcnbMemo,
    m'.nonce = m.nonce ∧ (Leads mem mem.length (ElemAt mem mem.length) (p, m) ↔
      ((∀ v ∈ name.comps, v.length < 2 ^ 53) →
        Leads mem mem.length (ElemAt mem mem.length) (p + (ccnbNameBytes name).length, m'))) := by
  obtain ⟨hhdr, hcomps⟩ := at_append.mp h
  obtain ⟨comp, hends⟩ := nameEnds_written hcomps m.comp
  have hle := hcomps.le (List.append_ne_nil_of_right_ne_nil _ (List.cons_ne_nil _ _))
  have hlen : p + (ccnbHdr ccnDtagName ccnTtDtag).length + (ccnbComps name.comps ++ [0]).length =
      p + (ccnbNameBytes name).length := by
    rw [ccnbNameBytes, @List.length_append _ (ccnbHdr _ _) _, Nat.add_assoc]
  have hfine : PacketFine mem mem.length (p, m) := (packetFine_hdr hhdr (by decide)).mpr <|
    (nameConfined_comps (.inl hcomps)).mpr fun hin => by
      have := hin.lt
      rw [List.length_append] at hle
      omega
  have hpass : ∀ u, PacketPass mem mem.length (p, m) u ↔ (∀ v ∈ name.comps, v.length < 2 ^ 53) ∧
      u = (p + (ccnbNameBytes name).length, { m with comp := comp }) := fun u => by
    rw [packetPass_hdr hhdr (by decide)]
    change (∃ comp', NameEnds _ _ _ (u.1, comp') ∧ u.2 = { m with comp := comp' }) ↔ _
    simp only [hends, hlen, Prod.mk.injEq]
    constructor
    · rintro ⟨comp', ⟨hshort, hu, rfl⟩, hm⟩
      exact ⟨hshort, Prod.ext hu hm⟩
    · rintro ⟨hshort, rfl⟩
      exact ⟨comp, ⟨hshort, rfl, rfl⟩, rfl⟩
  refine ⟨{ m with comp := comp }, rfl, ?_⟩
  by_cases hshort : ∀ v ∈ name.comps, v.length < 2 ^ 53
  · rw [leads_of_pass (fun u => (hpass u).trans (and_iff_right hshort)) hfine
      (elemAt_hdr hhdr (by decide)), forall_prop_of_true hshort]
  · rw [leads_of_stuck fun u hu => hshort ((hpass u).mp hu).1]
    exact iff_of_true ⟨hfine, elemAt_hdr hhdr (by decide)⟩ fun h => absurd h hshort

/-- An element with a blob that is looked at: the payload, or a first Nonce. -/
def TakesBlob (num : Nat) (m : CcnbMemo) : Prop :=
  ccnDtag num = .content ∨ ccnDtag num = .nonce ∧ m.nonce = false

theorem elemTaken_blob (hnum : TakesBlob num m) {q : Nat} (h : ElemTaken mem mem.length num q m u.1 u.2) :
    ∃ r, Hunts mem mem.length q u.1 r := by
  unfold ElemTaken at h
  rcases hnum with hnum | ⟨hnum, -⟩ <;> rw [hnum] at h
  · exact h.1
  · obtain ⟨⟨r, hr, -⟩, -⟩ := h
    exact ⟨r, hr⟩

theorem elemFine_blob (hnum : TakesBlob num m) {q : Nat}
    (hr : ∀ q' r, Hunts mem mem.length q q' r → r.isSome) :
    ElemFine mem mem.length num q m ↔ ¬ Overruns mem mem.length q := by
  unfold ElemFine
  rcases hnum with hnum | ⟨hnum, -⟩ <;> rw [hnum]
  exact and_iff_left fun _ => hr

/-- A packet that ends in such an element is refused behind its header, when no blob is cut off. -/
theorem leads_field_cut (h : CutAt mem p (ccnbField1 num bs)) (hnum : TakesBlob num m)
    (hn : num < 2 ^ 53) : Leads mem mem.length (ElemAt mem mem.length) (p, m) ↔
      p + (ccnbHdr num ccnTtDtag).length ≤ mem.length ∧
        ¬ InBlob mem.length (p + (ccnbHdr num ccnTtDtag).length) bs := by
  rcases cutAt_append.mp h with hcut | ⟨hhdr, hblob⟩
  · have := hcut.lt
    exact iff_of_false (not_leads_of_no_header (not_headerAt_cut hcut (by decide))) fun h => by omega
  have hstuck : ∀ u, ¬ PacketPass mem mem.length (p, m) u := fun u hu => by
    obtain ⟨r, hr⟩ := elemTaken_blob hnum ((packetPass_hdr hhdr hn).mp hu)
    exact not_hunts_blob_cut hblob hr
  rw [leads_of_stuck hstuck, and_iff_left (elemAt_hdr hhdr hn), packetFine_hdr hhdr hn,
    elemFine_blob hnum fun q' r hr => absurd hr (not_hunts_blob_cut hblob),
    overruns_blob (.inr hblob), and_iff_right hblob.lt.1]

/-- Behind the payload the parser goes on, when it is short. -/
theorem leads_content (h : At mem p (ccnbField1 ccnDtagContent bs)) (m : CcnbMemo) :
    Leads mem mem.length (ElemAt mem mem.length) (p, m) ↔ (bs.length < 2 ^ 53 →
      Leads mem mem.length (ElemAt mem mem.length)
        (p + (ccnbField1 ccnDtagContent bs).length, m)) := by
  obtain ⟨hhdr, hblob⟩ := at_field1.mp h
  have hle := hblob.le (List.append_ne_nil_of_right_ne_nil _ (List.cons_ne_nil _ _))
  have hfine : PacketFine mem mem.length (p, m) := by
    rw [packetFine_hdr hhdr (by decide)]
    change ¬ Overruns _ _ _
    rw [overruns_blob (.inl hblob)]
    rintro ⟨-, -, hlt⟩
    rw [List.length_append] at hle
    omega
  have hpass : ∀ u, PacketPass mem mem.length (p, m) u ↔ bs.length < 2 ^ 53 ∧
      u = (p + (ccnbField1 ccnDtagContent bs).length, m) := fun u => by
    rw [packetPass_hdr hhdr (by decide)]
    change (∃ r, Hunts _ _ _ u.1 r) ∧ u.2 = m ↔ _
    simp only [hunts_blob hblob, length_field1, ← Nat.add_assoc]
    constructor
    · rintro ⟨⟨r, hshort, hu, -⟩, hm⟩
      exact ⟨hshort, Prod.ext hu hm⟩
    · rintro ⟨hshort, rfl⟩
      exact ⟨⟨_, hshort, rfl, rfl⟩, rfl⟩
  by_cases hshort : bs.length < 2 ^ 53
  · rw [leads_of_pass (fun u => (hpass u).trans (and_iff_right hshort)) hfine
      (elemAt_hdr hhdr (by decide)), forall_prop_of_true hshort]
  · rw [leads_of_stuck fun u hu => hshort ((hpass u).mp hu).1]
    exact iff_of_true ⟨hfine, elemAt_hdr hhdr (by decide)⟩ fun h => absurd h hshort

end Packet

/-! ## Both -/

/-- The first `k` bytes of a packet are refused: there is no header for a packet, or the parser gives
up. -/
def CutRefused (bs : List UInt8) (k : Nat) : Prop :=
  ccnbDehead (bs.take k) ⟨0, (bs.take k).length⟩ = .ok none ∨
    ∃ h c, ccnbDehead (bs.take k) ⟨0, (bs.take k).length⟩ = .ok (some (h, c)) ∧
      ccnbBytes2pkt (bs.take k) (c.pos - 2) c = .error .bail

/-- Where a Name behind the outer header ends, and where it can be cut off without a refusal: in
front of it, and in the blobs of its components. -/
def behindName (name : Prefix) : Nat := 2 + (ccnbNameBytes name).length

def CutInName (name : Prefix) (k : Nat) : Prop :=
  k = 2 ∨ InComps k (2 + (ccnbHdr ccnDtagName ccnTtDtag).length) name.comps

/-- The same for an element at `e` with a blob: in front of it, in its header, and in the blob. -/
def CutInField (num : Nat) (bs : List UInt8) (e k : Nat) : Prop :=
  e ≤ k ∧ k < e + (ccnbHdr num ccnTtDtag).length ∨ InBlob k (e + (ccnbHdr num ccnTtDtag).length) bs

def ShortComps (name : Prefix) : Prop := ∀ v ∈ name.comps, v.length < 2 ^ 53

/-- Where an Interest can be cut off without a refusal. -/
def InterestCut (name : Prefix) (nonce : Option UInt32) (k : Nat) : Prop :=
  CutInName name k ∨ ShortComps name ∧
    match nonce with
    | none => behindName name ≤ k
    | some w => CutInField ccnDtagNonce (wordBytes w) (behindName name) k

/-- Where a content object can be. -/
def ContentCut (name : Prefix) (data : List UInt8) (k : Nat) : Prop :=
  CutInName name k ∨ ShortComps name ∧
    (CutInField ccnDtagContent data (behindName name) k ∨
      data.length < 2 ^ 53 ∧ behindName name + (ccnbField1 ccnDtagContent data).length ≤ k)

section Cuts

variable {mem rest : List UInt8} {name : Prefix} {num k : Nat} {G : Prop}

/-- The bytes behind an outer header of two bytes are refused when the main loop gives up. -/
theorem cutRefused_iff_leads {bs : List UInt8} (hlen : (ccnbHdr num ccnTtDtag).length = 2)
    (hn : num < 2 ^ 53) (hat : At (bs.take k) 0 (ccnbHdr num ccnTtDtag))
    (hle : 2 ≤ (bs.take k).length) : CutRefused bs k ↔
      Leads (bs.take k) (bs.take k).length (ElemAt (bs.take k) (bs.take k).length) (2, {}) := by
  have hhdr := ccnbAt_hdr hat (by decide) hn
  rw [hlen] at hhdr
  have hdehead : ccnbDehead (bs.take k) ⟨0, (bs.take k).length⟩ =
      .ok (some ((num, ccnTtDtag), ⟨2, (bs.take k).length - 2⟩)) := by
    have := @CcnbAt.dehead (bs.take k) ⟨0, (bs.take k).length⟩ num ccnTtDtag 2
      (Nat.le_of_eq (Nat.zero_add _)) (by simpa only [Nat.zero_add] using hhdr)
    simpa only [Nat.zero_add] using this
  have hlim : 2 + ((bs.take k).length - 2) = (bs.take k).length := by omega
  have hbail := @ccnbLoop_bail_iff (bs.take k) 0 ⟨2, (bs.take k).length - 2⟩ (Nat.le_of_eq hlim)
  simp only [hlim] at hbail
  unfold CutRefused
  rw [hdehead, ← hbail, ← ccnbBytes2pkt_bail_iff]
  constructor
  · rintro (h | ⟨h, c, he, hrun⟩)
    · exact nomatch h
    · cases he
      exact hrun
  · exact fun h => .inr ⟨_, _, rfl, h⟩

/-- A packet with an outer header of two bytes and a Name: it is refused when it is not cut off where
the Name can be, and what is behind the Name is refused. -/
theorem cutRefused_iff (hlen : (ccnbHdr num ccnTtDtag).length = 2) (hn : num < 2 ^ 53)
    (hk : k < (ccnbHdr num ccnTtDtag ++ (ccnbNameBytes name ++ rest)).length)
    (hGk : G → behindName name ≤ k)
    (hG : ∀ (mem : List UInt8) (m : CcnbMemo), mem.length = k → m.nonce = false →
      CutAt mem (behindName name) rest →
      (Leads mem mem.length (ElemAt mem mem.length) (behindName name, m) ↔ ¬ G)) :
    CutRefused (ccnbHdr num ccnTtDtag ++ (ccnbNameBytes name ++ rest)) k ↔
      ¬ (CutInName name k ∨ ShortComps name ∧ G) := by
  have hcut := cutAt_take hk
  have hmem := List.length_take_of_le (Nat.le_of_lt hk)
  have hname : 2 < behindName name := by
    rw [behindName, ccnbNameBytes, List.length_append, List.length_append, List.length_singleton]
    omega
  have hone : (ccnbHdr ccnDtagName ccnTtDtag).length = 1 := by decide
  rcases cutAt_append.mp hcut with hhead | ⟨hat, helems⟩
  · have hno := not_headerAt_cut hhead (by decide)
    have hlt := hhead.lt
    rw [hmem, hlen] at hlt
    refine iff_of_true (.inl ((ccnbDehead_eq_none (Nat.le_of_eq (Nat.zero_add _))).mpr ?_)) ?_
    · simp only [Nat.zero_add]
      exact fun num typ q hat => hno ⟨num, typ, q, hat⟩
    · rintro ((rfl | hin) | ⟨-, hg⟩)
      · omega
      · have := hin.le
        omega
      · have := hGk hg
        omega
  rw [hlen, Nat.zero_add] at helems
  have hle := helems.lt.1
  rw [cutRefused_iff_leads hlen hn hat hle]
  rcases cutAt_append.mp helems with hcutName | ⟨hatName, hrest⟩
  · have hlt := hcutName.lt
    rw [hmem] at hlt
    have hnotG : ¬ G := fun hg => by
      have := hGk hg
      unfold behindName at this
      omega
    rw [leads_name_cut hcutName, hmem, CutInName, or_iff_left fun h => hnotG h.2, not_or, eq_comm]
  · have hge := hrest.lt.1
    rw [hmem] at hge
    obtain ⟨m', hnonce, hleads⟩ := leads_name hatName {}
    have hnotIn : ¬ CutInName name k := by
      rintro (rfl | hin)
      · exact absurd hge (Nat.not_le.mpr hname)
      · have := hin.lt
        rw [ccnbNameBytes, List.length_append, List.length_append, List.length_singleton] at hge
        omega
    rw [hleads, or_iff_right hnotIn, not_and]
    change (ShortComps name → Leads _ _ _ (behindName name, m')) ↔ _
    rw [hG _ m' hmem hnonce hrest]

theorem interestCut_iff {nonce : Option UInt32} (hk : k < (ccnbInterest name nonce).length) :
    CutRefused (ccnbInterest name nonce) k ↔ ¬ InterestCut name nonce k := by
  cases nonce with
  | none =>
    refine cutRefused_iff (by decide) (by decide) hk id fun mem m hmem hnonce hcut => ?_
    have := hcut.lt
    rw [hmem] at this
    exact iff_of_false (not_leads_of_no_header (not_headerAt_end hcut)) fun h => h this.1
  | some w =>
    refine cutRefused_iff (by decide) (by decide) hk ?_ fun mem m hmem hnonce hcut => ?_
    · rintro (h | ⟨-, h, -⟩)
      · exact h.1
      · omega
    · have hfield : ccnbNonce (some w) ++ [0] = ccnbField1 ccnDtagNonce (wordBytes w) :=
        List.append_assoc _ _ _
      rw [hfield] at hcut
      have hlt := hcut.lt
      rw [hmem] at hlt
      show _ ↔ ¬ CutInField ccnDtagNonce (wordBytes w) (behindName name) k
      rw [leads_field_cut hcut (.inr ⟨rfl, hnonce⟩) (by decide), hmem, CutInField, not_or]
      refine and_congr_left fun _ => ?_
      omega

theorem contentCut_iff {data : List UInt8} (hk : k < (ccnbContent name data).length) :
    CutRefused (ccnbContent name data) k ↔ ¬ ContentCut name data k := by
  refine cutRefused_iff (by decide) (by decide) hk ?_ fun mem m hmem hnonce hcut => ?_
  · rintro ((h | ⟨-, h, -⟩) | ⟨-, h⟩)
    · exact h.1
    · omega
    · omega
  have hge := hcut.lt.1
  rw [hmem] at hge
  rcases cutAt_append.mp hcut with hfield | ⟨hat, hend⟩
  · have hlt := hfield.lt
    rw [hmem] at hlt
    have hnot : ¬ (data.length < 2 ^ 53 ∧
        behindName name + (ccnbField1 ccnDtagContent data).length ≤ k) := fun h => by omega
    rw [or_iff_left hnot, leads_field_cut hfield (.inl rfl) (by decide), hmem, CutInField, not_or]
    refine and_congr_left fun _ => ?_
    omega
  · have hle := hend.lt.1
    have hlen := length_field1 ccnDtagContent data
    rw [List.length_append] at hlen
    rw [hmem] at hle
    have hnot : ¬ CutInField ccnDtagContent data (behindName name) k := by
      rintro (h | ⟨-, -, h⟩)
      · omega
      · omega
    rw [leads_content hat, or_iff_right hnot, and_iff_left hle]
    exact forall_congr' fun _ => iff_false_intro (not_leads_of_no_header (not_headerAt_end hend))

end Cuts

/-- The parser takes closed packets only where it always finds another header behind the elements
that are complete. The packets of the encoder are refused when they are cut off anywhere but between
their elements, in a header there, or in a blob. -/
theorem accepts_complete_iff {mem : List UInt8} {start : Nat} {c : Cursor}
    (hl : c.pos + c.len ≤ mem.length) :
    (AcceptsClosed mem start c ↔
      Leads mem (c.pos + c.len) (HeaderAt mem (c.pos + c.len)) (c.pos, {})) ∧
    (∀ name nonce k, k < (ccnbInterest name nonce).length →
      (CutRefused (ccnbInterest name nonce) k ↔ ¬ InterestCut name nonce k)) ∧
    ∀ name data k, k < (ccnbContent name data).length →
      (CutRefused (ccnbContent name data) k ↔ ¬ ContentCut name data k) :=
  ⟨acceptsClosed_iff hl, fun _ _ _ hk => interestCut_iff hk, fun _ _ _ hk => contentCut_iff hk⟩

/-- An Interest of which the outer header has come. -/
theorem accepts_complete_header : (AcceptsClosed [0x01, 0xd2] 0 ⟨2, 0⟩ ↔
      Leads [0x01, 0xd2] 2 (HeaderAt [0x01, 0xd2] 2) (2, {})) ∧
    (∀ name nonce k, k < (ccnbInterest name nonce).length →
      (CutRefused (ccnbInterest name nonce) k ↔ ¬ InterestCut name nonce k)) ∧
    ∀ name data k, k < (ccnbContent name data).length →
      (CutRefused (ccnbContent name data) k ↔ ¬ ContentCut name data k) :=
  @accepts_complete_iff [0x01, 0xd2] 0 ⟨2, 0⟩ (by decide)

/-- The name `/a`. -/
def ccnbNameOfA : Prefix := { mem := [0x61], comp := [⟨0, 1⟩], suite := .ccnb }

/-- An Interest of which only the outer header has come is taken for a packet. -/
theorem accepts_header : ¬ ((∀ (mem : List UInt8) (start : Nat) (c : Cursor),
      c.pos + c.len ≤ mem.length → AcceptsClosed mem start c) ∧
    (∀ name nonce k, k < (ccnbInterest name nonce).length → CutRefused (ccnbInterest name nonce) k) ∧
    ∀ name data k, k < (ccnbContent name data).length → CutRefused (ccnbContent name data) k) := by
  rintro ⟨-, h, -⟩
  have hcut := (@interestCut_iff ccnbNameOfA 2 none (by decide)).mp (h ccnbNameOfA none 2 (by decide))
  exact hcut (.inl (.inl rfl))

end Ccnl
