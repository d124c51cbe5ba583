import CcnLite.Lib.Sys
import CcnLite.Pkt.Ccnb
import CcnLite.Pkt.CcntlvGrammar
import CcnLite.Pkt.NdntlvGrammar

/-!
# What the parsers do not stop for

A parser can read outside its buffer, or take a counter below zero. It does not follow a NULL
pointer or a freed one, none of its loops takes a pass that changes nothing, and each of them comes
to its end: no parser stops with a `ParserFault`.
-/

namespace Ccnl

open CRun Tlv

/-- The stops of a function that looks at the name of a packet that has none. -/
def NameFault : Stop → Prop
  | .null | .spin => True
  | _ => False

/-- The stops of a run that does not end. -/
def Endless : Stop → Prop
  | .spin | .fuel => True
  | _ => False

/-- The stops that a parser does not have. -/
def ParserFault : Stop → Prop
  | .null | .dangling | .spin | .fuel => True
  | _ => False

theorem NameFault.parser : ∀ s, NameFault s → ParserFault s
  | .null, _ | .spin, _ => trivial

theorem Endless.parser : ∀ s, Endless s → ParserFault s
  | .spin, _ | .fuel, _ => trivial

@[simp] theorem nameFault_bail : ¬ NameFault .bail := id
@[simp] theorem nameFault_wrap : ¬ NameFault .wrap := id
@[simp] theorem nameFault_uninit : ¬ NameFault .uninit := id
@[simp] theorem nameFault_fuel : ¬ NameFault .fuel := id
@[simp] theorem nameFault_dangling : ¬ NameFault .dangling := id
@[simp] theorem nameFault_oob (i : Nat) : ¬ NameFault (.oob i) := id

@[simp] theorem endless_bail : ¬ Endless .bail := id
@[simp] theorem endless_null : ¬ Endless .null := id
@[simp] theorem endless_dangling : ¬ Endless .dangling := id
@[simp] theorem endless_oob (i : Nat) : ¬ Endless (.oob i) := id

@[simp] theorem parserFault_bail : ¬ ParserFault .bail := id
@[simp] theorem parserFault_wrap : ¬ ParserFault .wrap := id
@[simp] theorem parserFault_uninit : ¬ ParserFault .uninit := id
@[simp] theorem parserFault_oob (i : Nat) : ¬ ParserFault (.oob i) := id

section Basics

variable {mem : List UInt8}

@[simp] theorem rd_noFault (i : Nat) : Avoids ParserFault (rd mem i) := by
  unfold rd
  split <;> simp

@[simp] theorem rdBytes_noFault (i n : Nat) : Avoids ParserFault (rdBytes mem i n) := by
  simp [rdBytes]

@[simp] theorem skip_noFault (c : Cursor) (k : Nat) : Avoids ParserFault (c.skip k) := by
  simp [Cursor.skip]

/-- The loop over nested elements, when its body has no fault. -/
theorem nested_noFault {α β : Type} {H : Header} {S : ElemSpec β} {abs : α → β}
    {dehead : Cursor → Run (Option (Nat × Nat) × Cursor)}
    {elem : Nat → Nat → Nat → Cursor → α → Run (Elem α)} (hdec : Decodes H dehead)
    (hmod : Models S elem abs) (hd : ∀ c, Avoids ParserFault (dehead c))
    (he : ∀ p typ i c a, Avoids ParserFault (elem p typ i c a)) (c : Cursor) (a : α) :
    Avoids ParserFault (nested dehead elem c a) := by
  have hstep : ∀ s, Avoids ParserFault (nestedStep dehead elem s) := by
    intro s
    unfold nestedStep
    simp only [avoids_ite, avoids_pure, implies_true, true_and, avoids_bind, hd]
    rintro - ⟨_ | ⟨typ, i⟩, c₁⟩ -
    · simp
    · simp only [avoids_bind, he, true_and]
      rintro (_ | _) - <;> simp [stepOver]
  refine (Meets.loop (I := fun _ => True) (R := fun _ => True) (m := fun s => s.1.len)
    (fun s _ => ⟨hstep s, fun x hx => ?_⟩) trivial (Nat.lt_succ_self _)).avoids
  cases x with
  | inl s' => exact ⟨trivial, nestedStep_lt hdec hmod s s' hx⟩
  | inr a => trivial

/-- The loop over the elements of a packet, when its body has no fault. -/
theorem top_noFault {α : Type} {H : Header}
    {dehead : Cursor → Run (Option (Nat × Nat) × Cursor)}
    {elem : Nat → Nat → Nat → Cursor → α → Run α} (hdec : Decodes H dehead)
    (hd : ∀ c, Avoids ParserFault (dehead c))
    (he : ∀ p typ len c a, Avoids ParserFault (elem p typ len c a)) (c : Cursor) (a : α) :
    Avoids ParserFault (top dehead elem c a) := by
  have hstep : ∀ s, Avoids ParserFault (topStep dehead elem s) := by
    intro s
    unfold topStep
    simp only [avoids_bind, hd, true_and]
    rintro ⟨_ | ⟨typ, len⟩, c₁⟩ - <;> simp [he]
  refine (Meets.loop (I := fun _ => True) (R := fun _ => True) (m := fun s => s.1.len)
    (fun s _ => ⟨hstep s, fun x hx => ?_⟩) trivial (Nat.lt_succ_self _)).avoids
  cases x with
  | inl s' => exact ⟨trivial, topStep_lt hdec s s' hx⟩
  | inr a => trivial

end Basics

/-! ## NDN-TLV -/

section Ndntlv

variable (mem : List UInt8)

theorem ndntlvVarlenint_noFault (c : Cursor) : Avoids ParserFault (ndntlvVarlenint mem c) := by
  simp [ndntlvVarlenint]

theorem ndntlvNonNegInt_noFault (pos len : Nat) :
    Avoids ParserFault (ndntlvNonNegInt mem pos len) := by
  simp [ndntlvNonNegInt]

theorem ndntlvDehead_noFault (c : Cursor) : Avoids ParserFault (ndntlvDehead mem c) := by
  simp only [ndntlvDehead, avoids_bind, ndntlvVarlenint_noFault, true_and]
  rintro (_ | ⟨typ, c₁⟩) -
  · simp
  · simp only [avoids_bind, ndntlvVarlenint_noFault, true_and]
    rintro (_ | ⟨len, c₂⟩) - <;> simp

theorem ndnMarked_noFault (pos i bound : Nat) : Avoids ParserFault (ndnMarked mem pos i bound) := by
  simp [ndnMarked, afterMarker, ndntlvNonNegInt_noFault]

theorem ndnElem_noFault (start hd typ len : Nat) (cur : Cursor) (s : NdnState) :
    Avoids ParserFault (ndnElem mem start hd typ len cur s) := by
  have hname : ∀ p typ i c a, Avoids ParserFault (ndnNameElem mem p typ i c a) := fun p typ i c a => by
    simp [ndnNameElem, ndnMarked_noFault]
  have hsel : ∀ p typ i c a, Avoids ParserFault (ndnSelectorsElem mem p typ i c a) :=
    fun p typ i c a => by simp [ndnSelectorsElem, ndntlvNonNegInt_noFault]
  have hmeta : ∀ p typ i c a, Avoids ParserFault (ndnMetaInfoElem mem p typ i c a) :=
    fun p typ i c a => by
      simp only [ndnMetaInfoElem, avoids_ite, avoids_bind, ndntlvNonNegInt_noFault, avoids_pure,
        ndntlvDehead_noFault, implies_true, and_true, true_and]
      rintro - - ⟨_ | ⟨typ', i'⟩, c₁⟩ - <;> simp [ndnMarked_noFault]
  have hsig : ∀ p typ i c a, Avoids ParserFault (ndnSignatureInfoElem mem p typ i c a) :=
    fun p typ i c a => by simp [ndnSignatureInfoElem]
  unfold ndnElem
  cases ndnTlv typ <;>
    simp [ndntlvNonNegInt_noFault,
      nested_noFault (dehead_decodes mem) (nameSpec_models mem) (ndntlvDehead_noFault mem) hname,
      nested_noFault (dehead_decodes mem) (selectorsSpec_models mem) (ndntlvDehead_noFault mem) hsel,
      nested_noFault (dehead_decodes mem) (metaInfoSpec_models mem) (ndntlvDehead_noFault mem) hmeta,
      nested_noFault (dehead_decodes mem) (signatureInfoSpec_models mem) (ndntlvDehead_noFault mem)
        hsig]

theorem ndntlvParse_noFault (c : Cursor) : Avoids ParserFault (ndntlvParse mem c) := by
  simp only [ndntlvParse, avoids_bind, ndntlvDehead_noFault, true_and]
  rintro ⟨_ | ⟨typ, len⟩, c₁⟩ -
  · simp
  · simp [ndntlvBytes2pkt,
      top_noFault (dehead_decodes mem) (ndntlvDehead_noFault mem) (ndnElem_noFault mem _)]

end Ndntlv

/-! ## CCNx-TLV -/

section Ccntlv

variable (mem : List UInt8)

theorem ccntlvDehead_noFault (c : Cursor) : Avoids ParserFault (ccntlvDehead mem c) := by
  simp [ccntlvDehead]

theorem extractNetworkVarInt_noFault (pos len : Nat) :
    Avoids ParserFault (extractNetworkVarInt mem pos len) := by
  simp [extractNetworkVarInt]

theorem ccntlvElem_noFault (start hmacStart hd typ len : Nat) (cur : Cursor) (s : CcntlvState) :
    Avoids ParserFault (ccntlvElem mem start hmacStart hd typ len cur s) := by
  have hname : ∀ p typ i c a, Avoids ParserFault (ccntlvNameElem mem p typ i c a) :=
    fun p typ i c a => by
      unfold ccntlvNameElem
      split
      · simp only [avoids_bind, extractNetworkVarInt_noFault, true_and]
        rintro (_ | v) - <;> simp
      · simp
      · simp only [avoids_bind, ccntlvDehead_noFault, true_and]
        rintro ⟨_ | ⟨typ', len⟩, c₁⟩ - <;> simp
      · simp
  unfold ccntlvElem
  by_cases hlt : cur.len < len
  · simp [hlt]
  simp only [hlt, ↓reduceIte]
  split
  · simp [nested_noFault (ccntlvDehead_decodes mem) (ccntlvNameSpec_models mem)
      (ccntlvDehead_noFault mem) hname]
  · simp only [avoids_bind, extractNetworkVarInt_noFault, true_and]
    rintro (_ | v) - <;> simp
  · simp
  · simp only [avoids_bind, ccntlvDehead_noFault, true_and]
    rintro ⟨_ | ⟨typ', len⟩, c₁⟩ - <;> simp
  · simp
  · simp

theorem ccntlvBytes2pkt_noFault (start : Nat) (c : Cursor) :
    Avoids ParserFault (ccntlvBytes2pkt mem start c) := by
  simp only [ccntlvBytes2pkt, avoids_bind, ccntlvDehead_noFault, true_and]
  rintro ⟨_ | ⟨typ, len⟩, c₁⟩ -
  · simp
  · simp [top_noFault (ccntlvDehead_decodes mem) (ccntlvDehead_noFault mem)
      (ccntlvElem_noFault mem _ _)]

theorem ccntlvHeader_noFault (c : Cursor) : Avoids ParserFault (ccntlvHeader mem c) := by
  simp [ccntlvHeader]

end Ccntlv

/-! ## CCNB -/

section Ccnb

variable (mem : List UInt8)

/-- A header takes at least a byte. -/
theorem ccnbDehead_meets (c : Cursor) :
    Meets ParserFault (fun r => ∀ x c', r = some (x, c') → c'.After c ∧ c'.len < c.len)
      (ccnbDehead mem c) := by
  have hone : ∀ c : Cursor, ¬ c.len = 0 →
      Cursor.After ⟨c.pos + 1, c.len - 1⟩ c ∧ c.len - 1 < c.len :=
    fun c hc => ⟨.of_le (by omega), by omega⟩
  have hfrom : ∀ k val (c : Cursor), Meets ParserFault
      (fun r => ∀ x c', r = some (x, c') → c'.After c ∧ c'.len < c.len)
      (ccnbDeheadFrom mem k val c) := by
    intro k
    induction k with
    | zero => exact fun val c => .ok (by simp)
    | succ k ih =>
      intro val c
      unfold ccnbDeheadFrom
      split
      · exact .ok (by simp)
      refine (rd_noFault _).meets.bind fun b _ => ?_
      split
      · refine .ok fun x c' hc => ?_
        cases hc
        exact hone _ ‹_›
      · refine (ih _ _).mono fun r hr x c' hc => ?_
        obtain ⟨hafter, hlt⟩ := hr x c' hc
        exact ⟨(hone c ‹_›).1.trans hafter, Nat.lt_trans hlt (hone c ‹_›).2⟩
  unfold ccnbDehead
  split
  · exact .ok (by simp)
  refine (rd_noFault _).meets.bind fun b _ => ?_
  split
  · refine .ok fun x c' hc => ?_
    cases hc
    exact hone _ ‹_›
  · exact hfrom _ _ _

theorem consumeWith_meets {hunt : Cursor → Option Span → Run (Cursor × Option Span)} {c : Cursor}
    (h : ∀ v, Meets ParserFault (fun r => r.1.After c) (hunt c v)) (typ num : Nat)
    (v : Option Span) :
    Meets ParserFault (fun r => r.1.After c) (consumeWith hunt typ num c v) := by
  unfold consumeWith
  split
  · refine ⟨by simp, fun r hr => ?_⟩
    obtain ⟨c', hc, hr⟩ := (bind_eq_ok _ _ _).mp hr
    obtain ⟨hle, rfl⟩ := Cursor.skip_eq_ok.mp hc
    cases hr
    exact .of_le hle
  · split
    · exact h v
    · exact .error id

theorem ccnbHuntForEnd_meets (c : Cursor) (v : Option Span) :
    Meets ParserFault (fun r => r.1.After c) (ccnbHuntForEnd mem c v) := by
  have hfrom : ∀ n (c : Cursor) v, c.len < n →
      Meets ParserFault (fun r => r.1.After c) (huntFrom mem n c v) := by
    intro n
    induction n with
    | zero => intro c v hn; omega
    | succ n ih =>
      intro c v hn
      refine (ccnbDehead_meets mem c).bind fun r hr => ?_
      match r with
      | none => exact .error id
      | some ((num, typ), c₁) =>
        obtain ⟨hafter, hlt⟩ := hr _ _ rfl
        dsimp only
        split
        · exact .ok hafter
        refine (consumeWith_meets (fun v => ih c₁ v (by omega)) typ num v).bind fun r hr => ?_
        have := hr.le
        exact (ih r.1 r.2 (by omega)).mono fun _ h => hafter.trans (hr.trans h)
  exact hfrom _ _ _ (Nat.lt_succ_self _)

theorem ccnbConsume_meets (typ num : Nat) (c : Cursor) (v : Option Span) :
    Meets ParserFault (fun r => r.1.After c) (ccnbConsume mem typ num c v) :=
  consumeWith_meets (ccnbHuntForEnd_meets mem c) _ _ _

theorem handedOut_noFault (v : Option Span) : Avoids ParserFault (handedOut v) := by
  cases v <;> simp [handedOut]

theorem ccnbName_meets (c : Cursor) (comp : List (Option Span)) :
    Meets ParserFault (fun r => r.1.After c) (ccnbName mem c comp) := by
  refine Meets.loop (I := fun s => s.1.After c) (m := fun s => s.1.len) (fun s hs => ?_)
    (.refl c) (Nat.lt_succ_self _)
  refine (ccnbDehead_meets mem s.1).bind fun r hr => ?_
  match r with
  | none => exact .error id
  | some ((num, typ), c₁) =>
    obtain ⟨hafter, hlt⟩ := hr _ _ rfl
    dsimp only
    split
    · exact .ok (hs.trans hafter)
    split
    · refine (ccnbHuntForEnd_meets mem c₁ none).bind fun r hr => .ok ?_
      exact ⟨hs.trans (hafter.trans hr), Nat.lt_of_le_of_lt hr.le hlt⟩
    · refine (ccnbConsume_meets mem typ num c₁ none).bind fun r hr => .ok ?_
      exact ⟨hs.trans (hafter.trans hr), Nat.lt_of_le_of_lt hr.le hlt⟩

theorem ccnbField_meets (c : Cursor) :
    Meets ParserFault (fun r => r.2.After c) (ccnbField mem c) := by
  refine (ccnbHuntForEnd_meets mem c none).bind fun r hr => ?_
  exact (handedOut_noFault r.2).meets.bind fun v _ => .ok hr

/-- An element of a packet ends at or behind its header. -/
theorem ccnbElem_meets (start hd num : Nat) (c : Cursor) (s : CcnbState) :
    Meets ParserFault (fun r => r.1.After c) (ccnbElem mem start hd num c s) := by
  have huint : ∀ bound, Meets ParserFault (fun r => r.2.After c) (ccnbUint mem c bound) := by
    intro bound
    refine (ccnbField_meets mem c).bind fun r hr => ?_
    refine (rdBytes_noFault _ _).meets.bind fun bs _ => ?_
    split
    · exact .error id
    · split
      · exact .error id
      · exact .ok hr
  have hbuf : ∀ old, Meets ParserFault (fun r => r.2.After c) (ccnbBuf mem c old) := by
    intro old
    unfold ccnbBuf
    split
    · exact (ccnbHuntForEnd_meets mem c none).bind fun r hr => .ok hr
    · refine (ccnbField_meets mem c).bind fun r hr => ?_
      exact (rdBytes_noFault _ _).meets.bind fun bs _ => .ok hr
  unfold ccnbElem
  cases ccnDtag num <;> dsimp only
  case name => exact (ccnbName_meets mem c s.comp).bind fun r hr => .ok hr
  case content => exact (ccnbConsume_meets mem _ _ c _).bind fun r hr => .ok hr
  case scope =>
    refine (ccnbField_meets mem c).bind fun r hr => ?_
    split
    · exact (rd_noFault _).meets.bind fun b _ => .ok hr
    · exact .ok hr
  case answerOrigKind => exact (huint _).bind fun r hr => .ok hr
  case minSuffComp => exact (huint _).bind fun r hr => .ok hr
  case maxSuffComp => exact (huint _).bind fun r hr => .ok hr
  case nonce => exact (hbuf _).bind fun r hr => .ok hr
  case pubPubKDigest => exact (hbuf _).bind fun r hr => .ok hr
  case other => exact (ccnbHuntForEnd_meets mem c none).bind fun r hr => .ok hr

/-- The parser leaves at most the bytes that it was given. -/
theorem ccnbBytes2pkt_meets (start : Nat) (c : Cursor) :
    Meets ParserFault (fun r => r.2.After c) (ccnbBytes2pkt mem start c) := by
  have hloop : Meets ParserFault (fun r => r.1.After c)
      (loop (ccnbStep mem start) (c.len + 1) (c, { pkt := ccnbPkt })) := by
    refine Meets.loop (I := fun s => s.1.After c) (m := fun s => s.1.len) (fun s hs => ?_)
      (.refl c) (Nat.lt_succ_self _)
    refine (ccnbDehead_meets mem s.1).bind fun r hr => ?_
    match r with
    | none => exact .ok hs
    | some ((num, typ), c₁) =>
      obtain ⟨hafter, hlt⟩ := hr _ _ rfl
      dsimp only
      split
      · exact .ok (hs.trans hafter)
      split
      · refine (ccnbElem_meets mem start s.1.pos num c₁ s.2).bind fun r hr => .ok ?_
        exact ⟨hs.trans (hafter.trans hr), Nat.lt_of_le_of_lt hr.le hlt⟩
      · refine (ccnbConsume_meets mem typ num c₁ none).bind fun r hr => .ok ?_
        exact ⟨hs.trans (hafter.trans hr), Nat.lt_of_le_of_lt hr.le hlt⟩
  have hcomp : ∀ l : List (Option Span), Avoids ParserFault (l.mapM handedOut) := by
    intro l
    induction l with
    | nil => simp
    | cons v l ih => simp [List.mapM_cons, handedOut_noFault, ih]
  refine hloop.bind fun r hr => ?_
  refine (rdBytes_noFault _ _).meets.bind fun buf _ => ?_
  exact (hcomp _).meets.bind fun comp _ => .ok hr

end Ccnb

end Ccnl
