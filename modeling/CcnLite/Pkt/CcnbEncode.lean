import CcnLite.Pkt.Ccnb

/-!
# The CCNB encoder (`ccnl-pkt-ccnb.c`)

Elements are written from the start of the buffer on. `bufend` is where the buffer ends; a function
gives up when what it writes would reach it. `ccnbFillContent` looks for room for the two end
markers of a content object, and not for the payload.

The bytes that each function writes are `ccnbInterest` and `ccnbContent`, with their parts
(`ccnbFillInterest_wrote`, `ccnbFillContent_wrote`).
-/

namespace Ccnl

open CRun

/-! ## Headers -/

/-- The loop of `ccnl_ccnb_mkHeader`: seven bits at a time, the lowest first, `k` times at most. -/
def ccnbSeptets : Nat → Nat → List UInt8
  | 0, _ => []
  | k + 1, num => if 0 < num then UInt8.ofNat (num &&& 0x7f) :: ccnbSeptets k (num >>> 7) else []

/-- The bytes of a header: `tmp`, from its end on. -/
def ccnbHdr (num tt : Nat) : List UInt8 :=
  (UInt8.ofNat (0x80 ||| ((num &&& 0x0f) <<< 3) ||| tt) :: ccnbSeptets (num >>> 4) (num >>> 4)).reverse

/-- `ccnl_ccnb_mkHeader`. -/
def ccnbMkHeader (bufend num tt : Nat) (o : Front) : Run Front :=
  if bufend ≤ o.pos + (ccnbHdr num tt).length then throw .bail else o.app (ccnbHdr num tt)

/-! ## Names -/

/-- `ccnl_ccnb_mkComponent`. -/
def ccnbMkComponent (bufend : Nat) (o : Front) (val : List UInt8) : Run Front := do
  let o ← ccnbMkHeader bufend ccnDtagComponent ccnTtDtag o
  let o ← ccnbMkHeader bufend val.length ccnTtBlob o
  if bufend ≤ o.pos + val.length + 1 then throw .bail
  else
    let o ← o.app val
    o.app [0]

/-- `ccnl_ccnb_mkName`. -/
def ccnbMkName (name : Prefix) (bufend : Nat) (o : Front) : Run Front := do
  let o ← ccnbMkHeader bufend ccnDtagName ccnTtDtag o
  let o ← name.comps.foldlM (ccnbMkComponent bufend) o
  if bufend ≤ o.pos + 1 then throw .bail else o.app [0]

/-! ## Packets -/

/-- The Nonce of `ccnl_ccnb_fillInterest`. It has no end marker of its own. -/
def ccnbFillNonce (nonce : Option UInt32) (bufend : Nat) (o : Front) : Run Front := do
  match nonce with
  | some w =>
    let o ← ccnbMkHeader bufend ccnDtagNonce ccnTtDtag o
    let o ← ccnbMkHeader bufend 4 ccnTtBlob o
    if bufend ≤ o.pos + 4 then throw .bail else o.app (wordBytes w)
  | none => return o

/-- `ccnl_ccnb_fillInterest`: the buffer, and what is added to `retlen`. -/
def ccnbFillInterest (name : Prefix) (nonce : Option UInt32) (bufend : Nat) (out : Front) :
    Run (Front × Nat) := do
  let o ← ccnbMkHeader bufend ccnDtagInterest ccnTtDtag out
  let o ← ccnbMkName name bufend o
  let o ← ccnbFillNonce nonce bufend o
  if bufend ≤ o.pos + 1 then throw .bail
  else
    let o ← o.app [0]
    return (o, o.pos - out.pos)

/-- `ccnl_ccnb_fillContent`: the buffer, `contentpos`, and what is added to `retlen`. -/
def ccnbFillContent (name : Prefix) (data : List UInt8) (bufend : Nat) (out : Front) :
    Run (Front × Nat × Nat) := do
  let o ← ccnbMkHeader bufend ccnDtagContentobj ccnTtDtag out
  let o ← ccnbMkName name bufend o
  let o ← ccnbMkHeader bufend ccnDtagContent ccnTtDtag o
  let o ← ccnbMkHeader bufend data.length ccnTtBlob o
  let contentpos := o.pos - out.pos
  if bufend ≤ o.pos + 2 then throw .bail
  else
    let o ← o.app data
    let o ← o.app [0]
    let o ← o.app [0]
    return (o, contentpos, o.pos - out.pos)

/-! ## What is written -/

/-- A blob. -/
def ccnbBlob (v : List UInt8) : List UInt8 := ccnbHdr v.length ccnTtBlob ++ v

/-- An element with a blob in it. -/
def ccnbField1 (num : Nat) (v : List UInt8) : List UInt8 :=
  ccnbHdr num ccnTtDtag ++ (ccnbBlob v ++ [0])

/-- The components of a Name. -/
def ccnbComps (vs : List (List UInt8)) : List UInt8 := vs.flatMap (ccnbField1 ccnDtagComponent)

/-- A Name. -/
def ccnbNameBytes (name : Prefix) : List UInt8 :=
  ccnbHdr ccnDtagName ccnTtDtag ++ (ccnbComps name.comps ++ [0])

/-- A Nonce without an end marker. -/
def ccnbNonce : Option UInt32 → List UInt8
  | some w => ccnbHdr ccnDtagNonce ccnTtDtag ++ ccnbBlob (wordBytes w)
  | none => []

/-- The elements of an Interest, and the end marker behind them. -/
def ccnbInterestElems (name : Prefix) (nonce : Option UInt32) : List UInt8 :=
  ccnbNameBytes name ++ (ccnbNonce nonce ++ [0])

def ccnbInterest (name : Prefix) (nonce : Option UInt32) : List UInt8 :=
  ccnbHdr ccnDtagInterest ccnTtDtag ++ ccnbInterestElems name nonce

/-- The elements of a content object, and the end marker behind them. -/
def ccnbContentElems (name : Prefix) (data : List UInt8) : List UInt8 :=
  ccnbNameBytes name ++ (ccnbField1 ccnDtagContent data ++ [0])

def ccnbContent (name : Prefix) (data : List UInt8) : List UInt8 :=
  ccnbHdr ccnDtagContentobj ccnTtDtag ++ ccnbContentElems name data

section Wrote

variable {bufend num tt : Nat} {o o' : Front}

theorem ccnbMkHeader_wrote (h : ccnbMkHeader bufend num tt o = .ok o') :
    Front.Wrote o o' (ccnbHdr num tt) := by
  unfold ccnbMkHeader at h
  split at h
  · simp at h
  · exact Front.app_wrote h

theorem ccnbMkComponent_wrote {val : List UInt8} (h : ccnbMkComponent bufend o val = .ok o') :
    Front.Wrote o o' (ccnbField1 ccnDtagComponent val) := by
  obtain ⟨o₁, h₁, h⟩ := (bind_eq_ok _ _ _).mp h
  obtain ⟨o₂, h₂, h⟩ := (bind_eq_ok _ _ _).mp h
  split at h
  · simp at h
  · obtain ⟨o₃, h₃, h₄⟩ := (bind_eq_ok _ _ _).mp h
    have hblob := (ccnbMkHeader_wrote h₂).append (Front.app_wrote h₃)
    exact (ccnbMkHeader_wrote h₁).append (hblob.append (Front.app_wrote h₄))

theorem ccnbMkComponents_wrote {vs : List (List UInt8)}
    (h : vs.foldlM (ccnbMkComponent bufend) o = .ok o') : Front.Wrote o o' (ccnbComps vs) := by
  induction vs generalizing o with
  | nil =>
    cases h
    exact .refl _
  | cons v vs ih =>
    rw [List.foldlM_cons] at h
    obtain ⟨o₁, h₁, h₂⟩ := (bind_eq_ok _ _ _).mp h
    rw [ccnbComps, List.flatMap_cons]
    exact (ccnbMkComponent_wrote h₁).append (ih h₂)

theorem ccnbMkName_wrote {name : Prefix} (h : ccnbMkName name bufend o = .ok o') :
    Front.Wrote o o' (ccnbNameBytes name) := by
  obtain ⟨o₁, h₁, h⟩ := (bind_eq_ok _ _ _).mp h
  obtain ⟨o₂, h₂, h⟩ := (bind_eq_ok _ _ _).mp h
  split at h
  · simp at h
  · exact (ccnbMkHeader_wrote h₁).append ((ccnbMkComponents_wrote h₂).append (Front.app_wrote h))

theorem ccnbFillNonce_wrote {nonce : Option UInt32} (h : ccnbFillNonce nonce bufend o = .ok o') :
    Front.Wrote o o' (ccnbNonce nonce) := by
  cases nonce with
  | none =>
    cases h
    exact .refl _
  | some w =>
    obtain ⟨o₁, h₁, h⟩ := (bind_eq_ok _ _ _).mp h
    obtain ⟨o₂, h₂, h⟩ := (bind_eq_ok _ _ _).mp h
    split at h
    · simp at h
    · rw [ccnbNonce, ccnbBlob, length_wordBytes]
      exact (ccnbMkHeader_wrote h₁).append ((ccnbMkHeader_wrote h₂).append (Front.app_wrote h))

/-- `ccnl_ccnb_fillInterest` writes an Interest. -/
theorem ccnbFillInterest_wrote {name : Prefix} {nonce : Option UInt32} {out : Front}
    {retlen : Nat} (h : ccnbFillInterest name nonce bufend out = .ok (o', retlen)) :
    Front.Wrote out o' (ccnbInterest name nonce) ∧ retlen = (ccnbInterest name nonce).length := by
  obtain ⟨o₁, h₁, h⟩ := (bind_eq_ok _ _ _).mp h
  obtain ⟨o₂, h₂, h⟩ := (bind_eq_ok _ _ _).mp h
  obtain ⟨o₃, h₃, h⟩ := (bind_eq_ok _ _ _).mp h
  split at h
  · simp at h
  obtain ⟨o₄, h₄, h⟩ := (bind_eq_ok _ _ _).mp h
  obtain ⟨rfl, rfl⟩ := Prod.mk.inj ((pure_eq_ok _ _).mp h)
  have hwrote : Front.Wrote out o₄ (ccnbInterest name nonce) := by
    have hname := (ccnbMkHeader_wrote h₁).append (ccnbMkName_wrote h₂)
    rw [ccnbInterest, ccnbInterestElems, ← List.append_assoc]
    exact hname.append ((ccnbFillNonce_wrote h₃).append (Front.app_wrote h₄))
  exact ⟨hwrote, by rw [hwrote.pos, Nat.add_sub_cancel_left]⟩

/-- `ccnl_ccnb_fillContent` writes a content object. -/
theorem ccnbFillContent_wrote {name : Prefix} {data : List UInt8} {out : Front}
    {contentpos retlen : Nat}
    (h : ccnbFillContent name data bufend out = .ok (o', contentpos, retlen)) :
    Front.Wrote out o' (ccnbContent name data) ∧ retlen = (ccnbContent name data).length := by
  obtain ⟨o₁, h₁, h⟩ := (bind_eq_ok _ _ _).mp h
  obtain ⟨o₂, h₂, h⟩ := (bind_eq_ok _ _ _).mp h
  obtain ⟨o₃, h₃, h⟩ := (bind_eq_ok _ _ _).mp h
  obtain ⟨o₄, h₄, h⟩ := (bind_eq_ok _ _ _).mp h
  dsimp only at h
  split at h
  · simp at h
  obtain ⟨o₅, h₅, h⟩ := (bind_eq_ok _ _ _).mp h
  obtain ⟨o₆, h₆, h⟩ := (bind_eq_ok _ _ _).mp h
  obtain ⟨o₇, h₇, h⟩ := (bind_eq_ok _ _ _).mp h
  have hret := (pure_eq_ok _ _).mp h
  simp only [Prod.mk.injEq] at hret
  obtain ⟨rfl, -, rfl⟩ := hret
  have hwrote : Front.Wrote out o₇ (ccnbContent name data) := by
    have hname := (ccnbMkHeader_wrote h₁).append (ccnbMkName_wrote h₂)
    have hblob := (ccnbMkHeader_wrote h₄).append (Front.app_wrote h₅)
    have hfield := (ccnbMkHeader_wrote h₃).append (hblob.append (Front.app_wrote h₆))
    rw [ccnbContent, ccnbContentElems, ← List.append_assoc]
    exact hname.append (hfield.append (Front.app_wrote h₇))
  exact ⟨hwrote, by rw [hwrote.pos, Nat.add_sub_cancel_left]⟩

end Wrote

end Ccnl
