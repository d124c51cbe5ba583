import CcnLite.Lib.Stores
import CcnLite.Pkt.CcnbEncode

/-!
# The buffer of the CCNB encoder (`ccnl-pkt-ccnb.c`)

The encoders take the address `out`, the end `bufend` of the buffer and the running length `*retlen`,
and return the new one. Each looks for room before it writes. `ccnl_ccnb_mkField`, and with it
`ccnl_ccnb_mkBlob` and `ccnl_ccnb_mkStrBlob`, looks for one byte where it writes the payload and one
byte, and `ccnl_ccnb_fillContent` for two bytes where it writes the payload and two.

Each encoder has its rule (`*_lays`), and `encoders_inBuffer_iff` says for which arguments they keep
to the buffer. Memory does not wrap around; a number of bytes that is not the size of anything in
memory, the `bytes` of `ccnl_ccnb_mkBinaryInt`, may do so when it is added to an address.
-/

namespace Ccnl.OnStore

open CRun StoreM

/-! ## The encoders -/

/-- `ccnl_ccnb_mkHeader`. -/
def ccnbMkHeader (buf bufend num tt retlen : Nat) : StoreM Nat :=
  if bufend ≤ buf + (ccnbHdr num tt).length then throw (-1)
  else do
    store buf (ccnbHdr num tt)
    return retlen + (ccnbHdr num tt).length

/-- `ccnl_ccnb_addBlob`. -/
def ccnbAddBlob (buf bufend : Nat) (cp : List UInt8) (retlen : Nat) : StoreM Nat := do
  let len ← ccnbMkHeader buf bufend cp.length ccnTtBlob 0
  if bufend ≤ buf + len + cp.length then throw (-1)
  else do
    store (buf + len) cp
    return retlen + (len + cp.length)

/-- `ccnl_ccnb_mkField`. -/
def ccnbMkField (out bufend num typ : Nat) (data : List UInt8) (retlen : Nat) : StoreM Nat := do
  let len ← ccnbMkHeader out bufend num ccnTtDtag 0
  let len ← ccnbMkHeader (out + len) bufend data.length typ len
  if bufend ≤ out + len + 1 then throw (-1)
  else do
    store (out + len) data
    store (out + (len + data.length)) [0]
    return retlen + (len + data.length + 1)

/-- `ccnl_ccnb_mkBlob`. It does not look at `tt`. -/
def ccnbMkBlob (out bufend num _tt : Nat) (cp : List UInt8) (retlen : Nat) : StoreM Nat :=
  ccnbMkField out bufend num ccnTtBlob cp retlen

/-- `ccnl_ccnb_mkStrBlob`, for the characters of a string. -/
def ccnbMkStrBlob (out bufend num _tt : Nat) (str : List UInt8) (retlen : Nat) : StoreM Nat :=
  ccnbMkField out bufend num ccnTtBlob str retlen

/-- The loop for the number of bytes of a value, from `bytes` on, and one more. -/
def ccnbIntLen (val : UInt64) : Nat → Nat
  | 0 => 1
  | bytes + 1 => if val >>> UInt64.ofNat (8 * (bytes + 1)) ≠ 0 then bytes + 2 else ccnbIntLen val bytes

/-- `bytes` bytes of a value, the highest first. -/
def ccnbIntBytes (val : UInt64) : Nat → List UInt8
  | 0 => []
  | bytes + 1 => (0xff &&& (val >>> UInt64.ofNat (8 * bytes))).toUInt8 :: ccnbIntBytes val bytes

/-- How many bytes `ccnl_ccnb_mkBinaryInt` writes. -/
def ccnbIntSize (val bytes : UInt64) : Nat := if bytes = 0 then ccnbIntLen val 7 else bytes.toNat

/-- `ccnl_ccnb_mkBinaryInt`. -/
def ccnbMkBinaryInt (out bufend num tt : Nat) (val bytes : UInt64) (retlen : Nat) : StoreM Nat := do
  let len ← ccnbMkHeader out bufend num tt 0
  let bytes := ccnbIntSize val bytes
  let len ← ccnbMkHeader (out + len) bufend bytes ccnTtBlob len
  -- `out + len + bytes` may wrap around
  if bufend ≤ (out + len + bytes + 1) % 2 ^ 64 then throw (-1)
  else do
    store (out + len) (ccnbIntBytes val bytes)
    store (out + (len + bytes)) [0]
    return retlen + (len + bytes + 1)

/-- `ccnl_ccnb_mkComponent`. -/
def ccnbMkComponent (val : List UInt8) (out bufend retlen : Nat) : StoreM Nat := do
  let len ← ccnbMkHeader out bufend ccnDtagComponent ccnTtDtag 0
  let len ← ccnbMkHeader (out + len) bufend val.length ccnTtBlob len
  if bufend ≤ out + len + val.length + 1 then throw (-1)
  else do
    store (out + len) val
    store (out + (len + val.length)) [0]
    return retlen + (len + val.length + 1)

/-- `ccnl_ccnb_mkName`. -/
def ccnbMkName (name : Prefix) (out bufend retlen : Nat) : StoreM Nat := do
  let len ← ccnbMkHeader out bufend ccnDtagName ccnTtDtag 0
  let len ← name.comps.foldlM (fun len comp => ccnbMkComponent comp (out + len) bufend len) len
  if bufend ≤ out + len + 1 then throw (-1)
  else do
    store (out + len) [0]
    return retlen + (len + 1)

/-- The Nonce of `ccnl_ccnb_fillInterest`. -/
def ccnbFillNonce (nonce : Option UInt32) (out bufend len : Nat) : StoreM Nat := do
  match nonce with
  | some w =>
    let len ← ccnbMkHeader (out + len) bufend ccnDtagNonce ccnTtDtag len
    let len ← ccnbMkHeader (out + len) bufend 4 ccnTtBlob len
    if bufend ≤ out + len + 4 then throw (-1)
    else do
      store (out + len) (wordBytes w)
      return len + 4
  | none => return len

/-- `ccnl_ccnb_fillInterest`. -/
def ccnbFillInterest (name : Prefix) (nonce : Option UInt32) (out bufend retlen : Nat) :
    StoreM Nat := do
  let len ← ccnbMkHeader out bufend ccnDtagInterest ccnTtDtag 0
  let len ← ccnbMkName name (out + len) bufend len
  let len ← ccnbFillNonce nonce out bufend len
  if bufend ≤ out + len + 1 then throw (-1)
  else do
    store (out + len) [0]
    return retlen + (len + 1)

/-- `ccnl_ccnb_fillContent`: `*retlen`, and `*contentpos`. -/
def ccnbFillContent (name : Prefix) (data : List UInt8) (out bufend retlen : Nat) :
    StoreM (Nat × Nat) := do
  let len ← ccnbMkHeader out bufend ccnDtagContentobj ccnTtDtag 0
  let len ← ccnbMkName name (out + len) bufend len
  let len ← ccnbMkHeader (out + len) bufend ccnDtagContent ccnTtDtag len
  let len ← ccnbMkHeader (out + len) bufend data.length ccnTtBlob len
  if bufend ≤ out + len + 2 then throw (-1)
  else do
    store (out + len) data
    store (out + (len + data.length)) [0]
    store (out + (len + data.length + 1)) [0]
    return (retlen + (len + data.length + 2), len)

/-! ## What they write -/

/-- A field with a payload of some type. -/
def ccnbTyped (num typ : Nat) (data : List UInt8) : List UInt8 :=
  ccnbHdr num ccnTtDtag ++ (ccnbHdr data.length typ ++ (data ++ [0]))

/-- A binary number. -/
def ccnbBinaryInt (num tt : Nat) (val bytes : UInt64) : List UInt8 :=
  ccnbHdr num tt ++ (ccnbHdr (ccnbIntSize val bytes) ccnTtBlob ++
    (ccnbIntBytes val (ccnbIntSize val bytes) ++ [0]))

section Lays

variable {a b bufend num tt typ retlen len r : Nat} {val data : List UInt8} {name : Prefix}
  {nonce : Option UInt32}

theorem ccnbMkHeader_lays (hb : b = a) (hr : retlen + (ccnbHdr num tt).length = r) :
    Lays a bufend (a + (ccnbHdr num tt).length < bufend) (ccnbHdr num tt) r
      (ccnbMkHeader b bufend num tt retlen) :=
  .ask (by omega) (.last hb hr)

theorem ccnbAddBlob_lays : Lays a bufend (a + (ccnbBlob data).length < bufend) (ccnbBlob data)
    (retlen + (ccnbBlob data).length) (ccnbAddBlob a bufend data retlen) := by
  have hlen : (ccnbBlob data).length = (ccnbHdr data.length ccnTtBlob).length + data.length :=
    List.length_append
  refine (ccnbMkHeader_lays rfl rfl).andThen (by omega) fun _ => ?_
  exact .ask (by omega) (.last (by omega) (by omega))

/-- Two headers, and what comes behind them. -/
theorem headers_lays (b len : Nat) {β : Type} {g : Prop} {n tt' : Nat} {bs : List UInt8} {s : β}
    {f : Nat → StoreM β} (hb : b + len = a)
    (hg : g → a + (ccnbHdr num tt).length + (ccnbHdr n tt').length < bufend)
    (hf : a + (ccnbHdr num tt).length + (ccnbHdr n tt').length < bufend →
      Lays (a + (ccnbHdr num tt).length + (ccnbHdr n tt').length) bufend g bs s
        (f (len + (ccnbHdr num tt).length + (ccnbHdr n tt').length))) :
    Lays a bufend g (ccnbHdr num tt ++ (ccnbHdr n tt' ++ bs)) s
      (ccnbMkHeader (b + len) bufend num tt len >>= fun len =>
        ccnbMkHeader (b + len) bufend n tt' len >>= f) := by
  refine (ccnbMkHeader_lays hb rfl).andThen (fun h => ?_) fun _ => ?_
  · have := hg h
    omega
  · exact (ccnbMkHeader_lays (by omega) rfl).andThen hg hf

theorem length_ccnbTyped : (ccnbTyped num typ data).length = (ccnbHdr num ccnTtDtag).length +
    ((ccnbHdr data.length typ).length + (data.length + 1)) := by
  simp only [ccnbTyped, List.length_append, List.length_singleton]

theorem ccnbField1_eq : ccnbField1 num data = ccnbTyped num ccnTtBlob data := by
  rw [ccnbField1, ccnbBlob, ccnbTyped, List.append_assoc]

theorem ccnbMkField_lays :
    Lays a bufend (a + (ccnbHdr num ccnTtDtag).length + (ccnbHdr data.length typ).length + 1 < bufend)
      (ccnbTyped num typ data) (retlen + (ccnbTyped num typ data).length)
      (ccnbMkField a bufend num typ data retlen) := by
  have hlen := @length_ccnbTyped num typ data
  refine headers_lays a 0 rfl (fun h => by omega) fun _ => ?_
  exact .ask (by omega) (.next (by omega) (.last (by omega) (by omega)))

theorem length_ccnbIntBytes (val : UInt64) (n : Nat) : (ccnbIntBytes val n).length = n := by
  induction n with
  | zero => rfl
  | succ n ih => rw [ccnbIntBytes, List.length_cons, ih]

/-- The number of bytes may wrap around, so that nothing is asked. -/
theorem ccnbMkBinaryInt_lays {val bytes : UInt64} :
    Lays a bufend (a + (ccnbHdr num tt).length +
        (ccnbHdr (ccnbIntSize val bytes) ccnTtBlob).length < bufend ∧
        (a + (ccnbBinaryInt num tt val bytes).length) % 2 ^ 64 < bufend)
      (ccnbBinaryInt num tt val bytes) (retlen + (ccnbBinaryInt num tt val bytes).length)
      (ccnbMkBinaryInt a bufend num tt val bytes retlen) := by
  have hint := length_ccnbIntBytes val (ccnbIntSize val bytes)
  have hlen : (ccnbBinaryInt num tt val bytes).length = (ccnbHdr num tt).length +
      ((ccnbHdr (ccnbIntSize val bytes) ccnTtBlob).length + (ccnbIntSize val bytes + 1)) := by
    simp only [ccnbBinaryInt, List.length_append, List.length_singleton, hint]
  refine (ccnbMkHeader_lays rfl rfl).andThen (fun h => by omega) fun _ => ?_
  refine (ccnbMkHeader_lays (by omega) rfl).bind Nat.le_of_lt fun _ => ?_
  have hend : a + (0 + (ccnbHdr num tt).length + (ccnbHdr (ccnbIntSize val bytes) ccnTtBlob).length) +
      ccnbIntSize val bytes + 1 = a + (ccnbBinaryInt num tt val bytes).length := by omega
  rw [hend]
  exact .ask Nat.not_le.symm (.next (by omega) (.last (by omega) (by omega)))

theorem ccnbMkComponent_lays (hb : b = a)
    (hr : retlen + (ccnbField1 ccnDtagComponent val).length = r) :
    Lays a bufend (a + (ccnbField1 ccnDtagComponent val).length < bufend)
      (ccnbField1 ccnDtagComponent val) r (ccnbMkComponent val b bufend retlen) := by
  subst hb hr
  rw [ccnbField1_eq]
  have hlen := @length_ccnbTyped ccnDtagComponent ccnTtBlob val
  refine headers_lays b 0 rfl (fun h => by omega) fun _ => ?_
  exact .ask (by omega) (.next (by omega) (.last (by omega) (by omega)))

theorem ccnbMkComponents_lays {vs : List (List UInt8)} (hb : b + len = a) (ha : a < bufend)
    (hr : len + (ccnbComps vs).length = r) :
    Lays a bufend (a + (ccnbComps vs).length < bufend) (ccnbComps vs) r
      (vs.foldlM (fun len comp => ccnbMkComponent comp (b + len) bufend len) len) := by
  induction vs generalizing a len with
  | nil =>
    subst hr
    exact (Lays.pure _ a bufend).congr (iff_of_true ha trivial)
  | cons v vs ih =>
    have hcons : ccnbComps (v :: vs) = ccnbField1 ccnDtagComponent v ++ ccnbComps vs := rfl
    have hlen := @List.length_append _ (ccnbField1 ccnDtagComponent v) (ccnbComps vs)
    rw [hcons] at hr ⊢
    rw [List.foldlM_cons]
    refine (ccnbMkComponent_lays hb rfl).andThen (by omega) fun hlt => ?_
    exact (ih (by omega) hlt (by omega)).congr (by omega)

theorem ccnbMkName_lays (hb : b = a) (hr : retlen + (ccnbNameBytes name).length = r) :
    Lays a bufend (a + (ccnbNameBytes name).length < bufend) (ccnbNameBytes name) r
      (ccnbMkName name b bufend retlen) := by
  subst hb hr
  have hlen : (ccnbNameBytes name).length =
      (ccnbHdr ccnDtagName ccnTtDtag).length + ((ccnbComps name.comps).length + 1) := by
    simp only [ccnbNameBytes, List.length_append, List.length_singleton]
  refine (ccnbMkHeader_lays rfl rfl).andThen (by omega) fun hlt => ?_
  refine (ccnbMkComponents_lays (by omega) hlt rfl).andThen (by omega) fun _ => ?_
  exact .ask (by omega) (.last (by omega) (by omega))

theorem ccnbFillNonce_lays (hb : b + len = a) (ha : a < bufend)
    (hr : len + (ccnbNonce nonce).length = r) :
    Lays a bufend (a + (ccnbNonce nonce).length < bufend) (ccnbNonce nonce) r
      (ccnbFillNonce nonce b bufend len) := by
  subst hr
  cases nonce with
  | none => exact (Lays.pure _ a bufend).congr (iff_of_true ha trivial)
  | some w =>
    have hw := length_wordBytes w
    have hbytes : ccnbNonce (some w) =
        ccnbHdr ccnDtagNonce ccnTtDtag ++ (ccnbHdr 4 ccnTtBlob ++ wordBytes w) := by
      rw [ccnbNonce, ccnbBlob, hw]
    have hlen : (ccnbNonce (some w)).length =
        (ccnbHdr ccnDtagNonce ccnTtDtag).length + ((ccnbHdr 4 ccnTtBlob).length + 4) := by
      rw [hbytes, List.length_append, List.length_append, hw]
    rw [hlen, hbytes]
    refine headers_lays b len hb (fun h => by omega) fun _ => ?_
    exact .ask (by omega) (.last (by omega) (by omega))

theorem ccnbFillInterest_lays :
    Lays a bufend (a + (ccnbInterest name nonce).length < bufend) (ccnbInterest name nonce)
      (retlen + (ccnbInterest name nonce).length) (ccnbFillInterest name nonce a bufend retlen) := by
  have hlen : (ccnbInterest name nonce).length = (ccnbHdr ccnDtagInterest ccnTtDtag).length +
      ((ccnbNameBytes name).length + ((ccnbNonce nonce).length + 1)) := by
    simp only [ccnbInterest, ccnbInterestElems, List.length_append, List.length_singleton]
  refine (ccnbMkHeader_lays rfl rfl).andThen (by omega) fun _ => ?_
  refine (ccnbMkName_lays (by omega) rfl).andThen (by omega) fun hlt => ?_
  refine (ccnbFillNonce_lays (by omega) hlt rfl).andThen (by omega) fun _ => ?_
  exact .ask (by omega) (.last (by omega) (by omega))

/-- The bytes of a content object up to the payload. -/
def ccnbContentHead (name : Prefix) (data : List UInt8) : List UInt8 :=
  ccnbHdr ccnDtagContentobj ccnTtDtag ++ (ccnbNameBytes name ++
    (ccnbHdr ccnDtagContent ccnTtDtag ++ ccnbHdr data.length ccnTtBlob))

theorem ccnbFillContent_lays :
    Lays a bufend (a + (ccnbContentHead name data).length + 2 < bufend) (ccnbContent name data)
      (retlen + (ccnbContent name data).length, (ccnbContentHead name data).length)
      (ccnbFillContent name data a bufend retlen) := by
  have hhead : (ccnbContentHead name data).length = (ccnbHdr ccnDtagContentobj ccnTtDtag).length +
      ((ccnbNameBytes name).length + ((ccnbHdr ccnDtagContent ccnTtDtag).length +
        (ccnbHdr data.length ccnTtBlob).length)) := by
    simp only [ccnbContentHead, List.length_append]
  have hbytes : ccnbContent name data = ccnbHdr ccnDtagContentobj ccnTtDtag ++
      (ccnbNameBytes name ++ (ccnbHdr ccnDtagContent ccnTtDtag ++
        (ccnbHdr data.length ccnTtBlob ++ (data ++ ([0] ++ [0]))))) := by
    simp only [ccnbContent, ccnbContentElems, ccnbField1, ccnbBlob, List.append_assoc]
  have hlen : (ccnbContent name data).length =
      (ccnbContentHead name data).length + (data.length + 2) := by
    rw [hbytes, hhead]
    simp only [List.length_append, List.length_singleton]
    omega
  rw [hlen, hbytes]
  refine (ccnbMkHeader_lays rfl rfl).andThen (by omega) fun _ => ?_
  refine (ccnbMkName_lays (by omega) rfl).andThen (by omega) fun _ => ?_
  refine headers_lays a _ (by omega) (fun h => by omega) fun _ => ?_
  have hone : ([0] : List UInt8).length = 1 := rfl
  refine .ask (by omega) (.next (by omega) (.next (by omega) (.last (by omega) ?_)))
  exact Prod.ext (by simp only; omega) (by simp only; omega)

/-! ## The encoder into a buffer that is checked -/

/-- Where the encoder into a `Front` writes an Interest, so does this one. -/
theorem ccnbFillInterest_front {o o' : Front} {n : Nat}
    (h : Ccnl.ccnbFillInterest name nonce bufend o = .ok (o', n)) :
    ccnbFillInterest name nonce o.pos bufend 0 [] = .ok n (places o.pos (ccnbInterest name nonce)) := by
  obtain ⟨hwrote, rfl⟩ := ccnbFillInterest_wrote h
  obtain ⟨o₁, -, h⟩ := (bind_eq_ok _ _ _).mp h
  obtain ⟨o₂, -, h⟩ := (bind_eq_ok _ _ _).mp h
  obtain ⟨o₃, -, h⟩ := (bind_eq_ok _ _ _).mp h
  split at h
  · simp at h
  rename_i hroom
  obtain ⟨o₄, h₄, h⟩ := (bind_eq_ok _ _ _).mp h
  obtain ⟨rfl, -⟩ := Prod.mk.inj ((pure_eq_ok _ _).mp h)
  have hend : o₄.pos = o₃.pos + 1 := (Front.app_wrote h₄).pos
  have hall := hwrote.pos
  have hdone := (@ccnbFillInterest_lays o.pos bufend 0 name nonce).done (by omega) []
  rwa [Nat.zero_add, List.nil_append] at hdone

theorem ccnbFillContent_front {o o' : Front} {n contentpos : Nat}
    (h : Ccnl.ccnbFillContent name data bufend o = .ok (o', contentpos, n)) :
    ccnbFillContent name data o.pos bufend 0 [] =
      .ok (n, (ccnbContentHead name data).length) (places o.pos (ccnbContent name data)) := by
  obtain ⟨-, rfl⟩ := ccnbFillContent_wrote h
  obtain ⟨o₁, h₁, h⟩ := (bind_eq_ok _ _ _).mp h
  obtain ⟨o₂, h₂, h⟩ := (bind_eq_ok _ _ _).mp h
  obtain ⟨o₃, h₃, h⟩ := (bind_eq_ok _ _ _).mp h
  obtain ⟨o₄, h₄, h⟩ := (bind_eq_ok _ _ _).mp h
  dsimp only at h
  split at h
  · simp at h
  rename_i hroom
  have hname := (Ccnl.ccnbMkHeader_wrote h₁).append (Ccnl.ccnbMkName_wrote h₂)
  have hhead := (hname.append (Ccnl.ccnbMkHeader_wrote h₃)).append (Ccnl.ccnbMkHeader_wrote h₄)
  have hpos : o₄.pos = o.pos + (ccnbContentHead name data).length := by
    rw [hhead.pos, ccnbContentHead, List.append_assoc, List.append_assoc]
  have hdone := (@ccnbFillContent_lays o.pos bufend 0 data name).done (by omega) []
  rwa [Nat.zero_add, List.nil_append] at hdone

end Lays

/-! ## The buffer -/

section InBuffer

variable {out bufend retlen : Nat}

theorem ccnbTyped_ne_nil {num typ : Nat} {data : List UInt8} : ccnbTyped num typ data ≠ [] := by
  simp [ccnbTyped]

/-- The headers of a field do not leave room for one byte, or the whole field fits. -/
def FieldRoom (out bufend num typ : Nat) (data : List UInt8) : Prop :=
  bufend ≤ out + (ccnbHdr num ccnTtDtag).length + (ccnbHdr data.length typ).length + 1 ∨
    out + (ccnbTyped num typ data).length ≤ bufend

instance (out bufend num typ : Nat) (data : List UInt8) :
    Decidable (FieldRoom out bufend num typ data) := inferInstanceAs (Decidable (_ ∨ _))

theorem ccnbMkField_inBuffer_iff (num typ : Nat) (data : List UInt8) :
    InBuffer id out bufend retlen (ccnbTyped num typ data)
        (ccnbMkField out bufend num typ data retlen) ↔ FieldRoom out bufend num typ data := by
  rw [inBuffer_iff ccnbMkField_lays rfl ccnbTyped_ne_nil, Nat.not_lt]
  rfl

/-- An encoder that asks for all that it writes. -/
theorem inBuffer_of_lays {enc : List UInt8} {m : StoreM Nat} {r : Nat}
    (h : Lays out bufend (out + enc.length < bufend) enc r m) (hr : r = retlen + enc.length)
    (hne : enc ≠ []) : InBuffer id out bufend retlen enc m :=
  (inBuffer_iff h hr hne).mpr (by omega)

theorem ccnbMkBinaryInt_inBuffer_iff (num tt : Nat) (val bytes : UInt64) (hend : bufend < 2 ^ 64) :
    InBuffer id out bufend retlen (ccnbBinaryInt num tt val bytes)
        (ccnbMkBinaryInt out bufend num tt val bytes retlen) ↔
      out + (ccnbBinaryInt num tt val bytes).length < 2 ^ 64 ∨
        bufend ≤ out + (ccnbHdr num tt).length +
          (ccnbHdr (ccnbIntSize val bytes) ccnTtBlob).length ∨
        bufend ≤ (out + (ccnbBinaryInt num tt val bytes).length) % 2 ^ 64 := by
  rw [inBuffer_iff ccnbMkBinaryInt_lays rfl (by simp [ccnbBinaryInt])]
  omega

theorem ccnbFillContent_inBuffer_iff (name : Prefix) (data : List UInt8) :
    InBuffer Prod.fst out bufend retlen (ccnbContent name data)
        (ccnbFillContent name data out bufend retlen) ↔
      bufend ≤ out + (ccnbContentHead name data).length + 2 ∨
        out + (ccnbContent name data).length ≤ bufend := by
  rw [inBuffer_iff ccnbFillContent_lays rfl (by simp [ccnbContent, ccnbHdr]), Nat.not_lt]

/-- Which encoders keep to the buffer. Those of headers, blobs, components, names and Interests do. A
field does exactly when its headers leave no room for one byte or it fits, and a content object when
its headers and its Name leave no room for two bytes or it fits. The encoder of binary numbers does
exactly when the end of the number does not wrap around to an address in front of `bufend`, or its
headers do not fit. -/
theorem encoders_inBuffer_iff (out retlen : Nat) (hend : bufend < 2 ^ 64) :
    (∀ num tt, InBuffer id out bufend retlen (ccnbHdr num tt)
      (ccnbMkHeader out bufend num tt retlen)) ∧
    (∀ cp, InBuffer id out bufend retlen (ccnbBlob cp) (ccnbAddBlob out bufend cp retlen)) ∧
    (∀ num typ data, InBuffer id out bufend retlen (ccnbTyped num typ data)
      (ccnbMkField out bufend num typ data retlen) ↔ FieldRoom out bufend num typ data) ∧
    (∀ num tt cp, InBuffer id out bufend retlen (ccnbTyped num ccnTtBlob cp)
      (ccnbMkBlob out bufend num tt cp retlen) ↔ FieldRoom out bufend num ccnTtBlob cp) ∧
    (∀ num tt str, InBuffer id out bufend retlen (ccnbTyped num ccnTtBlob str)
      (ccnbMkStrBlob out bufend num tt str retlen) ↔ FieldRoom out bufend num ccnTtBlob str) ∧
    (∀ num tt val bytes, InBuffer id out bufend retlen (ccnbBinaryInt num tt val bytes)
      (ccnbMkBinaryInt out bufend num tt val bytes retlen) ↔
        out + (ccnbBinaryInt num tt val bytes).length < 2 ^ 64 ∨
        bufend ≤ out + (ccnbHdr num tt).length +
          (ccnbHdr (ccnbIntSize val bytes) ccnTtBlob).length ∨
        bufend ≤ (out + (ccnbBinaryInt num tt val bytes).length) % 2 ^ 64) ∧
    (∀ val, InBuffer id out bufend retlen (ccnbField1 ccnDtagComponent val)
      (ccnbMkComponent val out bufend retlen)) ∧
    (∀ name, InBuffer id out bufend retlen (ccnbNameBytes name)
      (ccnbMkName name out bufend retlen)) ∧
    (∀ name nonce, InBuffer id out bufend retlen (ccnbInterest name nonce)
      (ccnbFillInterest name nonce out bufend retlen)) ∧
    ∀ name data, InBuffer Prod.fst out bufend retlen (ccnbContent name data)
      (ccnbFillContent name data out bufend retlen) ↔
        bufend ≤ out + (ccnbContentHead name data).length + 2 ∨
        out + (ccnbContent name data).length ≤ bufend := by
  refine ⟨fun num tt => ?_, fun cp => ?_, ccnbMkField_inBuffer_iff, fun num tt cp => ?_,
    fun num tt str => ?_, fun num tt val bytes => ?_, fun val => ?_, fun name => ?_,
    fun name nonce => ?_, ccnbFillContent_inBuffer_iff⟩
  · exact inBuffer_of_lays (ccnbMkHeader_lays rfl rfl) rfl (by simp [ccnbHdr])
  · exact inBuffer_of_lays ccnbAddBlob_lays rfl (by simp [ccnbBlob, ccnbHdr])
  · exact ccnbMkField_inBuffer_iff num ccnTtBlob cp
  · exact ccnbMkField_inBuffer_iff num ccnTtBlob str
  · exact ccnbMkBinaryInt_inBuffer_iff num tt val bytes hend
  · exact inBuffer_of_lays (ccnbMkComponent_lays rfl rfl) rfl (by simp [ccnbField1])
  · exact inBuffer_of_lays (ccnbMkName_lays rfl rfl) rfl (by simp [ccnbNameBytes])
  · exact inBuffer_of_lays ccnbFillInterest_lays rfl (by simp [ccnbInterest, ccnbHdr])

/-- In a buffer of 16 bytes a field of two bytes keeps to it. -/
theorem encoders_inBuffer_small : InBuffer id 4096 4112 0 (ccnbTyped ccnDtagContent ccnTtBlob [1, 2])
    (ccnbMkBlob 4096 4112 ccnDtagContent ccnTtDtag [1, 2] 0) :=
  ((encoders_inBuffer_iff 4096 0 (by decide : 4112 < 2 ^ 64)).2.2.2.1 _ _ _).mpr (by decide)

/-- In the same buffer a field of 100 bytes is written. -/
theorem field_overflows : ¬ ∀ (out bufend num tt : Nat) (cp : List UInt8) (retlen : Nat),
    InBuffer id out bufend retlen (ccnbTyped num ccnTtBlob cp)
      (ccnbMkBlob out bufend num tt cp retlen) := by
  intro h
  have hroom := (ccnbMkField_inBuffer_iff ccnDtagContent ccnTtBlob (List.replicate 100 0)).mp
    (h 4096 4112 ccnDtagContent ccnTtDtag (List.replicate 100 0) 0)
  exact absurd hroom (by decide)

end InBuffer

end Ccnl.OnStore
