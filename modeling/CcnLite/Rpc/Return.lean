import CcnLite.Fwd.Dispatch
import CcnLite.Pkt.NdntlvLocal
import CcnLite.Rpc.Roundtrip

/-!
# The reply to an RPC request (`ccnl-localrpc.c`, `ccnl-pkt-switch.c`)

`ccnl_emit_RpcReturn` makes a buffer for the reply before it has the reply: as long as the reason,
and 50 bytes for all the rest; the size of the content is added, or put in the place of that if the
content has bytes of its own. The reply is serialised as a sequence, and its first byte is changed.

* `emitRpcReturn`: the bytes that are enqueued.
* `Delivered`: the code switch, and an encoding that is decoded to the reply.
* `Fits`: the condition on what the reply is made of.
-/

namespace Ccnl

open CRun

/-! ## The functions -/

/-- `CCNL_ENC_LOCALRPC`. -/
def encLocalrpc : Nat := 3

/-- `ccnl_switch_prependCodeVal`, the same as `ccnl_ndntlv_prependTLval`. -/
def switchPrependCodeVal (val : Nat) (o : Back) : Run Back := ndntlvPrependTLval val o

/-- `ccnl_switch_prependCoding`. -/
def switchPrependCoding (code : Nat) (o : Back) : Run Back := do
  if o.offset < 2 then throw .bail
  let o ← switchPrependCodeVal code o
  if o.offset < 1 then throw .bail
  o.put 0x80

/-- The nonce, the result code, the reason and the content become the parts of `seq`. The code is
converted to `uint64_t`. -/
def appendReturn (seq : Rdr) (nonce : Span) (rc : Int32) (reason : Span) (content : Option Rdr) :
    Rdr :=
  let seq := seqAppend seq (mkNonce nonce)
  let seq := seqAppend seq (mkNonNegInt rc.toInt64.toUInt64.toNat)
  let seq := seqAppend seq (mkStr reason)
  match content with
  | none => seq
  | some content => seqAppend seq content

/-- The length of the buffer, and the content with its sizes; `none` for a failure. -/
def returnLen (reason : Span) (content : Option Rdr) : Option (Option Rdr × Nat) :=
  let len := u64 (reason.len + 50)
  match content with
  | none => some (none, len)
  | some content => (getFlatLen false content len).map fun (content, len) => (some content, len)

/-- `ccnl_emit_RpcReturn` up to `ccnl_face_enqueue`, when there is memory: the packet, or `none` for
a failure. The nonce is what `nonce->aux` points to, and `raw` is what stands in the buffer at first.
`stack` and `junk` are those of `serialize`. -/
def emitRpcReturn (stack : Nat → Nat) (junk : Nat) (mem : List UInt8) (raw : Nat → UInt8)
    (nonce : Span) (rc : Int32) (reason : Span) (content : Option Rdr) :
    Run (Option (List UInt8)) :=
  match returnLen reason content with
  | none => return none
  | some (content, len) => do
    let pkt := (List.range len).map raw
    let seq := appendReturn mkSeq nonce rc reason content
    match ← attempt (switchPrependCoding encLocalrpc (.room 10)) with
    | none => return none
    | some tmp =>
      let o ← Front.app (tmp.buf.drop tmp.offset) ⟨pkt, 0⟩
      match ← serialize stack junk mem seq (o.mem.drop o.pos) (sub64 len o.pos) with
      | none => return none
      | some (data, len) =>
        let p ← Front.app [UInt8.ofNat RdrType.reply.code.toNat] ⟨data, 0⟩
        return some (o.mem.take o.pos ++ p.mem.take len)

/-! ## What is asked of them -/

/-- The reply as a term. -/
def replyTerm (nonce : Span) (rc : Int32) (reason : Span) (content : Option Rdr) : Rdr :=
  appendReturn (.node { type := .reply } .null .null .null) nonce rc reason content

/-- The packet is the code switch and, behind it, an encoding that is decoded to the reply. -/
def Delivered (stack : Nat → Nat) (junk : Nat) (mem : List UInt8) (raw : Nat → UInt8)
    (nonce : Span) (rc : Int32) (reason : Span) (content : Option Rdr) : Prop :=
  ∃ bytes c r t, emitRpcReturn stack junk mem raw nonce rc reason content = .ok (some bytes) ∧
    switchDehead bytes ⟨0, bytes.length⟩ = .ok (some (encLocalrpc, c)) ∧
    getType bytes (unserialize c.pos c.len) = .ok (r, t) ∧ 0 ≤ r ∧ t.flatlen = c.len ∧
    SameTerm mem bytes (replyTerm nonce rc reason content) t

/-- The bytes of the content. -/
def contentBytes (mem : List UInt8) (content : Option Rdr) : List UInt8 :=
  match content with
  | none => []
  | some content => content.enc mem

/-- The bytes of the elements of the reply. -/
def returnBytes (mem : List UInt8) (nonce : Span) (rc : Int32) (reason : Span)
    (content : Option Rdr) : List UInt8 :=
  (mkNonce nonce).enc mem ++ ((mkNonNegInt rc.toInt64.toUInt64.toNat).enc mem ++
    ((mkStr reason).enc mem ++ contentBytes mem content))

/-- There is room in the buffer, and the elements have a size that can be decoded. -/
def Fits (mem : List UInt8) (nonce : Span) (rc : Int32) (reason : Span) (content : Option Rdr) :
    Prop :=
  let v := returnBytes mem nonce rc reason content
  2 + (ndnTLV RdrType.reply.code.toNat v).length ≤
      reason.len + 50 + (contentBytes mem content).length ∧ v.length < 2 ^ 32

/-! ## What is written where -/

section Written

variable {mem a b c buf out : List UInt8} {o o' : Front} {bs : List UInt8} {p q n : Nat} {t : Rdr}
  {stack : Nat → Nat} {ty : RdrType}

/-- The memory has kept its length, and what is below `p`. -/
structure Below (p : Nat) (a b : List UInt8) : Prop where
  length : b.length = a.length
  take : b.take p = a.take p

theorem Below.refl (p : Nat) (a : List UInt8) : Below p a a := ⟨rfl, rfl⟩

theorem Below.mono (h : Below q a b) (hle : p ≤ q) : Below p a b where
  length := h.length
  take := by
    have htake := congrArg (List.take p) h.take
    rwa [List.take_take, List.take_take, Nat.min_eq_left hle] at htake

theorem Below.trans (h : Below p a b) (h' : Below p b c) : Below p a c :=
  ⟨h'.length.trans h.length, h'.take.trans h.take⟩

/-- Bytes below the place stay. -/
theorem Below.keeps (h : Below q a b) (hat : At a p bs) (hle : p + bs.length ≤ q) :
    At b p bs := by
  have hwrote : Front.Wrote ⟨a, q⟩ ⟨b, q⟩ [] := ⟨rfl, at_nil, h.take⟩
  exact hwrote.keeps hat hle

theorem Front.app_below (h : Front.app bs o = .ok o') :
    Below o.pos o.mem o'.mem ∧ o'.pos = o.pos + bs.length := by
  refine ⟨⟨?_, (Front.app_wrote h).take⟩, (Front.app_wrote h).pos⟩
  unfold Front.app at h
  split at h
  · rename_i hle
    cases h
    rcases hle with rfl | hle
    · simp
    · exact Front.length_splice hle
  · cases h

/-- A header is written. -/
theorem fillTandL_below (h : fillTandL ty n o = .ok o') :
    Below o.pos o.mem o'.mem ∧ o'.pos = o.pos + (ndnTL ty.code.toNat n).length ∧
      At o'.mem o.pos (ndnTL ty.code.toNat n) := by
  obtain ⟨o₁, h₁, h₂⟩ := (bind_eq_ok _ _ _).mp h
  have hw₁ : Front.Wrote o o₁ (ndnTLval ty.code.toNat) := Front.app_wrote h₁
  have hw₂ : Front.Wrote o₁ o' (ndnTLval n) := Front.app_wrote h₂
  have hf₁ := (Front.app_below h₁).1
  have hf₂ := (Front.app_below h₂).1
  have hpos₁ := hw₁.pos
  have hpos₂ := hw₂.pos
  have hlen : (ndnTL ty.code.toNat n).length =
      (ndnTLval ty.code.toNat).length + (ndnTLval n).length := List.length_append
  refine ⟨hf₁.trans (hf₂.mono (by omega)), by omega, at_append.mpr ⟨?_, ?_⟩⟩
  · exact hf₂.keeps hw₁.at_pos (by omega)
  · rw [← hpos₁]
    exact hw₂.at_pos

/-- What `ccnl_rdr_serialize_fill` writes is behind the place that it is given. -/
theorem serializeFill_below {more : Bool} (h : serializeFill stack mem more t p buf = .ok out) :
    Below p buf out := by
  induction t generalizing more p buf out with
  | null =>
    cases h
    exact .refl _ _
  | node d u aux next ihu ihaux ihnext =>
    rw [serializeFill] at h
    obtain ⟨buf₁, h₁, h⟩ := (bind_eq_ok _ _ _).mp h
    have hnode : Below p buf buf₁ := by
      split at h₁
      · obtain ⟨o₁, ho₁, h₁⟩ := (bind_eq_ok _ _ _).mp h₁
        obtain ⟨bs, -, h₁⟩ := (bind_eq_ok _ _ _).mp h₁
        obtain ⟨o₂, ho₂, h₁⟩ := (bind_eq_ok _ _ _).mp h₁
        cases h₁
        obtain ⟨hf, hpos, -⟩ := fillTandL_below ho₁
        dsimp only at hf hpos
        exact hf.trans ((Front.app_below ho₂).1.mono (by omega))
      split at h₁
      · obtain ⟨o₁, ho₁, h₁⟩ := (bind_eq_ok _ _ _).mp h₁
        obtain ⟨o₂, ho₂, h₁⟩ := (bind_eq_ok _ _ _).mp h₁
        cases h₁
        exact (fillTandL_below ho₁).1.trans ((Front.app_below ho₂).1.mono (Nat.le_add_right p 2))
      split at h₁
      · split at h₁
        · cases h₁
          exact .refl _ _
        · obtain ⟨o₁, ho₁, h₁⟩ := (bind_eq_ok _ _ _).mp h₁
          obtain ⟨hf, hpos, -⟩ := fillTandL_below ho₁
          dsimp only at hf hpos
          refine hf.trans ?_
          split at h₁
          · obtain ⟨buf₂, h₂, h₁⟩ := (bind_eq_ok _ _ _).mp h₁
            exact ((ihu h₂).mono (by omega)).trans ((ihaux h₁).mono (by omega))
          · exact (ihaux h₁).mono (by omega)
      · cases h₁
        exact .refl _ _
    split at h
    · exact hnode.trans ((ihnext h).mono (by omega))
    · cases h
      exact hnode

/-- The header of a sequence has the length that the parts are measured with. -/
theorem serializeFill_head {d : RdrFields} {aux : Rdr} {m : Nat} (hd : d.type = .sequence)
    (hm : fillLen stack d .null aux p = some m)
    (h : serializeFill stack mem false (.node d .null aux .null) p buf = .ok out) :
    At out p (ndnTL RdrType.sequence.code.toNat m) := by
  rw [serializeFill, hd, if_neg (by decide), if_neg (by decide), if_pos (by decide), hm] at h
  dsimp only at h
  obtain ⟨buf₁, h₁, h⟩ := (bind_eq_ok _ _ _).mp h
  cases h
  obtain ⟨o, ho, h₁⟩ := (bind_eq_ok _ _ _).mp h₁
  rw [if_neg (by decide)] at h₁
  obtain ⟨hf, hpos, hat⟩ := fillTandL_below ho
  exact (serializeFill_below h₁).keeps hat (Nat.le_of_eq hpos.symm)

end Written

/-! ## What is read -/

section Read

variable {mem mem' out : List UInt8} {p q n v m typ vallen : Nat} {s t : Rdr} {lo hi : Nat}

/-- A number has at most five bytes and is below 2^32. -/
theorem numAt_bound (h : numAt mem p = some (v, q)) : v < 2 ^ 32 ∧ q ≤ p + 5 := by
  unfold numAt at h
  cases hb : mem[p]? with
  | none => simp [hb] at h
  | some b =>
    simp only [hb] at h
    split at h
    · cases h
    obtain ⟨rfl, rfl⟩ := Prod.mk.inj (Option.some.inj h)
    have hsize : numSize b ≤ 5 := by
      unfold numSize
      split <;> [decide; split <;> [decide; split <;> decide]]
    refine ⟨?_, Nat.add_le_add_left hsize p⟩
    split
    · exact Nat.lt_trans b.toNat_lt (by decide)
    · have hlen : ((mem.drop (p + 1)).take (numSize b - 1)).length ≤ 4 := by
        rw [List.length_take]
        omega
      calc beNat ((mem.drop (p + 1)).take (numSize b - 1))
        _ < 2 ^ (8 * ((mem.drop (p + 1)).take (numSize b - 1)).length) := beNat_lt _
        _ ≤ 2 ^ 32 := Nat.pow_le_pow_right (by decide) (by omega)

/-- What is read where a number was written: a longer number is not read at all. -/
theorem numAt_written (hat : At mem p (ndnTLval m)) (h : numAt mem p = some (v, q)) :
    m < 2 ^ 32 ∧ v = m ∧ q = p + (ndnTLval m).length := by
  rcases Nat.lt_or_ge m (2 ^ 32) with hm | hm
  · have hread := numAt_tlval hm hat
    rw [h] at hread
    obtain ⟨hv, hq⟩ := Prod.mk.inj (Option.some.inj hread)
    exact ⟨hm, hv, hq⟩
  · have hform : tlvalForm m = (8, 255) := by
      rw [tlvalForm, if_neg (by omega), if_neg (by omega), if_neg (by omega)]
    have hfirst := (at_cons.mp hat).1
    rw [hform] at hfirst
    rw [numAt, hfirst] at h
    cases h

/-- An encoding is at most 32 times as long as the bytes of a decoded term like it. -/
theorem enc_le (hp : s.Plain mem) (hsame : SameTerm mem out s t) (ht : Tiles out t lo hi) :
    (s.enc mem).length ≤ 32 * (hi - lo) := by
  induction s generalizing t lo hi with
  | null => exact Nat.zero_le _
  | node d u aux next ihu ihaux ihnext =>
    cases t with
    | null => exact hsame.elim
    | node d' u' aux' next' =>
      obtain ⟨hflat, hser, hv, hpnext⟩ := hp
      obtain ⟨hnode, hsnext⟩ := hsame
      rw [if_neg hser] at hnode
      obtain ⟨htype, -, hblobs, hsu, hsaux⟩ := hnode
      obtain ⟨typ, vallen, q, ⟨-, hhead, -, hsize⟩, hparts, hnext⟩ := ht
      have hq := hhead.lt
      have hrest := ihnext hpnext hsnext hnext
      have hend := hnext.le
      -- the value is no more than 32 times what the decoded one takes, and eight bytes
      have hvalue : (d.value mem (u.enc mem) (aux.enc mem)).length ≤ 32 * vallen + 8 := by
        rcases RdrFields.value_cases mem hser with
          ⟨hint, hcomp, hval⟩ | ⟨hint, hblob, hcomp, hval⟩ | ⟨hint, hblob, hcomp, hval⟩
        · have hle := nonNegIntLen_le d.val
          rw [hval, length_beBytes]
          omega
        · rw [htype, if_neg hcomp] at hparts
          have hdata := hparts.2.2.1 hblob
          have hlen : (d'.data.bytes out).length ≤ vallen := by
            rw [hdata]
            exact List.length_take_le _ _
          rw [hval, ← hblobs hblob]
          omega
        · rw [htype, if_pos hcomp] at hparts
          rw [if_pos hcomp] at hv
          obtain ⟨-, -, mid, htu, htaux⟩ := hparts
          have hu := ihu hv.2.2.1 hsu htu
          have haux := ihaux hv.2.2.2 hsaux htaux
          have h₁ := htu.le
          have h₂ := htaux.le
          rw [hval, List.length_append]
          omega
      have hcode := length_ndnTLval d.type.code.toNat
      have hlen := length_ndnTLval (d.value mem (u.enc mem) (aux.enc mem)).length
      rw [Rdr.enc, ndnTLV, ndnTL, List.length_append, List.length_append, List.length_append]
      omega

/-- A decoded term covers its bytes, and its size is in its header. -/
theorem getType_head {r : Int} (h : getType mem (unserialize p n) = .ok (r, t)) (hr : 0 ≤ r) :
    Tiles mem t p (p + t.flatlen) ∧
      ∃ typ vallen q, LrpcHead mem p typ vallen q ∧ t.flatlen = q - p + vallen := by
  have hwell : DecodesWell mem p n (getType mem (unserialize p n)) :=
    getTypeFrom_tiles (Nat.lt_succ_self n)
  obtain ⟨-, hne, -, htiles⟩ := hwell.tiles r t h hr
  refine ⟨htiles, ?_⟩
  cases t with
  | null => exact absurd rfl hne
  | node d u aux next =>
    obtain ⟨typ, vallen, q, ⟨-, hhead, -, hlen⟩, -⟩ := htiles
    exact ⟨typ, vallen, q, hhead, hlen⟩

end Read

/-! ## The reply -/

/-- The elements of the reply. -/
def returnParts (nonce : Span) (rc : Int32) (reason : Span) (content : Option Rdr) : Rdr :=
  .node { type := .nonce, data := nonce } .null .null
    (.node { type := .nonnegint, val := rc.toInt64.toUInt64.toNat } .null .null
      (.node { type := .str, data := reason } .null .null (content.getD .null)))

section Reply

variable {stack : Nat → Nat} {junk : Nat} {mem bytes : List UInt8} {raw : Nat → UInt8}
  {nonce reason : Span} {rc : Int32} {content : Option Rdr} {n len : Nat}

theorem appendReturn_node (d : RdrFields) :
    appendReturn (.node d .null .null .null) nonce rc reason content =
      .node d .null (returnParts nonce rc reason content) .null := by
  cases content <;> rfl

theorem enc_returnParts :
    (returnParts nonce rc reason content).enc mem = returnBytes mem nonce rc reason content := by
  cases content <;>
    simp [returnParts, returnBytes, contentBytes, mkNonce, mkNonNegInt, mkStr, Rdr.enc]

/-- To measure a term again changes nothing. -/
theorem getFlatLen_again {t t' : Rdr} {more : Bool} {acc : Nat}
    (h : getFlatLen more t acc = some (t', n)) : getFlatLen more t' acc = some (t', n) := by
  induction t generalizing t' more acc n with
  | null =>
    cases more with
    | false => cases h
    | true => cases h; rfl
  | node d u aux next ihu ihaux ihnext =>
    rw [getFlatLen] at h
    obtain ⟨⟨d', u', aux', len⟩, hnode, h⟩ := Option.bind_eq_some_iff.mp h
    obtain ⟨⟨next', len'⟩, hnext, h⟩ := Option.bind_eq_some_iff.mp h
    cases h
    rw [getFlatLen]
    refine Option.bind_eq_some_iff.mpr ⟨(d', u', aux', len), ?_,
      Option.bind_eq_some_iff.mpr ⟨(next', n), ?_, rfl⟩⟩
    · split at hnode
      · rename_i hflat
        cases hnode
        rw [if_pos hflat]
      rename_i hflat
      split at hnode
      · rename_i hint
        cases hnode
        rw [if_neg hflat, if_pos hint]
      rename_i hint
      split at hnode
      · rename_i hblob
        cases hnode
        rw [if_neg hflat, if_neg hint, if_pos hblob]
      rename_i hblob
      split at hnode
      · rename_i hcomp
        -- the parts are measured from 0 both times
        obtain ⟨⟨u₁, len₁⟩, hu, hnode⟩ := Option.bind_eq_some_iff.mp hnode
        obtain ⟨⟨aux₁, len₂⟩, haux, hnode⟩ := Option.bind_eq_some_iff.mp hnode
        cases hnode
        rw [if_neg hflat, if_neg hint, if_neg hblob, if_pos hcomp]
        refine Option.bind_eq_some_iff.mpr ⟨(u', len₁), ?_,
          Option.bind_eq_some_iff.mpr ⟨(aux', len₂), ihaux haux, rfl⟩⟩
        split at hu
        · rename_i hfirst
          rw [if_pos hfirst]
          exact ihu hu
        · rename_i hfirst
          cases hu
          rw [if_neg hfirst]
      · cases hnode
    · cases more with
      | false => cases hnext; rfl
      | true => exact ihnext hnext

theorem getFlatLen_sequence (aux : Rdr) (acc : Nat) :
    getFlatLen false (.node { type := .sequence } .null aux .null) acc =
      (getFlatLen true aux 0).map fun (aux, n) =>
        (.node { type := .sequence, flatlen := lrpcTLVlen .sequence n } .null aux .null,
          u64 (acc + lrpcTLVlen .sequence n)) := by
  cases h : getFlatLen true aux 0 with
  | none => simp [getFlatLen, RdrType.IsBlob, RdrType.IsComposite, RdrType.HasFirst, h]
  | some x => simp [getFlatLen, RdrType.IsBlob, RdrType.IsComposite, RdrType.HasFirst, h]

/-- The first byte is changed. -/
theorem app_first {b : UInt8} {data : List UInt8} {p : Front} :
    Front.app [b] ⟨data, 0⟩ = .ok p ↔ 1 ≤ data.length ∧ p = ⟨b :: data.drop 1, 1⟩ := by
  rw [Front.app]
  split
  · rename_i h
    have hle : 1 ≤ data.length := by simpa using h
    rw [Except.ok.injEq, eq_comm, and_iff_right hle]
    rfl
  · rename_i h
    refine iff_of_false nofun fun h' => h (.inr ?_)
    simpa using h'.1

/-- What a packet is made of. -/
theorem emitRpcReturn_eq_some :
    emitRpcReturn stack junk mem raw nonce rc reason content = .ok (some bytes) ↔
      ∃ content' len data res, returnLen reason content = some (content', len) ∧ 2 ≤ len ∧
        serialize stack junk mem (appendReturn mkSeq nonce rc reason content')
          (((List.range len).map raw).drop 2) (sub64 len 2) = .ok (some (data, res)) ∧
        1 ≤ data.length ∧ bytes = 0x80 :: 3 :: (0x82 :: data.drop 1).take res := by
  obtain ⟨tmp, htmp, hswitch⟩ : ∃ tmp, switchPrependCoding encLocalrpc (.room 10) = .ok tmp ∧
    tmp.buf.drop tmp.offset = [0x80, 3] := exists_ok (by decide)
  unfold emitRpcReturn
  cases hlen : returnLen reason content with
  | none => simp
  | some x =>
    obtain ⟨content', len⟩ := x
    simp only [htmp, attempt_ok, ok_bind, hswitch]
    rcases Nat.lt_or_ge len 2 with hlt | hge
    · have happ : Front.app [0x80, 3] ⟨(List.range len).map raw, 0⟩ = .error (.oob len) := by
        rw [Front.app, if_neg]
        · simp
        · simp
          omega
      rw [happ, error_bind]
      simp
      omega
    · have happ : Front.app [0x80, 3] ⟨(List.range len).map raw, 0⟩ =
          .ok ⟨[0x80, 3] ++ ((List.range len).map raw).drop 2, 2⟩ := Front.app_eq (by simp; omega)
      rw [happ, ok_bind]
      constructor
      · intro h
        obtain ⟨x, hx, h⟩ := (bind_eq_ok _ _ _).mp h
        cases x with
        | none => cases h
        | some x =>
          obtain ⟨p, hp, h⟩ := (bind_eq_ok _ _ _).mp h
          obtain ⟨hdata, rfl⟩ := app_first.mp hp
          cases h
          exact ⟨content', len, x.1, x.2, rfl, hge, hx, hdata, rfl⟩
      · rintro ⟨_, _, data, res, ⟨⟩, -, hser, hdata, rfl⟩
        refine (bind_eq_ok _ _ _).mpr ⟨some (data, res), hser, ?_⟩
        exact (bind_eq_ok _ _ _).mpr ⟨_, app_first.mpr ⟨hdata, rfl⟩, rfl⟩

theorem switchDehead_localrpc (bs : List UInt8) :
    switchDehead (0x80 :: 3 :: bs) ⟨0, (0x80 :: 3 :: bs).length⟩ =
      .ok (some (encLocalrpc, ⟨2, bs.length⟩)) := by
  rw [switchDehead, if_neg (by simp)]
  rfl

/-- The first bytes of a memory. -/
theorem agree_take (mem : List UInt8) (k : Nat) :
    Agree (mem.take k) mem 0 0 (mem.take k).length where
  le := Nat.le_of_eq (Nat.zero_add _)
  le' := by
    rw [Nat.zero_add, List.length_take]
    exact Nat.min_le_right _ _
  take := by
    rw [List.drop_zero, List.drop_zero, List.take_length, List.length_take, ← List.take_eq_take_min]

/-- The header of what is decoded has the length that was written. -/
theorem head_written {data : List UInt8} {res typ vallen q : Nat}
    (hat : At data 0 (ndnTL RdrType.sequence.code.toNat n))
    (h : LrpcHead (0x80 :: 3 :: (0x82 :: data.drop 1).take res) 2 typ vallen q) :
    n < 2 ^ 32 ∧ vallen = n ∧ q = 3 + (ndnTLval n).length := by
  obtain ⟨m, h₁, h₂⟩ := h
  have hagree := agree_take (0x80 :: 3 :: 0x82 :: data.drop 1) (res + 2)
  have hfirst := numAt_agree hagree h₁ (numAt_lt h₁).2
  have hlen := numAt_agree hagree h₂ (numAt_lt h₂).2
  have hatfirst : At (0x80 :: 3 :: 0x82 :: data.drop 1) 2 (ndnTLval 0x82) := ⟨data.drop 1, rfl⟩
  obtain ⟨-, -, rfl⟩ := numAt_written hatfirst hfirst
  exact numAt_written (p := 3) (at_append.mp hat).2 hlen

/-- What a packet that is delivered has been made with: `n` is the size of the elements as
`ccnl_rdr_getFlatLen` adds it up. -/
theorem Delivered.sizes (hj : junk < 2 ^ 64)
    (h : Delivered stack junk mem raw nonce rc reason content) :
    ∃ content' len aux n, returnLen reason content = some (content', len) ∧
      getFlatLen true (returnParts nonce rc reason content') 0 = some (aux, n) ∧ n < 2 ^ 32 ∧
      3 + (ndnTLval n).length + n ≤ len ∧ junk = 0 := by
  obtain ⟨bytes, c, r, t, hemit, hswitch, hget, hr, hsize, -⟩ := h
  obtain ⟨content', len, data, res, hlen, hge, hser, hdata, rfl⟩ := emitRpcReturn_eq_some.mp hemit
  rw [switchDehead_localrpc] at hswitch
  cases hswitch
  obtain ⟨-, typ, vallen, q, hhead, hflatlen⟩ := getType_head hget hr
  -- the parts, and the two walks over them
  rw [mkSeq, appendReturn_node, serialize, getFlatLen_sequence] at hser
  cases hparts : getFlatLen true (returnParts nonce rc reason content') 0 with
  | none =>
    rw [hparts] at hser
    cases hser
  | some x =>
    obtain ⟨aux, n⟩ := x
    rw [hparts] at hser
    dsimp only [Option.map_some] at hser
    split at hser
    · cases hser
    rename_i hroom
    obtain ⟨_, hfill, hser⟩ := (bind_eq_ok _ _ _).mp hser
    cases hser
    have hmeasure : fillLen stack { type := .sequence, flatlen := lrpcTLVlen .sequence n } .null
        aux 0 = some n := by
      simp [fillLen, RdrType.HasFirst, getFlatLen_again hparts]
    obtain ⟨hn, rfl, rfl⟩ := head_written (serializeFill_head rfl hmeasure hfill) hhead
    have hlength := (serializeFill_below hfill).length
    rw [List.length_drop, List.length_map, List.length_range] at hlength
    have hnum := length_ndnTLval vallen
    have hcode : (ndnTLval RdrType.sequence.code.toNat).length = 1 := rfl
    have htlv : lrpcTLVlen .sequence vallen = 1 + (ndnTLval vallen).length + vallen := by
      rw [lrpcTLVlen, ← length_tlval, ← length_tlval, hcode, u64]
      exact Nat.mod_eq_of_lt (by omega)
    have hsub : sub64 len 2 ≤ len - 2 := by
      unfold sub64 u64
      omega
    have htake : ((0x82 :: data.drop 1).take (u64 (junk + lrpcTLVlen .sequence vallen))).length =
        min (u64 (junk + lrpcTLVlen .sequence vallen)) (len - 2) := by
      rw [List.length_take, List.length_cons, List.length_drop]
      omega
    rw [htlv] at hroom htake
    rw [htlv, htake, hflatlen] at hsize
    dsimp only at hsize
    unfold u64 at hroom hsize
    exact ⟨content', len, aux, vallen, hlen, hparts, hn, by omega, by omega⟩

/-- A term of parts with nothing in front of them. -/
theorem plain_parts {ty : RdrType} {aux : Rdr} (hty : ty = .sequence ∨ ty = .reply)
    (h : aux.Plain mem) : (Rdr.node { type := ty } .null aux .null).Plain mem := by
  rcases hty with rfl | rfl
  · exact ⟨rfl, by decide, ⟨by decide, rfl, trivial, h⟩, trivial⟩
  · exact ⟨rfl, by decide, ⟨by decide, rfl, trivial, h⟩, trivial⟩

theorem enc_parts {ty : RdrType} (hty : ty = .sequence ∨ ty = .reply) :
    (Rdr.node { type := ty } .null (returnParts nonce rc reason content) .null).enc mem =
      ndnTLV ty.code.toNat (returnBytes mem nonce rc reason content) := by
  rw [← enc_returnParts, Rdr.enc, Rdr.enc, List.append_nil]
  rcases hty with rfl | rfl <;> rfl

/-- A content that the constructors have made, without decoded parts. -/
structure Rdr.Fresh (t : Rdr) (mem : List UInt8) : Prop where
  plain : t.Plain mem
  last : t.nextinseq = .null
  made : t.IsMade

theorem Rdr.Fresh.ne_null {t : Rdr} (h : t.Fresh mem) : t ≠ .null := by
  rintro rfl
  exact h.made

/-- The sequence is written, and becomes the reply. -/
theorem take_reply (buf v : List UInt8) :
    (0x82 :: (Front.splice buf 0 (ndnTLV RdrType.sequence.code.toNat v)).drop 1).take
      (ndnTLV RdrType.sequence.code.toNat v).length = ndnTLV RdrType.reply.code.toNat v := by
  have hseq : ndnTLV RdrType.sequence.code.toNat v = 4 :: (ndnTLval v.length ++ v) := rfl
  have hreply : ndnTLV RdrType.reply.code.toNat v = 0x82 :: (ndnTLval v.length ++ v) := rfl
  rw [hseq, hreply, Front.splice, List.take_zero, List.nil_append, List.cons_append, List.drop_one,
    List.tail_cons, List.length_cons, List.take_succ_cons, List.take_left]

theorem contentBytes_sized : contentBytes mem (content.map (Rdr.sized mem)) =
    contentBytes mem content := by
  cases content with
  | none => rfl
  | some c => exact enc_sized c

theorem returnBytes_sized : returnBytes mem nonce rc reason (content.map (Rdr.sized mem)) =
    returnBytes mem nonce rc reason content := by
  simp only [returnBytes, contentBytes_sized]

theorem plain_sized_content (hc : ∀ c ∈ content, c.Fresh mem) :
    ∀ c ∈ content.map (Rdr.sized mem), c.Plain mem := by
  intro c hmem
  obtain ⟨c, hc', rfl⟩ := Option.map_eq_some_iff.mp hmem
  exact plain_sized (hc c hc').plain

section Fresh

variable (hn : InBuf mem nonce.off nonce.len) (hr : InBuf mem reason.off reason.len)

include hn hr

theorem plain_returnParts (hc : ∀ c ∈ content, c.Plain mem) :
    (returnParts nonce rc reason content).Plain mem := by
  have hcontent : (content.getD .null).Plain mem := by
    cases content with
    | none => trivial
    | some c => exact hc c rfl
  obtain ⟨hnflat, hnser, hnv, -⟩ := @plain_blob mem .nonce nonce (by decide) hn
  obtain ⟨hrflat, hrser, hrv, -⟩ := @plain_blob mem .str reason (by decide) hr
  refine ⟨hnflat, hnser, hnv, rfl, nofun, ⟨rfl, rfl, nofun, fun _ => ?_⟩, hrflat, hrser, hrv,
    hcontent⟩
  exact UInt64.toNat_lt _

/-- The elements of a reply that is delivered are no longer than 2^38 bytes. -/
theorem Delivered.bounded (hc : ∀ c ∈ content, c.Plain mem)
    (h : Delivered stack junk mem raw nonce rc reason content) :
    (returnBytes mem nonce rc reason content).length < 2 ^ 38 := by
  obtain ⟨bytes, c, r, t, -, -, hget, hr', -, hsame⟩ := h
  obtain ⟨htiles, typ, vallen, q, ⟨m, h₁, h₂⟩, hflatlen⟩ := getType_head hget hr'
  rw [replyTerm, appendReturn_node] at hsame
  have hle := enc_le (plain_parts (.inr rfl) (plain_returnParts hn hr hc)) hsame htiles
  obtain ⟨-, hm⟩ := numAt_bound h₁
  obtain ⟨hvallen, hq⟩ := numAt_bound h₂
  have hvalue := length_value_le RdrType.reply.code.toNat (returnBytes mem nonce rc reason content)
  rw [enc_parts (.inr rfl)] at hle
  omega

omit hn in
theorem length_returnBytes_le (rc : Int32) (content : Option Rdr) :
    reason.len + (contentBytes mem content).length ≤
      (returnBytes mem nonce rc reason content).length := by
  have hstr : (mkStr reason).enc mem = ndnTLV RdrType.str.code.toNat (reason.bytes mem) := by
    simp [mkStr, Rdr.enc, RdrFields.value, RdrType.IsBlob]
  have hle := length_value_le RdrType.str.code.toNat (reason.bytes mem)
  rw [length_span hr] at hle
  rw [returnBytes, hstr, List.length_append, List.length_append, List.length_append]
  omega

omit hn in
/-- The buffer for a reply with a fresh content. -/
theorem returnLen_fresh {rc : Int32} (hc : ∀ c ∈ content, c.Fresh mem)
    (hlt : (returnBytes mem nonce rc reason content).length < 2 ^ 38) :
    returnLen reason content = some (content.map (Rdr.sized mem),
      reason.len + 50 + (contentBytes mem content).length) := by
  have hle := @length_returnBytes_le mem nonce reason hr rc content
  have hlen : u64 (reason.len + 50) = reason.len + 50 := Nat.mod_eq_of_lt (by omega)
  cases content with
  | none => rw [returnLen, hlen]; rfl
  | some c =>
    have hfresh := hc c rfl
    have hcontent : contentBytes mem (some c) = c.enc mem := rfl
    rw [hcontent] at hle
    rw [returnLen, hlen, getFlatLen_single hfresh.last hfresh.ne_null,
      getFlatLen_plain hfresh.plain (by omega)]
    rfl

/-- The elements with the content as it is after it has been measured. -/
theorem getFlatLen_returnParts (hc : ∀ c ∈ content, c.Fresh mem)
    (hlt : (returnBytes mem nonce rc reason content).length < 2 ^ 38) :
    ∃ aux, getFlatLen true (returnParts nonce rc reason (content.map (Rdr.sized mem))) 0 =
      some (aux, (returnBytes mem nonce rc reason content).length) := by
  have hplain : (returnParts nonce rc reason (content.map (Rdr.sized mem))).Plain mem :=
    plain_returnParts hn hr (plain_sized_content hc)
  have henc : (returnParts nonce rc reason (content.map (Rdr.sized mem))).enc mem =
      returnBytes mem nonce rc reason content := enc_returnParts.trans returnBytes_sized
  refine ⟨(returnParts nonce rc reason (content.map (Rdr.sized mem))).sized mem, ?_⟩
  rw [getFlatLen_plain hplain (by rw [henc]; omega), henc, Nat.zero_add]

/-- A reply with a fresh content that is delivered fits. -/
theorem Delivered.fits (hc : ∀ c ∈ content, c.Fresh mem) (hj : junk < 2 ^ 64)
    (h : Delivered stack junk mem raw nonce rc reason content) :
    junk = 0 ∧ Fits mem nonce rc reason content := by
  have hlt := h.bounded hn hr fun c hmem => (hc c hmem).plain
  obtain ⟨content', len, aux, n, hlen, hparts, hn32, hle, hjunk⟩ := h.sizes hj
  rw [returnLen_fresh hr hc hlt] at hlen
  cases hlen
  obtain ⟨aux', hparts'⟩ := getFlatLen_returnParts hn hr hc hlt
  rw [hparts'] at hparts
  cases hparts
  refine ⟨hjunk, ?_, hn32⟩
  have hcode : (ndnTLval RdrType.reply.code.toNat).length = 1 := rfl
  rw [ndnTLV, ndnTL, List.length_append, List.length_append, hcode]
  omega

/-- The sequence is written as its encoding. -/
theorem serialize_return {buf : List UInt8} {buflen : Nat} (hc : ∀ c ∈ content, c.Fresh mem)
    (hstack : ∀ i, stack i = 0) (hlt : (returnBytes mem nonce rc reason content).length < 2 ^ 32)
    (hle : (ndnTLV RdrType.sequence.code.toNat
      (returnBytes mem nonce rc reason content)).length ≤ buflen)
    (hle' : buflen ≤ buf.length) :
    serialize stack 0 mem (appendReturn mkSeq nonce rc reason (content.map (Rdr.sized mem))) buf
      buflen = .ok (some (Front.splice buf 0 (ndnTLV RdrType.sequence.code.toNat
        (returnBytes mem nonce rc reason content)), (ndnTLV RdrType.sequence.code.toNat
          (returnBytes mem nonce rc reason content)).length)) := by
  have hparts : (returnParts nonce rc reason (content.map (Rdr.sized mem))).Plain mem :=
    plain_returnParts hn hr (plain_sized_content hc)
  have henc := @enc_parts mem nonce reason rc (content.map (Rdr.sized mem)) .sequence (.inl rfl)
  have hnum := length_ndnTLval (returnBytes mem nonce rc reason content).length
  have hcode : (ndnTLval RdrType.sequence.code.toNat).length = 1 := rfl
  have htlv : (ndnTLV RdrType.sequence.code.toNat
      (returnBytes mem nonce rc reason content)).length < 2 ^ 64 := by
    rw [ndnTLV, ndnTL, List.length_append, List.length_append, hcode]
    omega
  rw [returnBytes_sized] at henc
  rw [mkSeq, appendReturn_node, ← henc]
  rw [← henc] at htlv hle
  exact serialize_plain (plain_parts (.inl rfl) hparts) rfl (by simp) hstack htlv hle
    (Nat.le_trans hle hle')

/-- The reply is decoded. -/
theorem reply_decodes {p : Nat} {out : List UInt8} (hc : ∀ c ∈ content, c.Fresh mem)
    (hlt : (returnBytes mem nonce rc reason content).length < 2 ^ 32)
    (hat : At out p (ndnTLV RdrType.reply.code.toNat (returnBytes mem nonce rc reason content))) :
    ∃ r t, getType out (unserialize p (ndnTLV RdrType.reply.code.toNat
        (returnBytes mem nonce rc reason content)).length) = .ok (r, t) ∧ 0 ≤ r ∧
      t.flatlen = (ndnTLV RdrType.reply.code.toNat
        (returnBytes mem nonce rc reason content)).length ∧
      SameTerm mem out (replyTerm nonce rc reason content) t := by
  have hparts : (returnParts nonce rc reason content).Plain mem :=
    plain_returnParts hn hr fun c hmem => (hc c hmem).plain
  have henc := @enc_parts mem nonce reason rc content .reply (.inr rfl)
  rw [replyTerm, appendReturn_node, ← henc]
  rw [← henc] at hat
  refine node_decodesTo (plain_parts (.inr rfl) hparts) (fun h => absurd rfl h)
    (plain_decodes hparts).1 hat ?_ (Nat.le_refl _) (Nat.lt_succ_self _)
  rw [enc_returnParts]
  exact hlt

/-- A reply with a fresh content that fits is delivered, when the variables hold 0. -/
theorem Fits.delivered (hc : ∀ c ∈ content, c.Fresh mem) (hstack : ∀ i, stack i = 0)
    (h : Fits mem nonce rc reason content) :
    Delivered stack 0 mem raw nonce rc reason content := by
  obtain ⟨hroom, hlt⟩ := h
  have hlen := @returnLen_fresh mem nonce reason content hr rc hc (by omega)
  have hle := @length_returnBytes_le mem nonce reason hr rc content
  have hsame : (ndnTLV RdrType.reply.code.toNat (returnBytes mem nonce rc reason content)).length =
      (ndnTLV RdrType.sequence.code.toNat (returnBytes mem nonce rc reason content)).length := rfl
  have hsub : sub64 (reason.len + 50 + (contentBytes mem content).length) 2 =
      reason.len + 50 + (contentBytes mem content).length - 2 := by
    unfold sub64 u64
    omega
  have hser := @serialize_return stack mem nonce reason rc content hn hr
    (((List.range (reason.len + 50 + (contentBytes mem content).length)).map raw).drop 2)
    (sub64 (reason.len + 50 + (contentBytes mem content).length) 2) hc hstack hlt (by omega)
    (by simp; omega)
  have hat : At (0x80 :: 3 :: ndnTLV RdrType.reply.code.toNat
      (returnBytes mem nonce rc reason content)) 2
        (ndnTLV RdrType.reply.code.toNat (returnBytes mem nonce rc reason content)) :=
    ⟨[], List.append_nil _⟩
  have hemit : emitRpcReturn stack 0 mem raw nonce rc reason content = .ok (some
      (0x80 :: 3 :: ndnTLV RdrType.reply.code.toNat
        (returnBytes mem nonce rc reason content))) := by
    refine emitRpcReturn_eq_some.mpr ⟨_, _, _, _, hlen, by omega, hser, ?_, by rw [take_reply]⟩
    refine Nat.le_trans ?_ (Front.le_length_splice _ _ _)
    simp
    omega
  obtain ⟨r, t, hget, hr', hsize, hterm⟩ := reply_decodes hn hr hc hlt hat
  exact ⟨_, _, r, t, hemit, switchDehead_localrpc _, hget, hr', hsize, hterm⟩

end Fresh

/-! ## The variables of `ccnl_rdr_serialize_fill` -/

/-- No part comes first anywhere in the term, so `ccnl_rdr_serialize_fill` uses no variable that has
not been set. -/
def Rdr.NoFirst : Rdr → Prop
  | .null => True
  | .node d u aux next => ¬ d.type.HasFirst ∧ u.NoFirst ∧ aux.NoFirst ∧ next.NoFirst

theorem getFlatLen_noFirst {t t' : Rdr} {more : Bool} {acc : Nat} (ht : t.NoFirst)
    (h : getFlatLen more t acc = some (t', n)) : t'.NoFirst := by
  induction t generalizing t' more acc n with
  | null =>
    cases more with
    | false => cases h
    | true => cases h; trivial
  | node d u aux next ihu ihaux ihnext =>
    obtain ⟨hfirst, hu, haux, hnext⟩ := ht
    rw [getFlatLen] at h
    obtain ⟨⟨d', u', aux', len⟩, hnode, h⟩ := Option.bind_eq_some_iff.mp h
    obtain ⟨⟨next', len'⟩, hlast, h⟩ := Option.bind_eq_some_iff.mp h
    cases h
    have hnext' : next'.NoFirst := by
      cases more with
      | false => cases hlast; exact hnext
      | true => exact ihnext hnext hlast
    split at hnode
    · cases hnode
      exact ⟨hfirst, hu, haux, hnext'⟩
    split at hnode
    · cases hnode
      exact ⟨hfirst, hu, haux, hnext'⟩
    split at hnode
    · cases hnode
      exact ⟨hfirst, hu, haux, hnext'⟩
    split at hnode
    · obtain ⟨_, ⟨⟩, hnode⟩ := Option.bind_eq_some_iff.mp hnode
      obtain ⟨⟨aux₁, len₂⟩, hparts, hnode⟩ := Option.bind_eq_some_iff.mp hnode
      cases hnode
      exact ⟨hfirst, hu, ihaux haux hparts, hnext'⟩
    · cases hnode

theorem serializeFill_noFirst {t : Rdr} {more : Bool} {p : Nat} {buf : List UInt8} (ht : t.NoFirst)
    (stack stack' : Nat → Nat) :
    serializeFill stack mem more t p buf = serializeFill stack' mem more t p buf := by
  induction t generalizing more p buf with
  | null => rfl
  | node d u aux next ihu ihaux ihnext =>
    obtain ⟨hfirst, hu, haux, hnext⟩ := ht
    simp only [serializeFill, fillLen, hfirst, if_false, ihaux haux, ihnext hnext]

theorem serialize_noFirst {t : Rdr} {buf : List UInt8} {buflen : Nat} (ht : t.NoFirst)
    (stack stack' : Nat → Nat) :
    serialize stack junk mem t buf buflen = serialize stack' junk mem t buf buflen := by
  unfold serialize
  cases h : getFlatLen false t junk with
  | none => rfl
  | some x =>
    obtain ⟨t', len⟩ := x
    simp only [serializeFill_noFirst (getFlatLen_noFirst ht h) stack stack']

/-- A reply whose content uses no such variable does not depend on them. -/
theorem emitRpcReturn_noFirst (hc : ∀ c ∈ content, c.NoFirst) (stack stack' : Nat → Nat) :
    emitRpcReturn stack junk mem raw nonce rc reason content =
      emitRpcReturn stack' junk mem raw nonce rc reason content := by
  unfold emitRpcReturn
  cases hlen : returnLen reason content with
  | none => rfl
  | some x =>
    obtain ⟨content', len⟩ := x
    have hcontent : (content'.getD .null).NoFirst := by
      cases content with
      | none => cases hlen; trivial
      | some c =>
        obtain ⟨⟨c', len'⟩, hmeasure, hlen⟩ := Option.map_eq_some_iff.mp hlen
        cases hlen
        exact getFlatLen_noFirst (hc c rfl) hmeasure
    have hseq : (appendReturn mkSeq nonce rc reason content').NoFirst := by
      have hnonce : ¬ RdrType.nonce.HasFirst := by decide
      have hint : ¬ RdrType.nonnegint.HasFirst := by decide
      have hstr : ¬ RdrType.str.HasFirst := by decide
      rw [mkSeq, appendReturn_node]
      exact ⟨by decide, trivial, ⟨hnonce, trivial, trivial, hint, trivial, trivial, hstr, trivial,
        trivial, hcontent⟩, trivial⟩
    simp only [serialize_noFirst hseq stack stack']

/-! ## A content in its received form -/

/-- A received content has bytes of its own, and stands alone. -/
theorem FromPacket.flat {t : Rdr} (h : FromPacket mem t) :
    ∃ d u aux, t = .node d u aux .null ∧ d.flat.isSome := by
  obtain ⟨buf, buflen, -, rfl | ⟨r, hr, hget⟩⟩ := h
  · exact ⟨_, _, _, rfl, rfl⟩
  · have hwell : DecodesWell mem buf buflen (getType mem (unserialize buf buflen)) :=
      getTypeFrom_tiles (Nat.lt_succ_self buflen)
    obtain ⟨hnext, hne, -, htiles⟩ := hwell.tiles r t hget hr
    cases t with
    | null => exact absurd rfl hne
    | node d u aux next =>
      obtain rfl : next = .null := hnext
      obtain ⟨typ, vallen, q, ⟨hflat, -⟩, -⟩ := htiles
      exact ⟨d, u, aux, rfl, by rw [hflat]; rfl⟩

/-- The size of a received content takes the place of those of the elements in front of it. -/
theorem getFlatLen_received {d : RdrFields} {u aux : Rdr} (hflat : d.flat.isSome) :
    ∃ t, getFlatLen true (returnParts nonce rc reason (some (.node d u aux .null))) 0 =
      some (t, d.flatlen) := by
  simp only [returnParts, getFlatLen, Option.getD_some, hflat, if_true]
  exact ⟨_, rfl⟩

/-- A reply with a received content is not delivered: the buffer has the size of the content. -/
theorem Delivered.not_received {c : Rdr} (hj : junk < 2 ^ 64) (hc : FromPacket mem c)
    (h : Delivered stack junk mem raw nonce rc reason (some c)) : False := by
  obtain ⟨d, u, aux, rfl, hflat⟩ := hc.flat
  obtain ⟨content', len, parts, n, hlen, hparts, -, hle, -⟩ := h.sizes hj
  have hmeasure : returnLen reason (some (.node d u aux .null)) =
      some (some (.node d u aux .null), d.flatlen) := by
    simp [returnLen, getFlatLen, hflat]
  rw [hmeasure] at hlen
  cases hlen
  obtain ⟨t, ht⟩ := @getFlatLen_received nonce reason rc d u aux hflat
  rw [ht] at hparts
  cases hparts
  omega

end Reply

/-- No reply is delivered for every initial value of the variable in `ccnl_rdr_serialize`. One whose
content is missing, fresh or received is delivered for the value 0 only, and then if and only if the
content is not a received one and the reply fits, when the variables in the calls below are not used
or hold 0. -/
theorem rpcReturn_delivered (stack : Nat → Nat) (mem : List UInt8) (raw : Nat → UInt8)
    (nonce : Span) (rc : Int32) (reason : Span) (content : Option Rdr) :
    (¬ ∀ junk < 2 ^ 64, Delivered stack junk mem raw nonce rc reason content) ∧
    (InBuf mem nonce.off nonce.len → InBuf mem reason.off reason.len →
      (∀ c ∈ content, Built mem (fun _ => False) c ∨ FromPacket mem c) →
      ((∀ c ∈ content, c.NoFirst) ∨ ∀ i, stack i = 0) →
      ∀ junk < 2 ^ 64, (Delivered stack junk mem raw nonce rc reason content ↔
        junk = 0 ∧ (∀ c ∈ content, c.IsMade) ∧ Fits mem nonce rc reason content)) := by
  refine ⟨fun h => ?_, fun hn hr hc hstack junk hj => ?_⟩
  · obtain ⟨-, -, -, -, -, -, -, -, hjunk⟩ := (h 1 (by decide)).sizes (by decide)
    exact absurd hjunk (by decide)
  by_cases hmade : ∀ c ∈ content, c.IsMade
  · have hfresh : ∀ c ∈ content, c.Fresh mem := fun c hmem => by
      rcases hc c hmem with hbuilt | hpkt
      · obtain ⟨hplain, hnext, hmade⟩ := hbuilt.plain
        exact ⟨hplain, hnext, hmade⟩
      · obtain ⟨d, u, aux, rfl, hflat⟩ := hpkt.flat
        rw [show d.flat = none from hmade _ hmem] at hflat
        exact absurd hflat (by decide)
    refine ⟨fun h => ?_, fun ⟨hjunk, _, hfits⟩ => ?_⟩
    · obtain ⟨hjunk, hfits⟩ := h.fits hn hr hfresh hj
      exact ⟨hjunk, hmade, hfits⟩
    · subst hjunk
      rcases hstack with hno | hstack
      · obtain ⟨bytes, c, r, t, hemit, h⟩ := @Fits.delivered (fun _ => 0) mem raw nonce reason rc
          content hn hr hfresh (fun _ => rfl) hfits
        rw [emitRpcReturn_noFirst hno (fun _ => 0) stack] at hemit
        exact ⟨bytes, c, r, t, hemit, h⟩
      · exact hfits.delivered hn hr hfresh hstack
  · refine ⟨fun h => absurd ?_ hmade, fun h => absurd h.2.1 hmade⟩
    rintro c rfl
    rcases hc c rfl with hbuilt | hpkt
    · exact hbuilt.plain.2.2
    · exact (h.not_received hj hpkt).elim

/-- The reply 200 "ok" to a request with a nonce of four bytes, with the content 7. -/
theorem rpcReturn_delivered_ok :
    (¬ ∀ junk < 2 ^ 64, Delivered (fun _ => 0) junk [1, 2, 3, 4, 111, 107] (fun _ => 0) ⟨0, 4⟩ 200
      ⟨4, 2⟩ (some (mkNonNegInt 7))) ∧
    Delivered (fun _ => 0) 0 [1, 2, 3, 4, 111, 107] (fun _ => 0) ⟨0, 4⟩ 200 ⟨4, 2⟩
      (some (mkNonNegInt 7)) := by
  have h := rpcReturn_delivered (fun _ => 0) [1, 2, 3, 4, 111, 107] (fun _ => 0) ⟨0, 4⟩ 200 ⟨4, 2⟩
    (some (mkNonNegInt 7))
  have hcontent : ∀ c ∈ some (mkNonNegInt 7), Built [1, 2, 3, 4, 111, 107] (fun _ => False) c ∨
      FromPacket [1, 2, 3, 4, 111, 107] c := by
    rintro _ ⟨⟩
    exact .inl (.nonNegInt (by decide))
  have hmade : ∀ c ∈ some (mkNonNegInt 7), c.IsMade := by
    rintro _ ⟨⟩
    rfl
  have hfits : Fits [1, 2, 3, 4, 111, 107] ⟨0, 4⟩ 200 ⟨4, 2⟩ (some (mkNonNegInt 7)) := by
    constructor <;> decide
  exact ⟨h.1, (h.2 (.inr (by decide)) (.inr (by decide)) hcontent (.inr fun _ => rfl) 0
    (by decide)).mpr ⟨rfl, hmade, hfits⟩⟩

/-- A byte behind the reply is sent when the variable holds 1. And when it holds 0, a request with a
nonce of 40 bytes is not answered, and no content is sent that has been received. -/
theorem rpcReturn_lost :
    ¬ Delivered (fun _ => 0) 1 [1, 2, 3, 4, 111, 107] (fun _ => 0) ⟨0, 4⟩ 200 ⟨4, 2⟩ none ∧
    ¬ Delivered (fun _ => 0) 0 (List.replicate 42 111) (fun _ => 0) ⟨0, 40⟩ 200 ⟨40, 2⟩ none ∧
    FromPacket [1, 2, 3, 4, 111, 107, 1, 1, 7] (unserialize 6 3) ∧
    ¬ Delivered (fun _ => 0) 0 [1, 2, 3, 4, 111, 107, 1, 1, 7] (fun _ => 0) ⟨0, 4⟩ 200 ⟨4, 2⟩
      (some (unserialize 6 3)) := by
  refine ⟨?_, ?_, ⟨6, 3, .inr (by decide), .inl rfl⟩, ?_⟩
  · rintro ⟨bytes, c, r, t, hemit, hswitch, hget, -, hsize, -⟩
    have hbytes : emitRpcReturn (fun _ => 0) 1 [1, 2, 3, 4, 111, 107] (fun _ => 0) ⟨0, 4⟩ 200
        ⟨4, 2⟩ none = .ok (some
          [128, 3, 130, 13, 7, 4, 1, 2, 3, 4, 1, 1, 200, 3, 2, 111, 107, 0]) := by decide
    cases hbytes.symm.trans hemit
    cases (switchDehead_localrpc _).symm.trans hswitch
    obtain ⟨x, hx, hlen⟩ : ∃ x, getType
        [128, 3, 130, 13, 7, 4, 1, 2, 3, 4, 1, 1, 200, 3, 2, 111, 107, 0]
        (unserialize 2 16) = .ok x ∧ x.2.flatlen = 15 := exists_ok (by decide)
    cases hx.symm.trans hget
    exact absurd (hlen.symm.trans hsize) (by decide)
  · rintro ⟨bytes, c, r, t, hemit, -⟩
    have hnone : emitRpcReturn (fun _ => 0) 0 (List.replicate 42 111) (fun _ => 0) ⟨0, 40⟩ 200
        ⟨40, 2⟩ none = .ok none := by decide
    cases hnone.symm.trans hemit
  · rintro ⟨bytes, c, r, t, hemit, -⟩
    have hnone : emitRpcReturn (fun _ => 0) 0 [1, 2, 3, 4, 111, 107, 1, 1, 7] (fun _ => 0) ⟨0, 4⟩
        200 ⟨4, 2⟩ (some (unserialize 6 3)) = .ok none := by decide
    cases hnone.symm.trans hemit

end Ccnl
