import CcnLite.Rpc.Measure

/-!
# Serialising a term and decoding it again

`RoundTrips` says that the bytes of a term are decoded to a term of the same shape and with the same
values, and that `*res` is the number of the bytes. `ccnl_rdr_serialize` adds the size of the term to
a local variable that nothing has set. So the round trip fails for some initial value of the variable,
whatever the term is. On a term without decoded parts it succeeds for the value 0
(`plain_roundTrips`), and only for this one.
-/

namespace Ccnl

open CRun

/-! ## Terms that are serialised -/

/-- A node that a constructor has made, with parts in it or with room for them. -/
def Rdr.HasParts : Rdr → Prop
  | .null => False
  | .node d .. => d.flat = none ∧ d.type.IsComposite

/-- A term that a constructor has made. -/
def Rdr.IsMade : Rdr → Prop
  | .null => False
  | .node d .. => d.flat = none

/-- The terms that the constructors make, of one another and of the terms in `part`. -/
inductive Built (mem : List UInt8) (part : Rdr → Prop) : Rdr → Prop
  | part {t : Rdr} : part t → Built mem part t
  | app {expr arg : Rdr} : Built mem part expr → Built mem part arg → Built mem part (mkApp expr arg)
  | seq : Built mem part mkSeq
  | append {seq el : Rdr} : Built mem part seq → seq.HasParts → Built mem part el →
      Built mem part (seqAppend seq el)
  | nonNegInt {val : Nat} : val < 2 ^ 64 → Built mem part (mkNonNegInt val)
  | var {s : Span} : InBuf mem s.off s.len → Built mem part (mkVar s)
  | bin {s : Span} : InBuf mem s.off s.len → Built mem part (mkBin s)
  | str {s : Span} : InBuf mem s.off s.len → Built mem part (mkStr s)
  | nonce {s : Span} : InBuf mem s.off s.len → Built mem part (mkNonce s)

/-- A term that `ccnl_rdr_unserialize` has made of bytes in the memory, decoded or not. -/
def FromPacket (mem : List UInt8) (t : Rdr) : Prop :=
  ∃ buf buflen, InBuf mem buf buflen ∧
    (t = unserialize buf buflen ∨ ∃ r, 0 ≤ r ∧ getType mem (unserialize buf buflen) = .ok (r, t))

/-- The two terms have the same shape and the same values, those of the first one in `mem` and those
of the second one in `out`. Of a part that has not been decoded the bytes are compared. -/
def SameTerm (mem out : List UInt8) : Rdr → Rdr → Prop
  | .null, .null => True
  | .node d u aux next, .node d' u' aux' next' =>
    (if d.type = .notSerialized then
      (⟨d.flat.getD 0, d'.flatlen⟩ : Span).bytes mem = (⟨d'.flat.getD 0, d'.flatlen⟩ : Span).bytes out
    else
      d'.type = d.type ∧ (d.type = .nonnegint → d'.val = d.val) ∧
        (d.type.IsBlob → d'.data.bytes out = d.data.bytes mem) ∧
        SameTerm mem out u u' ∧ SameTerm mem out aux aux') ∧
    SameTerm mem out next next'
  | _, _ => False

/-- `ccnl_rdr_serialize` writes an encoding of `*res` bytes, which `ccnl_rdr_unserialize` and
`ccnl_rdr_getType` make the same term of. -/
def RoundTrips (stack : Nat → Nat) (junk : Nat) (mem : List UInt8) (ds : Rdr) (buf : List UInt8) :
    Prop :=
  ∃ out res r t, serialize stack junk mem ds buf buf.length = .ok (some (out, res)) ∧
    getType out (unserialize 0 res) = .ok (r, t) ∧ 0 ≤ r ∧ t.flatlen = res ∧ SameTerm mem out ds t

/-! ## Decoding an encoding -/

section Decode

variable {mem out : List UInt8} {t u aux next : Rdr} {d : RdrFields} {p n k : Nat}

theorem rdrType_code {ty : RdrType} (h : ty ≠ .notSerialized) : rdrType ty.code.toNat = some ty := by
  cases ty <;> first | rfl | exact absurd rfl h

theorem code_lt (ty : RdrType) : ty.code.toNat < 253 := by cases ty <;> decide

/-- The header of an element is taken off. -/
theorem lrpcDehead_tlv {ty : RdrType} {v : List UInt8} (h : At out p (ndnTLV ty.code.toNat v))
    (hv : v.length < 2 ^ 32) (hn : (ndnTLV ty.code.toNat v).length ≤ n) :
    lrpcDehead out ⟨p, n⟩ = .ok (some ((ty.code.toNat, v.length),
      ⟨valuePos p ty.code.toNat v.length, n - (ndnTL ty.code.toNat v.length).length⟩)) := by
  have hty := code_lt ty
  have hlen : (ndnTLV ty.code.toNat v).length = (ndnTL ty.code.toNat v.length).length + v.length :=
    List.length_append
  have hsum : (ndnTL ty.code.toNat v.length).length = (ndnTLval ty.code.toNat).length +
      (ndnTLval v.length).length := List.length_append
  obtain ⟨h₁, h₂⟩ := at_append.mp (at_tlv.mp h).1
  have hone : ndntlvVarlenint out ⟨p, n⟩ = .ok (some (ty.code.toNat,
      ⟨p + (ndnTLval ty.code.toNat).length, n - (ndnTLval ty.code.toNat).length⟩)) :=
    varlenint_eq_ok.mpr ⟨numAt_tlval (by omega) h₁, by simp only; omega, by simp only; omega⟩
  have htwo : ndntlvVarlenint out
      ⟨p + (ndnTLval ty.code.toNat).length, n - (ndnTLval ty.code.toNat).length⟩ =
        .ok (some (v.length, ⟨valuePos p ty.code.toNat v.length,
          n - (ndnTL ty.code.toNat v.length).length⟩)) :=
    varlenint_eq_ok.mpr ⟨by rw [numAt_tlval hv h₂, valuePos, hsum, Nat.add_assoc],
      by simp only [valuePos]; omega, by simp only [valuePos]; omega⟩
  rw [lrpcDehead, hone, ok_bind]
  dsimp only
  rw [htwo, ok_bind]
  rfl

/-- The result of the decoder is a term like `t`, with the size of its encoding. -/
def DecodesTo (mem out : List UInt8) (t : Rdr) (x : Run (Int × Rdr)) : Prop :=
  ∃ r t', x = .ok (r, t') ∧ 0 ≤ r ∧ t'.flatlen = (t.enc mem).length ∧ SameTerm mem out t t'

/-- The result of the loop over the parts is a list of terms like `t` and those behind it. -/
def PartsTo (mem out : List UInt8) (t : Rdr) (x : Run (Option (Nat × Rdr))) : Prop :=
  ∃ aux, x = .ok (some ((t.enc mem).length, aux)) ∧ SameTerm mem out t aux

theorem nonNeg_int {val : Nat} (h : val < 2 ^ 64) : nonNeg (beBytes (nonNegIntLen val) val) = val := by
  have hlt : val / 2 ^ 8 < 2 ^ (8 * byteCount 7 (val / 2 ^ 8)) := lt_of_byteCount (k := 7) (by omega)
  rw [nonNeg_beBytes (nonNegIntLen_le val), Nat.mod_eq_of_lt]
  calc val
    _ < 2 ^ (8 * byteCount 7 (val / 2 ^ 8)) * 2 ^ 8 := (Nat.div_lt_iff_lt_mul (Nat.two_pow_pos 8)).mp hlt
    _ = 2 ^ (8 * nonNegIntLen val) := by rw [nonNegIntLen, Nat.mul_add, Nat.pow_add]

/-- What the decoder does on the encoding of one term. -/
def OneDecodes (mem out : List UInt8) (t : Rdr) : Prop :=
  ∀ ⦃p n k : Nat⦄, At out p (t.enc mem) → (t.enc mem).length < 2 ^ 32 → (t.enc mem).length ≤ n →
    n < k → DecodesTo mem out t (getTypeFrom out k (unserialize p n))

/-- What the loop over the parts does on the encoding of a term and those behind it. -/
def PartsDecode (mem out : List UInt8) (t : Rdr) : Prop :=
  ∀ ⦃p k j : Nat⦄, At out p (t.enc mem) → (t.enc mem).length < 2 ^ 32 → (t.enc mem).length < k →
    (t.enc mem).length < j →
    PartsTo mem out t (rdrParts (getTypeFrom out k) j ⟨p, (t.enc mem).length⟩)

/-- The parts of a term are decoded. -/
theorem rdrFinish_decodes {ds u' : Rdr} {d' : RdrFields} {used : Nat}
    (haux : PartsDecode mem out aux) (hat : At out p (aux.enc mem))
    (hlt : (aux.enc mem).length < 2 ^ 32) (hk : (aux.enc mem).length < k) :
    ∃ aux', rdrFinish (getTypeFrom out k) ds .null d' u' used ⟨p, (aux.enc mem).length⟩ =
      .ok (d'.type.code, .node { d' with flatlen := used + (aux.enc mem).length } u' aux' .null) ∧
        SameTerm mem out aux aux' := by
  obtain ⟨aux', h, hsame⟩ := haux hat hlt hk (Nat.lt_succ_self _)
  refine ⟨aux', ?_, hsame⟩
  rw [rdrFinish, h, ok_bind]
  rfl

/-- A node is decoded when its parts are, and when the length of its value is below 2^32. -/
theorem node_decodesTo (h : (Rdr.node d u aux .null).Plain mem)
    (hu : u ≠ .null → OneDecodes mem out u) (haux : PartsDecode mem out aux)
    (hat : At out p ((Rdr.node d u aux .null).enc mem))
    (hlt : (d.value mem (u.enc mem) (aux.enc mem)).length < 2 ^ 32)
    (hn : ((Rdr.node d u aux .null).enc mem).length ≤ n) (hk : n < k) :
    DecodesTo mem out (.node d u aux .null) (getTypeFrom out k (unserialize p n)) := by
  obtain ⟨-, hser, hv, -⟩ := h
  rw [Rdr.enc, Rdr.enc, List.append_nil] at hat hn
  have hval := length_value_le d.type.code.toNat (d.value mem (u.enc mem) (aux.enc mem))
  have hcode := code_lt d.type
  have hhead := lrpcDehead_tlv hat (by omega) hn
  obtain ⟨-, hatv⟩ := at_tlv.mp hat
  have hlen : (ndnTLV d.type.code.toNat (d.value mem (u.enc mem) (aux.enc mem))).length =
      (ndnTL d.type.code.toNat (d.value mem (u.enc mem) (aux.enc mem)).length).length +
        (d.value mem (u.enc mem) (aux.enc mem)).length := List.length_append
  have hpos : 2 ≤ (ndnTL d.type.code.toNat (d.value mem (u.enc mem) (aux.enc mem)).length).length := by
    simp only [ndnTL, ndnTLval, List.length_append, List.length_cons]
    omega
  obtain ⟨k, rfl⟩ : ∃ j, k = j + 1 := ⟨k - 1, by omega⟩
  have hfits : (d.value mem (u.enc mem) (aux.enc mem)).length ≤
      n - (ndnTL d.type.code.toNat (d.value mem (u.enc mem) (aux.enc mem)).length).length := by omega
  have htype := rdrType_code hser
  unfold DecodesTo
  have hq : valuePos p d.type.code.toNat (d.value mem (u.enc mem) (aux.enc mem)).length - p =
      (ndnTL d.type.code.toNat (d.value mem (u.enc mem) (aux.enc mem)).length).length :=
    Nat.add_sub_cancel_left ..
  rw [Rdr.enc, Rdr.enc, List.append_nil]
  rcases RdrFields.value_cases mem hser with
    ⟨hint, hcomp, hbytes⟩ | ⟨hint, hblob, hcomp, hbytes⟩ | ⟨hint, hblob, hcomp, hbytes⟩
  · rw [if_neg hcomp] at hv
    obtain ⟨rfl, rfl, -, hval64⟩ := hv
    have hread := nonNegInt_at hatv
    rw [getTypeFrom_head hhead hfits htype, if_pos hint]
    dsimp only
    rw [hq, ← hlen, hread, ok_bind, Rdr.enc, hbytes]
    refine ⟨_, _, rfl, Int.le_refl 0, rfl, ?_, trivial⟩
    rw [if_neg hser]
    exact ⟨rfl, fun _ => nonNeg_int (hval64 hint), fun h => by rw [hint] at h; exact absurd h (by decide),
      trivial, trivial⟩
  · rw [if_neg hcomp] at hv
    obtain ⟨rfl, rfl, -, -⟩ := hv
    have hread := hatv.bytes
    rw [getTypeFrom_head hhead hfits htype, if_neg hint, if_pos hblob]
    dsimp only
    rw [hq, ← hlen]
    refine ⟨_, _, rfl, Int.le_refl 0, rfl, ?_, trivial⟩
    rw [if_neg hser]
    exact ⟨rfl, fun h => absurd h hint, fun _ => hread.trans (hbytes _ _), trivial, trivial⟩
  · have hcodepos : 0 ≤ d.type.code := by
      rcases hcomp with (h | h) | h | h | h <;> rw [h] <;> decide
    rw [if_pos hcomp] at hv
    obtain ⟨hunull, hun, hpu, hpaux⟩ := hv
    rw [hbytes] at hatv hlen hval hpos hn hlt hhead hfits hq ⊢
    obtain ⟨hatu, hataux⟩ := at_append.mp hatv
    rw [@List.length_append _ (u.enc mem)] at hlt hlen hval hpos hhead hfits hq hatu hataux
    by_cases hfirst : d.type.HasFirst
    · obtain ⟨r, u', hget, hr, hsize, hsame⟩ :=
        hu (fun h => hunull.mp h hfirst) hatu (by omega) (Nat.le_add_right _ (aux.enc mem).length)
          (k := k) (by omega)
      obtain ⟨aux', hfin, hsameaux⟩ := rdrFinish_decodes (k := k) haux hataux (by omega) (by omega)
      rw [getTypeFrom_first hhead hfits htype hint hblob hfirst hget hr (by omega), hsize, hq,
        Nat.add_sub_cancel_left, hfin]
      refine ⟨_, _, rfl, hcodepos, ?_, ?_, trivial⟩
      · simp only [Rdr.flatlen]
        omega
      · rw [if_neg hser]
        exact ⟨rfl, fun h => absurd h hint, fun h => absurd h hblob, hsame, hsameaux⟩
    · obtain rfl := hunull.mpr hfirst
      obtain ⟨aux', hfin, hsameaux⟩ := rdrFinish_decodes (k := k) haux hataux (by omega) (by omega)
      rw [getTypeFrom_head hhead hfits htype, if_neg hint, if_neg hblob, if_neg hfirst, hq]
      simp only [Rdr.enc, List.length_nil, Nat.add_zero, Nat.zero_add] at hfin hlen ⊢
      rw [hfin]
      refine ⟨_, _, rfl, hcodepos, hlen.symm, ?_, trivial⟩
      rw [if_neg hser]
      exact ⟨rfl, fun h => absurd h hint, fun h => absurd h hblob, trivial, hsameaux⟩

theorem node_decodes (h : (Rdr.node d u aux .null).Plain mem) (hu : u ≠ .null → OneDecodes mem out u)
    (haux : PartsDecode mem out aux) : OneDecodes mem out (.node d u aux .null) := by
  intro p n k hat hlt hn hk
  refine node_decodesTo h hu haux hat ?_ hn hk
  have hval := length_value_le d.type.code.toNat (d.value mem (u.enc mem) (aux.enc mem))
  rw [Rdr.enc, Rdr.enc, List.append_nil] at hlt
  omega

theorem SameTerm.setNext {t' next' : Rdr} (h : SameTerm mem out (.node d u aux .null) t')
    (hnext : SameTerm mem out next next') :
    SameTerm mem out (.node d u aux next) (t'.setNext next') := by
  cases t' with
  | null => exact h.elim
  | node d' u' aux' _ => exact ⟨h.1, hnext⟩

/-- A node and those behind it are decoded when it is and they are. -/
theorem parts_decode (h : OneDecodes mem out (.node d u aux .null))
    (hnext : PartsDecode mem out next) : PartsDecode mem out (.node d u aux next) := by
  intro p k j hat hlt hk hj
  have henc : (Rdr.node d u aux next).enc mem = (Rdr.node d u aux .null).enc mem ++ next.enc mem := by
    simp [Rdr.enc]
  have hne : (Rdr.node d u aux .null).enc mem ≠ [] := by
    rw [Rdr.enc, Rdr.enc, List.append_nil]
    exact tlv_ne_nil _ _
  have hpos := List.length_pos_iff.mpr hne
  unfold PartsTo
  rw [henc] at hat hlt hk hj ⊢
  obtain ⟨hat, hatnext⟩ := at_append.mp hat
  rw [List.length_append] at hlt hk hj ⊢
  obtain ⟨r, t', hget, hr, hsize, hsame⟩ := h hat (by omega) (Nat.le_add_right _ _) hk
  obtain ⟨j, rfl⟩ : ∃ i, j = i + 1 := ⟨j - 1, by omega⟩
  obtain ⟨next', hrest, hsamenext⟩ := hnext hatnext (by omega) (k := k) (j := j) (by omega) (by omega)
  refine ⟨t'.setNext next', ?_, hsame.setNext hsamenext⟩
  rw [rdrParts, if_neg (by simp only; omega), hget, ok_bind]
  dsimp only
  rw [if_neg (by omega), Cursor.skip, if_pos (by simp only; omega), ok_bind, hsize]
  dsimp only
  rw [Nat.add_sub_cancel_left, hrest]
  rfl

/-- The encoding of a plain term is decoded to that term. The loop over the parts carries the
induction: each node is decoded alone, and then those behind it are. -/
theorem plain_decodes (h : t.Plain mem) :
    PartsDecode mem out t ∧ (t.nextinseq = .null → t ≠ .null → OneDecodes mem out t) := by
  induction t with
  | null =>
    refine ⟨fun p k j _ _ _ hj => ?_, fun _ h => absurd rfl h⟩
    obtain ⟨j, rfl⟩ : ∃ i, j = i + 1 := ⟨j - 1, by omega⟩
    exact ⟨.null, rfl, trivial⟩
  | node d u aux next ihu ihaux ihnext =>
    have hone : OneDecodes mem out (.node d u aux .null) := by
      have hv := h.2.2.1
      refine node_decodes ⟨h.1, h.2.1, hv, trivial⟩ (fun hne => ?_) ?_
      · split at hv
        · exact (ihu hv.2.2.1).2 hv.2.1 hne
        · exact absurd hv.1 hne
      · split at hv
        · exact (ihaux hv.2.2.2).1
        · obtain ⟨-, rfl, -⟩ := hv
          exact (ihaux trivial).1
    refine ⟨parts_decode hone (ihnext h.2.2.2).1, fun hnull _ => ?_⟩
    obtain rfl : next = .null := hnull
    exact hone

end Decode

/-! ## The variable that nothing has set -/

section Junk

variable {mem buf : List UInt8} {ds t : Rdr} {stack : Nat → Nat} {junk junk' : Nat}

/-- A made term has one size, which is added to what the variable held. -/
theorem getFlatLen_junk (h : ds.IsMade) : (∀ junk, getFlatLen false ds junk = none) ∨
    ∃ ds' len, ∀ junk, getFlatLen false ds junk = some (ds', u64 (junk + len)) := by
  cases ds with
  | null => exact h.elim
  | node d u aux next =>
    have hflat : ¬ d.flat.isSome := by rw [show d.flat = none from h]; decide
    simp only [getFlatLen, if_neg hflat]
    split
    · exact .inr ⟨.node { d with flatlen := lrpcTLVlen .nonnegint (nonNegIntLen d.val) } u aux next,
        _, fun _ => rfl⟩
    split
    · exact .inr ⟨.node { d with
        flatlen := lrpcTLVlen (if d.type = .str then .flatname else d.type) d.data.len } u aux next,
        _, fun _ => rfl⟩
    split
    · -- the parts are measured without the variable
      generalize (if d.type.HasFirst then getFlatLen false u 0 else some (u, 0)) = first
      cases first with
      | none => exact .inl fun _ => rfl
      | some first =>
        cases hrest : getFlatLen true aux first.2 with
        | none => exact .inl fun _ => by simp [hrest]
        | some rest =>
          refine .inr ⟨.node { d with flatlen := lrpcTLVlen d.type rest.2 } first.1 rest.1 next,
            lrpcTLVlen d.type rest.2, fun _ => ?_⟩
          simp only [Option.bind_eq_bind, Option.bind_some, hrest]
          rfl
    · exact .inl fun _ => rfl

/-- The size of a decoded term is read from its header, so the bytes alone decide it. -/
theorem getType_size {out : List UInt8} {res res' : Nat} {r r' : Int} {t t' : Rdr}
    (h : getType out (unserialize 0 res) = .ok (r, t)) (hr : 0 ≤ r)
    (h' : getType out (unserialize 0 res') = .ok (r', t')) (hr' : 0 ≤ r') :
    t.flatlen = t'.flatlen := by
  have hwell : DecodesWell out 0 res (getType out (unserialize 0 res)) :=
    getTypeFrom_tiles (Nat.lt_succ_self res)
  have hwell' : DecodesWell out 0 res' (getType out (unserialize 0 res')) :=
    getTypeFrom_tiles (Nat.lt_succ_self res')
  obtain ⟨-, hne, -, htiles⟩ := hwell.tiles r t h hr
  obtain ⟨-, hne', -, htiles'⟩ := hwell'.tiles r' t' h' hr'
  cases t with
  | null => exact absurd rfl hne
  | node d u aux next =>
    cases t' with
    | null => exact absurd rfl hne'
    | node d' u' aux' next' =>
      obtain ⟨typ, vallen, q, ⟨-, hhead, -, hlen⟩, -⟩ := htiles
      obtain ⟨typ', vallen', q', ⟨-, hhead', -, hlen'⟩, -⟩ := htiles'
      obtain ⟨-, rfl, rfl⟩ := hhead.unique hhead'
      exact hlen.trans hlen'.symm

/-- A made term makes the round trip for one initial value of the variable at most. -/
theorem RoundTrips.unique (hmade : ds.IsMade) (hj : junk < 2 ^ 64) (hj' : junk' < 2 ^ 64)
    (h : RoundTrips stack junk mem ds buf) (h' : RoundTrips stack junk' mem ds buf) :
    junk = junk' := by
  obtain ⟨out, res, r, t, hser, hget, hr, hsize, -⟩ := h
  obtain ⟨out', res', r', t', hser', hget', hr', hsize', -⟩ := h'
  unfold serialize at hser hser'
  rcases getFlatLen_junk hmade with hnone | ⟨ds', len, hlen⟩
  · rw [hnone] at hser
    cases hser
  · rw [hlen] at hser hser'
    dsimp only at hser hser'
    split at hser
    · cases hser
    split at hser'
    · cases hser'
    -- the bytes do not depend on the variable, but `*res` does
    obtain ⟨bytes, hfill, hres⟩ := (bind_eq_ok _ _ _).mp hser
    obtain ⟨bytes', hfill', hres'⟩ := (bind_eq_ok _ _ _).mp hser'
    cases hres
    cases hres'
    obtain rfl := Except.ok.inj (hfill.symm.trans hfill')
    have hsame : u64 (junk + len) = u64 (junk' + len) :=
      hsize.symm.trans ((getType_size hget hr hget' hr').trans hsize')
    unfold u64 at hsame
    omega

end Junk

/-! ## The round trip -/

section RoundTrip

variable {mem buf : List UInt8} {ds t : Rdr} {stack : Nat → Nat}

theorem plain_append {el : Rdr} (h : t.Plain mem) (hel : el.Plain mem) :
    (t.append el).Plain mem := by
  induction t with
  | null => exact hel
  | node d u aux next _ _ ih =>
    obtain ⟨hflat, hser, hv, hnext⟩ := h
    exact ⟨hflat, hser, hv, ih hnext⟩

/-- A string as a term. -/
theorem plain_blob {ty : RdrType} {s : Span} (h : ty.IsBlob) (hin : InBuf mem s.off s.len) :
    (Rdr.node { type := ty, data := s } .null .null .null).Plain mem := by
  refine ⟨rfl, fun h' => ?_, ?_, trivial⟩
  · rw [show ty = .notSerialized from h'] at h
    exact absurd h (by decide)
  · rw [if_neg h.not_composite]
    refine ⟨rfl, rfl, fun _ => hin, fun h' => ?_⟩
    rw [show ty = .nonnegint from h'] at h
    exact absurd h (by decide)

/-- A term that is made of nothing decoded is plain, and it stands alone. -/
theorem Built.plain (h : Built mem (fun _ => False) t) :
    t.Plain mem ∧ t.nextinseq = .null ∧ t.IsMade := by
  induction h with
  | part h => exact h.elim
  | app _ _ ihexpr iharg =>
    obtain ⟨hexpr, hnext, hmade⟩ := ihexpr
    refine ⟨⟨rfl, by decide, ?_, trivial⟩, rfl, rfl⟩
    rw [if_pos (by decide)]
    refine ⟨iff_of_false (fun h => ?_) (by decide), hnext, hexpr, iharg.1⟩
    rw [h] at hmade
    exact hmade
  | seq => exact ⟨⟨rfl, by decide, ⟨by decide, rfl, trivial, trivial⟩, trivial⟩, rfl, rfl⟩
  | @append seq el _ hparts _ ihseq ihel =>
    cases seq with
    | null => exact hparts.elim
    | node d u aux next =>
      obtain ⟨⟨hflat, hser, hv, hplain⟩, hnext, hmade⟩ := ihseq
      rw [if_pos hparts.2] at hv
      obtain ⟨hu, hun, hpu, hpaux⟩ := hv
      refine ⟨⟨hflat, hser, ?_, hplain⟩, hnext, hmade⟩
      rw [if_pos hparts.2]
      exact ⟨hu, hun, hpu, plain_append hpaux ihel.1⟩
  | nonNegInt h => exact ⟨⟨rfl, nofun, ⟨rfl, rfl, nofun, fun _ => h⟩, trivial⟩, rfl, rfl⟩
  | var h | bin h | str h | nonce h => exact ⟨plain_blob (by decide) h, rfl, rfl⟩

/-- When the variable holds 0 and nothing is left on the stack, a plain term is written as its
encoding. -/
theorem serialize_plain {buflen : Nat} (h : t.Plain mem) (hnext : t.nextinseq = .null)
    (hne : t ≠ .null) (hstack : ∀ i, stack i = 0) (hlt : (t.enc mem).length < 2 ^ 64)
    (hle : (t.enc mem).length ≤ buflen) (hle' : (t.enc mem).length ≤ buf.length) :
    serialize stack 0 mem t buf buflen =
      .ok (some (Front.splice buf 0 (t.enc mem), (t.enc mem).length)) := by
  have hmeasure : getFlatLen false t 0 = some (t.sized mem, (t.enc mem).length) := by
    rw [getFlatLen_single hnext hne, getFlatLen_plain h (by omega), Nat.zero_add]
  have hfill : serializeFill stack mem false (t.sized mem) 0 buf =
      .ok (Front.splice buf 0 (t.enc mem)) := by
    rw [serializeFill_single (by rw [nextinseq_sized, hnext, Rdr.sized])]
    exact serializeFill_plain hstack h hlt (by omega)
  rw [serialize, hmeasure]
  dsimp only
  rw [if_neg (by omega), hfill]
  rfl

/-- Then it makes the round trip. -/
theorem plain_roundTrips (h : t.Plain mem) (hnext : t.nextinseq = .null) (hne : t ≠ .null)
    (hstack : ∀ i, stack i = 0) (hlt : (t.enc mem).length < 2 ^ 32)
    (hle : (t.enc mem).length ≤ buf.length) : RoundTrips stack 0 mem t buf := by
  obtain ⟨r, t', hget, hr, hsize, hsame⟩ := (plain_decodes h).2 hnext hne
    (Front.at_splice (Nat.zero_le _)) hlt (Nat.le_refl _) (Nat.lt_succ_self _)
  exact ⟨_, _, r, t', serialize_plain h hnext hne hstack (by omega) hle hle, hget, hr, hsize, hsame⟩

/-- No term makes the round trip for every initial value of the variable in `ccnl_rdr_serialize`,
with or without decoded parts. One without them makes it for the value 0 and for no other, when the
variables in the calls below hold 0. -/
theorem serialize_roundTrips (stack : Nat → Nat) (mem buf : List UInt8) :
    (∀ ds, Built mem (FromPacket mem) ds → ds.IsMade →
      ¬ ∀ junk < 2 ^ 64, RoundTrips stack junk mem ds buf) ∧
    (∀ ds, Built mem (fun _ => False) ds → (∀ i, stack i = 0) → (ds.enc mem).length < 2 ^ 32 →
      (ds.enc mem).length ≤ buf.length →
      ∀ junk < 2 ^ 64, (RoundTrips stack junk mem ds buf ↔ junk = 0)) := by
  refine ⟨fun ds _ hmade h => ?_, fun ds hbuilt hstack hlt hle junk hjunk => ?_⟩
  · exact absurd ((h 0 (by decide)).unique hmade (by decide) (by decide) (h 1 (by decide)))
      (by decide)
  · obtain ⟨hplain, hnext, hmade⟩ := hbuilt.plain
    have hne : ds ≠ .null := fun h => by rw [h] at hmade; exact hmade
    have hzero := plain_roundTrips hplain hnext hne hstack hlt hle
    refine ⟨fun h => h.unique hmade hjunk (by decide) hzero, fun h => ?_⟩
    rw [h]
    exact hzero

/-- A request: `f` is applied to 7. -/
theorem serialize_roundTrips_app :
    let ds := mkApp (mkVar ⟨0, 1⟩) (mkNonNegInt 7)
    (¬ ∀ junk < 2 ^ 64, RoundTrips (fun _ => 0) junk [102] ds (List.replicate 8 0)) ∧
      (RoundTrips (fun _ => 0) 5 [102] ds (List.replicate 8 0) ↔ 5 = 0) :=
  ⟨(serialize_roundTrips _ _ _).1 _ (.app (.var (.inr (by decide))) (.nonNegInt (by decide))) rfl,
    (serialize_roundTrips _ _ _).2 _ (.app (.var (.inr (by decide))) (.nonNegInt (by decide)))
      (fun _ => rfl) (by decide) (by decide) 5 (by decide)⟩

/-- A sequence of 7 and a decoded 7. -/
def seven : Rdr :=
  seqAppend (seqAppend mkSeq (mkNonNegInt 7))
    (.node { type := .nonnegint, flatlen := 3, flat := some 0, val := 7 } .null .null .null)

/-- The number 7 has three bytes. When the variable holds 1, `*res` is 4. And a decoded part takes the
place of the sizes of the parts in front of it, so a sequence of 7 and a decoded 7 is written with a
header for one of them. -/
theorem serialize_adds_junk :
    ¬ RoundTrips (fun _ => 0) 1 [] (mkNonNegInt 7) (List.replicate 8 0) ∧
      Built [1, 1, 7] (FromPacket [1, 1, 7]) seven ∧
        ¬ RoundTrips (fun _ => 0) 0 [1, 1, 7] seven (List.replicate 16 0) := by
  refine ⟨?_, ?_, ?_⟩
  · rintro ⟨out, res, r, t, hser, hget, -, hsize, -⟩
    have hout : serialize (fun _ => 0) 1 [] (mkNonNegInt 7) (List.replicate 8 0) 8 =
        .ok (some ([1, 1, 7, 0, 0, 0, 0, 0], 4)) := by decide
    cases hout.symm.trans hser
    have ht : getType [1, 1, 7, 0, 0, 0, 0, 0] (unserialize 0 4) = .ok (0, .node
        { type := .nonnegint, flatlen := 3, flat := some 0, val := 7 } .null .null .null) := by decide
    cases ht.symm.trans hget
    exact absurd hsize (by decide)
  · refine .append (.append .seq ⟨rfl, by decide⟩ (.nonNegInt (by decide))) ⟨rfl, by decide⟩
      (.part ⟨0, 3, .inr (by decide), .inr ⟨0, by decide, by decide⟩⟩)
  · rintro ⟨out, res, r, t, hser, hget, -, -, hsame⟩
    have hout : serialize (fun _ => 0) 0 [1, 1, 7] seven (List.replicate 16 0) 16 =
        .ok (some ([4, 3, 1, 1, 7, 1, 1, 7, 0, 0, 0, 0, 0, 0, 0, 0], 5)) := by decide
    cases hout.symm.trans hser
    have ht : getType [4, 3, 1, 1, 7, 1, 1, 7, 0, 0, 0, 0, 0, 0, 0, 0] (unserialize 0 5) =
        .ok (4, .node { type := .sequence, flatlen := 5, flat := some 0 } .null (.node
          { type := .nonnegint, flatlen := 3, flat := some 2, val := 7 } .null .null .null) .null) := by
      decide
    cases ht.symm.trans hget
    exact hsame.1.2.2.2.2.2

end RoundTrip

end Ccnl
