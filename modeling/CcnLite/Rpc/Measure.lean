import CcnLite.Rpc.Serialize
import CcnLite.Rpc.Tiling
import CcnLite.Pkt.NdntlvDecode

/-!
# The bytes of a term

`Rdr.enc` is the encoding of a term that has no bytes of its own anywhere, each node a header and a value.
On such a term, with nothing left on the stack, `getFlatLen` returns the size of the encoding
(`getFlatLen_plain`), and `serializeFill` writes it (`serializeFill_plain`).
-/

namespace Ccnl

open CRun

/-! ## Plain terms -/

/-- The value of a node, from those of its parts. -/
def RdrFields.value (mem : List UInt8) (d : RdrFields) (first rest : List UInt8) : List UInt8 :=
  if d.type = .nonnegint then beBytes (nonNegIntLen d.val) d.val
  else if d.type.IsBlob then d.data.bytes mem
  else first ++ rest

namespace Rdr

/-- The encoding of a term and of those behind it. -/
def enc (mem : List UInt8) : Rdr → List UInt8
  | null => []
  | node d u aux next =>
    ndnTLV d.type.code.toNat (d.value mem (u.enc mem) (aux.enc mem)) ++ next.enc mem

/-- A term and those behind it whose nodes have all been made by the constructors: none has bytes of
its own. -/
def Plain (mem : List UInt8) : Rdr → Prop
  | null => True
  | node d u aux next =>
    d.flat = none ∧ d.type ≠ .notSerialized ∧
    (if d.type.IsComposite then
      (u = null ↔ ¬ d.type.HasFirst) ∧ u.nextinseq = null ∧ u.Plain mem ∧ aux.Plain mem
    else u = null ∧ aux = null ∧ (d.type.IsBlob → InBuf mem d.data.off d.data.len) ∧
      (d.type = .nonnegint → d.val < 2 ^ 64)) ∧
    next.Plain mem

/-- The term with its sizes. -/
def sized (mem : List UInt8) : Rdr → Rdr
  | null => null
  | node d u aux next =>
    let n := (ndnTLV d.type.code.toNat (d.value mem (u.enc mem) (aux.enc mem))).length
    node { d with flatlen := n } (u.sized mem) (aux.sized mem) (next.sized mem)

end Rdr

section Plain

variable {mem : List UInt8} {t : Rdr}

/-- The value of a node is a number, a copy, or what the parts are encoded as. -/
theorem RdrFields.value_cases (mem : List UInt8) {d : RdrFields} (h : d.type ≠ .notSerialized) :
    (d.type = .nonnegint ∧ ¬ d.type.IsComposite ∧
      ∀ first rest, d.value mem first rest = beBytes (nonNegIntLen d.val) d.val) ∨
    (d.type ≠ .nonnegint ∧ d.type.IsBlob ∧ ¬ d.type.IsComposite ∧
      ∀ first rest, d.value mem first rest = d.data.bytes mem) ∨
    (d.type ≠ .nonnegint ∧ ¬ d.type.IsBlob ∧ d.type.IsComposite ∧
      ∀ first rest, d.value mem first rest = first ++ rest) := by
  by_cases hint : d.type = .nonnegint
  · exact .inl ⟨hint, by rw [hint]; decide, fun _ _ => if_pos hint⟩
  by_cases hblob : d.type.IsBlob
  · exact .inr (.inl ⟨hint, hblob, hblob.not_composite, fun _ _ =>
      (if_neg hint).trans (if_pos hblob)⟩)
  · have hcomp : d.type.IsComposite := by
      cases htype : d.type <;> rw [htype] at h hint hblob <;> revert h hint hblob <;> decide
    exact .inr (.inr ⟨hint, hblob, hcomp, fun _ _ => (if_neg hint).trans (if_neg hblob)⟩)

theorem enc_sized (t : Rdr) : (t.sized mem).enc mem = t.enc mem := by
  induction t with
  | null => rfl
  | node d u aux next ihu ihaux ihnext => simp [Rdr.sized, Rdr.enc, ihu, ihaux, ihnext, RdrFields.value]

theorem sized_sized (t : Rdr) : (t.sized mem).sized mem = t.sized mem := by
  induction t with
  | null => rfl
  | node d u aux next ihu ihaux ihnext =>
    simp only [Rdr.sized, ihu, ihaux, ihnext, enc_sized]
    rfl

@[simp] theorem sized_eq_null : t.sized mem = .null ↔ t = .null := by
  cases t <;> simp [Rdr.sized]

@[simp] theorem nextinseq_sized (t : Rdr) : (t.sized mem).nextinseq = t.nextinseq.sized mem := by
  cases t <;> rfl

theorem plain_sized (h : t.Plain mem) : (t.sized mem).Plain mem := by
  induction t with
  | null => trivial
  | node d u aux next ihu ihaux ihnext =>
    obtain ⟨hflat, hser, hv, hnext⟩ := h
    refine ⟨hflat, hser, ?_, ihnext hnext⟩
    simp only
    split
    · rename_i hc
      rw [if_pos hc] at hv
      obtain ⟨hu, hun, hpu, hpaux⟩ := hv
      exact ⟨by rw [sized_eq_null]; exact hu, by simp [hun, Rdr.sized], ihu hpu, ihaux hpaux⟩
    · rename_i hc
      rw [if_neg hc] at hv
      obtain ⟨rfl, rfl, hv⟩ := hv
      exact ⟨rfl, rfl, hv⟩

/-! ## Sizes -/

theorem length_tlval (n : Nat) : (ndnTLval n).length = lrpcFieldlen n := by
  unfold ndnTLval lrpcFieldlen tlvalForm
  rw [List.length_cons, length_beBytes]
  grind

theorem length_tlv {ty : RdrType} {v : List UInt8}
    (h : (ndnTLV ty.code.toNat v).length < 2 ^ 64) :
    (ndnTLV ty.code.toNat v).length = lrpcTLVlen ty v.length := by
  unfold ndnTLV ndnTL at h ⊢
  simp only [List.length_append, length_tlval] at h ⊢
  unfold lrpcTLVlen u64
  rw [Nat.mod_eq_of_lt h]

/-- The name of a string has the same size. -/
theorem lrpcTLVlen_str (d : RdrFields) (n : Nat) :
    lrpcTLVlen (if d.type = .str then .flatname else d.type) n = lrpcTLVlen d.type n := by
  split
  · rename_i hs
    rw [hs]
    rfl
  · rfl

theorem length_span {s : Span} (h : InBuf mem s.off s.len) : (s.bytes mem).length = s.len := by
  unfold Span.bytes
  rw [List.length_take, List.length_drop]
  rcases h with h | h <;> omega

/-- A node in front of nothing is measured like a list of one. -/
theorem getFlatLen_single {acc : Nat} (h : t.nextinseq = .null) (hne : t ≠ .null) :
    getFlatLen false t acc = getFlatLen true t acc := by
  cases t with
  | null => exact absurd rfl hne
  | node d u aux next =>
    obtain rfl : next = .null := h
    simp [getFlatLen]

/-- The size of a plain term is that of its encoding. -/
theorem getFlatLen_plain {acc : Nat} (h : t.Plain mem) (hlt : acc + (t.enc mem).length < 2 ^ 64) :
    getFlatLen true t acc = some (t.sized mem, acc + (t.enc mem).length) := by
  induction t generalizing acc with
  | null => rfl
  | node d u aux next ihu ihaux ihnext =>
    obtain ⟨hflat, hser, hv, hnext⟩ := h
    have henc : ((Rdr.node d u aux next).enc mem).length =
        (ndnTLV d.type.code.toNat (d.value mem (u.enc mem) (aux.enc mem))).length +
          (next.enc mem).length := by rw [Rdr.enc, List.length_append]
    have hle := length_value_le d.type.code.toNat (d.value mem (u.enc mem) (aux.enc mem))
    have htlv := @length_tlv d.type (d.value mem (u.enc mem) (aux.enc mem)) (by omega)
    rw [henc] at hlt ⊢
    rw [Rdr.sized]
    generalize (ndnTLV d.type.code.toNat (d.value mem (u.enc mem) (aux.enc mem))).length = n at *
    have hsum : u64 (acc + n) = acc + n := Nat.mod_eq_of_lt (by omega)
    rw [getFlatLen, if_neg (by simp [hflat])]
    refine Option.bind_eq_some_iff.mpr
      ⟨({ d with flatlen := n }, u.sized mem, aux.sized mem, acc + n), ?_, ?_⟩
    · rcases RdrFields.value_cases mem hser with
        ⟨hint, hcomp, hval⟩ | ⟨hint, hblob, hcomp, hval⟩ | ⟨hint, hblob, hcomp, hval⟩
      · rw [if_neg hcomp] at hv
        obtain ⟨rfl, rfl, -, -⟩ := hv
        rw [Rdr.enc, hval, length_beBytes, hint] at htlv
        rw [if_pos hint, ← htlv]
        simp only [hsum]
        rfl
      · rw [if_neg hcomp] at hv
        obtain ⟨rfl, rfl, hbuf, -⟩ := hv
        rw [Rdr.enc, hval, length_span (hbuf hblob)] at htlv
        rw [if_neg hint, if_pos hblob, lrpcTLVlen_str, ← htlv]
        simp only [hsum]
        rfl
      · rw [if_pos hcomp] at hv
        obtain ⟨hu, hun, hpu, hpaux⟩ := hv
        rw [hval, List.length_append] at htlv hle
        rw [if_neg hint, if_neg hblob, if_pos hcomp]
        refine Option.bind_eq_some_iff.mpr ⟨(u.sized mem, (u.enc mem).length), ?_, ?_⟩
        · split
          · rename_i hfirst
            have hne : u ≠ .null := fun h => hu.mp h hfirst
            rw [getFlatLen_single hun hne, ihu hpu (by omega), Nat.zero_add]
          · rename_i hfirst
            rw [hu.mpr hfirst]
            rfl
        · simp only [ihaux hpaux (show (u.enc mem).length + _ < _ by omega), Option.bind_eq_bind,
            Option.bind_some, ← htlv, hsum]
    · simp only [↓reduceIte, ihnext hnext (show acc + n + _ < _ by omega), Option.bind_eq_bind,
        Option.bind_some, Nat.add_assoc]

/-! ## Bytes -/

variable {ty : RdrType} {buf bs : List UInt8} {n p : Nat} {stack : Nat → Nat}

theorem length_splice_le (h : p + bs.length ≤ buf.length) (hle : n ≤ buf.length) :
    n ≤ (Front.splice buf p bs).length := by
  rwa [Front.length_splice h]

theorem fillTandL_eq (h : p + (ndnTL ty.code.toNat n).length ≤ buf.length) :
    fillTandL ty n ⟨buf, p⟩ = .ok ⟨Front.splice buf p (ndnTL ty.code.toNat n),
      p + (ndnTL ty.code.toNat n).length⟩ := by
  have hlen : (ndnTL ty.code.toNat n).length = (ndnTLval ty.code.toNat).length +
      (ndnTLval n).length := List.length_append
  have hone : fillTorL ty.code.toNat ⟨buf, p⟩ = _ :=
    @Front.app_eq buf (ndnTLval ty.code.toNat) p (by omega)
  have htwo : fillTorL n ⟨Front.splice buf p (ndnTLval ty.code.toNat),
      p + (ndnTLval ty.code.toNat).length⟩ = _ :=
    @Front.app_eq _ (ndnTLval n) _ (length_splice_le (by omega) (by omega))
  rw [fillTandL, hone, ok_bind, htwo, Front.splice_append (by omega), hlen, Nat.add_assoc]
  rfl

/-- A header and the value behind it. -/
theorem fill_tlv {v : List UInt8} (h : p + (ndnTLV ty.code.toNat v).length ≤ buf.length) :
    (fillTandL ty v.length ⟨buf, p⟩ >>= fun o => o.app v) =
      .ok ⟨Front.splice buf p (ndnTLV ty.code.toNat v), p + (ndnTLV ty.code.toNat v).length⟩ := by
  have hlen : (ndnTLV ty.code.toNat v).length = (ndnTL ty.code.toNat v.length).length +
      v.length := List.length_append
  rw [fillTandL_eq (by omega), ok_bind, Front.app_eq (length_splice_le (by omega) (by omega)),
    Front.splice_append (by omega), hlen, Nat.add_assoc]
  rfl

theorem nonNegIntLen_le (val : Nat) : nonNegIntLen val ≤ 8 :=
  Nat.succ_le_succ (byteCount_le 7 (val / 2 ^ 8))

/-- A number is written where two bytes of header end. -/
theorem length_int_tlv (val : Nat) :
    (ndnTL RdrType.nonnegint.code.toNat (beBytes (nonNegIntLen val) val).length).length = 2 := by
  have hle := nonNegIntLen_le val
  rw [ndnTL, List.length_append, length_tlval, length_tlval, length_beBytes]
  have h₁ : lrpcFieldlen RdrType.nonnegint.code.toNat = 1 := rfl
  have h₂ : lrpcFieldlen (nonNegIntLen val) = 1 := if_pos (by omega)
  rw [h₁, h₂]

/-- The parts are measured as the whole term was. -/
theorem fillLen_plain {d : RdrFields} {u aux : Rdr} (hstack : stack p = 0)
    (hu : u = .null ↔ ¬ d.type.HasFirst) (hun : u.nextinseq = .null) (hpu : u.Plain mem)
    (hpaux : aux.Plain mem) (hlt : (u.enc mem ++ aux.enc mem).length < 2 ^ 64) :
    fillLen stack d (u.sized mem) (aux.sized mem) p = some (u.enc mem ++ aux.enc mem).length := by
  rw [List.length_append] at hlt ⊢
  have haux := @getFlatLen_plain mem _ (u.enc mem).length (plain_sized hpaux) (by
    rw [enc_sized]
    omega)
  rw [enc_sized] at haux
  refine Option.bind_eq_some_iff.mpr ⟨(u.sized mem, (u.enc mem).length), ?_, by
    simp [haux]⟩
  split
  · rename_i hfirst
    have hne : u.sized mem ≠ .null := fun h => hu.mp (sized_eq_null.mp h) hfirst
    have hlast : (u.sized mem).nextinseq = .null := by rw [nextinseq_sized, hun, Rdr.sized]
    rw [hstack, getFlatLen_single hlast hne, getFlatLen_plain (plain_sized hpu) (by
      rw [enc_sized]
      omega), sized_sized, enc_sized, Nat.zero_add]
  · rename_i hfirst
    rw [hu.mpr hfirst]
    rfl

/-- A node in front of nothing is written like a list of one. -/
theorem serializeFill_single (h : t.nextinseq = .null) :
    serializeFill stack mem false t p buf = serializeFill stack mem true t p buf := by
  cases t with
  | null => rfl
  | node d u aux next =>
    obtain rfl : next = .null := h
    simp [serializeFill]

theorem flatlen_sized (h : t.nextinseq = .null) : (t.sized mem).flatlen = (t.enc mem).length := by
  cases t with
  | null => rfl
  | node d u aux next =>
    obtain rfl : next = .null := h
    simp [Rdr.sized, Rdr.enc, Rdr.flatlen]

theorem fill_blob {s : Span} (hin : InBuf mem s.off s.len)
    (h : p + (ndnTLV ty.code.toNat (s.bytes mem)).length ≤ buf.length) :
    (do
      let o ← fillTandL ty s.len ⟨buf, p⟩
      let o ← o.app (← rdBytes mem s.off s.len)
      return o.mem) = .ok (Front.splice buf p (ndnTLV ty.code.toNat (s.bytes mem))) := by
  have hread : rdBytes mem s.off s.len = .ok (s.bytes mem) := rdBytes_eq_ok.mpr ⟨hin, rfl⟩
  obtain ⟨o, ho, happ⟩ := (bind_eq_ok _ _ _).mp (fill_tlv h)
  rw [length_span hin] at ho
  rw [ho, ok_bind, hread, ok_bind, happ, ok_bind]
  rfl

theorem fill_int {val : Nat}
    (h : p + (ndnTLV RdrType.nonnegint.code.toNat (beBytes (nonNegIntLen val) val)).length ≤
      buf.length) :
    (do
      let o ← fillTandL .nonnegint (nonNegIntLen val) ⟨buf, p⟩
      let o ← (⟨o.mem, p + 2⟩ : Front).app (beBytes (nonNegIntLen val) val)
      return o.mem) = .ok (Front.splice buf p
        (ndnTLV RdrType.nonnegint.code.toNat (beBytes (nonNegIntLen val) val))) := by
  have hlen := length_int_tlv val
  obtain ⟨o, ho, happ⟩ := (bind_eq_ok _ _ _).mp (fill_tlv h)
  rw [length_beBytes] at hlen ho
  have hpos : o.pos = p + 2 := by
    rw [ndnTLV, List.length_append, length_beBytes] at h
    rw [fillTandL_eq (by omega), Except.ok.injEq] at ho
    rw [← ho, hlen]
  rw [ho, ok_bind, ← hpos, happ, ok_bind]
  rfl

/-- A plain term that has its sizes is written as its encoding. -/
theorem serializeFill_plain (hstack : ∀ i, stack i = 0) (h : t.Plain mem)
    (hlt : (t.enc mem).length < 2 ^ 64) (hle : p + (t.enc mem).length ≤ buf.length) :
    serializeFill stack mem true (t.sized mem) p buf = .ok (Front.splice buf p (t.enc mem)) := by
  induction t generalizing p buf with
  | null => rw [Rdr.enc, Front.splice_nil, Rdr.sized, serializeFill]
  | node d u aux next ihu ihaux ihnext =>
    obtain ⟨-, hser, hv, hnext⟩ := h
    rw [Rdr.enc, List.length_append] at hlt hle
    have hval := length_value_le d.type.code.toNat (d.value mem (u.enc mem) (aux.enc mem))
    rw [Rdr.sized, serializeFill]
    -- the node itself, and then those behind it
    refine (bind_eq_ok _ _ _).mpr ⟨Front.splice buf p (ndnTLV d.type.code.toNat
      (d.value mem (u.enc mem) (aux.enc mem))), ?_, ?_⟩
    · rcases RdrFields.value_cases mem hser with
        ⟨hint, -, henc⟩ | ⟨hint, hblob, hcomp, henc⟩ | ⟨hint, hblob, hcomp, henc⟩
      · have hk : sub64 (ndnTLV RdrType.nonnegint.code.toNat
            (beBytes (nonNegIntLen d.val) d.val)).length 2 = nonNegIntLen d.val := by
          have := nonNegIntLen_le d.val
          rw [ndnTLV, List.length_append, length_int_tlv, length_beBytes, sub64, u64]
          omega
        rw [henc, hint] at hle ⊢
        rw [if_neg (by decide), if_pos rfl]
        simp only [hk]
        exact fill_int (by omega)
      · rw [if_neg hcomp] at hv
        rw [henc] at hle ⊢
        rw [if_pos hblob]
        exact fill_blob (hv.2.2.1 hblob) (by dsimp only; omega)
      · rw [if_pos hcomp] at hv
        obtain ⟨hu, hun, hpu, hpaux⟩ := hv
        rw [henc] at hle hlt hval ⊢
        have hlen : (ndnTLV d.type.code.toNat (u.enc mem ++ aux.enc mem)).length =
            (ndnTL d.type.code.toNat (u.enc mem ++ aux.enc mem).length).length +
              (u.enc mem ++ aux.enc mem).length := List.length_append
        have hfill : ∀ n, fillLen stack { d with flatlen := n } _ _ p = _ := fun n =>
          fillLen_plain (hstack p) hu hun hpu hpaux (by omega)
        -- the parts, behind the header
        have hparts : ∀ q buf, q + (u.enc mem ++ aux.enc mem).length ≤ buf.length →
            (if d.type.HasFirst then do
              let buf ← serializeFill stack mem false (u.sized mem) q buf
              serializeFill stack mem true (aux.sized mem) (q + (u.sized mem).flatlen) buf
            else serializeFill stack mem true (aux.sized mem) q buf) =
              .ok (Front.splice buf q (u.enc mem ++ aux.enc mem)) := fun q buf hle => by
          rw [List.length_append] at hle hval
          split
          · rw [serializeFill_single (by rw [nextinseq_sized, hun, Rdr.sized]),
              ihu hpu (by omega) (by omega), ok_bind, flatlen_sized hun,
              ihaux hpaux (by omega) (length_splice_le (by omega) (by omega)),
              Front.splice_append (by omega)]
          · rename_i hfirst
            obtain rfl := hu.mpr hfirst
            exact ihaux hpaux (by omega) (by omega)
        rw [if_neg hblob, if_neg hint, if_pos hcomp, hfill]
        dsimp only
        rw [fillTandL_eq (by omega), ok_bind]
        dsimp only
        rw [hparts _ _ (length_splice_le (by omega) (by omega)), Front.splice_append (by omega)]
        rfl
    · dsimp only
      rw [if_pos rfl, ihnext hnext (by omega) (length_splice_le (by omega) (by omega)),
        Front.splice_append (by omega), Rdr.enc]

end Plain

end Ccnl
