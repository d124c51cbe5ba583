import CcnLite.Rpc.Rdr
import CcnLite.Pkt.NdntlvGrammar

/-!
# Decoded terms lie side by side

`Tiles` says that a term and those behind it cover a range of bytes: the value of each node is
covered by its parts, the first one and then the others, and so on down to the leaves. `getType`
makes such a term of any bytes that it takes (`getType_tiles`), and it always ends.
-/

namespace Ccnl

open CRun

/-! ## On the wire -/

/-- A header at `p`, its value from `q` on. -/
def LrpcHead (mem : List UInt8) (p typ vallen q : Nat) : Prop :=
  ∃ m, numAt mem p = some (typ, m) ∧ numAt mem m = some (vallen, q)

theorem LrpcHead.lt {mem : List UInt8} {p typ vallen q : Nat} (h : LrpcHead mem p typ vallen q) :
    p + 2 ≤ q := by
  obtain ⟨m, h₁, h₂⟩ := h
  have := numAt_lt h₁
  have := numAt_lt h₂
  omega

/-- A header is the only one at its place. -/
theorem LrpcHead.unique {mem : List UInt8} {p typ vallen q typ' vallen' q' : Nat}
    (h : LrpcHead mem p typ vallen q) (h' : LrpcHead mem p typ' vallen' q') :
    typ = typ' ∧ vallen = vallen' ∧ q = q' := by
  obtain ⟨m, h₁, h₂⟩ := h
  obtain ⟨m', h₁', h₂'⟩ := h'
  rw [h₁, Option.some.injEq, Prod.mk.injEq] at h₁'
  obtain ⟨rfl, rfl⟩ := h₁'
  rw [h₂, Option.some.injEq, Prod.mk.injEq] at h₂'
  exact ⟨rfl, h₂'⟩

/-- The term and those behind it cover the bytes from `lo` to `hi`. -/
def Tiles (mem : List UInt8) : Rdr → Nat → Nat → Prop
  | .null, lo, hi => lo = hi
  | .node d u aux next, lo, hi => ∃ typ vallen q,
      (d.flat = some lo ∧ LrpcHead mem lo typ vallen q ∧ rdrType typ = some d.type ∧
        d.flatlen = q - lo + vallen) ∧
      (if d.type.IsComposite then
        (u = .null ↔ ¬ d.type.HasFirst) ∧ u.nextinseq = .null ∧
          ∃ mid, Tiles mem u q mid ∧ Tiles mem aux mid (q + vallen)
      else u = .null ∧ aux = .null ∧
        (d.type.IsBlob → d.data = ⟨q, vallen⟩) ∧
        (d.type = .nonnegint → d.val = nonNeg ((⟨q, vallen⟩ : Span).bytes mem))) ∧
      Tiles mem next (lo + d.flatlen) hi

/-- The byte strings of the leaves. -/
def Rdr.leaves : Rdr → List Span
  | .null => []
  | .node d u aux next =>
    (if d.type.IsBlob then [d.data] else []) ++ (u.leaves ++ (aux.leaves ++ next.leaves))

section Tiles

variable {mem : List UInt8} {t : Rdr} {lo hi : Nat}

theorem Tiles.le (h : Tiles mem t lo hi) : lo ≤ hi := by
  induction t generalizing lo with
  | null => exact Nat.le_of_eq h
  | node d u aux next _ _ ih =>
    obtain ⟨_, _, _, -, -, hnext⟩ := h
    have := ih hnext
    omega

/-- Every leaf lies in the range. -/
theorem Tiles.leaves_within (h : Tiles mem t lo hi) : ∀ s ∈ t.leaves, s.Within lo hi := by
  induction t generalizing lo hi with
  | null => exact fun s hs => nomatch hs
  | node d u aux next ihu ihaux ihnext =>
    obtain ⟨typ, vallen, q, ⟨-, hhead, -, hlen⟩, hvalue, hnext⟩ := h
    have hq := hhead.lt
    have hle := hnext.le
    intro s hs
    simp only [Rdr.leaves, List.mem_append] at hs
    split at hvalue
    · rename_i hcomp
      obtain ⟨-, -, mid, hu, haux⟩ := hvalue
      have := hu.le
      have := haux.le
      rcases hs with hs | hs | hs | hs
      · rw [if_neg (by rcases hcomp with (h | h) | h | h | h <;> simp [h, RdrType.IsBlob])] at hs
        cases hs
      · exact (ihu hu s hs).mono (by omega) (by omega)
      · exact (ihaux haux s hs).mono (by omega) (by omega)
      · exact (ihnext hnext s hs).mono (by omega) (by omega)
    · obtain ⟨rfl, rfl, hdata, -⟩ := hvalue
      rcases hs with hs | hs | hs | hs
      · split at hs
        · rename_i hblob
          rw [List.mem_singleton.mp hs, hdata hblob]
          exact ⟨by simp only; omega, by simp only; omega⟩
        · cases hs
      · cases hs
      · cases hs
      · exact (ihnext hnext s hs).mono (by omega) (by omega)

end Tiles

/-! ## The decoder -/

/-- A read outside the memory. -/
def IsOob (s : Stop) : Prop := ∃ i, s = .oob i

section Decoder

variable {mem : List UInt8} {c c' : Cursor}

theorem stops_rd {i : Nat} : Stops IsOob (rd mem i) := by
  unfold rd
  split
  · exact stops_ok _
  · exact stops_error.mpr ⟨i, rfl⟩

theorem stops_rdBytes {i n : Nat} : Stops IsOob (rdBytes mem i n) := by
  unfold rdBytes
  split
  · exact stops_ok _
  · exact stops_error.mpr ⟨_, rfl⟩

theorem stops_varlenint : Stops IsOob (ndntlvVarlenint mem c) := by
  refine stops_rd.bind fun b _ => ?_
  split
  · exact stops_pure _
  split
  · exact stops_rdBytes.bind fun _ _ => stops_pure _
  split
  · exact stops_rdBytes.bind fun _ _ => stops_pure _
  · exact stops_pure _

theorem stops_lrpcDehead : Stops IsOob (lrpcDehead mem c) := by
  refine stops_varlenint.bind fun x _ => ?_
  split
  · exact stops_pure _
  · refine stops_varlenint.bind fun y _ => ?_
    split <;> exact stops_pure _

theorem lrpcDehead_head {typ vallen : Nat}
    (h : lrpcDehead mem c = .ok (some ((typ, vallen), c'))) :
    LrpcHead mem c.pos typ vallen c'.pos ∧ c'.pos + c'.len = c.pos + c.len := by
  obtain ⟨x, hx, h⟩ := (bind_eq_ok _ _ _).mp h
  cases x with
  | none => simp at h
  | some x =>
    obtain ⟨y, hy, h⟩ := (bind_eq_ok _ _ _).mp h
    cases y with
    | none => simp at h
    | some y =>
      cases h
      obtain ⟨h₁, -, hlim₁⟩ := varlenint_eq_ok.mp hx
      obtain ⟨h₂, -, hlim₂⟩ := varlenint_eq_ok.mp hy
      exact ⟨⟨_, h₁, h₂⟩, hlim₂.trans hlim₁⟩

/-- What is promised of the decoder on `n` bytes from `p` on: it ends, and a term that it returns
covers its bytes, which are some of these. -/
structure DecodesWell (mem : List UInt8) (p n : Nat) (x : Run (Int × Rdr)) : Prop where
  ends : Stops IsOob x
  tiles : ∀ r ds, x = .ok (r, ds) → 0 ≤ r →
    ds.nextinseq = .null ∧ ds ≠ .null ∧ ds.flatlen ≤ n ∧ Tiles mem ds p (p + ds.flatlen)

theorem DecodesWell.negative {p n : Nat} {r : Int} (hr : r < 0) (ds : Rdr) :
    DecodesWell mem p n (pure (r, ds)) :=
  ⟨stops_pure _, fun r' ds' h hr' => by
    obtain ⟨rfl, rfl⟩ := Prod.mk.inj ((pure_eq_ok _ _).mp h)
    omega⟩

theorem DecodesWell.bind {α : Type} {p n : Nat} {x : Run α} {f : α → Run (Int × Rdr)}
    (hx : Stops IsOob x) (hf : ∀ a, x = .ok a → DecodesWell mem p n (f a)) :
    DecodesWell mem p n (x >>= f) :=
  ⟨hx.bind fun a ha => (hf a ha).ends, fun r ds h => by
    obtain ⟨a, ha, h⟩ := (bind_eq_ok _ _ _).mp h
    exact (hf a ha).tiles r ds h⟩

/-- A leaf. -/
theorem DecodesWell.leaf {p n q typ vallen : Nat} {d : RdrFields} (hflat : d.flat = some p)
    (hhead : LrpcHead mem p typ vallen q) (htype : rdrType typ = some d.type)
    (hlen : d.flatlen = q - p + vallen) (hle : q + vallen ≤ p + n) (hleaf : ¬ d.type.IsComposite)
    (hdata : d.type.IsBlob → d.data = ⟨q, vallen⟩)
    (hval : d.type = .nonnegint → d.val = nonNeg ((⟨q, vallen⟩ : Span).bytes mem)) :
    DecodesWell mem p n (pure (0, .node d .null .null .null)) :=
  ⟨stops_pure _, fun r ds h _ => by
    cases (pure_eq_ok _ _).mp h
    have hq := hhead.lt
    refine ⟨rfl, nofun, by simp only [Rdr.flatlen]; omega, typ, vallen, q,
      ⟨hflat, hhead, htype, hlen⟩, ?_, rfl⟩
    rw [if_neg hleaf]
    exact ⟨rfl, rfl, hdata, hval⟩⟩

/-- A term of one node takes at least the two bytes of its header. -/
theorem Tiles.two_le {t : Rdr} {lo : Nat} (h : Tiles mem t lo (lo + t.flatlen)) (hne : t ≠ .null) :
    2 ≤ t.flatlen := by
  cases t with
  | null => exact absurd rfl hne
  | node d u aux next =>
    obtain ⟨typ, vallen, q, ⟨-, hhead, -, hlen⟩, -⟩ := h
    have := hhead.lt
    show 2 ≤ d.flatlen
    omega

/-- A term with others put behind it. -/
theorem Tiles.setNext {t next : Rdr} {lo hi : Nat} (h : Tiles mem t lo (lo + t.flatlen))
    (hne : t ≠ .null) (hnext : Tiles mem next (lo + t.flatlen) hi) :
    Tiles mem (t.setNext next) lo hi := by
  cases t with
  | null => exact absurd rfl hne
  | node d u aux old =>
    obtain ⟨typ, vallen, q, hhead, hvalue, -⟩ := h
    show Tiles mem (.node d u aux next) lo hi
    exact ⟨typ, vallen, q, hhead, hvalue, hnext⟩

/-- The parts cover what is left of the value. -/
theorem rdrParts_tiles {get : Rdr → Run (Int × Rdr)} {size : Nat}
    (hget : ∀ p n, n ≤ size → DecodesWell mem p n (get (unserialize p n))) {k : Nat}
    (hk : c.len < k) (hsize : c.len ≤ size) :
    Stops IsOob (rdrParts get k c) ∧ ∀ n aux, rdrParts get k c = .ok (some (n, aux)) →
      n = c.len ∧ Tiles mem aux c.pos (c.pos + c.len) := by
  induction k generalizing c with
  | zero => omega
  | succ k ih =>
    rw [rdrParts]
    split
    · rename_i hlen
      refine ⟨stops_pure _, fun n aux h => ?_⟩
      cases (pure_eq_ok _ _).mp h
      exact ⟨hlen.symm, hlen ▸ rfl⟩
    have hone := hget c.pos c.len hsize
    -- a part that was taken is not empty, and it ends before the value does
    have hpart : ∀ r a, get (unserialize c.pos c.len) = .ok (r, a) → ¬ r < 0 →
        a ≠ .null ∧ 2 ≤ a.flatlen ∧ a.flatlen ≤ c.len ∧
          Tiles mem a c.pos (c.pos + a.flatlen) := fun r a ha hr => by
      obtain ⟨-, hne, hle, htiles⟩ := hone.tiles r a ha (by omega)
      exact ⟨hne, htiles.two_le hne, hle, htiles⟩
    refine ⟨hone.ends.bind fun x hx => ?_, fun n aux h => ?_⟩
    · obtain ⟨r, a⟩ := x
      dsimp only
      split
      · exact stops_pure _
      · rename_i hr
        obtain ⟨-, h2, hle, -⟩ := hpart r a hx hr
        rw [Cursor.skip, if_pos hle, ok_bind]
        refine (ih (by simp only; omega) (by simp only; omega)).1.bind fun y _ => ?_
        split <;> exact stops_pure _
    · obtain ⟨⟨r, a⟩, hx, h⟩ := (bind_eq_ok _ _ _).mp h
      dsimp only at h
      split at h
      · simp at h
      · rename_i hr
        obtain ⟨hne, h2, hle, htiles⟩ := hpart r a hx hr
        rw [Cursor.skip, if_pos hle, ok_bind] at h
        obtain ⟨y, hy, h⟩ := (bind_eq_ok _ _ _).mp h
        cases y with
        | none => simp at h
        | some y =>
          cases h
          obtain ⟨hn, hrest⟩ := (ih (by simp only; omega) (by simp only; omega)).2 _ _ hy
          simp only at hn hrest
          rw [show c.pos + a.flatlen + (c.len - a.flatlen) = c.pos + c.len by omega] at hrest
          exact ⟨by omega, htiles.setNext hne hrest⟩

/-- A term whose parts are decoded. -/
theorem rdrFinish_tiles {get : Rdr → Run (Int × Rdr)} {size : Nat}
    (hget : ∀ p n, n ≤ size → DecodesWell mem p n (get (unserialize p n))) {ds u : Rdr}
    {d : RdrFields} {p n q typ vallen used : Nat} (hsize : c.len ≤ size) (hflat : d.flat = some p)
    (hhead : LrpcHead mem p typ vallen q) (htype : rdrType typ = some d.type)
    (hcomp : d.type.IsComposite) (hfirst : u = .null ↔ ¬ d.type.HasFirst)
    (hnext : u.nextinseq = .null) (hu : Tiles mem u q c.pos) (hused : used = c.pos - p)
    (hend : c.pos + c.len = q + vallen) (hle : q + vallen ≤ p + n) :
    DecodesWell mem p n (rdrFinish get ds .null d u used c) := by
  have hparts := rdrParts_tiles hget (Nat.lt_succ_self c.len) hsize
  have hq := hhead.lt
  have hpos := hu.le
  refine ⟨hparts.1.bind fun x _ => ?_, fun r ds' h hr => ?_⟩
  · split <;> exact stops_pure _
  · obtain ⟨x, hx, h⟩ := (bind_eq_ok _ _ _).mp h
    cases x with
    | none =>
      cases (pure_eq_ok _ _).mp h
      exact absurd hr (by decide)
    | some x =>
      obtain ⟨m, aux⟩ := x
      obtain ⟨rfl, haux⟩ := hparts.2 _ _ hx
      cases (pure_eq_ok _ _).mp h
      rw [hend] at haux
      refine ⟨rfl, nofun, by simp only [Rdr.flatlen]; omega, typ, vallen, q,
        ⟨hflat, hhead, htype, by simp only; omega⟩, ?_, rfl⟩
      rw [if_pos hcomp]
      exact ⟨hfirst, hnext, c.pos, hu, haux⟩

theorem RdrType.IsBlob.not_composite {t : RdrType} (h : t.IsBlob) : ¬ t.IsComposite := by
  rcases h with rfl | rfl | rfl | rfl <;> decide

theorem rdrType_cases {typ : Nat} {t : RdrType} (h : rdrType typ = some t) :
    t = .nonnegint ∨ t.IsBlob ∨ t.IsComposite := by
  unfold rdrType at h
  split at h <;> cases h <;> decide

/-- With enough fuel the decoder does well on every range. -/
theorem getTypeFrom_tiles {k p n : Nat} (hn : n < k) :
    DecodesWell mem p n (getTypeFrom mem k (unserialize p n)) := by
  induction k generalizing p n with
  | zero => omega
  | succ k ih =>
    unfold unserialize getTypeFrom
    dsimp only
    split
    · exact .negative (by decide) _
    rw [if_neg (by decide), deref_some, ok_bind]
    refine .bind stops_lrpcDehead fun x hx => ?_
    match x with
    | none => exact .negative (by decide) _
    | some ((typ, vallen), c) =>
      obtain ⟨hhead, hlim⟩ := lrpcDehead_head hx
      have hq := hhead.lt
      simp only at hhead hlim hq ⊢
      split
      · exact .negative (by decide) _
      split
      · exact .negative (by decide) _
      have hget : ∀ p n, n ≤ vallen → DecodesWell mem p n (getTypeFrom mem k (unserialize p n)) :=
        fun p n hle => ih (by omega)
      cases htype : rdrType typ with
      | none => exact .negative (by decide) _
      | some t =>
        dsimp only
        split
        · rename_i hint
          refine .bind (stops_rdBytes.bind fun _ _ => stops_pure _) fun v hv => ?_
          obtain ⟨bs, hbs, hv⟩ := (bind_eq_ok _ _ _).mp hv
          have hleaf : ¬ t.IsComposite := by rw [hint]; decide
          have hbytes : ¬ t.IsBlob := by rw [hint]; decide
          refine .leaf rfl hhead htype rfl (by omega) hleaf (fun hb => absurd hb hbytes) fun _ => ?_
          rw [← (pure_eq_ok _ _).mp hv, ← (rdBytes_eq_ok.mp hbs).2]
          rfl
        rename_i hint
        split
        · rename_i hblob
          exact .leaf rfl hhead htype rfl (by omega) hblob.not_composite (fun _ => rfl)
            fun h => absurd h hint
        rename_i hblob
        have hcomp : t.IsComposite := ((rdrType_cases htype).resolve_left hint).resolve_left hblob
        split
        · rename_i hfirst
          have hone := hget c.pos vallen (Nat.le_refl _)
          refine .bind hone.ends fun x hx => ?_
          obtain ⟨r, a⟩ := x
          dsimp only
          split
          · exact .negative (by split <;> decide) _
          · rename_i hr
            obtain ⟨hnext, hne, hle, htiles⟩ := hone.tiles r a hx (by omega)
            rw [Cursor.skip, if_pos hle, ok_bind]
            exact rdrFinish_tiles hget (Nat.sub_le _ _) rfl hhead htype hcomp
              (iff_of_false hne fun h => h hfirst) hnext htiles (by simp only; omega)
              (by simp only; omega) (by omega)
        · rename_i hfirst
          exact rdrFinish_tiles hget (Nat.le_refl _) rfl hhead htype hcomp
            (iff_of_true rfl hfirst) rfl rfl rfl rfl (by omega)

end Decoder

/-! ## Elements whose header is read -/

section Read

variable {mem : List UInt8} {p n k typ vallen : Nat} {c : Cursor} {t : RdrType}

theorem rdrType_le (h : rdrType typ = some t) : typ ≤ int32Max := by
  unfold rdrType at h
  split at h <;> first | decide | cases h

section Head

variable (hhead : lrpcDehead mem ⟨p, n⟩ = .ok (some ((typ, vallen), c))) (hle : vallen ≤ c.len)
  (htype : rdrType typ = some t)

include hhead hle htype

/-- What the type of the element decides. -/
theorem getTypeFrom_head : getTypeFrom mem (k + 1) (unserialize p n) =
    if t = .nonnegint then do
      let v ← ndntlvNonNegInt mem c.pos vallen
      let d : RdrFields := { type := t, flatlen := c.pos - p + vallen, flat := some p }
      return (0, .node { d with val := v } .null .null .null)
    else if t.IsBlob then do
      let d : RdrFields := { type := t, flatlen := c.pos - p + vallen, flat := some p }
      return (0, .node { d with data := ⟨c.pos, vallen⟩ } .null .null .null)
    else if t.HasFirst then do
      let (r, a) ← getTypeFrom mem k (unserialize c.pos vallen)
      if r < 0 then return (if t = .application then -5 else -6, unserialize p n)
      else do
        let rest ← (⟨c.pos, vallen⟩ : Cursor).skip a.flatlen
        rdrFinish (getTypeFrom mem k) (unserialize p n) .null
          { type := t, flatlen := n, flat := some p } a (c.pos - p + a.flatlen) rest
    else rdrFinish (getTypeFrom mem k) (unserialize p n) .null
      { type := t, flatlen := n, flat := some p } .null (c.pos - p) ⟨c.pos, vallen⟩ := by
  obtain ⟨hh, hlim⟩ := lrpcDehead_head hhead
  have hpos := hh.lt
  simp only at hlim hpos
  rw [unserialize, getTypeFrom]
  dsimp only
  rw [if_neg (by omega), if_neg (by decide), deref_some, ok_bind, hhead, ok_bind]
  dsimp only
  rw [if_neg (Nat.not_lt.mpr (rdrType_le htype)), if_neg (by omega), htype]

/-- The first part is decoded, and the others follow. -/
theorem getTypeFrom_first {r : Int} {a : Rdr} (hint : t ≠ .nonnegint) (hblob : ¬ t.IsBlob)
    (hfirst : t.HasFirst) (hget : getTypeFrom mem k (unserialize c.pos vallen) = .ok (r, a))
    (hr : 0 ≤ r) (hfits : a.flatlen ≤ vallen) :
    getTypeFrom mem (k + 1) (unserialize p n) =
      rdrFinish (getTypeFrom mem k) (unserialize p n) .null
        { type := t, flatlen := n, flat := some p } a (c.pos - p + a.flatlen)
        ⟨c.pos + a.flatlen, vallen - a.flatlen⟩ := by
  rw [getTypeFrom_head hhead hle htype, if_neg hint, if_neg hblob, if_pos hfirst, hget, ok_bind]
  dsimp only
  rw [if_neg (Int.not_lt.mpr hr), Cursor.skip, if_pos hfits, ok_bind]

end Head

end Read

/-- `ccnl_rdr_getType` on a node that was just made of the bytes `bs`, which lie between others: it
ends, and a term that it returns covers its bytes, which are some of `bs`, with its leaves among
them. -/
theorem getType_tiles (before bs after : List UInt8) :
    let mem := before ++ (bs ++ after)
    let ds := unserialize before.length bs.length
    (∀ s, getType mem ds = .error s → ∃ i, s = .oob i) ∧
      ∀ r t, getType mem ds = .ok (r, t) → 0 ≤ r →
        t ≠ .null ∧ t.nextinseq = .null ∧ t.flatlen ≤ bs.length ∧
          Tiles mem t before.length (before.length + t.flatlen) ∧
          ∀ s ∈ t.leaves, s.Within before.length (before.length + bs.length) := by
  intro mem ds
  have hwell : DecodesWell mem before.length bs.length (getType mem ds) :=
    getTypeFrom_tiles (Nat.lt_succ_self bs.length)
  refine ⟨hwell.ends, fun r t h hr => ?_⟩
  obtain ⟨hnext, hne, hle, htiles⟩ := hwell.tiles r t h hr
  exact ⟨hne, hnext, hle, htiles, fun s hs =>
    (htiles.leaves_within s hs).mono (Nat.le_refl _) (by omega)⟩

/-- The application of `f` to 7, with a byte behind it that is not taken. -/
def appF : Rdr :=
  .node { type := .application, flatlen := 8, flat := some 0 }
    (.node { type := .flatname, flatlen := 3, flat := some 2, data := ⟨4, 1⟩ } .null .null .null)
    (.node { type := .nonnegint, flatlen := 3, flat := some 5, val := 7 } .null .null .null) .null

theorem getType_tiles_appF :
    appF ≠ .null ∧ appF.nextinseq = .null ∧ appF.flatlen ≤ 9 ∧
      Tiles [2, 6, 0, 1, 102, 1, 1, 7, 0] appF 0 8 ∧ ∀ s ∈ appF.leaves, s.Within 0 9 :=
  (getType_tiles [] [2, 6, 0, 1, 102, 1, 1, 7, 0] []).2 2 appF (by decide) (by decide)

end Ccnl
