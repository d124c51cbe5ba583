import CcnLite.Rpc.Tiling

/-!
# Asking a node for its type again

`ccnl_rdr_getType` leaves what it found in the node, and answers from there when it is called again.
Here a call returns the node also when it fails, and each node carries the answers that were given
for it (`Asked`). A node is `Stable` when all of its answers are its type, or all are failures, and
so on for its parts.

Two of the branches break this. A leaf answers 0 at first and its type later. A term with parts gets
its type before the loop over them, so when a part fails, the call fails and the next one returns the
type. `rdrStable_iff` says of which bytes a node stays stable, whichever of the nodes is asked.
-/

namespace Ccnl

open CRun

/-! ## Nodes and calls -/

/-- `struct rdr_ds_s *`, and in each node what `ccnl_rdr_getType` has answered for it, oldest
first. -/
inductive Asked where
  | null
  | node (d : RdrFields) (answers : List Int) (u aux nextinseq : Asked)
  deriving DecidableEq, Repr

namespace Asked

def flatlen : Asked → Nat
  | null => 0
  | node d .. => d.flatlen

def nextinseq : Asked → Asked
  | null => null
  | node _ _ _ _ next => next

/-- `ds->nextinseq = next`. -/
def setNext : Asked → Asked → Asked
  | null, _ => null
  | node d as u aux _, next => node d as u aux next

def answer (r : Int) : Asked → Asked
  | null => null
  | node d as u aux next => node d (as ++ [r]) u aux next

/-- The node without the answers. -/
def term : Asked → Rdr
  | null => .null
  | node d _ u aux next => .node d u.term aux.term next.term

/-- `ccnl_rdr_unserialize`. -/
def unserialize (buf buflen : Nat) : Asked :=
  .node { flat := some buf, flatlen := buflen } [] .null .null .null

/-- The loop of `ccnl_rdr_getType`: whether it came to the end of the value, the sum of the sizes of
the parts that were decoded, and these parts. -/
def rdrParts (getType : Asked → Run (Int × Asked)) : Nat → Cursor → Run (Bool × Nat × Asked)
  | 0, _ => .error .fuel
  | k + 1, c =>
    if c.len = 0 then return (true, 0, .null)
    else do
      let (r, a) ← getType (unserialize c.pos c.len)
      if r < 0 then return (false, 0, .null)
      else do
        let (done, n, next) ← rdrParts getType k (← c.skip a.flatlen)
        return (done, a.flatlen + n, a.setNext next)

/-- The end of `ccnl_rdr_getType` for a term with parts, whose type is already set. `c` is what is
left of the value. -/
def rdrFinish (getType : Asked → Run (Int × Asked)) (d : RdrFields) (as : List Int)
    (u aux next : Asked) (c : Cursor) : Run (Int × Asked) := do
  let (done, n, parts) ← rdrParts getType (c.len + 1) c
  return (if done then d.type.code else -10,
    .node { d with flatlen := d.flatlen + n } as u (if parts = .null then aux else parts) next)

/-- The body of `ccnl_rdr_getType` for a node. -/
def decode (mem : List UInt8) (getType : Asked → Run (Int × Asked)) (d : RdrFields) (as : List Int)
    (u aux next : Asked) : Run (Int × Asked) := do
  let ds := node d as u aux next
  if d.flatlen = 0 then return (-2, ds)
  else if d.type ≠ .notSerialized then return (d.type.code, ds)
  else do
    let flat ← deref d.flat
    match ← lrpcDehead mem ⟨flat, d.flatlen⟩ with
    | none => return (-3, ds)
    | some ((typ, vallen), c) =>
      let hdr := c.pos - flat
      if int32Max < typ then return (-3, ds)
      else if c.len < vallen then return (-4, ds)
      else
        match rdrType typ with
        | none => return (-1, ds)
        | some t =>
          if t = .nonnegint then do
            let v ← ndntlvNonNegInt mem c.pos vallen
            return (0, node { d with type := t, val := v, flatlen := hdr + vallen } as u aux next)
          else if t.IsBlob then
            return (0, node { d with type := t, data := ⟨c.pos, vallen⟩, flatlen := hdr + vallen }
              as u aux next)
          else if t.HasFirst then do
            let (r, a) ← getType (unserialize c.pos vallen)
            if r < 0 then
              -- the size is that of the header by now
              return (if t = .application then -5 else -6, node { d with flatlen := hdr } as u aux next)
            else do
              let rest ← (⟨c.pos, vallen⟩ : Cursor).skip a.flatlen
              rdrFinish getType { d with type := t, flatlen := hdr + a.flatlen } as a aux next rest
          else rdrFinish getType { d with type := t, flatlen := hdr } as u aux next ⟨c.pos, vallen⟩

/-- `ccnl_rdr_getType`, with fuel. -/
def getTypeFrom (mem : List UInt8) : Nat → Asked → Run (Int × Asked)
  | _, .null => return (-2, .null)
  | 0, .node .. => .error .fuel
  | k + 1, .node d as u aux next => do
    let (r, ds) ← decode mem (getTypeFrom mem k) d as u aux next
    return (r, ds.answer r)

/-- `ccnl_rdr_getType`. -/
def getType (mem : List UInt8) (ds : Asked) : Run (Int × Asked) :=
  getTypeFrom mem (ds.flatlen + 1) ds

/-- A call of `ccnl_rdr_getType` on one of the nodes. -/
inductive Call (mem : List UInt8) : Asked → Asked → Prop
  | here {ds ds' : Asked} {r : Int} (h : getType mem ds = .ok (r, ds')) : Call mem ds ds'
  | u {d : RdrFields} {as : List Int} {u u' aux next : Asked} (h : Call mem u u') :
      Call mem (node d as u aux next) (node d as u' aux next)
  | aux {d : RdrFields} {as : List Int} {u aux aux' next : Asked} (h : Call mem aux aux') :
      Call mem (node d as u aux next) (node d as u aux' next)
  | next {d : RdrFields} {as : List Int} {u aux next next' : Asked} (h : Call mem next next') :
      Call mem (node d as u aux next) (node d as u aux next')

/-- The node and all that are linked to it. -/
def All (P : RdrFields → List Int → Prop) : Asked → Prop
  | null => True
  | node d as u aux next => P d as ∧ u.All P ∧ aux.All P ∧ next.All P

/-- The answers agree for each node: each one is the type of the node, or each one is a failure. -/
def Stable : Asked → Prop := All fun d as => (∀ r ∈ as, r = d.type.code) ∨ ∀ r ∈ as, r < 0

end Asked

/-! ## On the wire -/

/-- A term stands at `p`, within `n` bytes. -/
def TermAt (mem : List UInt8) (p n : Nat) (t : Rdr) : Prop :=
  t.nextinseq = .null ∧ t ≠ .null ∧ t.flatlen ≤ n ∧ Tiles mem t p (p + t.flatlen)

/-- The types of the leaves. -/
def Rdr.leafTypes : Rdr → List RdrType
  | .null => []
  | .node d u aux next =>
    (if d.type.IsComposite then [] else [d.type]) ++ (u.leafTypes ++ (aux.leafTypes ++ next.leafTypes))

/-- The leaves of a term at `p` are all flat names. A term with parts is whole when its header is
there, its value lies within the `n` bytes, and its first part, if it has one, is there. -/
def ClearCut (mem : List UInt8) (p n : Nat) : Prop :=
  (∀ t, TermAt mem p n t → ∀ ty ∈ t.leafTypes, ty = .flatname) ∧
    ∀ typ vallen q ty, LrpcHead mem p typ vallen q → rdrType typ = some ty → ty.IsComposite →
      q + vallen ≤ p + n → (ty.HasFirst → ∃ a, TermAt mem q vallen a) → ∃ t, TermAt mem p n t

/-! ## A node that was just made -/

namespace Asked

@[simp] theorem term_eq_null {ds : Asked} : ds.term = .null ↔ ds = .null := by
  cases ds <;> simp [term]

@[simp] theorem flatlen_term (ds : Asked) : ds.term.flatlen = ds.flatlen := by cases ds <;> rfl

@[simp] theorem nextinseq_term (ds : Asked) : ds.term.nextinseq = ds.nextinseq.term := by
  cases ds <;> rfl

@[simp] theorem term_setNext (ds next : Asked) :
    (ds.setNext next).term = ds.term.setNext next.term := by cases ds <;> rfl

@[simp] theorem term_answer (r : Int) (ds : Asked) : (ds.answer r).term = ds.term := by
  cases ds <;> rfl

/-- The outcome of a call as `Ccnl.getType` has it, which leaves out what a failed call does. -/
def outcome (p n : Nat) (x : Int × Asked) : Int × Rdr :=
  (x.1, if x.1 < 0 then Ccnl.unserialize p n else x.2.term)

theorem rdrType_ne {typ : Nat} {t : RdrType} (h : rdrType typ = some t) : t ≠ .notSerialized := by
  rintro rfl
  rcases rdrType_cases h with h | h | h
  · cases h
  · exact absurd h (by decide)
  · exact absurd h (by decide)

section Outcome

variable {mem : List UInt8} {get : Asked → Run (Int × Asked)} {get' : Rdr → Run (Int × Rdr)}

theorem rdrParts_outcome
    (hget : ∀ p n, get' (Ccnl.unserialize p n) = outcome p n <$> get (unserialize p n))
    (k : Nat) (c : Cursor) :
    Ccnl.rdrParts get' k c =
      (fun x => if x.1 then some (x.2.1, x.2.2.term) else none) <$> rdrParts get k c := by
  induction k generalizing c with
  | zero => rfl
  | succ k ih =>
    rw [Ccnl.rdrParts, rdrParts]
    split
    · rfl
    rw [hget]
    cases get (unserialize c.pos c.len) with
    | error s => rfl
    | ok x =>
      obtain ⟨r, a⟩ := x
      rw [show outcome c.pos c.len <$> (Except.ok (r, a) : Run _) =
        .ok (r, if r < 0 then Ccnl.unserialize c.pos c.len else a.term) from rfl, ok_bind, ok_bind]
      dsimp only
      by_cases hr : r < 0
      · rw [if_pos hr, if_pos hr]
        rfl
      simp only [if_neg hr, flatlen_term]
      cases c.skip a.flatlen with
      | error s => rfl
      | ok c' =>
        rw [ok_bind, ok_bind, ih]
        cases rdrParts get k c' with
        | error s => rfl
        | ok y =>
          obtain ⟨_ | _, n, next⟩ := y
          · rfl
          · exact congrArg (fun t => (.ok (some (a.flatlen + n, t)) : Run _)) (term_setNext a next).symm

theorem rdrFinish_outcome
    (hget : ∀ p n, get' (Ccnl.unserialize p n) = outcome p n <$> get (unserialize p n))
    {p n used : Nat} (d : RdrFields) (as : List Int) (u : Asked) (c : Cursor)
    (htype : d.type ≠ .notSerialized) :
    Ccnl.rdrFinish get' (Ccnl.unserialize p n) .null d u.term used c =
      outcome p n <$> rdrFinish get { d with flatlen := used } as u .null .null c := by
  rw [Ccnl.rdrFinish, rdrFinish, rdrParts_outcome hget]
  cases rdrParts get (c.len + 1) c with
  | error s => rfl
  | ok x =>
    obtain ⟨_ | _, m, parts⟩ := x
    · rfl
    · have hcode : ¬ d.type.code < 0 := by
        cases h : d.type <;> first | exact absurd h htype | decide
      by_cases hnull : parts = .null <;> simp [outcome, hcode, hnull, term]

/-- The answers are not part of the outcome. -/
theorem outcome_answer (p n : Nat) (x : Run (Int × Asked)) :
    (outcome p n <$> do let (r, ds) ← x; return (r, ds.answer r)) = outcome p n <$> x := by
  cases x with
  | error s => rfl
  | ok x => exact congrArg (fun t => (.ok (x.1, if x.1 < 0 then _ else t) : Run _)) (term_answer x.1 x.2)

/-- On a node that was just made, the call is `Ccnl.getType`. -/
theorem getTypeFrom_outcome (mem : List UInt8) (k p n : Nat) :
    Ccnl.getTypeFrom mem k (Ccnl.unserialize p n) =
      outcome p n <$> getTypeFrom mem k (unserialize p n) := by
  induction k generalizing p n with
  | zero => rfl
  | succ k ih =>
    rw [Ccnl.unserialize, unserialize, Ccnl.getTypeFrom, getTypeFrom, outcome_answer, decode]
    dsimp only
    by_cases hlen : n = 0
    · rw [if_pos hlen, if_pos hlen]
      rfl
    rw [if_neg hlen, if_neg hlen, if_neg (by decide), if_neg (by decide), deref_some, ok_bind, ok_bind]
    cases lrpcDehead mem ⟨p, n⟩ with
    | error s => rfl
    | ok x =>
      obtain _ | ⟨⟨typ, vallen⟩, c⟩ := x
      · rfl
      · simp only [ok_bind]
        by_cases hmax : int32Max < typ
        · rw [if_pos hmax, if_pos hmax]
          rfl
        rw [if_neg hmax, if_neg hmax]
        by_cases hval : c.len < vallen
        · rw [if_pos hval, if_pos hval]
          rfl
        rw [if_neg hval, if_neg hval]
        cases htype : rdrType typ with
        | none => rfl
        | some t =>
          have hreal := rdrType_ne htype
          dsimp only
          by_cases hint : t = .nonnegint
          · rw [if_pos hint, if_pos hint]
            cases ndntlvNonNegInt mem c.pos vallen <;> rfl
          rw [if_neg hint, if_neg hint]
          by_cases hblob : t.IsBlob
          · rw [if_pos hblob, if_pos hblob]
            rfl
          rw [if_neg hblob, if_neg hblob]
          by_cases hfirst : t.HasFirst
          · rw [if_pos hfirst, if_pos hfirst, ih]
            cases getTypeFrom mem k (unserialize c.pos vallen) with
            | error s => rfl
            | ok x =>
              obtain ⟨r, a⟩ := x
              rw [show outcome c.pos vallen <$> (Except.ok (r, a) : Run _) =
                .ok (r, if r < 0 then Ccnl.unserialize c.pos vallen else a.term) from rfl,
                ok_bind, ok_bind]
              dsimp only
              by_cases hr : r < 0
              · rw [if_pos hr, if_pos hr]
                by_cases happ : t = .application
                · rw [if_pos happ]
                  rfl
                · rw [if_neg happ]
                  rfl
              simp only [if_neg hr, flatlen_term]
              cases Cursor.skip ⟨c.pos, vallen⟩ a.flatlen with
              | error s => rfl
              | ok rest => exact rdrFinish_outcome ih _ [] a rest hreal
          · rw [if_neg hfirst, if_neg hfirst]
            exact rdrFinish_outcome ih _ [] .null _ hreal

end Outcome

/-- A first call that succeeds returns the term of `Ccnl.getType`, one that fails fails there. -/
theorem getTypeFrom_ok {mem : List UInt8} {k p n : Nat} {r : Int} {ds : Asked}
    (h : getTypeFrom mem k (unserialize p n) = .ok (r, ds)) :
    Ccnl.getTypeFrom mem k (Ccnl.unserialize p n) = .ok (outcome p n (r, ds)) := by
  rw [getTypeFrom_outcome, h]
  rfl

/-- What a first call that succeeds decodes is a term on the wire. -/
theorem termAt_of_ok {mem : List UInt8} {k p n : Nat} {r : Int} {ds : Asked} (hk : n < k)
    (h : getTypeFrom mem k (unserialize p n) = .ok (r, ds)) (hr : 0 ≤ r) :
    TermAt mem p n ds.term := by
  have := getTypeFrom_ok h
  rw [outcome, if_neg (by omega)] at this
  exact (getTypeFrom_tiles hk).tiles _ _ this hr

end Asked

/-! ## Every term is decoded -/

section Decoded

variable {mem : List UInt8}

theorem lrpcDehead_eq {c : Cursor} {typ vallen q : Nat} (h : LrpcHead mem c.pos typ vallen q)
    (hle : q ≤ c.pos + c.len) :
    lrpcDehead mem c = .ok (some ((typ, vallen), ⟨q, c.pos + c.len - q⟩)) := by
  obtain ⟨m, h₁, h₂⟩ := h
  have hm := numAt_lt h₂
  have hfst : ndntlvVarlenint mem c = .ok (some (typ, ⟨m, c.pos + c.len - m⟩)) :=
    varlenint_eq_ok.mpr ⟨h₁, by simp only; omega, by simp only; omega⟩
  have hsnd : ndntlvVarlenint mem ⟨m, c.pos + c.len - m⟩ =
      .ok (some (vallen, ⟨q, c.pos + c.len - q⟩)) :=
    varlenint_eq_ok.mpr ⟨h₂, by simp only; omega, by simp only; omega⟩
  rw [lrpcDehead, hfst, ok_bind]
  dsimp only
  rw [hsnd]
  rfl

/-- A call that succeeds, and takes `size` bytes for a term with such leaves. -/
def Takes (size : Nat) (leaves : List RdrType) (x : Run (Int × Rdr)) : Prop :=
  ∃ r ds, x = .ok (r, ds) ∧ 0 ≤ r ∧ ds.flatlen = size ∧ ds ≠ .null ∧ ds.nextinseq = .null ∧
    ds.leafTypes = leaves

/-- The first node of a term is decoded by itself. -/
def OneTaken (mem : List UInt8) (t : Rdr) : Prop :=
  ∀ p hi k n, Tiles mem t p hi → t ≠ .null → t.flatlen ≤ n → p + n ≤ mem.length → n < k →
    Takes t.flatlen (t.setNext .null).leafTypes (getTypeFrom mem k (unserialize p n))

/-- The term is decoded in the loop over the parts. -/
def PartsTaken (mem : List UInt8) (t : Rdr) : Prop :=
  ∀ p len k k', Tiles mem t p (p + len) → p + len ≤ mem.length → len < k → len < k' →
    ∃ aux, rdrParts (getTypeFrom mem k) k' ⟨p, len⟩ = .ok (some (len, aux)) ∧
      aux.leafTypes = t.leafTypes

theorem code_nonneg {t : RdrType} (h : t ≠ .notSerialized) : 0 ≤ t.code := by
  cases t <;> first | exact absurd rfl h | decide

section Taken

variable {d : RdrFields} {u aux next : Rdr}

/-- The parts of a term are decoded. -/
theorem rdrFinish_taken {ds u' : Rdr} {d' : RdrFields} {used p len k : Nat}
    (haux : PartsTaken mem aux) (htiles : Tiles mem aux p (p + len)) (hmem : p + len ≤ mem.length)
    (hk : len < k) :
    ∃ aux', rdrFinish (getTypeFrom mem k) ds .null d' u' used ⟨p, len⟩ =
      .ok (d'.type.code, .node { d' with flatlen := used + len } u' aux' .null) ∧
        aux'.leafTypes = aux.leafTypes := by
  obtain ⟨aux', h, hleaves⟩ := haux p len k (len + 1) htiles hmem hk (Nat.lt_succ_self _)
  refine ⟨aux', ?_, hleaves⟩
  rw [rdrFinish, h, ok_bind]
  rfl

theorem node_ne_null : Rdr.node d u aux next ≠ .null := nofun

/-- A node is decoded when its parts are. -/
theorem node_taken (hu : u ≠ .null → OneTaken mem u) (haux : PartsTaken mem aux) :
    OneTaken mem (.node d u aux next) := by
  intro p hi k n htiles _ hn hmem hk
  obtain ⟨typ, vallen, q, ⟨-, hhead, htype, hlen⟩, hvalue, -⟩ := htiles
  have hq := hhead.lt
  change d.flatlen ≤ n at hn
  obtain ⟨k, rfl⟩ : ∃ j, k = j + 1 := ⟨k - 1, by omega⟩
  have hhead := lrpcDehead_eq (c := ⟨p, n⟩) hhead (by simp only; omega)
  have hle : vallen ≤ p + n - q := by omega
  unfold Takes
  rw [Rdr.setNext, show (Rdr.node d u aux next).flatlen = d.flatlen from rfl]
  have hcases := rdrType_cases htype
  by_cases hint : d.type = .nonnegint
  · have hleaf : ¬ d.type.IsComposite := by rw [hint]; decide
    rw [if_neg hleaf] at hvalue
    obtain ⟨rfl, rfl, -⟩ := hvalue
    have hread : rdBytes mem q vallen = .ok _ := rdBytes_eq_ok.mpr ⟨.inr (by omega), rfl⟩
    rw [getTypeFrom_head hhead hle htype, if_pos hint, ndntlvNonNegInt, hread, ok_bind]
    exact ⟨_, _, rfl, Int.le_refl 0, hlen.symm, node_ne_null, rfl, rfl⟩
  by_cases hblob : d.type.IsBlob
  · rw [if_neg hblob.not_composite] at hvalue
    obtain ⟨rfl, rfl, -⟩ := hvalue
    rw [getTypeFrom_head hhead hle htype, if_neg hint, if_pos hblob]
    exact ⟨_, _, rfl, Int.le_refl 0, hlen.symm, node_ne_null, rfl, rfl⟩
  have hcomp : d.type.IsComposite := (hcases.resolve_left hint).resolve_left hblob
  have hcode := code_nonneg (Asked.rdrType_ne htype)
  rw [if_pos hcomp] at hvalue
  obtain ⟨hunull, hun, mid, htu, htaux⟩ := hvalue
  have hmid := htu.le
  have hend := htaux.le
  by_cases hfirst : d.type.HasFirst
  · have hne : u ≠ .null := fun h => hunull.mp h hfirst
    -- the first part ends where the others begin
    have hulen : mid = q + u.flatlen := by
      cases u with
      | null => exact absurd rfl hne
      | node d' u' aux' next' =>
        obtain rfl : next' = .null := hun
        obtain ⟨-, -, -, -, -, hnext⟩ := htu
        exact Eq.symm hnext
    subst hulen
    obtain ⟨r, u', hget, hr, hsize, hne', hnext', hleaves⟩ :=
      hu hne q _ k vallen htu hne (by omega) (by omega) (by omega)
    obtain ⟨len, rfl⟩ : ∃ len, vallen = u.flatlen + len := ⟨vallen - u.flatlen, by omega⟩
    rw [← Nat.add_assoc] at htaux
    obtain ⟨aux', hfin, hleaves'⟩ := rdrFinish_taken (k := k) haux htaux (by omega) (by omega)
    rw [getTypeFrom_first hhead hle htype hint hblob hfirst hget hr (by omega), hsize,
      Nat.add_sub_cancel_left, hfin]
    have hself : u.setNext .null = u := by
      cases u with
      | null => rfl
      | node d' u' aux' next' => rw [show next' = .null from hun]; rfl
    rw [hself] at hleaves
    have htotal : q - p + u.flatlen + len = d.flatlen := by omega
    refine ⟨_, _, rfl, hcode, htotal, node_ne_null, rfl, ?_⟩
    simp only [Rdr.leafTypes, hleaves, hleaves']
  · obtain rfl := hunull.mpr hfirst
    obtain rfl : q = mid := htu
    obtain ⟨aux', hfin, hleaves'⟩ := rdrFinish_taken (k := k) haux htaux (by omega) (by omega)
    rw [getTypeFrom_head hhead hle htype, if_neg hint, if_neg hblob, if_neg hfirst, hfin]
    refine ⟨_, _, rfl, hcode, hlen.symm, node_ne_null, rfl, ?_⟩
    simp only [Rdr.leafTypes, hleaves']

theorem leafTypes_setNext {t next : Rdr} (hne : t ≠ .null) (hnext : t.nextinseq = .null) :
    (t.setNext next).leafTypes = t.leafTypes ++ next.leafTypes := by
  cases t with
  | null => exact absurd rfl hne
  | node d u aux old =>
    obtain rfl : old = .null := hnext
    simp [Rdr.setNext, Rdr.leafTypes]

/-- A node and those behind it are decoded when it is and they are. -/
theorem parts_taken (h : OneTaken mem (.node d u aux next)) (hnext : PartsTaken mem next) :
    PartsTaken mem (.node d u aux next) := by
  intro p len k j htiles hmem hk hj
  have hrest := htiles
  obtain ⟨typ, vallen, q, ⟨-, hhead, -, hlen⟩, -, htnext⟩ := hrest
  have hq := hhead.lt
  have hle := htnext.le
  obtain ⟨r, ds, hget, hr, hsize, hne, hnull, hleaves⟩ :=
    h p _ k len htiles nofun (by show d.flatlen ≤ len; omega) hmem hk
  replace hsize : ds.flatlen = d.flatlen := hsize
  obtain ⟨rest, rfl⟩ : ∃ rest, len = d.flatlen + rest := ⟨len - d.flatlen, by omega⟩
  obtain ⟨j, rfl⟩ : ∃ i, j = i + 1 := ⟨j - 1, by omega⟩
  rw [← Nat.add_assoc] at htnext
  obtain ⟨next', hparts, hleaves'⟩ := hnext _ _ k j htnext (by omega) (by omega) (by omega)
  refine ⟨ds.setNext next', ?_, ?_⟩
  · rw [rdrParts, if_neg (by simp only; omega), hget, ok_bind]
    dsimp only
    rw [if_neg (by omega), Cursor.skip, if_pos (by simp only; omega), ok_bind, hsize]
    dsimp only
    rw [Nat.add_sub_cancel_left, hparts]
    rfl
  · rw [leafTypes_setNext hne hnull, hleaves, hleaves']
    simp [Rdr.setNext, Rdr.leafTypes]

end Taken

/-- Every term on the wire is decoded, alone and as a part. -/
theorem tiles_taken (t : Rdr) : OneTaken mem t ∧ PartsTaken mem t := by
  induction t with
  | null =>
    refine ⟨fun _ _ _ _ _ hne => absurd rfl hne, fun p len k j htiles _ _ hj => ?_⟩
    obtain rfl : len = 0 := by
      have : p = p + len := htiles
      omega
    obtain ⟨j, rfl⟩ : ∃ i, j = i + 1 := ⟨j - 1, by omega⟩
    exact ⟨.null, rfl, rfl⟩
  | node d u aux next ihu ihaux ihnext =>
    have hone : OneTaken mem (.node d u aux next) := node_taken (fun _ => ihu.1) ihaux.2
    exact ⟨hone, parts_taken hone ihnext.2⟩

/-- A call on the bytes of a term succeeds. -/
theorem TermAt.taken {p n k : Nat} {t : Rdr} (h : TermAt mem p n t) (hmem : p + n ≤ mem.length)
    (hk : n < k) : Takes t.flatlen t.leafTypes (getTypeFrom mem k (unserialize p n)) := by
  obtain ⟨hnext, hne, hle, htiles⟩ := h
  have := (tiles_taken t).1 p _ k n htiles hne hle hmem hk
  rwa [show t.setNext .null = t by cases t <;> [rfl; (rw [← hnext]; rfl)]] at this

theorem lrpcDehead_safe {c : Cursor} (h : c.pos + c.len < mem.length) : Safe (lrpcDehead mem c) := by
  have hnum : ∀ c : Cursor, c.pos + c.len < mem.length → Safe (ndntlvVarlenint mem c) := fun c hc =>
    safe_varlenint.mpr ⟨_, List.getElem?_eq_getElem (by omega), fun h => by omega⟩
  refine (safe_bind _ _).mpr ⟨hnum c h, fun x hx => ?_⟩
  match x with
  | none => exact safe_pure _
  | some (typ, c') =>
    obtain ⟨-, -, hlim⟩ := varlenint_eq_ok.mp hx
    refine (safe_bind _ _).mpr ⟨hnum c' (by omega), fun y _ => ?_⟩
    split <;> exact safe_pure _

section Safe

variable {get : Rdr → Run (Int × Rdr)} {size : Nat} {c : Cursor}
  (hget : ∀ p n, n ≤ size → p + n < mem.length → Safe (get (unserialize p n)))
  (hwell : ∀ p n, n ≤ size → DecodesWell mem p n (get (unserialize p n)))

include hget hwell

theorem rdrParts_safe {k : Nat} (hk : c.len < k) (hsize : c.len ≤ size)
    (hmem : c.pos + c.len < mem.length) : Safe (rdrParts get k c) := by
  induction k generalizing c with
  | zero => omega
  | succ k ih =>
    rw [rdrParts]
    split
    · exact safe_pure _
    refine (safe_bind _ _).mpr ⟨hget _ _ hsize hmem, fun x hx => ?_⟩
    obtain ⟨r, a⟩ := x
    dsimp only
    split
    · exact safe_pure _
    rename_i hr
    obtain ⟨-, hne, hle, htiles⟩ := (hwell _ _ hsize).tiles r a hx (by omega)
    have h2 := htiles.two_le hne
    rw [Cursor.skip, if_pos hle, ok_bind]
    refine (safe_bind _ _).mpr
      ⟨ih (by simp only; omega) (by simp only; omega) (by simp only; omega), fun y _ => ?_⟩
    split <;> exact safe_pure _

theorem rdrFinish_safe {ds next u : Rdr} {d : RdrFields} {used : Nat} (hsize : c.len ≤ size)
    (hmem : c.pos + c.len < mem.length) : Safe (rdrFinish get ds next d u used c) := by
  refine (safe_bind _ _).mpr
    ⟨rdrParts_safe hget hwell (Nat.lt_succ_self _) hsize hmem, fun x _ => ?_⟩
  split <;> exact safe_pure _

end Safe

/-- With a byte behind the buffer, a call reads nothing outside the memory. -/
theorem getTypeFrom_safe {k p n : Nat} (hmem : p + n < mem.length) (hk : n < k) :
    Safe (getTypeFrom mem k (unserialize p n)) := by
  induction k generalizing p n with
  | zero => omega
  | succ k ih =>
    unfold unserialize getTypeFrom
    dsimp only
    split
    · exact safe_pure _
    rw [if_neg (by decide), deref_some, ok_bind]
    refine (safe_bind _ _).mpr ⟨lrpcDehead_safe hmem, fun x hx => ?_⟩
    rcases x with _ | ⟨⟨typ, vallen⟩, c⟩
    · exact safe_pure _
    · obtain ⟨hhead, hlim⟩ := lrpcDehead_head hx
      have hq := hhead.lt
      simp only at hlim hq ⊢
      split
      · exact safe_pure _
      split
      · exact safe_pure _
      have hget : ∀ p n, n ≤ vallen → p + n < mem.length →
          Safe (getTypeFrom mem k (unserialize p n)) := fun p n hle hin => ih hin (by omega)
      have hwell : ∀ p n, n ≤ vallen → DecodesWell mem p n (getTypeFrom mem k (unserialize p n)) :=
        fun p n hle => getTypeFrom_tiles (by omega)
      cases rdrType typ with
      | none => exact safe_pure _
      | some t =>
        dsimp only
        split
        · refine (safe_bind _ _).mpr ⟨?_, fun _ _ => safe_pure _⟩
          exact (safe_bind _ _).mpr ⟨safe_rdBytes.mpr (.inr (by omega)), fun _ _ => safe_pure _⟩
        split
        · exact safe_pure _
        split
        · refine (safe_bind _ _).mpr ⟨hget _ _ (Nat.le_refl _) (by omega), fun x hx => ?_⟩
          obtain ⟨r, a⟩ := x
          dsimp only
          split
          · exact safe_pure _
          rename_i hr
          obtain ⟨-, -, hle, -⟩ := (hwell c.pos vallen (Nat.le_refl _)).tiles r a hx (by omega)
          rw [Cursor.skip, if_pos hle, ok_bind]
          exact rdrFinish_safe hget hwell (Nat.sub_le _ _) (by simp only; omega)
        · exact rdrFinish_safe hget hwell (Nat.le_refl _) (by simp only; omega)

end Decoded

/-! ## Calls -/

namespace Asked

section All

variable {P Q : RdrFields → List Int → Prop} {ds next : Asked}

theorem All.mono (hPQ : ∀ d as, P d as → Q d as) (h : ds.All P) : ds.All Q := by
  induction ds with
  | null => trivial
  | node d as u aux next ihu ihaux ihnext =>
    obtain ⟨hd, hu, haux, hnext⟩ := h
    exact ⟨hPQ d as hd, ihu hu, ihaux haux, ihnext hnext⟩

theorem All.setNext (h : ds.All P) (hnext : next.All P) : (ds.setNext next).All P := by
  cases ds with
  | null => trivial
  | node d as u aux old => exact ⟨h.1, h.2.1, h.2.2.1, hnext⟩

end All

/-- The type of the node has been set. -/
def Typed (d : RdrFields) : Prop := d.type ≠ .notSerialized ∧ d.flatlen ≠ 0

/-- The node was asked once, and the call succeeded. -/
def Told (d : RdrFields) (as : List Int) : Prop :=
  Typed d ∧ as = [if d.type.IsComposite then d.type.code else 0]

/-- The node was never told anything but its type. -/
def Settled (d : RdrFields) (as : List Int) : Prop := Typed d ∧ ∀ r ∈ as, r = d.type.code

/-- A node whose type is not set. -/
def blank (p n : Nat) (as : List Int) : Asked :=
  .node { flat := some p, flatlen := n } as .null .null .null

/-- The type has been set. A term with parts returns it, unless one of the parts fails. -/
structure SetsType (mem : List UInt8) (p n : Nat) (as : List Int) (r : Int) (d : RdrFields)
    (u aux ds : Asked) : Prop where
  node : ds = .node d as u aux .null
  typed : Typed d
  told : u.All Told ∧ aux.All Told
  head : ∃ typ vallen q, LrpcHead mem p typ vallen q ∧ q + vallen ≤ p + n ∧
    rdrType typ = some d.type ∧ (d.type.HasFirst → ∃ a, TermAt mem q vallen a)
  result : if d.type.IsComposite then r = d.type.code ∨ r = -10 else r = 0

/-- The bytes start with no header of a term, or the first part of the term is missing. -/
def Refused (mem : List UInt8) (p n : Nat) : Prop :=
  ∀ typ vallen q ty, LrpcHead mem p typ vallen q → rdrType typ = some ty → q + vallen ≤ p + n →
    ty.HasFirst ∧ ¬ ∃ a, TermAt mem q vallen a

/-- What a call does with a node whose type is not set: it fails and leaves the type alone, or it
sets the type. -/
def Blank (mem : List UInt8) (p n : Nat) (as : List Int) (x : Int × Asked) : Prop :=
  (x.1 < 0 ∧ (p + n ≤ mem.length → Refused mem p n) ∧ ∃ m ≤ n, x.2 = blank p m as) ∨
    ∃ d u aux, SetsType mem p n as x.1 d u aux x.2

section Step

variable {mem : List UInt8} {get : Asked → Run (Int × Asked)} {n : Nat}
  (htold : ∀ p m r a, m < n → get (unserialize p m) = .ok (r, a) → 0 ≤ r → a.All Told)

include htold

theorem rdrParts_told {k : Nat} {c : Cursor} {x : Bool × Nat × Asked} (hc : c.len < n)
    (h : rdrParts get k c = .ok x) : x.2.2.All Told := by
  induction k generalizing c x with
  | zero => cases h
  | succ k ih =>
    rw [rdrParts] at h
    split at h
    · cases h
      trivial
    obtain ⟨⟨r, a⟩, ha, h⟩ := (bind_eq_ok _ _ _).mp h
    dsimp only at h
    split at h
    · cases h
      trivial
    rename_i hr
    obtain ⟨c', hskip, h⟩ := (bind_eq_ok _ _ _).mp h
    obtain ⟨-, rfl⟩ := Cursor.skip_eq_ok.mp hskip
    obtain ⟨y, hnext, h⟩ := (bind_eq_ok _ _ _).mp h
    cases h
    exact (htold _ _ _ _ hc ha (by omega)).setNext (ih (by simp only; omega) hnext)

theorem rdrFinish_told {d : RdrFields} {as : List Int} {u : Asked} {c : Cursor} {x : Int × Asked}
    (hc : c.len < n) (h : rdrFinish get d as u .null .null c = .ok x) :
    ∃ m aux, x.2 = .node { d with flatlen := d.flatlen + m } as u aux .null ∧ aux.All Told ∧
      (x.1 = d.type.code ∨ x.1 = -10) := by
  obtain ⟨⟨done, m, parts⟩, hparts, h⟩ := (bind_eq_ok _ _ _).mp h
  have hall := rdrParts_told htold hc hparts
  cases h
  refine ⟨m, _, rfl, ?_, ?_⟩
  · split
    · trivial
    · exact hall
  · dsimp only
    split
    · exact .inl rfl
    · exact .inr rfl

/-- What a call does with a node whose type is not set, the recursive calls being correct. -/
theorem decode_blank {p : Nat} {as : List Int} {x : Int × Asked}
    (hterm : ∀ p m r a, m < n → get (unserialize p m) = .ok (r, a) → 0 ≤ r → TermAt mem p m a.term)
    (hfail : ∀ p m r a, m < n → p + m ≤ mem.length → get (unserialize p m) = .ok (r, a) → r < 0 →
      ¬ ∃ t, TermAt mem p m t)
    (h : decode mem get { flat := some p, flatlen := n } as .null .null .null = .ok x) :
    Blank mem p n as x := by
  have hstay : ∀ r : Int, r < 0 → (p + n ≤ mem.length → Refused mem p n) →
      Blank mem p n as (r, blank p n as) := fun r hr href => .inl ⟨hr, href, n, Nat.le_refl n, rfl⟩
  rw [decode] at h
  dsimp only at h
  split at h
  · cases h
    exact hstay _ (by decide) fun _ typ vallen q ty hhead _ hle => by
      have := hhead.lt
      omega
  rw [if_neg (by decide), deref_some, ok_bind] at h
  obtain ⟨y, hy, h⟩ := (bind_eq_ok _ _ _).mp h
  match y with
  | none =>
    cases h
    exact hstay _ (by decide) fun _ typ vallen q ty hhead _ hle => by
      have hok := lrpcDehead_eq (c := ⟨p, n⟩) hhead (by simp only; omega)
      rw [hy] at hok
      cases hok
  | some ((typ, vallen), c) =>
    obtain ⟨hhead, hlim⟩ := lrpcDehead_head hy
    have hq := hhead.lt
    simp only at hhead hlim hq h
    split at h
    · cases h
      exact hstay _ (by decide) fun _ typ' vallen' q' ty hhead' htype _ => by
        obtain ⟨rfl, -, -⟩ := hhead.unique hhead'
        have := rdrType_le htype
        omega
    split at h
    · cases h
      exact hstay _ (by decide) fun _ typ' vallen' q' ty hhead' htype hle => by
        obtain ⟨-, rfl, rfl⟩ := hhead.unique hhead'
        omega
    cases htype : rdrType typ with
    | none =>
      rw [htype] at h
      cases h
      exact hstay _ (by decide) fun _ typ' vallen' q' ty hhead' htype' _ => by
        obtain ⟨rfl, -, -⟩ := hhead.unique hhead'
        rw [htype] at htype'
        cases htype'
    | some t =>
      rw [htype] at h
      dsimp only at h
      have hreal := rdrType_ne htype
      have hend : c.pos + vallen ≤ p + n := by omega
      have hleaf : ∀ d : RdrFields, d.type = t → d.flatlen = c.pos - p + vallen → ¬ t.IsComposite →
          Blank mem p n as (0, .node d as .null .null .null) := fun d hd hlen hc => by
        have hc' : ¬ d.type.IsComposite := hd ▸ hc
        refine .inr ⟨d, .null, .null, rfl, ⟨hd ▸ hreal, by omega⟩, ⟨trivial, trivial⟩,
          ⟨typ, vallen, c.pos, hhead, hend, hd ▸ htype, fun hf => absurd (.inl hf) hc'⟩, ?_⟩
        rw [if_neg hc']
      split at h
      · rename_i hint
        obtain ⟨v, -, h⟩ := (bind_eq_ok _ _ _).mp h
        cases h
        exact hleaf _ rfl rfl (by rw [hint]; decide)
      rename_i hint
      split at h
      · rename_i hblob
        cases h
        exact hleaf _ rfl rfl hblob.not_composite
      rename_i hblob
      have hcomp : t.IsComposite := ((rdrType_cases htype).resolve_left hint).resolve_left hblob
      split at h
      · rename_i hfirst
        obtain ⟨⟨r, a⟩, ha, h⟩ := (bind_eq_ok _ _ _).mp h
        dsimp only at h
        split at h
        · rename_i hr
          cases h
          refine .inl ⟨by dsimp only; split <;> decide, fun hmem typ' vallen' q' ty hhead' htype' _ => ?_,
            c.pos - p, by omega, rfl⟩
          obtain ⟨rfl, rfl, rfl⟩ := hhead.unique hhead'
          obtain rfl : t = ty := Option.some.inj (htype.symm.trans htype')
          exact ⟨hfirst, hfail _ _ _ _ (by omega) (by omega) ha hr⟩
        rename_i hr
        obtain ⟨rest, hskip, h⟩ := (bind_eq_ok _ _ _).mp h
        obtain ⟨-, rfl⟩ := Cursor.skip_eq_ok.mp hskip
        obtain ⟨m, aux, hx, haux, hres⟩ := rdrFinish_told htold (by simp only; omega) h
        have hfst := htold _ _ _ _ (by omega) ha (by omega)
        refine .inr ⟨_, a, aux, hx, ⟨hreal, by dsimp only; omega⟩, ⟨hfst, haux⟩,
          ⟨typ, vallen, c.pos, hhead, hend, htype, fun _ => ?_⟩, by rwa [if_pos hcomp]⟩
        exact ⟨a.term, hterm _ _ _ _ (by omega) ha (by omega)⟩
      · rename_i hfirst
        obtain ⟨m, aux, hx, haux, hres⟩ := rdrFinish_told htold (by simp only; omega) h
        exact .inr ⟨_, .null, aux, hx, ⟨hreal, by dsimp only; omega⟩, ⟨trivial, haux⟩,
          ⟨typ, vallen, c.pos, hhead, hend, htype, fun hf => absurd hf hfirst⟩, by rwa [if_pos hcomp]⟩

end Step

section Known

variable {mem : List UInt8} {k p n : Nat} {as : List Int} {r : Int} {ds : Asked}

theorem SetsType.answered {d : RdrFields} {u aux : Asked} (h : SetsType mem p n [] r d u aux ds)
    (hr : 0 ≤ r) : (ds.answer r).All Told := by
  obtain ⟨rfl, htyped, ⟨hu, haux⟩, -, hres⟩ := h
  refine ⟨⟨htyped, ?_⟩, hu, haux, trivial⟩
  split at hres
  · rename_i hcomp
    rcases hres with rfl | rfl
    · rw [if_pos hcomp]
      rfl
    · exact absurd hr (by decide)
  · rename_i hcomp
    rw [if_neg hcomp, hres]
    rfl

/-- A first call that fails has no term before it. -/
theorem not_termAt (hk : n < k) (hmem : p + n ≤ mem.length)
    (h : getTypeFrom mem k (unserialize p n) = .ok (r, ds)) (hr : r < 0) :
    ¬ ∃ t, TermAt mem p n t := by
  rintro ⟨t, ht⟩
  obtain ⟨r', t', hok, hr', -⟩ := ht.taken hmem hk
  rw [getTypeFrom_ok h] at hok
  cases hok
  omega

/-- A first call that succeeds has told each node its type, but a leaf 0. -/
theorem getTypeFrom_told (hk : n < k) (h : getTypeFrom mem k (unserialize p n) = .ok (r, ds))
    (hr : 0 ≤ r) : ds.All Told := by
  induction k generalizing p n r ds with
  | zero => omega
  | succ k ih =>
    obtain ⟨x, hx, h⟩ := (bind_eq_ok _ _ _).mp h
    cases h
    rcases decode_blank (fun p m r a hm => ih (by omega))
      (fun p m r a hm => termAt_of_ok (by omega))
      (fun p m r a hm => not_termAt (by omega)) hx with ⟨hneg, -⟩ | ⟨d, u, aux, hset⟩
    · omega
    · exact hset.answered hr

/-- What a call does with a node whose type is not set. -/
theorem getType_blank (h : getType mem (blank p n as) = .ok (r, ds)) :
    ∃ ds', ds = ds'.answer r ∧ Blank mem p n as (r, ds') := by
  obtain ⟨y, hy, h⟩ := (bind_eq_ok _ _ _).mp h
  cases h
  exact ⟨y.2, rfl, decode_blank (fun p m r a hm => getTypeFrom_told hm)
    (fun p m r a hm => termAt_of_ok hm) (fun p m r a hm => not_termAt hm) hy⟩

theorem getType_settled {x : Int × Asked} (hds : ds.All Settled) (h : getType mem ds = .ok x) :
    x.2.All Settled := by
  cases ds with
  | null =>
    cases h
    trivial
  | node d as u aux next =>
    obtain ⟨⟨⟨htype, hlen⟩, has⟩, hu, haux, hnext⟩ := hds
    obtain ⟨y, hy, h⟩ := (bind_eq_ok _ _ _).mp h
    rw [decode, if_neg hlen, if_pos htype] at hy
    cases hy
    cases h
    refine ⟨⟨⟨htype, hlen⟩, fun r hr => ?_⟩, hu, haux, hnext⟩
    rcases List.mem_append.mp hr with hr | hr
    · exact has r hr
    · exact List.mem_singleton.mp hr

/-- A call on one of the nodes keeps a settled tree settled. -/
theorem Call.settled {ds ds' : Asked} (h : Call mem ds ds') (hds : ds.All Settled) :
    ds'.All Settled := by
  induction h with
  | here h => exact getType_settled hds h
  | u _ ih => exact ⟨hds.1, ih hds.2.1, hds.2.2⟩
  | aux _ ih => exact ⟨hds.1, hds.2.1, ih hds.2.2.1, hds.2.2.2⟩
  | next _ ih => exact ⟨hds.1, hds.2.1, hds.2.2.1, ih hds.2.2.2⟩

end Known

/-! ## Runs -/

section Runs

variable {mem : List UInt8} {p n : Nat} {ds : Asked}

theorem stable_of_settled (h : ds.All Settled) : ds.Stable := h.mono fun _ _ h => .inl h.2

/-- Told 0, a leaf is settled when it is a flat name. -/
theorem settled_of_told (h : ds.All Told) (hleaves : ∀ ty ∈ ds.term.leafTypes, ty = .flatname) :
    ds.All Settled := by
  induction ds with
  | null => trivial
  | node d as u aux next ihu ihaux ihnext =>
    obtain ⟨⟨htyped, rfl⟩, hu, haux, hnext⟩ := h
    simp only [term, Rdr.leafTypes, List.mem_append] at hleaves
    refine ⟨⟨htyped, fun r hr => ?_⟩, ihu hu fun ty h => hleaves ty (.inr (.inl h)),
      ihaux haux fun ty h => hleaves ty (.inr (.inr (.inl h))),
      ihnext hnext fun ty h => hleaves ty (.inr (.inr (.inr h)))⟩
    rw [List.mem_singleton.mp hr]
    split
    · rfl
    · rename_i hleaf
      rw [hleaves d.type (.inl (by rw [if_neg hleaf]; exact List.mem_singleton_self _))]
      rfl

theorem code_eq_zero {t : RdrType} (h : 0 = t.code) : t = .flatname := by
  cases t <;> first | rfl | cases h

/-- And only then it is stable. -/
theorem leaves_of_stable (h : ds.All Told) (hs : ds.Stable) :
    ∀ ty ∈ ds.term.leafTypes, ty = .flatname := by
  induction ds with
  | null => exact fun _ h => nomatch h
  | node d as u aux next ihu ihaux ihnext =>
    obtain ⟨⟨-, rfl⟩, hu, haux, hnext⟩ := h
    obtain ⟨hd, hsu, hsaux, hsnext⟩ := hs
    simp only [term, Rdr.leafTypes, List.mem_append]
    rintro ty (hty | hty | hty | hty)
    · split at hty
      · cases hty
      · rename_i hleaf
        rw [if_neg hleaf] at hd
        rw [List.mem_singleton.mp hty]
        rcases hd with hd | hd
        · exact code_eq_zero (hd 0 (List.mem_singleton_self _))
        · exact absurd (hd 0 (List.mem_singleton_self _)) (by decide)
    · exact ihu hu hsu ty hty
    · exact ihaux haux hsaux ty hty
    · exact ihnext hnext hsnext ty hty

theorem Call.of_null {ds' : Asked} (h : Call mem .null ds') : ds' = .null := by
  cases h with
  | here h =>
    cases h
    rfl

/-- On a node without parts there is one call to make. -/
theorem Call.of_blank {as : List Int} {ds' : Asked} (h : Call mem (blank p n as) ds') :
    ds' = blank p n as ∨ ∃ r, getType mem (blank p n as) = .ok (r, ds') := by
  cases h with
  | here h => exact .inr ⟨_, h⟩
  | u h => exact .inl (by rw [h.of_null]; rfl)
  | aux h => exact .inl (by rw [h.of_null]; rfl)
  | next h => exact .inl (by rw [h.of_null]; rfl)

/-- A leaf whose value is there is a term. -/
theorem termAt_leaf {typ vallen q : Nat} {ty : RdrType} (hhead : LrpcHead mem p typ vallen q)
    (htype : rdrType typ = some ty) (hleaf : ¬ ty.IsComposite) (hle : q + vallen ≤ p + n) :
    ∃ t, TermAt mem p n t := by
  have hq := hhead.lt
  let d : RdrFields :=
    { type := ty, flatlen := q - p + vallen, flat := some p,
      val := nonNeg ((⟨q, vallen⟩ : Span).bytes mem), data := ⟨q, vallen⟩ }
  refine ⟨.node d .null .null .null, rfl, nofun, by show q - p + vallen ≤ n; omega,
    typ, vallen, q, ⟨rfl, hhead, htype, rfl⟩, ?_, rfl⟩
  rw [if_neg hleaf]
  exact ⟨rfl, rfl, fun _ => rfl, fun _ => rfl⟩

/-- When a call sets the type, there is a term, or a call on its parts failed. -/
theorem SetsType.termAt {m : Nat} {as : List Int} {r : Int} {d : RdrFields} {u aux : Asked}
    (h : SetsType mem p m as r d u aux ds) (hm : m ≤ n) (hclear : ClearCut mem p n) :
    ∃ t, TermAt mem p n t := by
  obtain ⟨typ, vallen, q, hhead, hle, htype, hfirst⟩ := h.head
  by_cases hcomp : d.type.IsComposite
  · exact hclear.2 typ vallen q d.type hhead htype hcomp (by omega) hfirst
  · exact termAt_leaf hhead htype hcomp (by omega)

/-- Where there is no term, every call fails and leaves the type alone. -/
theorem blank_run (hno : ¬ ∃ t, TermAt mem p n t) (hclear : ClearCut mem p n)
    (h : Relation.ReflTransGen (Call mem) (unserialize p n) ds) :
    ∃ m ≤ n, ∃ as, ds = blank p m as ∧ ∀ r ∈ as, r < 0 := by
  induction h with
  | refl => exact ⟨n, Nat.le_refl n, [], rfl, fun r h => nomatch h⟩
  | tail _ hcall ih =>
    obtain ⟨m, hm, as, rfl, has⟩ := ih
    rcases hcall.of_blank with rfl | ⟨r, hget⟩
    · exact ⟨m, hm, as, rfl, has⟩
    obtain ⟨ds', hds, ⟨hr, -, m', hm', hblank⟩ | ⟨d, u, aux, hset⟩⟩ := getType_blank hget
    · obtain rfl : ds' = blank p m' as := hblank
      refine ⟨m', by omega, as ++ [r], hds, fun x hx => ?_⟩
      rcases List.mem_append.mp hx with hx | hx
      · exact has x hx
      · rw [List.mem_singleton.mp hx]
        exact hr
    · exact absurd (hset.termAt hm hclear) hno

/-- The first call on the bytes of a term. -/
theorem getType_termAt {t : Rdr} {r : Int} (ht : TermAt mem p n t) (hmem : p + n ≤ mem.length)
    (h : getType mem (unserialize p n) = .ok (r, ds)) :
    ds.All Told ∧ ds.term.leafTypes = t.leafTypes := by
  obtain ⟨r', t', hok, hr, -, -, -, hleaves⟩ := ht.taken hmem (Nat.lt_succ_self n)
  obtain ⟨hres, hterm⟩ := Prod.mk.inj (Except.ok.inj ((getTypeFrom_ok h).symm.trans hok))
  rw [← hres] at hr
  rw [if_neg (by dsimp only at hr ⊢; omega)] at hterm
  exact ⟨getTypeFrom_told (Nat.lt_succ_self n) h hr, hterm ▸ hleaves⟩

/-- Where there is a term, and its leaves are flat names, every node is told its type. -/
theorem settled_run {t : Rdr} (ht : TermAt mem p n t) (hleaves : ∀ ty ∈ t.leafTypes, ty = .flatname)
    (hmem : p + n ≤ mem.length) (h : Relation.ReflTransGen (Call mem) (unserialize p n) ds) :
    ds = unserialize p n ∨ ds.All Settled := by
  induction h with
  | refl => exact .inl rfl
  | tail _ hcall ih =>
    refine ih.elim (fun hds => ?_) fun hds => .inr (hcall.settled hds)
    subst hds
    rcases hcall.of_blank with rfl | ⟨r, hget⟩
    · exact .inl rfl
    · obtain ⟨htold, hsame⟩ := getType_termAt ht hmem hget
      exact .inr (settled_of_told htold (hsame ▸ hleaves))

/-- With a byte behind the buffer, the first call returns. -/
theorem getType_returns (hmem : p + n < mem.length) :
    ∃ r ds, getType mem (unserialize p n) = .ok (r, ds) := by
  have hsafe := getTypeFrom_safe hmem (Nat.lt_succ_self n)
  have hwell : DecodesWell mem p n (Ccnl.getTypeFrom mem (n + 1) (Ccnl.unserialize p n)) :=
    getTypeFrom_tiles (Nat.lt_succ_self n)
  have hends := hwell.ends
  rw [getTypeFrom_outcome] at hsafe hends
  unfold getType unserialize flatlen
  cases h : getTypeFrom mem (n + 1) (unserialize p n) with
  | ok x => exact ⟨x.1, x.2, h⟩
  | error s =>
    rw [h] at hsafe hends
    obtain ⟨i, rfl⟩ := hends s rfl
    exact nomatch hsafe _ rfl

/-- A term whose parts cannot all be decoded fails at first, and returns its type later. -/
theorem termAt_of_stable {typ vallen q : Nat} {ty : RdrType} (hhead : LrpcHead mem p typ vallen q)
    (htype : rdrType typ = some ty) (hcomp : ty.IsComposite) (hle : q + vallen ≤ p + n)
    (hfirst : ty.HasFirst → ∃ a, TermAt mem q vallen a) (hmem : p + n < mem.length)
    (h : ∀ ds, Relation.ReflTransGen (Call mem) (unserialize p n) ds → ds.Stable) :
    ∃ t, TermAt mem p n t := by
  obtain ⟨r, ds, hget⟩ := getType_returns hmem
  obtain ⟨ds', rfl, ⟨hr, href, -⟩ | ⟨d, u, aux, hset⟩⟩ := getType_blank hget
  · obtain ⟨hhas, hnone⟩ := href (Nat.le_of_lt hmem) typ vallen q ty hhead htype hle
    exact absurd (hfirst hhas) hnone
  obtain ⟨typ', vallen', q', hhead', -, htype', -⟩ := hset.head
  obtain ⟨rfl, -, -⟩ := hhead.unique hhead'
  obtain rfl : ty = d.type := Option.some.inj (htype.symm.trans htype')
  have hres := hset.result
  rw [if_pos hcomp] at hres
  have hcode := code_nonneg hset.typed.1
  rcases hres with rfl | rfl
  · exact ⟨_, termAt_of_ok (Nat.lt_succ_self n) hget hcode⟩
  -- the second call finds the type
  obtain ⟨rfl, ⟨htyped, hlen⟩, -, -, -⟩ := hset
  have hagain : getType mem (node d [-10] u aux .null) =
      .ok (d.type.code, node d [-10, d.type.code] u aux .null) := by
    rw [getType, getTypeFrom, decode, if_neg hlen, if_pos htyped]
    rfl
  have hboth := (h _ ((Relation.ReflTransGen.single (.here hget)).tail (.here hagain))).1
  rcases hboth with hboth | hboth
  · have := hboth (-10) (by simp)
    omega
  · have := hboth d.type.code (by simp)
    omega

end Runs

/-- `ccnl_rdr_getType` on the nodes made of the `n` bytes at `p`, behind which a byte can be read:
whatever calls are made, the answers agree exactly when the bytes are clear-cut. -/
theorem rdrStable_iff (mem : List UInt8) (p n : Nat) (hmem : p + n < mem.length) :
    (∀ ds, Relation.ReflTransGen (Call mem) (unserialize p n) ds → ds.Stable) ↔
      ClearCut mem p n := by
  constructor
  · intro h
    refine ⟨fun t ht => ?_, fun typ vallen q ty hhead htype hcomp hle hfirst =>
      termAt_of_stable hhead htype hcomp hle hfirst hmem h⟩
    obtain ⟨r, ds, hget⟩ := getType_returns hmem
    obtain ⟨htold, hsame⟩ := getType_termAt ht (Nat.le_of_lt hmem) hget
    rw [← hsame]
    exact leaves_of_stable htold (h ds (.single (.here hget)))
  · intro hclear ds hrun
    by_cases hterm : ∃ t, TermAt mem p n t
    · obtain ⟨t, ht⟩ := hterm
      rcases settled_run ht (hclear.1 t ht) (Nat.le_of_lt hmem) hrun with rfl | hds
      · exact ⟨.inl (fun _ h => nomatch h), trivial, trivial, trivial⟩
      · exact stable_of_settled hds
    · obtain ⟨m, -, as, rfl, has⟩ := blank_run hterm hclear hrun
      exact ⟨.inr has, trivial, trivial, trivial⟩

/-- The application of a function without arguments. -/
theorem rdrStable_app : 0 + 5 < [2, 3, 0, 1, 102, 0].length ∧
    ∀ ds, Relation.ReflTransGen (Call [2, 3, 0, 1, 102, 0]) (unserialize 0 5) ds → ds.Stable := by
  have hok : getType [2, 3, 0, 1, 102, 0] (unserialize 0 5) =
      .ok (2, node { type := .application, flatlen := 5, flat := some 0 } [2]
        (node { type := .flatname, flatlen := 3, flat := some 2, data := ⟨4, 1⟩ } [0] .null .null .null)
        .null .null) := by decide
  refine ⟨by decide, (rdrStable_iff _ 0 5 (by decide)).mpr ⟨fun t ht => ?_, fun _ _ _ _ _ _ _ _ _ =>
    ⟨_, termAt_of_ok (by decide) hok (by decide)⟩⟩⟩
  rw [← (getType_termAt ht (by decide) hok).2]
  decide

/-- A sequence whose part has an unknown type fails at first, and is a sequence later. An integer is
a flat name at first. -/
theorem rdrStable_fails :
    (∃ ds, Relation.ReflTransGen (Call [4, 2, 9, 0, 0]) (unserialize 0 4) ds ∧ ¬ ds.Stable) ∧
      ∃ ds, Relation.ReflTransGen (Call [1, 1, 5, 0]) (unserialize 0 3) ds ∧ ¬ ds.Stable := by
  refine ⟨⟨node { type := .sequence, flatlen := 2, flat := some 0 } [-10, 4] .null .null .null, ?_, ?_⟩,
    ⟨node { type := .nonnegint, flatlen := 3, flat := some 0, val := 5 } [0] .null .null .null,
      .single (.here (r := 0) (by decide)), ?_⟩⟩
  · exact (Relation.ReflTransGen.single (.here (r := -10) rfl)).tail (.here (r := 4) rfl)
  · rintro ⟨h | h, -⟩
    · exact absurd (h (-10) (by decide)) (by decide)
    · exact absurd (h 4 (by decide)) (by decide)
  · rintro ⟨h | h, -⟩
    · exact absurd (h 0 (by decide)) (by decide)
    · exact absurd (h 0 (by decide)) (by decide)

end Asked

end Ccnl
