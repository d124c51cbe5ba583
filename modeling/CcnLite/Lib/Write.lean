import CcnLite.Lib.Run

/-!
# Writing into a byte buffer

An encoder writes its output piece by piece, from the end of a buffer towards its start (`Back`) or
the other way (`Front`).

* `At mem p bs`: the bytes `bs` lie in the memory from index `p` on. Reading them back is
  `At.rd` and `At.rdBytes`.
* `beBytes k v`: the `k` low bytes of a number; `foldl_beBytes` reads them back.
* `Back.pre bs`: write `bs` in front of what is there, or give up when there is no room. Encoders
  that are built from such writes are such a write themselves (`pre_bind`), so an encoder is
  specified by one equation that says which bytes it writes.
* `Front.app bs`: write `bs` behind what is there.
-/

namespace CRun

/-! ## Numbers as bytes -/

/-- The `k` low bytes of `v`, the most significant first. -/
def beBytes : Nat → Nat → List UInt8
  | 0, _ => []
  | k + 1, v => beBytes k (v / 2 ^ 8) ++ [UInt8.ofNat v]

@[simp] theorem length_beBytes (k v : Nat) : (beBytes k v).length = k := by
  induction k generalizing v with
  | zero => rfl
  | succ k ih => rw [beBytes, List.length_append, ih]; rfl

theorem beBytes_succ (k v : Nat) :
    beBytes (k + 1) v = beBytes k (v / 2 ^ 8) ++ [UInt8.ofNat v] := rfl

/-- Reading the bytes of a number gives its low bits. -/
theorem foldl_beBytes (k v : Nat) :
    (beBytes k v).foldl (fun n b => n * 2 ^ 8 + b.toNat) 0 = v % 2 ^ (8 * k) := by
  induction k generalizing v with
  | zero => simp [beBytes, Nat.mod_one]
  | succ k ih =>
    rw [beBytes, List.foldl_append, ih]
    have hb : (UInt8.ofNat v).toNat = v % 2 ^ 8 := UInt8.toNat_ofNat'
    have hpow : 2 ^ (8 * (k + 1)) = 2 ^ 8 * 2 ^ (8 * k) := by rw [Nat.mul_succ, Nat.add_comm, Nat.pow_add]
    rw [List.foldl_cons, List.foldl_nil, hb, hpow, Nat.mod_mul, Nat.mul_comm, Nat.add_comm]

/-- Zeros in front of the bytes of a number. -/
theorem replicate_append_beBytes {n val : Nat} (h : val < 2 ^ (8 * n)) (z : Nat) :
    List.replicate z 0 ++ beBytes n val = beBytes (z + n) val := by
  induction n generalizing val with
  | zero =>
    obtain rfl : val = 0 := by simpa using h
    rw [beBytes, List.append_nil, Nat.add_zero]
    induction z with
    | zero => rfl
    | succ z ih => rw [List.replicate_succ', ih]; rfl
  | succ n ih =>
    rw [beBytes, ← List.append_assoc, ih]
    · rfl
    · rw [Nat.div_lt_iff_lt_mul (Nat.two_pow_pos 8), ← Nat.pow_add]
      exact h

/-- The number of bytes of a number, `k` at most. -/
def byteCount : Nat → Nat → Nat
  | 0, _ => 0
  | k + 1, val => if val = 0 then 0 else byteCount k (val / 2 ^ 8) + 1

theorem byteCount_le (k val : Nat) : byteCount k val ≤ k := by
  induction k generalizing val with
  | zero => exact Nat.le_refl _
  | succ k ih =>
    rw [byteCount]
    split
    · omega
    · have := ih (val / 2 ^ 8)
      omega

theorem lt_of_byteCount {k val : Nat} (h : val < 2 ^ (8 * k)) : val < 2 ^ (8 * byteCount k val) := by
  induction k generalizing val with
  | zero => simpa [byteCount] using h
  | succ k ih =>
    rw [byteCount]
    split
    · rename_i h0
      rw [h0]
      exact Nat.two_pow_pos _
    · have hdiv : val / 2 ^ 8 < 2 ^ (8 * k) := by
        rw [Nat.div_lt_iff_lt_mul (Nat.two_pow_pos 8), ← Nat.pow_add]
        exact h
      have := ih hdiv
      rw [Nat.div_lt_iff_lt_mul (Nat.two_pow_pos 8), ← Nat.pow_add] at this
      exact this

/-! ## Lists that repeat what is behind them -/

section Repeat

variable {α : Type} {xs ys : List α}

/-- A list is the end of itself and `ys` exactly when it is the end of some copies of `ys`. -/
theorem suffix_append_iff (hys : ys ≠ []) :
    xs <:+ xs ++ ys ↔ ∃ k, xs <:+ (List.replicate k ys).flatten := by
  have hsucc : ∀ k, (List.replicate (k + 1) ys).flatten = (List.replicate k ys).flatten ++ ys :=
    fun k => by
      rw [List.replicate_succ', List.flatten_append]
      simp
  constructor
  · intro h
    have hall : ∀ k, xs <:+ xs ++ (List.replicate k ys).flatten := by
      intro k
      induction k with
      | zero => exact ⟨[], by simp⟩
      | succ k ih =>
        rw [hsucc, ← List.append_assoc]
        obtain ⟨t, ht⟩ := ih
        refine h.trans ⟨t, ?_⟩
        rw [← List.append_assoc, ht]
    have hlen : ∀ k, k ≤ (List.replicate k ys).flatten.length := by
      intro k
      have := List.length_pos_iff.mpr hys
      rw [List.length_flatten, List.map_replicate, List.sum_replicate_nat]
      exact Nat.le_mul_of_pos_right k this
    exact ⟨xs.length, List.suffix_of_suffix_length_le (hall _) (List.suffix_append _ _) (hlen _)⟩
  · rintro ⟨k, hk⟩
    have hlong : xs ++ ys <:+ (List.replicate (k + 1) ys).flatten := by
      obtain ⟨t, ht⟩ := hk
      exact ⟨t, by rw [hsucc, ← ht, List.append_assoc]⟩
    have hshort : xs <:+ (List.replicate (k + 1) ys).flatten := by
      rw [List.replicate_succ, List.flatten_cons]
      exact hk.trans (List.suffix_append _ _)
    exact List.suffix_of_suffix_length_le hshort hlong (by rw [List.length_append]; omega)

end Repeat

/-! ## Bytes at a place -/

/-- The bytes `bs` lie in the memory from index `p` on. -/
def At (mem : List UInt8) (p : Nat) (bs : List UInt8) : Prop := bs <+: mem.drop p

section At

variable {mem xs ys bs : List UInt8} {p : Nat} {b : UInt8}

@[simp] theorem at_nil : At mem p [] := List.nil_prefix

theorem at_append : At mem p (xs ++ ys) ↔ At mem p xs ∧ At mem (p + xs.length) ys := by
  unfold At
  constructor
  · rintro ⟨t, ht⟩
    refine ⟨⟨ys ++ t, by rw [← ht, List.append_assoc]⟩, ⟨t, ?_⟩⟩
    rw [← List.drop_drop, ← ht, List.append_assoc, List.drop_left]
  · rintro ⟨⟨t, ht⟩, ⟨u, hu⟩⟩
    rw [← List.drop_drop, ← ht, List.drop_left] at hu
    exact ⟨u, by rw [← ht, ← hu, List.append_assoc]⟩

theorem at_cons : At mem p (b :: bs) ↔ mem[p]? = some b ∧ At mem (p + 1) bs := by
  rw [show b :: bs = [b] ++ bs from rfl, at_append]
  refine and_congr_left fun _ => ?_
  unfold At
  rw [← List.head?_drop]
  cases mem.drop p with
  | nil => simp
  | cons c l => simp [eq_comm]

theorem At.take (h : At mem p bs) : (mem.drop p).take bs.length = bs :=
  List.prefix_iff_eq_take.mp h |>.symm

theorem At.le (h : At mem p bs) (hne : bs ≠ []) : p + bs.length ≤ mem.length := by
  have hl := h.length_le
  have : 0 < bs.length := List.length_pos_iff.mpr hne
  rw [List.length_drop] at hl
  omega

theorem At.inBuf (h : At mem p bs) : InBuf mem p bs.length := by
  by_cases hne : bs = []
  · exact .inl (by rw [hne]; rfl)
  · exact .inr (h.le hne)

theorem At.rd (h : At mem p (b :: bs)) : CRun.rd mem p = .ok b := rd_eq_ok.mpr (at_cons.mp h).1

theorem At.rdBytes (h : At mem p bs) : CRun.rdBytes mem p bs.length = .ok bs :=
  rdBytes_eq_ok.mpr ⟨h.inBuf, h.take⟩

theorem At.bytes (h : At mem p bs) : (⟨p, bs.length⟩ : Span).bytes mem = bs := h.take

/-- Bytes between others lie where those in front of them end. -/
theorem at_mid (xs bs ys : List UInt8) : At (xs ++ (bs ++ ys)) xs.length bs :=
  ⟨ys, by rw [List.drop_left]⟩

end At

/-! ## From the end of a buffer -/

/-- A buffer that is written from its end: what stands from `offset` on has been written. -/
structure Back where
  buf : List UInt8
  offset : Nat
  le : offset ≤ buf.length
  deriving DecidableEq, Repr

namespace Back

/-- A buffer of `n` zero bytes that nothing has been written into. -/
def room (n : Nat) : Back := ⟨List.replicate n 0, n, Nat.le_of_eq List.length_replicate.symm⟩

@[simp] theorem offset_room (n : Nat) : (room n).offset = n := rfl

/-- `buf[--(*offset)] = b`. -/
def put (b : UInt8) (o : Back) : Run Back :=
  if 1 ≤ o.offset then
    .ok ⟨o.buf.set (o.offset - 1) b, o.offset - 1, by rw [List.length_set]; have := o.le; omega⟩
  else .error .wrap

/-- `if ((*offset)-- < 1) return -1; buf[*offset] = b`. -/
def tryPut (b : UInt8) (o : Back) : Run Back := if o.offset < 1 then throw .bail else o.put b

/-- `memcpy(buf + *offset - len, bs, len); *offset -= len`, after a check that there is room. -/
def pre (bs : List UInt8) (o : Back) : Run Back :=
  if h : bs.length ≤ o.offset then
    .ok ⟨o.buf.take (o.offset - bs.length) ++ (bs ++ o.buf.drop o.offset), o.offset - bs.length, by
      have := o.le
      simp only [List.length_append, List.length_take, List.length_drop]
      omega⟩
  else .error .bail

section Pre

variable {o o' : Back} {xs ys bs : List UInt8} {b : UInt8}

theorem pre_eq_ok : pre bs o = .ok o' ↔
    o'.offset + bs.length = o.offset ∧
      o'.buf = o.buf.take o'.offset ++ (bs ++ o.buf.drop o.offset) := by
  obtain ⟨buf', off', hle'⟩ := o'
  unfold pre
  split
  · rename_i h
    rw [Except.ok.injEq, mk.injEq]
    constructor
    · rintro ⟨rfl, rfl⟩
      exact ⟨Nat.sub_add_cancel h, rfl⟩
    · rintro ⟨h₁, h₂⟩
      have h₃ : off' = o.offset - bs.length := by simp only at h₁; omega
      rw [← h₃]
      exact ⟨h₂.symm, rfl⟩
  · rename_i h
    simp only [reduceCtorEq, false_iff, not_and]
    omega

/-- There is room, or the write gives up. -/
theorem pre_cases (bs : List UInt8) (o : Back) :
    (∃ o', pre bs o = .ok o') ∧ bs.length ≤ o.offset ∨
      pre bs o = .error .bail ∧ o.offset < bs.length := by
  unfold pre
  split
  · rename_i h
    exact .inl ⟨⟨_, rfl⟩, h⟩
  · rename_i h
    exact .inr ⟨rfl, by omega⟩

theorem offset_pre (h : pre bs o = .ok o') : o'.offset + bs.length = o.offset := (pre_eq_ok.mp h).1

/-- What was written can be read. -/
theorem at_pre (h : pre bs o = .ok o') : At o'.buf o'.offset bs := by
  obtain ⟨h₁, h₂⟩ := pre_eq_ok.mp h
  have hlen : (o.buf.take o'.offset).length = o'.offset := by
    rw [List.length_take]
    have := o.le
    omega
  rw [h₂]
  simpa only [hlen] using at_mid (o.buf.take o'.offset) bs (o.buf.drop o.offset)

/-- The end of the buffer stays as it is. -/
theorem drop_pre (h : pre bs o = .ok o') : o'.buf.drop o.offset = o.buf.drop o.offset := by
  obtain ⟨h₁, h₂⟩ := pre_eq_ok.mp h
  have hlen : (o.buf.take o'.offset ++ bs).length = o.offset := by
    rw [List.length_append, List.length_take]
    have := o.le
    omega
  rw [h₂, ← List.append_assoc, ← hlen, List.drop_left]

@[simp] theorem pre_nil (o : Back) : pre [] o = .ok o := by
  rw [pre_eq_ok]
  simp

/-- A byte is written when there is room for it. -/
theorem put_eq (b : UInt8) (h : 1 ≤ o.offset) : put b o = pre [b] o := by
  have hlt : o.offset - 1 < o.buf.length := by have := o.le; omega
  rw [put, if_pos h, eq_comm, pre_eq_ok]
  refine ⟨by simp only [List.length_singleton]; omega, ?_⟩
  show o.buf.set (o.offset - 1) b = o.buf.take (o.offset - 1) ++ ([b] ++ o.buf.drop o.offset)
  rw [List.set_eq_take_append_cons_drop, if_pos hlt, Nat.sub_add_cancel h, List.singleton_append]

/-- The write after a write, given what it writes there. -/
theorem pre_bind {g : Back → Run Back} (h : ∀ o₁, pre xs o = .ok o₁ → g o₁ = pre ys o₁) :
    (pre xs o >>= g) = pre (ys ++ xs) o := by
  rcases pre_cases xs o with ⟨⟨o₁, h₁⟩, hle⟩ | ⟨h₁, hlt⟩
  · rw [h₁, ok_bind, h o₁ h₁]
    have hoff := offset_pre h₁
    rcases pre_cases ys o₁ with ⟨⟨o₂, h₂⟩, -⟩ | ⟨h₂, hlt⟩
    · rw [h₂, eq_comm, pre_eq_ok]
      obtain ⟨h₃, h₄⟩ := pre_eq_ok.mp h₂
      have hdrop := List.prefix_iff_eq_append.mp (at_pre h₁)
      refine ⟨by rw [List.length_append]; omega, ?_⟩
      have htake : o₁.buf.take o₂.offset = o.buf.take o₂.offset := by
        have hlen : (o.buf.take o₁.offset).length = o₁.offset := by
          rw [List.length_take]
          have := o.le
          omega
        rw [(pre_eq_ok.mp h₁).2, List.take_append_of_le_length (by omega), List.take_take,
          Nat.min_eq_left (by omega)]
      rw [h₄, htake, ← hdrop, List.drop_drop, hoff, drop_pre h₁]
      simp only [List.append_assoc]
    · rw [h₂, pre, dif_neg (by rw [List.length_append]; omega)]
  · rw [h₁, error_bind, pre, dif_neg (by rw [List.length_append]; omega)]

theorem pre_pre : (pre xs o >>= pre ys) = pre (ys ++ xs) o := pre_bind fun _ _ => rfl

/-- Two writes, one after the other. -/
theorem pre_append_eq_ok :
    pre (ys ++ xs) o = .ok o' ↔ ∃ o₁, pre xs o = .ok o₁ ∧ pre ys o₁ = .ok o' := by
  rw [← pre_pre, bind_eq_ok]

/-- A write succeeds exactly when there is room. -/
theorem pre_ok_iff : (∃ o', pre bs o = .ok o') ↔ bs.length ≤ o.offset := by
  rcases pre_cases bs o with ⟨h, hle⟩ | ⟨h, hlt⟩
  · exact ⟨fun _ => hle, fun _ => h⟩
  · rw [h]
    exact ⟨fun ⟨_, h⟩ => (nomatch h), fun h => absurd h (by omega)⟩

theorem tryPut_eq (b : UInt8) (o : Back) : tryPut b o = pre [b] o := by
  unfold tryPut
  split
  · rename_i h
    rw [pre, dif_neg (by simpa using h)]
    rfl
  · rename_i h
    exact put_eq b (by omega)

end Pre

end Back

/-! ## From the start of a buffer -/

/-- A buffer that is written from `pos` on. -/
structure Front where
  mem : List UInt8
  pos : Nat
  deriving DecidableEq, Repr

namespace Front

/-- `memcpy(buf, bs, len); buf += len`, which does not look for room. -/
def app (bs : List UInt8) (o : Front) : Run Front :=
  if bs = [] ∨ o.pos + bs.length ≤ o.mem.length then
    .ok ⟨o.mem.take o.pos ++ (bs ++ o.mem.drop (o.pos + bs.length)), o.pos + bs.length⟩
  else .error (.oob o.mem.length)

/-- The memory with `bs` at the place `p`. -/
def splice (mem : List UInt8) (p : Nat) (bs : List UInt8) : List UInt8 :=
  mem.take p ++ (bs ++ mem.drop (p + bs.length))

section Splice

variable {mem xs ys bs : List UInt8} {p : Nat}

theorem app_eq (h : p + bs.length ≤ mem.length) :
    app bs ⟨mem, p⟩ = .ok ⟨splice mem p bs, p + bs.length⟩ := if_pos (.inr h)

theorem splice_nil (mem : List UInt8) (p : Nat) : splice mem p [] = mem := by simp [splice]

theorem le_length_splice (mem : List UInt8) (p : Nat) (bs : List UInt8) :
    mem.length ≤ (splice mem p bs).length := by
  simp only [splice, List.length_append, List.length_take, List.length_drop]
  omega

theorem length_splice (h : p + bs.length ≤ mem.length) :
    (splice mem p bs).length = mem.length := by
  simp only [splice, List.length_append, List.length_take, List.length_drop]
  omega

theorem at_splice (h : p ≤ mem.length) : At (splice mem p bs) p bs := by
  have hlen : (mem.take p).length = p := by
    rw [List.length_take]
    omega
  unfold splice
  simpa only [hlen] using at_mid (mem.take p) bs (mem.drop (p + bs.length))

/-- Two writes, one behind the other. -/
theorem splice_append (h : p ≤ mem.length) :
    splice (splice mem p xs) (p + xs.length) ys = splice mem p (xs ++ ys) := by
  have hlen : (mem.take p ++ xs).length = p + xs.length := by
    rw [List.length_append, List.length_take]
    omega
  have htake : (splice mem p xs).take (p + xs.length) = mem.take p ++ xs := by
    rw [splice, ← List.append_assoc, ← hlen, List.take_left]
  have hdrop : (splice mem p xs).drop (p + xs.length + ys.length) =
      mem.drop (p + (xs ++ ys).length) := by
    rw [← List.drop_drop, splice, ← List.append_assoc, ← hlen, List.drop_left, hlen,
      List.drop_drop, List.length_append, Nat.add_assoc]
  rw [splice, htake, hdrop, splice]
  simp only [List.append_assoc]

/-- A write over a shorter one. -/
theorem splice_splice (h : p ≤ mem.length) (hle : xs.length ≤ ys.length) :
    splice (splice mem p xs) p ys = splice mem p ys := by
  have hlen : (mem.take p).length = p := by
    rw [List.length_take]
    omega
  have hall : (mem.take p ++ xs).length = p + xs.length := by rw [List.length_append, hlen]
  have htake : (splice mem p xs).take p = mem.take p := List.take_left' hlen
  have hdrop : (splice mem p xs).drop (p + ys.length) = mem.drop (p + ys.length) := by
    rw [splice, ← List.append_assoc, show p + ys.length = p + xs.length + (ys.length - xs.length) by omega,
      ← List.drop_drop, ← hall, List.drop_left, List.drop_drop]
  rw [splice, htake, hdrop, splice]

/-- A loop that writes one byte after another. -/
theorem app_loop {step : Front → Nat → Run Front} {f : Nat → UInt8} {n : Nat}
    (h : p + n ≤ mem.length) (hstep : ∀ i < n, ∀ o, step o i = app [f i] o) :
    (List.range n).foldlM step ⟨mem, p⟩ =
      .ok ⟨splice mem p ((List.range n).map f), p + n⟩ := by
  induction n with
  | zero =>
    rw [List.range_zero, List.map_nil, splice_nil]
    rfl
  | succ n ih =>
    have hlen : ((List.range n).map f).length = n := by rw [List.length_map, List.length_range]
    have hroom : (splice mem p ((List.range n).map f)).length = mem.length :=
      length_splice (by rw [hlen]; omega)
    have hsnoc := @splice_append mem ((List.range n).map f) [f n] p (by omega)
    rw [hlen] at hsnoc
    rw [List.range_succ, List.foldlM_append, ih (by omega) fun i hi => hstep i (by omega), ok_bind,
      List.foldlM_cons, hstep n (by omega), app_eq (by rw [hroom, List.length_singleton]; omega),
      hsnoc, List.map_append, List.map_singleton]
    rfl

end Splice

/-- From `o` to `o'` the bytes `bs` have been written. -/
structure Wrote (o o' : Front) (bs : List UInt8) : Prop where
  pos : o'.pos = o.pos + bs.length
  at_pos : At o'.mem o.pos bs
  take : o'.mem.take o.pos = o.mem.take o.pos

section Wrote

variable {o o₁ o₂ : Front} {xs ys bs : List UInt8}

theorem app_wrote (h : app bs o = .ok o₁) : Wrote o o₁ bs := by
  unfold app at h
  split at h
  · rename_i hle
    cases h
    refine ⟨rfl, ?_, ?_⟩
    · rcases hle with rfl | hle
      · exact at_nil
      · have hlen : (o.mem.take o.pos).length = o.pos := by
          rw [List.length_take]
          omega
        simpa only [hlen] using at_mid (o.mem.take o.pos) bs (o.mem.drop (o.pos + bs.length))
    · rcases hle with rfl | hle
      · simp
      · rw [List.take_append_of_le_length (by rw [List.length_take]; omega), List.take_take,
          Nat.min_self]
  · cases h

theorem Wrote.refl (o : Front) : Wrote o o [] := ⟨rfl, at_nil, rfl⟩

/-- Bytes below the place of a write stay. -/
theorem Wrote.keeps {p : Nat} (h : Wrote o o₁ bs) (hx : At o.mem p xs)
    (hle : p + xs.length ≤ o.pos) : At o₁.mem p xs := by
  have hkeep : ((o₁.mem.drop p).take xs.length) = (o.mem.drop p).take xs.length := by
    have hcut : ∀ l : List UInt8, ((l.take o.pos).drop p).take xs.length =
        (l.drop p).take xs.length := fun l => by
      rw [List.drop_take, List.take_take, Nat.min_eq_left (by omega)]
    rw [← hcut, h.take, hcut]
  exact List.prefix_iff_eq_take.mpr (by rw [hkeep, hx.take])

/-- Two writes. -/
theorem Wrote.append (h₁ : Wrote o o₁ xs) (h₂ : Wrote o₁ o₂ ys) : Wrote o o₂ (xs ++ ys) where
  pos := by rw [h₂.pos, h₁.pos, List.length_append, Nat.add_assoc]
  at_pos := at_append.mpr ⟨h₂.keeps h₁.at_pos (Nat.le_of_eq h₁.pos.symm), h₁.pos ▸ h₂.at_pos⟩
  take := by
    have hle : o.pos ≤ o₁.pos := by rw [h₁.pos]; omega
    have hcut : ∀ l : List UInt8, (l.take o₁.pos).take o.pos = l.take o.pos := fun l => by
      rw [List.take_take, Nat.min_eq_left hle]
    rw [← hcut, h₂.take, hcut, h₁.take]

end Wrote

end Front

end CRun
