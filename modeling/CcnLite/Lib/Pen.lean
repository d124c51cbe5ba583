import CcnLite.Lib.Write
import Mathlib.Tactic.Common

/-!
# Writing backwards through a pointer

C code that fills a buffer from its end has the buffer's address and an offset. A write goes to
whatever place the offset names, the offset is a `size_t` that wraps around at zero, and a write
that was made before the code gives up stays. `Pen` is that state: the offset, and the writes with
their places, which count from the buffer modulo `2 ^ 64`.

`Prepends` is the rule for a function that asks for room before it writes: it writes its bytes in
front of the offset when they fit and a guard holds, and otherwise returns an error after writes in
front of the offset only. The rules compose (`Prepends.bind`), and what they say about the space is
`InSpace` (`InSpace.of_prepends`). `Prepends.back` is the link to a buffer that checks every access.
-/

namespace CRun

/-- The offset, and the writes so far, the last one first. -/
structure Pen where
  offset : UInt64
  log : List (UInt64 × UInt8)
  deriving DecidableEq, Repr

/-- A function with a return code: an error is a code other than 0, and what was written before it
stays. -/
abbrev PenM := EStateM Int Pen

/-- The writes of `bs` from the place `i` on. -/
def marks : UInt64 → List UInt8 → List (UInt64 × UInt8)
  | _, [] => []
  | i, b :: bs => (i, b) :: marks (i + 1) bs

/-- The bytes `bs` are written in front of the offset, which wraps around. -/
def Pen.pre (bs : List UInt8) (p : Pen) : Pen where
  offset := p.offset - .ofNat bs.length
  log := marks (p.offset - .ofNat bs.length) bs ++ p.log

namespace PenM

variable {α : Type}

/-- `*offset`. -/
def offset : PenM UInt64 := fun p => .ok p.offset p

/-- `buf[--(*offset)] = b`. -/
def put (b : UInt8) : PenM Unit := fun p => .ok () ⟨p.offset - 1, (p.offset - 1, b) :: p.log⟩

/-- `if ((*offset)-- < 1) return -1; buf[*offset] = b`. The offset goes down before the check. -/
def tryPut (b : UInt8) : PenM Unit := fun p =>
  if p.offset < 1 then .error (-1) ⟨p.offset - 1, p.log⟩ else put b p

/-- `*offset -= len; memcpy(buf + *offset, bs, len)`. -/
def copy (bs : List UInt8) : PenM Unit := fun p => .ok () (p.pre bs)

/-- What a call that starts at an offset leaves. -/
def left (m : PenM α) (o : UInt64) : Pen :=
  match m ⟨o, []⟩ with
  | .ok _ q => q
  | .error _ q => q

end PenM

/-! ## Places -/

section Marks

variable {i o : UInt64} {xs ys bs : List UInt8} {p : Pen}

theorem ofNat_length_append (xs ys : List UInt8) : UInt64.ofNat (xs ++ ys).length =
    .ofNat xs.length + .ofNat ys.length := by
  rw [List.length_append, UInt64.ofNat_add]

theorem marks_append (i : UInt64) (xs ys : List UInt8) :
    marks i (xs ++ ys) = marks i xs ++ marks (i + .ofNat xs.length) ys := by
  induction xs generalizing i with
  | nil =>
    show marks i ys = marks (i + 0) ys
    rw [UInt64.add_zero]
  | cons x xs ih =>
    have hnext : i + 1 + .ofNat xs.length = i + .ofNat (x :: xs).length := by
      rw [List.length_cons, UInt64.ofNat_add]
      grind
    rw [List.cons_append, marks, ih, hnext, marks, List.cons_append]

theorem Pen.pre_nil (p : Pen) : p.pre [] = p := by
  show (⟨p.offset - 0, p.log⟩ : Pen) = p
  rw [UInt64.sub_zero]

/-- Two writes, one after the other, wherever the offset goes. -/
theorem Pen.pre_pre (xs ys : List UInt8) (p : Pen) : (p.pre xs).pre ys = p.pre (ys ++ xs) := by
  have hoff : p.offset - .ofNat xs.length - .ofNat ys.length =
      p.offset - .ofNat (ys ++ xs).length := by
    rw [ofNat_length_append]
    grind
  have hmid : p.offset - .ofNat (ys ++ xs).length + .ofNat ys.length = p.offset - .ofNat xs.length := by
    rw [ofNat_length_append]
    grind
  refine congrArg₂ Pen.mk hoff ?_
  show marks (p.offset - .ofNat xs.length - .ofNat ys.length) ys ++
    (marks (p.offset - .ofNat xs.length) xs ++ p.log) = _
  rw [hoff, marks_append, hmid, List.append_assoc]

/-- The length of what was written is the difference of the offsets. -/
theorem Pen.sub_pre (bs : List UInt8) (p : Pen) : p.offset - (p.pre bs).offset = .ofNat bs.length := by
  show p.offset - (p.offset - .ofNat bs.length) = _
  grind

theorem toNat_ofNat_le {n : Nat} (h : n ≤ o.toNat) : (UInt64.ofNat n).toNat = n :=
  UInt64.toNat_ofNat_of_lt' (Nat.lt_of_le_of_lt h o.toNat_lt)

theorem Pen.toNat_pre (h : bs.length ≤ p.offset.toNat) :
    (p.pre bs).offset.toNat = p.offset.toNat - bs.length := by
  have hlen := toNat_ofNat_le h
  show (p.offset - .ofNat bs.length).toNat = _
  rw [UInt64.toNat_sub_of_le, hlen]
  rw [UInt64.le_iff_toNat_le, hlen]
  exact h

/-- Bytes that end at a place stand in front of it, one in each place. -/
theorem mem_marks (h : i.toNat + bs.length = o.toNat) :
    (∀ w ∈ marks i bs, i ≤ w.1 ∧ w.1 < o) ∧
      ∀ x, i ≤ x → x < o → ∃ b, (x, b) ∈ marks i bs := by
  simp only [UInt64.le_iff_toNat_le, UInt64.lt_iff_toNat_lt]
  induction bs generalizing i with
  | nil =>
    refine ⟨fun w hw => (nomatch hw), fun x hi ho => ?_⟩
    rw [List.length_nil] at h
    omega
  | cons b bs ih =>
    rw [List.length_cons] at h
    have hlt := o.toNat_lt
    have hnext : (i + 1).toNat = i.toNat + 1 := by
      rw [UInt64.toNat_add, UInt64.toNat_one, Nat.mod_eq_of_lt (by omega)]
    obtain ⟨hin, hall⟩ := ih (by omega : (i + 1).toNat + bs.length = o.toNat)
    constructor
    · intro w hw
      rcases List.mem_cons.mp hw with rfl | hw
      · exact ⟨Nat.le_refl _, show i.toNat < o.toNat by omega⟩
      · have := hin w hw
        omega
    · intro x hi ho
      by_cases hx : x = i
      · exact ⟨b, hx ▸ List.mem_cons_self⟩
      · have hne : x.toNat ≠ i.toNat := fun h => hx (UInt64.toNat_inj.mp h)
        obtain ⟨c, hc⟩ := hall x (by omega) ho
        exact ⟨c, List.mem_cons_of_mem _ hc⟩

end Marks

/-! ## The rule of a function that asks for room -/

/-- From `p` on, `m` writes `bs` and returns `a` when `g` holds and the bytes fit in front of the
offset. Otherwise it fails, and what it has written before stands right in front of the offset. -/
structure Prepends {α : Type} (p : Pen) (g : Prop) (bs : List UInt8) (a : α) (m : PenM α) : Prop where
  done : g → bs.length ≤ p.offset.toNat → m p = .ok a (p.pre bs)
  fails : ¬ (g ∧ bs.length ≤ p.offset.toNat) → ∃ e q zs, m p = .error e q ∧ e ≠ 0 ∧
    zs.length ≤ p.offset.toNat ∧ q.log = (p.pre zs).log

namespace Prepends

open PenM

variable {α β : Type} {p : Pen} {g g' : Prop} {xs ys bs : List UInt8} {a : α} {b : β} {m : PenM α}
  {f : α → PenM β}

/-- A function that does not ask, where there is room. -/
theorem of_ok (hm : m p = .ok a (p.pre bs)) (hle : bs.length ≤ p.offset.toNat) :
    Prepends p True bs a m where
  done _ _ := hm
  fails h := absurd ⟨trivial, hle⟩ h

/-- A function that gives up at once. -/
theorem of_throw {e : Int} (he : e ≠ 0) (h : ¬ (g ∧ bs.length ≤ p.offset.toNat)) :
    Prepends p g bs a (throw e) where
  done hg hle := absurd ⟨hg, hle⟩ h
  fails _ := ⟨e, p, [], rfl, he, Nat.zero_le _, by rw [Pen.pre_nil]⟩

/-- `if (c) return e;`, where `c` says that there is no room or that the guard fails. -/
theorem check {c : Prop} [Decidable c] {e : Int} (he : e ≠ 0)
    (hc : c → ¬ (g ∧ bs.length ≤ p.offset.toNat)) (hm : ¬ c → Prepends p g bs a m) :
    Prepends p g bs a (if c then throw e else m) := by
  by_cases h : c
  · rw [if_pos h]
    exact of_throw he (hc h)
  · rw [if_neg h]
    exact hm h

theorem pure (a : α) (p : Pen) : Prepends p True [] a (pure a) :=
  of_ok (by rw [Pen.pre_nil]; rfl) (Nat.zero_le _)

theorem tryPut (x : UInt8) (p : Pen) : Prepends p True [x] () (tryPut x) := by
  have hlt : p.offset < 1 ↔ p.offset.toNat < 1 := UInt64.lt_iff_toNat_lt
  by_cases h : p.offset < 1
  · refine ⟨fun _ hle => absurd hle (Nat.not_le.mpr (hlt.mp h)), fun _ => ?_⟩
    exact ⟨-1, ⟨p.offset - 1, p.log⟩, [], if_pos h, by decide, Nat.zero_le _, by rw [Pen.pre_nil]⟩
  · exact of_ok (if_neg h) (Nat.not_lt.mp fun hn => h (hlt.mpr hn))

/-- The code reads the offset. -/
theorem read {f : UInt64 → PenM β} (h : Prepends p g bs b (f p.offset)) :
    Prepends p g bs b (PenM.offset >>= f) := ⟨h.done, h.fails⟩

theorem congr {h : Prop} (hm : Prepends p g bs a m) (hiff : h ↔ g) : Prepends p h bs a m := by
  rw [hiff]
  exact hm

/-- One function after the other: the second one writes in front of the first. -/
theorem bind (hm : Prepends p g xs a m)
    (hf : xs.length ≤ p.offset.toNat → Prepends (p.pre xs) g' ys b (f a)) :
    Prepends p (g ∧ g') (ys ++ xs) b (m >>= f) where
  done hg hle := by
    rw [List.length_append] at hle
    have hxs : xs.length ≤ p.offset.toNat := by omega
    have hys : ys.length ≤ (p.pre xs).offset.toNat := by
      rw [Pen.toNat_pre hxs]
      omega
    show (m >>= f) p = _
    rw [← Pen.pre_pre, ← (hf hxs).done hg.2 hys]
    show EStateM.bind m f p = _
    rw [EStateM.bind, hm.done hg.1 hxs]
  fails h := by
    by_cases hxs : g ∧ xs.length ≤ p.offset.toNat
    · have hoff := Pen.toNat_pre hxs.2
      have hfail : ¬ (g' ∧ ys.length ≤ (p.pre xs).offset.toNat) := fun hall => by
        have := hall.2
        exact h ⟨⟨hxs.1, hall.1⟩, by rw [List.length_append]; omega⟩
      obtain ⟨e, q, zs, hrun, he, hzs, hlog⟩ := (hf hxs.2).fails hfail
      refine ⟨e, q, zs ++ xs, ?_, he, by rw [List.length_append]; omega, by rw [hlog, Pen.pre_pre]⟩
      show EStateM.bind m f p = _
      rw [EStateM.bind, hm.done hxs.1 hxs.2]
      exact hrun
    · obtain ⟨e, q, zs, hrun, he, hzs, hlog⟩ := hm.fails hxs
      refine ⟨e, q, zs, ?_, he, hzs, hlog⟩
      show EStateM.bind m f p = _
      rw [EStateM.bind, hrun]

/-- The same when the second one does not look at the result of the first. -/
theorem andThen {m' : PenM β} (hm : Prepends p g xs a m)
    (hf : xs.length ≤ p.offset.toNat → Prepends (p.pre xs) g' ys b m') :
    Prepends p (g ∧ g') (ys ++ xs) b (m >>= fun _ => m') := hm.bind hf

/-- The same when the second one has no guard either. -/
theorem next {m' : PenM β} (hm : Prepends p g xs a m)
    (hf : xs.length ≤ p.offset.toNat → Prepends (p.pre xs) True ys b m') :
    Prepends p g (ys ++ xs) b (m >>= fun _ => m') := (hm.andThen hf).congr (and_iff_left trivial).symm

/-- The code reads the offset when it is done. -/
theorem finish (f : UInt64 → β) (hm : Prepends p g bs a m) :
    Prepends p g bs (f (p.pre bs).offset) (m >>= fun _ => PenM.offset >>= fun o => Pure.pure (f o)) := by
  have hread : Prepends (p.pre bs) True [] (f (p.pre bs).offset)
      (PenM.offset >>= fun o => Pure.pure (f o)) := .read (.pure _ _)
  exact next hm fun _ => hread

/-- Another code for the same errors. -/
theorem adapt {c : Int → Int} (hc : ∀ e, e ≠ 0 → c e ≠ 0) (hm : Prepends p g bs a m) :
    Prepends p g bs a (EStateM.adaptExcept c m) where
  done hg hle := by
    rw [EStateM.adaptExcept, hm.done hg hle]
  fails h := by
    obtain ⟨e, q, zs, hrun, he, hzs, hlog⟩ := hm.fails h
    refine ⟨c e, q, zs, ?_, hc e he, hzs, hlog⟩
    rw [EStateM.adaptExcept, hrun]

end Prepends

/-! ## The space in front of the offset -/

/-- A function whose encoding is `enc` stays in its space, wherever it starts. `reslen` is the length
it returns, if it returns one. -/
structure InSpace {α : Type} (reslen : α → Option UInt64) (enc : List UInt8) (m : PenM α) : Prop where
  /-- Every write is in front of the offset, also when the function fails. -/
  inside (o : UInt64) : ∀ w ∈ (m.left o).log, w.1 < o
  /-- The offset goes down. -/
  le (o : UInt64) (a : α) (q : Pen) (h : m ⟨o, []⟩ = .ok a q) : q.offset ≤ o
  /-- Every byte from the new offset on is written, -/
  filled (o : UInt64) (a : α) (q : Pen) (h : m ⟨o, []⟩ = .ok a q) (i : UInt64) :
    q.offset ≤ i → i < o → ∃ b, (i, b) ∈ q.log
  /-- and they are those of the encoding. -/
  encodes (o : UInt64) (a : α) (q : Pen) (h : m ⟨o, []⟩ = .ok a q) : q.log = marks q.offset enc
  reslen_eq (o : UInt64) (a : α) (q : Pen) (h : m ⟨o, []⟩ = .ok a q) :
    ∀ n ∈ reslen a, n = o - q.offset
  /-- An encoding that does not fit is an error. -/
  too_long (o : UInt64) (h : o.toNat < enc.length) : ∃ e q, m ⟨o, []⟩ = .error e q ∧ e ≠ 0

section InSpace

variable {α : Type} {reslen : α → Option UInt64} {enc bs zs : List UInt8} {m : PenM α} {g : Prop}
  {o : UInt64}

/-- Bytes that fit are written in front of the offset, one into each place from the new offset on. -/
theorem mem_pre (hle : zs.length ≤ o.toNat) :
    (∀ w ∈ ((⟨o, []⟩ : Pen).pre zs).log, w.1 < o) ∧
      ∀ i, ((⟨o, []⟩ : Pen).pre zs).offset ≤ i → i < o → ∃ b, (i, b) ∈ ((⟨o, []⟩ : Pen).pre zs).log := by
  have hoff : ((⟨o, []⟩ : Pen).pre zs).offset.toNat + zs.length = o.toNat := by
    rw [@Pen.toNat_pre zs ⟨o, []⟩ hle]
    exact Nat.sub_add_cancel hle
  obtain ⟨hin, hall⟩ := mem_marks hoff
  have hlog : ((⟨o, []⟩ : Pen).pre zs).log = marks ((⟨o, []⟩ : Pen).pre zs).offset zs :=
    List.append_nil _
  rw [hlog]
  exact ⟨fun w hw => (hin w hw).2, hall⟩

/-- A function that keeps the rule stays in its space. -/
theorem InSpace.of_prepends
    (h : ∀ o, ∃ a, Prepends ⟨o, []⟩ g enc a m ∧ ∀ n ∈ reslen a, n = .ofNat enc.length) :
    InSpace reslen enc m := by
  have hok : ∀ o a q, m ⟨o, []⟩ = .ok a q → enc.length ≤ o.toNat ∧ q = (⟨o, []⟩ : Pen).pre enc ∧
      ∀ n ∈ reslen a, n = .ofNat enc.length := fun o a q hm => by
    obtain ⟨b, hw, hlen⟩ := h o
    by_cases hfit : g ∧ enc.length ≤ o.toNat
    · obtain ⟨rfl, rfl⟩ := EStateM.Result.ok.inj (hm.symm.trans (hw.done hfit.1 hfit.2))
      exact ⟨hfit.2, rfl, hlen⟩
    · obtain ⟨e, q', zs, hrun, -⟩ := hw.fails hfit
      cases hm.symm.trans hrun
  constructor
  case inside =>
    intro o
    obtain ⟨a, hw, -⟩ := h o
    unfold PenM.left
    by_cases hfit : g ∧ enc.length ≤ o.toNat
    · rw [hw.done hfit.1 hfit.2]
      exact (mem_pre hfit.2).1
    · obtain ⟨e, q, zs, hrun, -, hle, hlog⟩ := hw.fails hfit
      rw [hrun]
      show ∀ w ∈ q.log, w.1 < o
      rw [hlog]
      exact (mem_pre hle).1
  case le =>
    intro o a q hm
    obtain ⟨hle, rfl, -⟩ := hok o a q hm
    rw [UInt64.le_iff_toNat_le, @Pen.toNat_pre enc ⟨o, []⟩ hle]
    exact Nat.sub_le _ _
  case filled =>
    intro o a q hm
    obtain ⟨hle, rfl, -⟩ := hok o a q hm
    exact (mem_pre hle).2
  case encodes =>
    intro o a q hm
    obtain ⟨-, rfl, -⟩ := hok o a q hm
    exact List.append_nil _
  case reslen_eq =>
    intro o a q hm n hn
    obtain ⟨-, rfl, hlen⟩ := hok o a q hm
    exact (hlen n hn).trans (Pen.sub_pre enc ⟨o, []⟩).symm
  case too_long =>
    intro o hlt
    obtain ⟨a, hw, -⟩ := h o
    obtain ⟨e, q, -, hrun, he, -⟩ := hw.fails fun hall => Nat.not_le.mpr hlt hall.2
    exact ⟨e, q, hrun, he⟩

end InSpace

/-! ## Holes -/

/-- The `n` bytes of the memory from the place `i` on. What the code has not written is `mem`. -/
def Pen.bytes (mem : UInt64 → UInt8) (p : Pen) (i : UInt64) (n : Nat) : List UInt8 :=
  (List.range n).map fun k => (p.log.lookup (i + .ofNat k)).getD (mem (i + .ofNat k))

namespace PenM

/-- `*offset -= len`, without a check and without a write. -/
def hole (len : Nat) : PenM Unit := fun p => .ok () ⟨p.offset - .ofNat len, p.log⟩

/-- `memcpy(buf + i, bs, len)`. -/
def poke (i : UInt64) (bs : List UInt8) : PenM Unit := fun p => .ok () ⟨p.offset, marks i bs ++ p.log⟩

end PenM

section Bytes

variable {mem : UInt64 → UInt8} {i j : UInt64} {bs xs ys : List UInt8} {l : List (UInt64 × UInt8)}
  {p : Pen} {n : Nat}

/-- A write elsewhere is not seen. -/
theorem lookup_marks_of_ne {x : UInt64} (h : ∀ w ∈ marks i bs, w.1 ≠ x) :
    (marks i bs ++ l).lookup x = l.lookup x := by
  induction bs generalizing i with
  | nil => rfl
  | cons b bs ih =>
    have hne : (x == i) = false := beq_false_of_ne (Ne.symm (h (i, b) List.mem_cons_self))
    rw [marks, List.cons_append, List.lookup_cons, hne]
    exact ih fun w hw => h w (List.mem_cons_of_mem _ hw)

/-- The bytes that have just been written. -/
theorem lookup_marks {k : Nat} (h : k < bs.length) (hle : bs.length ≤ 2 ^ 64) :
    (marks i bs ++ l).lookup (i + .ofNat k) = some bs[k] := by
  induction bs generalizing i k with
  | nil => exact absurd h (Nat.not_lt_zero k)
  | cons b bs ih =>
    rw [List.length_cons] at h hle
    rw [marks, List.cons_append, List.lookup_cons]
    cases k with
    | zero =>
      have hself : i + UInt64.ofNat 0 = i := UInt64.add_zero i
      rw [hself, beq_self_eq_true]
      rfl
    | succ k =>
      have hne : (i + UInt64.ofNat (k + 1) == i) = false := beq_false_of_ne fun heq => by
        have hzero : UInt64.ofNat (k + 1) = 0 := by grind
        have hnat := congrArg UInt64.toNat hzero
        rw [UInt64.toNat_ofNat_of_lt' (show k + 1 < 2 ^ 64 by omega)] at hnat
        exact absurd hnat (Nat.succ_ne_zero k)
      have hnext : i + UInt64.ofNat (k + 1) = i + 1 + .ofNat k := by
        rw [UInt64.ofNat_add]
        grind
      rw [hne, hnext]
      exact ih (by omega) (by omega)

theorem Pen.length_bytes (mem : UInt64 → UInt8) (p : Pen) (i : UInt64) (n : Nat) :
    (p.bytes mem i n).length = n := by
  rw [Pen.bytes, List.length_map, List.length_range]

theorem Pen.bytes_marks (hlog : p.log = marks i bs ++ l) (hle : bs.length ≤ 2 ^ 64) :
    p.bytes mem i bs.length = bs := by
  refine List.ext_getElem (p.length_bytes mem i _) fun k h₁ h₂ => ?_
  simp only [Pen.bytes, List.getElem_map, List.getElem_range, hlog, lookup_marks h₂ hle,
    Option.getD_some]

/-- A write in front of bytes is not seen in them. -/
theorem Pen.bytes_of_lt {q : Pen} (hlog : p.log = marks j ys ++ q.log)
    (h : ∀ w ∈ marks j ys, w.1 < i) (hle : i.toNat + n ≤ 2 ^ 64) :
    p.bytes mem i n = q.bytes mem i n := by
  unfold Pen.bytes
  refine List.map_congr_left fun k hk => ?_
  have hkn := List.mem_range.mp hk
  have hplace : (i + .ofNat k).toNat = i.toNat + k := by
    rw [UInt64.toNat_add, UInt64.toNat_ofNat_of_lt' (show k < 2 ^ 64 by omega),
      Nat.mod_eq_of_lt (by omega)]
  rw [hlog, lookup_marks_of_ne]
  intro w hw heq
  have := UInt64.lt_iff_toNat_lt.mp (h w hw)
  rw [heq, hplace] at this
  omega

end Bytes

/-! ## A buffer that checks every access -/

/-- What is in a buffer after the writes. -/
def stamp (log : List (UInt64 × UInt8)) (buf : List UInt8) : List UInt8 :=
  log.foldr (fun w buf => buf.set w.1.toNat w.2) buf

section Stamp

variable {α : Type} {i o : UInt64} {bs buf : List UInt8} {m : PenM α} {g : Prop} {a : α}

theorem set_splice {k : Nat} (b : UInt8) (h : k < buf.length) :
    (Front.splice buf (k + 1) bs).set k b = Front.splice buf k (b :: bs) := by
  have hlen : (buf.take k).length = k := List.length_take_of_le (Nat.le_of_lt h)
  have hset : (buf.take (k + 1)).set k b = buf.take k ++ [b] := by
    rw [List.take_succ_eq_append_getElem h, List.set_append_right _ _ (Nat.le_of_eq hlen), hlen,
      Nat.sub_self]
    rfl
  have hdrop : k + 1 + bs.length = k + (b :: bs).length := by
    rw [List.length_cons]
    omega
  rw [Front.splice, List.set_append_left _ _ (by rw [List.length_take]; omega), hset, hdrop,
    List.append_assoc]
  rfl

theorem stamp_marks (h : i.toNat + bs.length = o.toNat) (hle : o.toNat ≤ buf.length) :
    stamp (marks i bs) buf = Front.splice buf i.toNat bs := by
  induction bs generalizing i with
  | nil => exact (Front.splice_nil buf i.toNat).symm
  | cons b bs ih =>
    rw [List.length_cons] at h
    have hlt := o.toNat_lt
    have hnext : (i + 1).toNat = i.toNat + 1 := by
      rw [UInt64.toNat_add, UInt64.toNat_one, Nat.mod_eq_of_lt (by omega)]
    show (stamp (marks (i + 1) bs) buf).set i.toNat b = _
    rw [ih (by omega), hnext, set_splice b (by omega)]

/-- A function that keeps the rule does on the memory what the checked write does on the buffer. -/
theorem Prepends.back {o o' : Back} (hlt : o.offset < 2 ^ 64)
    (h : Prepends ⟨.ofNat o.offset, []⟩ g bs a m) :
    (g ∧ Back.pre bs o = .ok o') ↔ ∃ q, m ⟨.ofNat o.offset, []⟩ = .ok a q ∧
      q.offset.toNat = o'.offset ∧ stamp q.log o.buf = o'.buf := by
  have hnat : (UInt64.ofNat o.offset).toNat = o.offset := UInt64.toNat_ofNat_of_lt' hlt
  have hpre : bs.length ≤ o.offset → ((⟨.ofNat o.offset, []⟩ : Pen).pre bs).offset.toNat =
      o.offset - bs.length ∧ stamp ((⟨.ofNat o.offset, []⟩ : Pen).pre bs).log o.buf =
        Front.splice o.buf (o.offset - bs.length) bs := fun hle => by
    have hoff := @Pen.toNat_pre bs ⟨.ofNat o.offset, []⟩ (by rw [hnat]; exact hle)
    have hlog : ((⟨.ofNat o.offset, []⟩ : Pen).pre bs).log =
        marks ((⟨.ofNat o.offset, []⟩ : Pen).pre bs).offset bs := List.append_nil _
    rw [hnat] at hoff
    have hsum : ((⟨.ofNat o.offset, []⟩ : Pen).pre bs).offset.toNat + bs.length =
        (UInt64.ofNat o.offset).toNat := by
      rw [hoff, hnat]
      omega
    rw [hlog, ← hoff]
    exact ⟨rfl, stamp_marks hsum (by rw [hnat]; exact o.le)⟩
  constructor
  · rintro ⟨hg, hok⟩
    obtain ⟨hadd, hbuf⟩ := Back.pre_eq_ok.mp hok
    obtain ⟨hoff, hstamp⟩ := hpre (by omega)
    refine ⟨_, h.done hg (by rw [hnat]; omega), by rw [hoff]; omega, ?_⟩
    rw [hstamp, hbuf, Front.splice, ← hadd, Nat.add_sub_cancel]
  · rintro ⟨q, hrun, hq, hbuf⟩
    by_cases hfit : g ∧ bs.length ≤ (UInt64.ofNat o.offset).toNat
    · obtain ⟨-, rfl⟩ := EStateM.Result.ok.inj ((h.done hfit.1 hfit.2).symm.trans hrun)
      have hle : bs.length ≤ o.offset := by
        rw [← hnat]
        exact hfit.2
      obtain ⟨hoff, hstamp⟩ := hpre hle
      rw [hoff] at hq
      rw [hstamp, Front.splice, Nat.sub_add_cancel hle] at hbuf
      refine ⟨hfit.1, Back.pre_eq_ok.mpr ⟨by omega, ?_⟩⟩
      rw [← hbuf, hq]
    · obtain ⟨e, q', zs, herr, -⟩ := h.fails hfit
      cases hrun.symm.trans herr

/-- On memory, `m` does what `f` does on a buffer that checks every access; `r` reads its result. -/
def Refines {α β : Type} (r : α → β) (f : Back → Run (Back × β)) (m : PenM α) : Prop :=
  ∀ (o o' : Back) (b : β), o.offset < 2 ^ 64 → (f o = .ok (o', b) ↔ ∃ a q,
    m ⟨.ofNat o.offset, []⟩ = .ok a q ∧ r a = b ∧ q.offset.toNat = o'.offset ∧
      stamp q.log o.buf = o'.buf)

/-- Two functions that write the same bytes under the same guard. -/
theorem Refines.of_prepends {β : Type} {r : α → β} {f : Back → Run (Back × β)} {val : Pen → α}
    (res : Back → Back → β)
    (hf : ∀ o o' b, f o = .ok (o', b) ↔ (g ∧ Back.pre bs o = .ok o') ∧ res o o' = b)
    (hm : ∀ p, Prepends p g bs (val p) m)
    (hres : ∀ o o', o.offset < 2 ^ 64 → Back.pre bs o = .ok o' →
      r (val ⟨.ofNat o.offset, []⟩) = res o o') : Refines r f m := by
  intro o o' b hlt
  have hback := fun o' => (@Prepends.back α bs m g _ o o' hlt (hm _))
  rw [hf]
  constructor
  · rintro ⟨hok, rfl⟩
    obtain ⟨q, hrun, hoff, hstamp⟩ := (hback o').mp hok
    exact ⟨_, q, hrun, hres o o' hlt hok.2, hoff, hstamp⟩
  · rintro ⟨a, q, hrun, rfl, hoff, hstamp⟩
    by_cases hfit : g ∧ bs.length ≤ (UInt64.ofNat o.offset).toNat
    · obtain ⟨rfl, -⟩ := EStateM.Result.ok.inj (((hm _).done hfit.1 hfit.2).symm.trans hrun)
      have hok := (hback o').mpr ⟨q, hrun, hoff, hstamp⟩
      exact ⟨hok, (hres o o' hlt hok.2).symm⟩
    · obtain ⟨e, q', zs, herr, -⟩ := (hm ⟨.ofNat o.offset, []⟩).fails hfit
      cases hrun.symm.trans herr

end Stamp

end CRun
