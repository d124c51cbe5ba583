import CcnLite.Core.Types
import CcnLite.Lib.Write
import Mathlib.Data.List.Induction

/-!
# Packets that point into a buffer

While a packet is parsed its name and its content are slices of the receive buffer. `Pkt.rebase`
is the end of each parser: the packet's bytes are copied, and the pointers are moved to the copy.
`Pkt.Inside` says that the slices lie in a range of indices; it survives the move
(`Pkt.Inside.rebase`).
-/

namespace Ccnl

open CRun

/-- Bytes as a number, the most significant first. -/
def beNat (bs : List UInt8) : Nat := bs.foldl (fun v b => v * 2 ^ 8 + b.toNat) 0

theorem beNat_concat (bs : List UInt8) (b : UInt8) : beNat (bs ++ [b]) = beNat bs * 2 ^ 8 + b.toNat := by
  rw [beNat, List.foldl_append]
  rfl

theorem beNat_lt (bs : List UInt8) : beNat bs < 2 ^ (8 * bs.length) := by
  induction bs using List.reverseRecOn with
  | nil => decide
  | append_singleton bs b ih =>
    have hb := b.toNat_lt
    have hpow : 2 ^ (8 * (bs ++ [b]).length) = 2 ^ (8 * bs.length) * 2 ^ 8 := by
      rw [List.length_append, List.length_singleton, Nat.mul_add, Nat.pow_add]
    rw [beNat_concat, hpow]
    omega

theorem beNat_beBytes (k v : Nat) : beNat (beBytes k v) = v % 2 ^ (8 * k) := foldl_beBytes k v

/-- The bytes of the number that some bytes stand for. -/
theorem beBytes_beNat (bs : List UInt8) : beBytes bs.length (beNat bs) = bs := by
  induction bs using List.reverseRecOn with
  | nil => rfl
  | append_singleton bs b ih =>
    have hb := b.toNat_lt
    have hdiv : (beNat bs * 2 ^ 8 + b.toNat) / 2 ^ 8 = beNat bs := by omega
    have hlow : UInt8.ofNat (beNat bs * 2 ^ 8 + b.toNat) = b := by
      rw [← UInt8.toNat_inj, UInt8.toNat_ofNat']
      omega
    rw [List.length_append, List.length_singleton, beBytes, beNat_concat, hdiv, hlow, ih]

/-- The four bytes of a `uint32_t` in memory. -/
def wordBytes (w : UInt32) : List UInt8 := (beBytes 4 w.toNat).reverse

theorem length_wordBytes (w : UInt32) : (wordBytes w).length = 4 := by
  rw [wordBytes, List.length_reverse, length_beBytes]

/-- The pointers of the packet moved to `buf`, the copy of the bytes from index `start` on. -/
def Pkt.rebase (pkt : Pkt) (start : Nat) (buf : List UInt8) : Pkt :=
  { pkt with
    buf := buf
    content := pkt.content.map (·.rebase start)
    pfx := pkt.pfx.map fun p =>
      { p with
        mem := buf
        comp := p.comp.map (·.rebase start)
        nameptr := p.nameptr.map (· - start) } }

/-- The components and the name slice lie between the indices `lo` and `hi`. -/
structure Prefix.Inside (p : Prefix) (lo hi : Nat) : Prop where
  comp : ∀ s ∈ p.comp, s.Within lo hi
  name : ∀ a, p.nameptr = some a → lo ≤ a ∧ a + p.namelen ≤ hi

/-- The name and the content lie between the indices `lo` and `hi`. -/
structure Pkt.Inside (pkt : Pkt) (lo hi : Nat) : Prop where
  content : ∀ s, pkt.content = some s → s.Within lo hi
  pfx : ∀ p, pkt.pfx = some p → p.Inside lo hi

theorem Prefix.Inside.mono {p : Prefix} {lo hi hi' : Nat} (h : p.Inside lo hi) (hh : hi ≤ hi') :
    p.Inside lo hi' where
  comp s hs := (h.comp s hs).mono (Nat.le_refl _) hh
  name a ha := ⟨(h.name a ha).1, Nat.le_trans (h.name a ha).2 hh⟩

theorem Pkt.Inside.mono {pkt : Pkt} {lo hi hi' : Nat} (h : pkt.Inside lo hi) (hh : hi ≤ hi') :
    pkt.Inside lo hi' where
  content s hs := (h.content s hs).mono (Nat.le_refl _) hh
  pfx p hp := (h.pfx p hp).mono hh

theorem within_rebase {s : Span} {lo hi : Nat} (h : s.Within lo hi) :
    (s.rebase lo).Within 0 (hi - lo) := by
  obtain ⟨h₁, h₂⟩ := h
  exact ⟨Nat.zero_le _, by simp only [Span.rebase]; omega⟩

/-- A slice has the same bytes in the copy. -/
theorem bytes_rebase {s : Span} {mem : List UInt8} {lo hi : Nat} (h : s.Within lo hi) :
    (s.rebase lo).bytes ((mem.drop lo).take (hi - lo)) = s.bytes mem := by
  obtain ⟨h₁, h₂⟩ := h
  unfold Span.bytes Span.rebase
  simp only
  rw [List.drop_take, List.take_take, List.drop_drop, Nat.min_eq_left (by omega)]
  congr 2
  omega

/-- Slices have the same bytes in the copy. -/
theorem map_bytes_rebase {l : List Span} {mem : List UInt8} {lo hi : Nat}
    (h : ∀ s ∈ l, s.Within lo hi) :
    (l.map (·.rebase lo)).map (·.bytes ((mem.drop lo).take (hi - lo))) = l.map (·.bytes mem) := by
  rw [List.map_map]
  exact List.map_congr_left fun s hs => bytes_rebase (h s hs)

/-- The slices of the packet lie in its copy. -/
theorem Pkt.Inside.rebase {pkt : Pkt} {lo hi : Nat} (h : pkt.Inside lo hi) (buf : List UInt8) :
    (pkt.rebase lo buf).Inside 0 (hi - lo) where
  content s hs := by
    obtain ⟨t, ht, rfl⟩ := Option.map_eq_some_iff.mp hs
    exact within_rebase (h.content t ht)
  pfx p hp := by
    obtain ⟨q, hq, rfl⟩ := Option.map_eq_some_iff.mp hp
    refine ⟨fun s hs => ?_, fun a ha => ?_⟩
    · obtain ⟨t, ht, rfl⟩ := List.mem_map.mp hs
      exact within_rebase ((h.pfx q hq).comp t ht)
    · obtain ⟨b, hb, rfl⟩ := Option.map_eq_some_iff.mp ha
      have := (h.pfx q hq).name b hb
      simp only
      omega

end Ccnl
