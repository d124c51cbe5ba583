import CcnLite.Pkt.CcntlvEncode
import CcnLite.Pkt.NdntlvEncode

/-!
# Names that grow (`ccnl-prefix.c`)

`prefixAppendCmp` and `prefixAddChunkNum` where all allocations succeed. They are for names that have
their own bytes: `mem` is `prefix->bytes`, from where the old components are copied as one block.
-/

namespace Ccnl

open CRun

/-- Slices of the lengths `ns`, one after the other from `p` on. -/
def laidOut : Nat → List Nat → List Span
  | _, [] => []
  | p, n :: ns => ⟨p, n⟩ :: laidOut (p + n) ns

/-- `ccnl_prefix_appendCmp`. -/
def prefixAppendCmp (p : Prefix) (cmp : List UInt8) : Run Prefix := do
  if maxNameComp ≤ p.compcnt then throw .bail
  let lens := p.comp.map (·.len)
  let bytes ← rdBytes p.mem 0 lens.sum
  return { p with mem := bytes ++ cmp, comp := laidOut 0 (lens ++ [cmp.length]) }

/-- The component of a chunk number below 255, with its header in a CCNx name. -/
def chunkCmp (suite : Suite) (chunknum : UInt8) : Option (List UInt8) :=
  match suite with
  | .ndntlv => some [ndnMarkerSegmentNumber, chunknum]
  | .ccntlv => some [0, UInt8.ofNat ccnxTlvNChunk, 0, 1, chunknum]
  | .ccnb | .localrpc => none

/-- `ccnl_prefix_addChunkNum`. -/
def prefixAddChunkNum (p : Prefix) (chunknum : UInt32) : Run Prefix := do
  if 0xff ≤ chunknum then throw .bail
  match chunkCmp p.suite (UInt8.ofNat chunknum.toNat) with
  | some cmp =>
    let p ← prefixAppendCmp p cmp
    return { p with chunknum := some chunknum.toNat }
  | none => throw .bail

section Edit

variable {p q : Prefix} {cmp : List UInt8} {k : UInt32}

theorem laidOut_append (o : Nat) (ms ns : List Nat) :
    laidOut o (ms ++ ns) = laidOut o ms ++ laidOut (o + ms.sum) ns := by
  induction ms generalizing o with
  | nil => rw [List.nil_append, List.sum_nil]; rfl
  | cons m ms ih =>
    rw [List.cons_append, laidOut, laidOut, ih, List.sum_cons, Nat.add_assoc, List.cons_append]

@[simp] theorem length_laidOut (o : Nat) (ns : List Nat) : (laidOut o ns).length = ns.length := by
  induction ns generalizing o with
  | nil => rfl
  | cons n ns ih => rw [laidOut, List.length_cons, List.length_cons, ih]

theorem map_len_laidOut (o : Nat) (ns : List Nat) : (laidOut o ns).map (·.len) = ns := by
  induction ns generalizing o with
  | nil => rfl
  | cons n ns ih => rw [laidOut, List.map_cons, ih]

/-- Slices that lie one after the other make up a slice. -/
theorem flatten_laidOut (mem : List UInt8) (o : Nat) (ns : List Nat) :
    ((laidOut o ns).map (·.bytes mem)).flatten = (mem.drop o).take ns.sum := by
  induction ns generalizing o with
  | nil => rw [List.sum_nil, List.take_zero]; rfl
  | cons n ns ih =>
    rw [laidOut, List.map_cons, List.flatten_cons, ih, List.sum_cons, Span.bytes, List.take_add,
      List.drop_drop]

/-- The slices of some components that lie one after the other. -/
theorem bytes_laidOut {mem : List UInt8} {o : Nat} {cs : List (List UInt8)} (h : At mem o cs.flatten) :
    (laidOut o (cs.map List.length)).map (·.bytes mem) = cs := by
  induction cs generalizing o with
  | nil => rfl
  | cons c cs ih =>
    rw [List.flatten_cons] at h
    obtain ⟨hc, hcs⟩ := at_append.mp h
    rw [List.map_cons, laidOut, List.map_cons, ih hcs, Span.bytes, hc.take]

theorem bytes_laidOut_concat {bytes : List UInt8} {ns : List Nat} (h : ns.sum = bytes.length) :
    (laidOut 0 (ns ++ [cmp.length])).map (·.bytes (bytes ++ cmp)) =
      (laidOut 0 ns).map (·.bytes (bytes ++ cmp)) ++ [cmp] := by
  have hlast : (⟨0 + ns.sum, cmp.length⟩ : Span).bytes (bytes ++ cmp) = cmp := by
    rw [Span.bytes, Nat.zero_add, List.drop_left' h.symm, List.take_length]
  rw [laidOut_append, List.map_append]
  exact congrArg _ (congrArg (fun v => [v]) hlast)

/-- The new component is the last one. -/
theorem prefixAppendCmp_last (h : prefixAppendCmp p cmp = .ok q) :
    p.compcnt < maxNameComp ∧ q.suite = p.suite ∧
      ∃ vs, vs.length = p.compcnt ∧ q.comps = vs ++ [cmp] := by
  unfold prefixAppendCmp at h
  split at h
  · simp at h
  rename_i hcnt
  obtain ⟨bytes, hbytes, h⟩ := (bind_eq_ok _ _ _).mp h
  obtain ⟨hin, rfl⟩ := rdBytes_eq_ok.mp hbytes
  cases h
  have hlen : (p.comp.map (·.len)).sum =
      ((p.mem.drop 0).take (p.comp.map (·.len)).sum).length := by
    rw [List.length_take, List.length_drop]
    unfold InBuf at hin
    omega
  refine ⟨Nat.lt_of_not_le hcnt, rfl, _, ?_, bytes_laidOut_concat hlen⟩
  rw [List.length_map, length_laidOut, List.length_map, Prefix.compcnt]

theorem prefixAddChunkNum_eq_ok (h : prefixAddChunkNum p k = .ok q) :
    k < 0xff ∧ p.compcnt < maxNameComp ∧ q.suite = p.suite ∧ q.chunknum = some k.toNat ∧
      ∃ cmp vs, chunkCmp p.suite (UInt8.ofNat k.toNat) = some cmp ∧ vs.length = p.compcnt ∧
        q.comps = vs ++ [cmp] := by
  unfold prefixAddChunkNum at h
  by_cases hk : 0xff ≤ k
  · rw [if_pos hk] at h
    simp at h
  rw [if_neg hk] at h
  cases hcmp : chunkCmp p.suite (UInt8.ofNat k.toNat) with
  | none =>
    rw [hcmp] at h
    simp at h
  | some cmp =>
    rw [hcmp] at h
    obtain ⟨p', hp', h⟩ := (bind_eq_ok _ _ _).mp h
    cases h
    obtain ⟨hcnt, hsuite, vs, hvs, hcomps⟩ := prefixAppendCmp_last hp'
    exact ⟨UInt32.not_le.mp hk, hcnt, hsuite, rfl, cmp, vs, rfl, hvs, hcomps⟩

end Edit

end Ccnl
