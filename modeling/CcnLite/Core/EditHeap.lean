import CcnLite.Core.Edit
import CcnLite.Lib.Heap

/-!
# Names that grow, where memory can run out (`ccnl-prefix.c`)

`ccnl_prefix_appendCmp`, `ccnl_prefix_addChunkNum` and `ccnl_prefix_dup` with the blocks that a name
owns. Any allocation may fail. `Unchanged` says that a name is as it was.

* `appendAtomic_iff`, `addAtomic_iff`, `dupAtomic_iff`: when a function that fails leaves the name
  alone. The count of the components is not put back, the new component is not taken out again, and a
  copy that has no memory for its bytes takes the chunk number of the original with it.
-/

namespace Ccnl.OnHeap

open CRun

/-! ## Memory -/

/-- A pointer to bytes. -/
structure Ptr where
  block : Nat
  off : Nat
  deriving DecidableEq, Repr

/-- A block. The elements of an array have no value until they are written. -/
inductive Block where
  | bytes (l : List UInt8)
  | comp (l : List (Option Ptr))
  | complen (l : List (Option Nat))
  | chunknum (n : Option UInt32)
  | pfx
  deriving DecidableEq, Repr

/-- `struct ccnl_prefix_s`, with the addresses of its arrays. -/
structure Name where
  comp : Option Nat
  complen : Option Nat
  compcnt : Nat
  suite : Suite
  bytes : Option Nat
  chunknum : Option Nat
  deriving DecidableEq, Repr

/-- The first `n` elements of an array. -/
def firstN {α : Type} : List (Option α) → Nat → Run (List α)
  | _, 0 => .ok []
  | [], _ + 1 => .error (.oob 0)
  | none :: _, _ + 1 => .error .uninit
  | some a :: l, n + 1 => do return a :: (← firstN l n)

/-- A block of bytes. -/
def bytesOf (h : Heap Block) (p : Option Nat) : Run (List UInt8) := do
  match ← h.get p with
  | .bytes l => return l
  | _ => throw .dangling

/-- `memcpy` from a pointer: nothing is read where the length is 0. -/
def copyFrom (h : Heap Block) (p : Option Nat) (off n : Nat) : Run (List UInt8) := do
  if n = 0 then return []
  rdBytes (← bytesOf h p) off n

/-- `prefix->complen[i]` for all components. -/
def lens (h : Heap Block) (p : Name) : Run (List Nat) := do
  match ← h.get p.complen with
  | .complen l => firstN l p.compcnt
  | _ => throw .dangling

/-- `prefix->comp[i]` for all components. -/
def ptrs (h : Heap Block) (p : Name) : Run (List Ptr) := do
  match ← h.get p.comp with
  | .comp l => firstN l p.compcnt
  | _ => throw .dangling

/-- The bytes at some pointers. -/
def readAll (h : Heap Block) : List Ptr → List Nat → Run (List (List UInt8))
  | q :: qs, n :: ns => do
    let c ← copyFrom h (some q.block) q.off n
    return c :: (← readAll h qs ns)
  | _, _ => .ok []

/-- The components of a name. -/
def comps (h : Heap Block) (p : Name) : Run (List (List UInt8)) := do
  readAll h (← ptrs h p) (← lens h p)

/-- `*prefix->chunknum`. -/
def chunkOf (h : Heap Block) (a : Option Nat) : Run UInt32 := do
  match ← h.get a with
  | .chunknum (some n) => return n
  | .chunknum none => throw .uninit
  | _ => throw .dangling

/-- Pointers to components that lie one after the other in a block. -/
def pointers (block : Nat) (ns : List Nat) : List (Option Ptr) :=
  (laidOut 0 ns).map fun s => some ⟨block, s.off⟩

/-! ## The functions -/

section Functions

variable (mem : Nat → Bool)

/-- `ccnl_prefix_appendCmp`. Where memory runs out the arrays are put back, and the count is not. -/
def prefixAppendCmp (h : Heap Block) (p : Name) (cmp : List UInt8) :
    Run (Heap Block × Name × Int) := do
  if maxNameComp ≤ p.compcnt then return (h, p, -1)
  let oldcomplen ← lens h p
  let prefixlen := oldcomplen.sum
  let compcnt := p.compcnt + 1
  match h.malloc mem (.comp (.replicate compcnt none)) with
  | (none, h) => return (h, { p with compcnt }, -1)
  | (some comp, h) =>
    match h.malloc mem (.complen (.replicate compcnt none)) with
    | (none, h) =>
      let h ← h.free (some comp)
      return (h, { p with compcnt }, -1)
    | (some complen, h) =>
      match h.malloc mem (.bytes (.replicate (prefixlen + cmp.length) 0)) with
      | (none, h) =>
        let h ← h.free (some comp)
        let h ← h.free (some complen)
        return (h, { p with compcnt }, -1)
      | (some bytes, h) =>
        let old ← copyFrom h p.bytes 0 prefixlen
        let h ← h.set (some bytes) (.bytes (old ++ cmp))
        let h ← h.set (some comp) (.comp (pointers bytes (oldcomplen ++ [cmp.length])))
        let h ← h.set (some complen) (.complen ((oldcomplen ++ [cmp.length]).map some))
        let h ← h.free p.comp
        let h ← h.free p.complen
        let h ← h.free p.bytes
        return (h, { p with comp := comp, complen := complen, compcnt, bytes := bytes }, 0)

/-- `ccnl_prefix_addChunkNum`. -/
def prefixAddChunkNum (h : Heap Block) (p : Name) (chunknum : UInt32) :
    Run (Heap Block × Name × Int) := do
  if 0xff ≤ chunknum then return (h, p, -1)
  match chunkCmp p.suite (UInt8.ofNat chunknum.toNat) with
  | none => return (h, p, -1)
  | some cmp =>
    let oldchunknum := p.chunknum
    let (h, p, r) ← prefixAppendCmp mem h p cmp
    if r < 0 then return (h, p, -1)
    match h.malloc mem (.chunknum none) with
    | (none, h) => return (h, p, -1)
    | (some num, h) =>
      let h ← h.set (some num) (.chunknum (some chunknum))
      let h ← h.free oldchunknum
      return (h, { p with chunknum := num }, 0)

/-- `ccnl_prefix_free`, of the structure at `a`. -/
def prefixFree (h : Heap Block) (a : Option Nat) (p : Name) : Run (Heap Block) := do
  let h ← h.free p.bytes
  let h ← h.free p.comp
  let h ← h.free p.complen
  let h ← h.free p.chunknum
  h.free a

/-- `ccnl_prefix_new`: the address of the structure, and the structure. -/
def prefixNew (h : Heap Block) (suite : Suite) (cnt : Nat) : Run (Heap Block × Option (Nat × Name)) := do
  match h.malloc mem .pfx with
  | (none, h) => return (h, none)
  | (some a, h) =>
    let (comp, h) := h.malloc mem (.comp (.replicate cnt none))
    let (complen, h) := h.malloc mem (.complen (.replicate cnt none))
    let p : Name := { comp, complen, compcnt := cnt, suite, bytes := none, chunknum := none }
    if comp.isNone || complen.isNone then
      let h ← prefixFree h (some a) p
      return (h, none)
    return (h, some (a, p))

/-- `ccnl_prefix_dup`. -/
def prefixDup (h : Heap Block) (p : Name) : Run (Heap Block × Option (Nat × Name)) := do
  match ← prefixNew mem h p.suite p.compcnt with
  | (h, none) => return (h, none)
  | (h, some (a, q)) =>
    let q := { q with chunknum := p.chunknum }
    let complen ← lens h p
    match h.malloc mem (.bytes (.replicate complen.sum 0)) with
    | (none, h) =>
      let h ← prefixFree h (some a) q
      return (h, none)
    | (some bytes, h) =>
      let cs ← comps h p
      let h ← h.set (some bytes) (.bytes cs.flatten)
      let h ← h.set q.comp (.comp (pointers bytes complen))
      let h ← h.set q.complen (.complen (complen.map some))
      let q := { q with bytes := bytes }
      if p.chunknum.isNone then return (h, some (a, q))
      let (chunknum, h) := h.malloc mem (.chunknum none)
      let n ← chunkOf h p.chunknum
      let h ← h.set chunknum (.chunknum (some n))
      return (h, some (a, { q with chunknum }))

end Functions

/-! ## What is said of them -/

/-- A name that can be read, and whose blocks are there. -/
structure Valid (h : Heap Block) (p : Name) : Prop where
  comps : ∃ cs, comps h p = .ok cs
  bytes : ∀ a ∈ p.bytes, ∃ l, h.blocks a = some (.bytes l)
  chunknum : ∀ a ∈ p.chunknum, ∃ n, h.blocks a = some (.chunknum (some n))

/-- The blocks that a name owns. -/
def Name.owned (p : Name) : List Nat := [p.comp, p.complen, p.bytes, p.chunknum].filterMap id

/-- The name is as it was, and so are its blocks and its components. -/
structure Unchanged (h : Heap Block) (p : Name) (h' : Heap Block) (p' : Name) : Prop where
  name : p' = p
  owned : ∀ a ∈ p.owned, h'.blocks a = h.blocks a
  comps : comps h' p' = comps h p

variable (mem : Nat → Bool) (h : Heap Block) (p : Name)

def AppendAtomic (cmp : List UInt8) : Prop :=
  ∃ h' p' r, prefixAppendCmp mem h p cmp = .ok (h', p', r) ∧ (r < 0 → Unchanged h p h' p') ∧
    (0 ≤ r → ∃ cs, comps h p = .ok cs ∧ comps h' p' = .ok (cs ++ [cmp]))

def AddAtomic (chunknum : UInt32) : Prop :=
  ∃ h' p' r, prefixAddChunkNum mem h p chunknum = .ok (h', p', r) ∧ (r < 0 → Unchanged h p h' p')

def DupAtomic : Prop := ∃ h' r, prefixDup mem h p = .ok (h', r) ∧ (r = none → Unchanged h p h' p)

/-! ## Reading -/

section Read

variable {mem : Nat → Bool} {h h' : Heap Block} {p : Name} {a off n : Nat} {l : List UInt8}

theorem firstN_length {α : Type} {l : List (Option α)} {n : Nat} {as : List α}
    (h : firstN l n = .ok as) : as.length = n := by
  induction n generalizing l as with
  | zero =>
    cases l <;> cases h <;> rfl
  | succ n ih =>
    match l with
    | [] => cases h
    | none :: l => cases h
    | some a :: l =>
      rw [firstN] at h
      obtain ⟨as', has, h⟩ := (bind_eq_ok _ _ _).mp h
      cases h
      rw [List.length_cons, ih has]

/-- An array whose elements have been written. -/
theorem firstN_map_some {α : Type} (as : List α) : firstN (as.map some) as.length = .ok as := by
  induction as with
  | nil => rfl
  | cons a as ih =>
    rw [List.map_cons, List.length_cons, firstN, ih]
    rfl

theorem bytesOf_eq_ok {q : Option Nat} : bytesOf h q = .ok l ↔ h.get q = .ok (.bytes l) := by
  unfold bytesOf
  cases h.get q with
  | error e => simp
  | ok b => cases b <;> simp

theorem copyFrom_length {q : Option Nat} (hc : copyFrom h q off n = .ok l) : l.length = n := by
  unfold copyFrom at hc
  split at hc
  · rename_i hn
    cases hc
    exact hn.symm
  · obtain ⟨m, -, hc⟩ := (bind_eq_ok _ _ _).mp hc
    obtain ⟨hin, rfl⟩ := rdBytes_eq_ok.mp hc
    rw [List.length_take, List.length_drop]
    unfold InBuf at hin
    omega

theorem copyFrom_keeps {q : Option Nat} (hk : h.Keeps h') (hc : copyFrom h q off n = .ok l) :
    copyFrom h' q off n = .ok l := by
  unfold copyFrom at hc ⊢
  split at hc
  · rename_i hn
    rwa [if_pos hn]
  · rename_i hn
    obtain ⟨m, hm, hc⟩ := (bind_eq_ok _ _ _).mp hc
    rw [if_neg hn, bytesOf_eq_ok.mpr (hk.get (bytesOf_eq_ok.mp hm)), ok_bind, hc]

theorem readAll_keeps {qs : List Ptr} {ns : List Nat} {cs : List (List UInt8)} (hk : h.Keeps h')
    (hr : readAll h qs ns = .ok cs) : readAll h' qs ns = .ok cs := by
  induction qs generalizing ns cs with
  | nil =>
    cases hr
    rfl
  | cons q qs ih =>
    cases ns with
    | nil =>
      cases hr
      rfl
    | cons n ns =>
      obtain ⟨c, hc, hr⟩ := (bind_eq_ok _ _ _).mp hr
      obtain ⟨cs, hcs, hr⟩ := (bind_eq_ok _ _ _).mp hr
      cases hr
      rw [readAll, copyFrom_keeps hk hc, ok_bind, ih hcs]
      rfl

theorem readAll_lengths {qs : List Ptr} {ns : List Nat} {cs : List (List UInt8)}
    (hl : qs.length = ns.length) (hr : readAll h qs ns = .ok cs) : cs.map List.length = ns := by
  induction qs generalizing ns cs with
  | nil =>
    cases hr
    exact (List.length_eq_zero_iff.mp hl.symm).symm
  | cons q qs ih =>
    cases ns with
    | nil => cases hl
    | cons n ns =>
      obtain ⟨c, hc, hr⟩ := (bind_eq_ok _ _ _).mp hr
      obtain ⟨cs, hcs, hr⟩ := (bind_eq_ok _ _ _).mp hr
      cases hr
      rw [List.map_cons, copyFrom_length hc, ih (Nat.succ.inj hl) hcs]

theorem lens_eq_ok {ns : List Nat} : lens h p = .ok ns ↔
    ∃ l, h.get p.complen = .ok (.complen l) ∧ firstN l p.compcnt = .ok ns := by
  unfold lens
  cases h.get p.complen with
  | error e => simp
  | ok b => cases b <;> simp

theorem ptrs_eq_ok {qs : List Ptr} : ptrs h p = .ok qs ↔
    ∃ l, h.get p.comp = .ok (.comp l) ∧ firstN l p.compcnt = .ok qs := by
  unfold ptrs
  cases h.get p.comp with
  | error e => simp
  | ok b => cases b <;> simp

theorem comps_eq_ok {cs : List (List UInt8)} : comps h p = .ok cs ↔
    ∃ qs, ptrs h p = .ok qs ∧ ∃ ns, lens h p = .ok ns ∧ readAll h qs ns = .ok cs := by
  unfold comps
  simp only [bind_eq_ok]

/-- What is added to the heap does not touch a name. -/
theorem comps_keeps {cs : List (List UInt8)} (hk : h.Keeps h') (hc : comps h p = .ok cs) :
    comps h' p = .ok cs := by
  obtain ⟨qs, hq, ns, hn, hr⟩ := comps_eq_ok.mp hc
  obtain ⟨l, hl, hq⟩ := ptrs_eq_ok.mp hq
  obtain ⟨m, hm, hn⟩ := lens_eq_ok.mp hn
  exact comps_eq_ok.mpr ⟨qs, ptrs_eq_ok.mpr ⟨l, hk.get hl, hq⟩, ns, lens_eq_ok.mpr ⟨m, hk.get hm, hn⟩,
    readAll_keeps hk hr⟩

/-- The lengths of a name are those of its components. -/
theorem Valid.lens (hv : Valid h p) : ∃ cs, OnHeap.comps h p = .ok cs ∧
    lens h p = .ok (cs.map List.length) ∧ cs.length = p.compcnt := by
  obtain ⟨cs, hcs⟩ := hv.comps
  obtain ⟨qs, hq, ns, hn, hr⟩ := comps_eq_ok.mp hcs
  obtain ⟨l, hl, hq⟩ := ptrs_eq_ok.mp hq
  obtain ⟨m, hm, hf⟩ := lens_eq_ok.mp hn
  have hlen := readAll_lengths ((firstN_length hq).trans (firstN_length hf).symm) hr
  refine ⟨cs, hcs, hlen ▸ hn, ?_⟩
  rw [← firstN_length hf, ← hlen, List.length_map]

theorem mem_owned : a ∈ p.owned ↔
    p.comp = some a ∨ p.complen = some a ∨ p.bytes = some a ∨ p.chunknum = some a := by
  simp [Name.owned, eq_comm]

/-- The arrays of a name. -/
theorem Valid.arrays (hv : Valid h p) : (∃ a l, p.comp = some a ∧ h.blocks a = some (.comp l)) ∧
    ∃ a l, p.complen = some a ∧ h.blocks a = some (.complen l) := by
  obtain ⟨cs, hcs⟩ := hv.comps
  obtain ⟨qs, hq, ns, hn, -⟩ := comps_eq_ok.mp hcs
  obtain ⟨l, hl, -⟩ := ptrs_eq_ok.mp hq
  obtain ⟨m, hm, -⟩ := lens_eq_ok.mp hn
  obtain ⟨c, hc, hl⟩ := Heap.get_eq_ok.mp hl
  obtain ⟨d, hd, hm⟩ := Heap.get_eq_ok.mp hm
  exact ⟨⟨c, l, hc, hl⟩, d, m, hd, hm⟩

theorem Valid.owned (hv : Valid h p) (ha : a ∈ p.owned) : ∃ b, h.blocks a = some b := by
  obtain ⟨⟨c, l, hc, hl⟩, d, m, hd, hm⟩ := hv.arrays
  rcases mem_owned.mp ha with ha | ha | ha | ha
  · exact ⟨_, Option.some.inj (hc.symm.trans ha) ▸ hl⟩
  · exact ⟨_, Option.some.inj (hd.symm.trans ha) ▸ hm⟩
  · obtain ⟨l, hl⟩ := hv.bytes a ha
    exact ⟨_, hl⟩
  · obtain ⟨n, hn⟩ := hv.chunknum a ha
    exact ⟨_, hn⟩

/-- The bytes of a name are read as before. -/
theorem copyFrom_bytes (hv : Valid h p) (hk : h.Keeps h') :
    copyFrom h' p.bytes off n = copyFrom h p.bytes off n := by
  cases hp : p.bytes with
  | none => rfl
  | some a =>
    obtain ⟨l, hl⟩ := hv.bytes a hp
    have hget : h'.get (some a) = h.get (some a) := by
      rw [Heap.get_eq hl, Heap.get_eq (hk a _ hl)]
    unfold copyFrom bytesOf
    rw [hget]

/-- What is added to the heap leaves a name as it is. -/
theorem Unchanged.of_keeps (hv : Valid h p) (hk : h.Keeps h') : Unchanged h p h' p where
  name := rfl
  owned a ha := by
    obtain ⟨b, hb⟩ := hv.owned ha
    rw [hb, hk a b hb]
  comps := by
    obtain ⟨cs, hcs⟩ := hv.comps
    rw [hcs, comps_keeps hk hcs]

/-- A name with another count is not the same. -/
theorem not_unchanged_count {q : Name} (hq : q.compcnt ≠ p.compcnt) : ¬ Unchanged h p h' q :=
  fun hu => hq (congrArg Name.compcnt hu.name)

end Read

/-! ## Components that lie one after the other -/

section Laid

variable {h : Heap Block} {p : Name} {a b c : Nat} {m : List UInt8} {ns : List Nat}

theorem readAll_laidOut {o : Nat} (hm : h.blocks c = some (.bytes m)) (hle : o + ns.sum ≤ m.length) :
    readAll h ((laidOut o ns).map fun s => ⟨c, s.off⟩) ns = .ok ((laidOut o ns).map (·.bytes m)) := by
  induction ns generalizing o with
  | nil => rfl
  | cons n ns ih =>
    rw [List.sum_cons] at hle
    have hcopy : copyFrom h (some c) o n = .ok ((m.drop o).take n) := by
      unfold copyFrom
      split
      · rename_i hn
        rw [hn, List.take_zero]
        rfl
      · rw [bytesOf_eq_ok.mpr (Heap.get_eq hm), ok_bind, rdBytes_eq_ok]
        exact ⟨.inr (by omega), rfl⟩
    rw [laidOut, List.map_cons, readAll, hcopy, ok_bind, ih (by omega)]
    rfl

/-- The components of a name whose arrays have been filled in this way. -/
theorem comps_laidOut (hcomp : p.comp = some a) (hcomplen : p.complen = some b)
    (ha : h.blocks a = some (.comp (pointers c ns))) (hb : h.blocks b = some (.complen (ns.map some)))
    (hc : h.blocks c = some (.bytes m)) (hcnt : p.compcnt = ns.length) (hle : ns.sum ≤ m.length) :
    comps h p = .ok ((laidOut 0 ns).map (·.bytes m)) := by
  have hptrs : ptrs h p = .ok ((laidOut 0 ns).map fun s => ⟨c, s.off⟩) := by
    refine ptrs_eq_ok.mpr ⟨_, hcomp ▸ Heap.get_eq ha, ?_⟩
    have hfirst := firstN_map_some ((laidOut 0 ns).map fun s => (⟨c, s.off⟩ : Ptr))
    rwa [List.length_map, length_laidOut, ← hcnt, List.map_map] at hfirst
  have hlens : lens h p = .ok ns :=
    lens_eq_ok.mpr ⟨_, hcomplen ▸ Heap.get_eq hb, hcnt ▸ firstN_map_some ns⟩
  exact comps_eq_ok.mpr ⟨_, hptrs, ns, hlens, readAll_laidOut hc (by omega)⟩

/-- A component behind the others. -/
theorem laidOut_concat_iff {cs : List (List UInt8)} {old cmp : List UInt8}
    (hlen : old.length = (cs.map List.length).sum) :
    (laidOut 0 (cs.map List.length ++ [cmp.length])).map (·.bytes (old ++ cmp)) = cs ++ [cmp] ↔
      old = cs.flatten := by
  rw [bytes_laidOut_concat hlen.symm, List.append_left_inj]
  constructor
  · intro hcs
    have hflat := flatten_laidOut (old ++ cmp) 0 (cs.map List.length)
    rw [hcs, List.drop_zero, ← hlen, List.take_left] at hflat
    exact hflat.symm
  · rintro rfl
    refine bytes_laidOut ?_
    unfold At
    exact List.prefix_append _ _

end Laid

/-! ## `ccnl_prefix_appendCmp` -/

section Append

variable {mem : Nat → Bool} {h h' : Heap Block} {p : Name} {cmp : List UInt8}

theorem prefixAppendCmp_full (hf : maxNameComp ≤ p.compcnt) :
    prefixAppendCmp mem h p cmp = .ok (h, p, -1) := by
  unfold prefixAppendCmp
  rw [if_pos hf]
  rfl

/-- Where one of the three allocations fails, the count stays. -/
theorem prefixAppendCmp_fails (hv : Valid h p) (hlt : p.compcnt < maxNameComp)
    (hm : ¬ (mem h.calls = true ∧ mem (h.calls + 1) = true ∧ mem (h.calls + 2) = true)) :
    ∃ h', prefixAppendCmp mem h p cmp = .ok (h', { p with compcnt := p.compcnt + 1 }, -1) := by
  obtain ⟨cs, -, hlens, -⟩ := hv.lens
  unfold prefixAppendCmp
  rw [if_neg (Nat.not_le.mpr hlt), hlens, ok_bind]
  dsimp only
  cases h₁ : mem h.calls with
  | false =>
    rw [Heap.malloc_none h₁]
    exact ⟨_, rfl⟩
  | true =>
    rw [Heap.malloc_some h₁]
    dsimp only
    obtain ⟨b₁, hb₁⟩ : ∃ b, b = Block.comp (.replicate (p.compcnt + 1) none) := ⟨_, rfl⟩
    rw [← hb₁]
    cases h₂ : mem (h.calls + 1) with
    | false =>
      rw [@Heap.malloc_none _ (h.add b₁) _ _ h₂]
      dsimp only
      rw [@Heap.free_eq _ _ _ b₁ (by rw [Heap.blocks_failed, Heap.blocks_add, if_pos rfl])]
      exact ⟨_, rfl⟩
    | true =>
      rw [@Heap.malloc_some _ (h.add b₁) _ _ h₂]
      dsimp only
      obtain ⟨b₂, hb₂⟩ : ∃ b, b = Block.complen (.replicate (p.compcnt + 1) none) := ⟨_, rfl⟩
      rw [← hb₂]
      have h₃ : mem (h.calls + 2) = false := by
        rw [Bool.eq_false_iff]
        exact fun h₃ => hm ⟨h₁, h₂, h₃⟩
      rw [@Heap.malloc_none _ ((h.add b₁).add b₂) _ _ h₃]
      dsimp only
      have hcomp : ((h.add b₁).add b₂).failed.blocks h.next = some b₁ := by
        rw [Heap.blocks_failed, Heap.blocks_add, Heap.next_add, if_neg (by omega), Heap.blocks_add,
          if_pos rfl]
      have hcomplen : (((h.add b₁).add b₂).failed.drop h.next).blocks (h.add b₁).next = some b₂ := by
        rw [Heap.blocks_drop, Heap.next_add, if_neg (by omega), Heap.blocks_failed, Heap.blocks_add,
          Heap.next_add, if_pos rfl]
      rw [Heap.free_eq hcomp, ok_bind, Heap.free_eq hcomplen]
      exact ⟨_, rfl⟩

/-- The name with its new arrays. -/
def Name.grown (h : Heap Block) (p : Name) : Name :=
  { p with comp := some h.next, complen := some (h.next + 1), compcnt := p.compcnt + 1, bytes := some (h.next + 2) }

/-- The arrays of a name, freed one after the other. -/
theorem free_arrays {k : Heap Block} (hv : Valid h p) (hk : h.Keeps k) :
    ∃ k₁ k₂ k₃, k.free p.comp = .ok k₁ ∧ k₁.free p.complen = .ok k₂ ∧ k₂.free p.bytes = .ok k₃ ∧
      k₃.calls = k.calls ∧
      ∀ x, p.comp ≠ some x → p.complen ≠ some x → p.bytes ≠ some x → k₃.blocks x = k.blocks x := by
  obtain ⟨⟨a, l, ha, hal⟩, b, m, hb, hbm⟩ := hv.arrays
  have hne : a ≠ b := fun heq => by
    rw [heq, hbm] at hal
    cases hal
  obtain ⟨k₁, hk₁, hc₁, -, hb₁⟩ := Heap.free_ok (h := k) (p := p.comp) fun x hx => by
    obtain rfl := Option.some.inj (ha.symm.trans hx)
    exact ⟨_, hk _ _ hal⟩
  obtain ⟨k₂, hk₂, hc₂, -, hb₂⟩ := Heap.free_ok (h := k₁) (p := p.complen) fun x hx => by
    obtain rfl := Option.some.inj (hb.symm.trans hx)
    refine ⟨.complen m, ?_⟩
    rw [hb₁, ha, if_neg (by simpa using hne), hk _ _ hbm]
  obtain ⟨k₃, hk₃, hc₃, -, hb₃⟩ := Heap.free_ok (h := k₂) (p := p.bytes) fun x hx => by
    obtain ⟨d, hd⟩ := hv.bytes x hx
    refine ⟨.bytes d, ?_⟩
    rw [hb₂, hb, if_neg, hb₁, ha, if_neg, hk _ _ hd]
    · rintro ⟨⟩
      cases hal.symm.trans hd
    · rintro ⟨⟩
      cases hbm.symm.trans hd
  refine ⟨k₁, k₂, k₃, hk₁, hk₂, hk₃, by omega, fun x hcomp hcomplen hbytes => ?_⟩
  rw [hb₃, if_neg hbytes, hb₂, if_neg hcomplen, hb₁, if_neg hcomp]

/-- Where the allocations succeed, the old bytes are copied as one block. -/
theorem prefixAppendCmp_copies (hv : Valid h p) (hlt : p.compcnt < maxNameComp)
    (h₁ : mem h.calls = true) (h₂ : mem (h.calls + 1) = true) (h₃ : mem (h.calls + 2) = true)
    {ns : List Nat} (hns : lens h p = .ok ns) :
    (∃ e, copyFrom h p.bytes 0 ns.sum = .error e ∧ prefixAppendCmp mem h p cmp = .error e) ∨
    ∃ old h', copyFrom h p.bytes 0 ns.sum = .ok old ∧
      prefixAppendCmp mem h p cmp = .ok (h', p.grown h, 0) ∧ h'.calls = h.calls + 3 ∧
      h'.blocks h.next = some (.comp (pointers (h.next + 2) (ns ++ [cmp.length]))) ∧
      h'.blocks (h.next + 1) = some (.complen ((ns ++ [cmp.length]).map some)) ∧
      h'.blocks (h.next + 2) = some (.bytes (old ++ cmp)) ∧
      ∀ a ∈ p.chunknum, h'.blocks a = h.blocks a := by
  obtain ⟨⟨a, l, ha, hal⟩, b, m, hb, hbm⟩ := hv.arrays
  have hlta := Heap.lt_next hal
  have hltb := Heap.lt_next hbm
  unfold prefixAppendCmp
  rw [if_neg (Nat.not_le.mpr hlt), hns, ok_bind]
  dsimp only
  obtain ⟨k₁, hk₁, hc₁, hn₁, hb₁⟩ := Heap.malloc_ok h₁ (.comp (.replicate (p.compcnt + 1) none))
  rw [hk₁]
  dsimp only
  obtain ⟨k₂, hk₂, hc₂, hn₂, hb₂⟩ := Heap.malloc_ok (hc₁ ▸ h₂) (.complen (.replicate (p.compcnt + 1) none))
  rw [hk₂]
  dsimp only
  have hcalls : k₂.calls = h.calls + 2 := by omega
  obtain ⟨k₃, hk₃, hc₃, hn₃, hb₃⟩ := Heap.malloc_ok (hcalls ▸ h₃) (.bytes (.replicate (ns.sum + cmp.length) 0))
  rw [hk₃]
  dsimp only
  have hkeeps : h.Keeps k₃ := by
    intro x c hx
    have hltx := Heap.lt_next hx
    rw [hb₃, if_neg (by omega), hb₂, if_neg (by omega), hb₁, if_neg (by omega), hx]
  rw [copyFrom_bytes hv hkeeps]
  cases hold : copyFrom h p.bytes 0 ns.sum with
  | error e => exact .inl ⟨e, rfl, rfl⟩
  | ok old =>
    have hnext : k₂.next = h.next + 2 := by omega
    rw [hnext] at hb₃ ⊢
    rw [hn₁] at hb₂ ⊢
    -- what is in the heap after the three sets
    obtain ⟨k₄, hk₄, hc₄, hn₄, hb₄⟩ := Heap.set_ok (h := k₃) (a := h.next + 2)
      (by rw [hb₃, if_pos rfl]) (.bytes (old ++ cmp))
    obtain ⟨k₅, hk₅, hc₅, hn₅, hb₅⟩ := Heap.set_ok (h := k₄) (a := h.next)
      (by rw [hb₄, if_neg (by omega), hb₃, if_neg (by omega), hb₂, if_neg (by omega), hb₁, if_pos rfl])
      (.comp (pointers (h.next + 2) (ns ++ [cmp.length])))
    obtain ⟨k₆, hk₆, hc₆, hn₆, hb₆⟩ := Heap.set_ok (h := k₅) (a := h.next + 1)
      (by rw [hb₅, if_neg (by omega), hb₄, if_neg (by omega), hb₃, if_neg (by omega), hb₂, if_pos rfl])
      (.complen ((ns ++ [cmp.length]).map some))
    have hold₆ : h.Keeps k₆ := fun x c hx => by
      have hltx := Heap.lt_next hx
      rw [hb₆, if_neg (by omega), hb₅, if_neg (by omega), hb₄, if_neg (by omega), hkeeps x c hx]
    obtain ⟨k₇, k₈, k₉, hk₇, hk₈, hk₉, hc₉, hrest⟩ := free_arrays hv hold₆
    refine .inr ⟨old, k₉, rfl, ?_, by omega, ?_⟩
    · rw [ok_bind, hk₄, ok_bind, hk₅, ok_bind, hk₆, ok_bind, hk₇, ok_bind, hk₈, ok_bind, hk₉]
      rfl
    have hnew : ∀ x, h.next ≤ x → k₉.blocks x = k₆.blocks x := fun x hx =>
      hrest x (fun hp => by
        have := Option.some.inj (ha.symm.trans hp)
        omega) (fun hp => by
        have := Option.some.inj (hb.symm.trans hp)
        omega) fun hp => by
        obtain ⟨d, hd⟩ := hv.bytes x hp
        have := Heap.lt_next hd
        omega
    refine ⟨?_, ?_, ?_, fun x hx => ?_⟩
    · rw [hnew _ (Nat.le_refl _), hb₆, if_neg (by omega), hb₅, if_pos rfl]
    · rw [hnew _ (by omega), hb₆, if_pos rfl]
    · rw [hnew _ (by omega), hb₆, if_neg (by omega), hb₅, if_neg (by omega), hb₄, if_pos rfl]
    · obtain ⟨n, hn⟩ := hv.chunknum x hx
      rw [hn, hrest x, hold₆ _ _ hn]
      · rintro hp
        obtain rfl := Option.some.inj (ha.symm.trans hp)
        cases hal.symm.trans hn
      · rintro hp
        obtain rfl := Option.some.inj (hb.symm.trans hp)
        cases hbm.symm.trans hn
      · rintro hp
        obtain ⟨d, hd⟩ := hv.bytes x hp
        cases hd.symm.trans hn

/-- The bytes of the name are its components, one after the other. -/
def Contiguous (h : Heap Block) (p : Name) : Prop :=
  ∃ cs, comps h p = .ok cs ∧ copyFrom h p.bytes 0 cs.flatten.length = .ok cs.flatten

/-- A call that leaves the name alone or adds the component: the name is full, or there is memory for
all three arrays and the bytes are in order. -/
theorem appendAtomic_iff (hv : Valid h p) : AppendAtomic mem h p cmp ↔ maxNameComp ≤ p.compcnt ∨
    (mem h.calls = true ∧ mem (h.calls + 1) = true ∧ mem (h.calls + 2) = true) ∧ Contiguous h p := by
  obtain ⟨cs, hcs, hlens, hcnt⟩ := hv.lens
  by_cases hfull : maxNameComp ≤ p.compcnt
  · refine iff_of_true ⟨h, p, -1, prefixAppendCmp_full hfull, fun _ => .of_keeps hv (.refl h), fun h0 => ?_⟩
      (.inl hfull)
    exact absurd h0 (by decide)
  simp only [hfull, false_or]
  have hlt := Nat.lt_of_not_le hfull
  by_cases hm : mem h.calls = true ∧ mem (h.calls + 1) = true ∧ mem (h.calls + 2) = true
  · simp only [hm, and_self, true_and]
    have hsum : (cs.map List.length).sum = cs.flatten.length := List.length_flatten.symm
    rcases @prefixAppendCmp_copies mem h p cmp hv hlt hm.1 hm.2.1 hm.2.2 _ hlens with
      ⟨e, he, happ⟩ | ⟨old, h', hold, happ, -, ha, hb, hc, -⟩
    · refine iff_of_false ?_ ?_
      · rintro ⟨h', p', r, hr, -⟩
        cases happ.symm.trans hr
      · rintro ⟨cs', hcs', hcopy⟩
        cases hcs.symm.trans hcs'
        rw [← hsum, he] at hcopy
        cases hcopy
    · have hlen := copyFrom_length hold
      have hcomps : comps h' (p.grown h) =
          .ok ((laidOut 0 (cs.map List.length ++ [cmp.length])).map (·.bytes (old ++ cmp))) := by
        refine comps_laidOut rfl rfl ha hb hc ?_ ?_
        · show p.compcnt + 1 = _
          rw [List.length_append, List.length_map, hcnt]
          rfl
        · rw [List.sum_append, List.length_append, hlen]
          exact Nat.le_refl _
      have hiff := @laidOut_concat_iff cs old cmp hlen
      constructor
      · rintro ⟨k, q, r, hr, -, hgrow⟩
        cases happ.symm.trans hr
        obtain ⟨cs', hcs', hgrow⟩ := hgrow (Int.le_refl 0)
        cases hcs.symm.trans hcs'
        obtain rfl := hiff.mp (Except.ok.inj (hcomps.symm.trans hgrow))
        exact ⟨cs, hcs, hsum ▸ hold⟩
      · rintro ⟨cs', hcs', hcopy⟩
        cases hcs.symm.trans hcs'
        rw [← hsum, hold] at hcopy
        refine ⟨h', p.grown h, 0, happ, fun h0 => absurd h0 (by decide), fun _ => ⟨cs, hcs, ?_⟩⟩
        rw [hcomps, hiff.mpr (Except.ok.inj hcopy)]
  · refine iff_of_false ?_ fun h => hm h.1
    obtain ⟨h', happ⟩ := @prefixAppendCmp_fails mem h p cmp hv hlt hm
    rintro ⟨k, q, r, hr, hsame, -⟩
    cases happ.symm.trans hr
    exact not_unchanged_count (Nat.succ_ne_self _) (hsame (by decide))

/-- The bytes of the name can be copied. -/
def Readable (h : Heap Block) (p : Name) : Prop :=
  ∃ cs l, comps h p = .ok cs ∧ copyFrom h p.bytes 0 cs.flatten.length = .ok l

theorem chunkCmp_eq_none {suite : Suite} {k : UInt8} :
    chunkCmp suite k = none ↔ suite ≠ .ndntlv ∧ suite ≠ .ccntlv := by
  cases suite <;> simp [chunkCmp]

/-- A call that fails and leaves the name alone, or does not fail: the number is too large, the suite
has no chunk numbers, the name is full, or there is memory for all three arrays and the number. -/
theorem addAtomic_iff {k : UInt32} (hv : Valid h p) : AddAtomic mem h p k ↔
    0xff ≤ k ∨ (p.suite ≠ .ndntlv ∧ p.suite ≠ .ccntlv) ∨ maxNameComp ≤ p.compcnt ∨
    (mem h.calls = true ∧ mem (h.calls + 1) = true ∧ mem (h.calls + 2) = true ∧
      mem (h.calls + 3) = true) ∧ Readable h p := by
  unfold AddAtomic prefixAddChunkNum
  by_cases hk : 0xff ≤ k
  · rw [if_pos hk]
    exact iff_of_true ⟨h, p, -1, rfl, fun _ => .of_keeps hv (.refl h)⟩ (.inl hk)
  rw [if_neg hk]
  simp only [hk, false_or]
  cases hcmp : chunkCmp p.suite (UInt8.ofNat k.toNat) with
  | none =>
    exact iff_of_true ⟨h, p, -1, rfl, fun _ => .of_keeps hv (.refl h)⟩ (.inl (chunkCmp_eq_none.mp hcmp))
  | some cmp =>
    have hsuite : ¬ (p.suite ≠ .ndntlv ∧ p.suite ≠ .ccntlv) := fun hs => by
      rw [chunkCmp_eq_none.mpr hs] at hcmp
      cases hcmp
    simp only [hsuite, false_or]
    by_cases hfull : maxNameComp ≤ p.compcnt
    · rw [prefixAppendCmp_full hfull]
      exact iff_of_true ⟨h, p, -1, rfl, fun _ => .of_keeps hv (.refl h)⟩ (.inl hfull)
    simp only [hfull, false_or]
    have hlt := Nat.lt_of_not_le hfull
    by_cases hm : mem h.calls = true ∧ mem (h.calls + 1) = true ∧ mem (h.calls + 2) = true
    · obtain ⟨cs, hcs, hlens, -⟩ := hv.lens
      have hsum : (cs.map List.length).sum = cs.flatten.length := List.length_flatten.symm
      rcases @prefixAppendCmp_copies mem h p cmp hv hlt hm.1 hm.2.1 hm.2.2 _ hlens with
        ⟨e, he, happ⟩ | ⟨old, h', hold, happ, hcalls, -, -, -, hnum⟩
      · rw [happ]
        refine iff_of_false ?_ ?_
        · rintro ⟨_, _, _, hr, -⟩
          cases hr
        · rintro ⟨-, cs', l, hcs', hl⟩
          cases hcs.symm.trans hcs'
          rw [← hsum, he] at hl
          cases hl
      · have hread : Readable h p := ⟨cs, old, hcs, hsum ▸ hold⟩
        simp only [hm.1, hm.2.1, hm.2.2, true_and, hread, and_true]
        rw [happ, ok_bind]
        dsimp only
        rw [if_neg (by decide)]
        cases h₃ : mem (h.calls + 3) with
        | false =>
          rw [@Heap.malloc_none _ h' _ _ (hcalls ▸ h₃)]
          refine iff_of_false ?_ Bool.false_ne_true
          rintro ⟨_, _, _, hr, hsame⟩
          cases hr
          exact not_unchanged_count (Nat.succ_ne_self _) (hsame (by decide))
        | true =>
          obtain ⟨k₁, hk₁, -, -, hb₁⟩ := Heap.malloc_ok (hcalls ▸ h₃) (Block.chunknum none)
          rw [hk₁]
          obtain ⟨k₂, hk₂, -, -, hb₂⟩ := Heap.set_ok (h := k₁) (a := h'.next)
            (by rw [hb₁, if_pos rfl]) (.chunknum (some k))
          obtain ⟨k₃, hk₃, -⟩ := Heap.free_ok (h := k₂) (p := p.chunknum) fun a ha => by
            obtain ⟨n, hn⟩ := hv.chunknum a ha
            have hlive := (hnum a ha).trans hn
            have hlta := Heap.lt_next hlive
            exact ⟨_, by rw [hb₂, if_neg (by omega), hb₁, if_neg (by omega), hlive]⟩
          dsimp only
          rw [hk₂, ok_bind, hk₃, ok_bind]
          exact iff_of_true ⟨_, _, 0, rfl, fun h0 => absurd h0 (by decide)⟩ rfl
    · refine iff_of_false ?_ fun hall => hm ⟨hall.1.1, hall.1.2.1, hall.1.2.2.1⟩
      obtain ⟨h', happ⟩ := @prefixAppendCmp_fails mem h p cmp hv hlt hm
      rw [happ]
      rintro ⟨_, _, _, hr, hsame⟩
      cases hr
      exact not_unchanged_count (Nat.succ_ne_self _) (hsame (by decide))

end Append

/-! ## `ccnl_prefix_dup` -/

section Dup

variable {mem : Nat → Bool} {h k : Heap Block} {p q : Name} {a n : Nat} {suite : Suite}

/-- A name without bytes and chunk number is freed, and nothing that was there before it. -/
theorem prefixFree_new (hk : h.Keeps k) (ha : k.blocks a = some .pfx) (hna : h.blocks a = none)
    (hcomp : ∀ x ∈ q.comp, (∃ l, k.blocks x = some (.comp l)) ∧ h.blocks x = none)
    (hcomplen : ∀ x ∈ q.complen, (∃ l, k.blocks x = some (.complen l)) ∧ h.blocks x = none)
    (hbytes : q.bytes = none) (hnum : q.chunknum = none) :
    ∃ k', prefixFree k (some a) q = .ok k' ∧ h.Keeps k' := by
  obtain ⟨k₁, hk₁, -, -, hb₁⟩ := Heap.free_ok (h := k) (p := q.comp) fun x hx => by
    obtain ⟨⟨l, hl⟩, -⟩ := hcomp x hx
    exact ⟨_, hl⟩
  obtain ⟨k₂, hk₂, -, -, hb₂⟩ := Heap.free_ok (h := k₁) (p := q.complen) fun x hx => by
    obtain ⟨⟨l, hl⟩, -⟩ := hcomplen x hx
    refine ⟨_, (hb₁ x).trans ((if_neg fun hc => ?_).trans hl)⟩
    obtain ⟨⟨l', hl'⟩, -⟩ := hcomp x hc
    cases hl.symm.trans hl'
  obtain ⟨k₃, hk₃, -⟩ := Heap.free_ok (h := k₂) (p := some a) fun x hx => by
    obtain rfl := Option.some.inj hx
    refine ⟨_, (hb₂ a).trans ((if_neg fun hc => ?_).trans ((hb₁ a).trans ((if_neg fun hc => ?_).trans ha)))⟩
    · obtain ⟨⟨l', hl'⟩, -⟩ := hcomplen a hc
      cases ha.symm.trans hl'
    · obtain ⟨⟨l', hl'⟩, -⟩ := hcomp a hc
      cases ha.symm.trans hl'
  refine ⟨k₃, ?_, ?_⟩
  · unfold prefixFree
    rw [hbytes, hnum]
    exact (bind_eq_ok _ _ _).mpr ⟨k, rfl, (bind_eq_ok _ _ _).mpr ⟨k₁, hk₁,
      (bind_eq_ok _ _ _).mpr ⟨k₂, hk₂, (bind_eq_ok _ _ _).mpr ⟨k₂, rfl, hk₃⟩⟩⟩⟩
  · have hkeeps₁ := hk.free (fun x hx => (hcomp x hx).2) hk₁
    have hkeeps₂ := hkeeps₁.free (fun x hx => (hcomplen x hx).2) hk₂
    exact hkeeps₂.free (fun x hx => Option.some.inj hx ▸ hna) hk₃

/-- The chunk number of a name goes with it. -/
theorem prefixFree_chunknum {x : Nat} {b : Option Nat} (hx : q.chunknum = some x)
    (hf : prefixFree k b q = .ok h) : h.blocks x = none := by
  obtain ⟨k₁, -, hf⟩ := (bind_eq_ok _ _ _).mp hf
  obtain ⟨k₂, -, hf⟩ := (bind_eq_ok _ _ _).mp hf
  obtain ⟨k₃, -, hf⟩ := (bind_eq_ok _ _ _).mp hf
  obtain ⟨k₄, h₄, hf⟩ := (bind_eq_ok _ _ _).mp hf
  exact Heap.free_none hf (.inr (Heap.free_none h₄ (.inl hx)))

/-- The name that `ccnl_prefix_new` makes. -/
def newName (h : Heap Block) (suite : Suite) (n : Nat) : Name where
  comp := some (h.next + 1)
  complen := some (h.next + 2)
  compcnt := n
  suite := suite
  bytes := none
  chunknum := none

theorem prefixNew_ok (h₁ : mem h.calls = true) (h₂ : mem (h.calls + 1) = true)
    (h₃ : mem (h.calls + 2) = true) :
    ∃ k, prefixNew mem h suite n = .ok (k, some (h.next, newName h suite n)) ∧
      k.calls = h.calls + 3 ∧ k.next = h.next + 3 ∧ h.Keeps k ∧ k.blocks h.next = some .pfx ∧
      (∃ l, k.blocks (h.next + 1) = some (.comp l)) ∧ ∃ l, k.blocks (h.next + 2) = some (.complen l) := by
  obtain ⟨k₁, hk₁, hc₁, hn₁, hb₁⟩ := Heap.malloc_ok h₁ Block.pfx
  obtain ⟨k₂, hk₂, hc₂, hn₂, hb₂⟩ := Heap.malloc_ok (hc₁ ▸ h₂) (.comp (.replicate n none))
  have hcalls : k₂.calls = h.calls + 2 := by omega
  have hnext : k₂.next = h.next + 2 := by omega
  obtain ⟨k₃, hk₃, hc₃, hn₃, hb₃⟩ := Heap.malloc_ok (hcalls ▸ h₃) (.complen (.replicate n none))
  rw [hnext] at hk₃ hb₃
  rw [hn₁] at hk₂ hb₂
  refine ⟨k₃, ?_, by omega, by omega, fun x c hx => ?_, ?_, ⟨.replicate n none, ?_⟩, .replicate n none, ?_⟩
  · unfold prefixNew
    rw [hk₁]
    dsimp only
    rw [hk₂]
    dsimp only
    rw [hk₃]
    rfl
  · have hlt := Heap.lt_next hx
    rw [hb₃, if_neg (by omega), hb₂, if_neg (by omega), hb₁, if_neg (by omega), hx]
  · rw [hb₃, if_neg (by omega), hb₂, if_neg (by omega), hb₁, if_pos rfl]
  · rw [hb₃, if_neg (by omega), hb₂, if_pos rfl]
  · rw [hb₃, if_pos rfl]

/-- Where there is no memory for a new name, nothing is changed. -/
theorem prefixNew_fails
    (hm : ¬ (mem h.calls = true ∧ mem (h.calls + 1) = true ∧ mem (h.calls + 2) = true)) :
    ∃ k, prefixNew mem h suite n = .ok (k, none) ∧ h.Keeps k := by
  unfold prefixNew
  cases h₁ : mem h.calls with
  | false =>
    rw [Heap.malloc_none h₁]
    exact ⟨_, rfl, (Heap.Keeps.refl h).failed⟩
  | true =>
    obtain ⟨k₁, hk₁, hc₁, hn₁, hb₁⟩ := Heap.malloc_ok h₁ Block.pfx
    obtain ⟨r₂, k₂, hk₂, hc₂, hn₂, hkeeps₂, hr₂, hx₂⟩ := Heap.malloc_cases mem k₁ (.comp (.replicate n none))
    obtain ⟨r₃, k₃, hk₃, hc₃, hn₃, hkeeps₃, hr₃, hx₃⟩ := Heap.malloc_cases mem k₂ (.complen (.replicate n none))
    have hkeeps₁ : h.Keeps k₁ := fun x c hx => by
      have hlt := Heap.lt_next hx
      rw [hb₁, if_neg (by omega), hx]
    have hnone : (r₂.isNone || r₃.isNone) = true := by
      rw [hc₁] at hr₂
      rw [hc₂, hc₁] at hr₃
      rw [Bool.or_eq_true, ← Option.not_isSome, ← Option.not_isSome, hr₂, hr₃]
      by_contra hboth
      simp only [Bool.not_eq_true', not_or, Bool.not_eq_false] at hboth
      exact hm ⟨h₁, hboth⟩
    rw [hk₁]
    dsimp only
    rw [hk₂]
    dsimp only
    rw [hk₃]
    dsimp only
    rw [if_pos hnone]
    obtain ⟨k₄, hk₄, hkeeps₄⟩ := @prefixFree_new h k₃
      { comp := r₂, complen := r₃, compcnt := n, suite := suite, bytes := none, chunknum := none } h.next
      ((hkeeps₁.trans hkeeps₂).trans hkeeps₃)
      (hkeeps₃ _ _ (hkeeps₂ _ _ (by rw [hb₁, if_pos rfl]))) (h.fresh _ (Nat.le_refl _))
      (fun x hx => ⟨⟨_, hkeeps₃ _ _ (hx₂ x hx).2⟩, h.fresh x (by rw [(hx₂ x hx).1]; omega)⟩)
      (fun x hx => ⟨⟨_, (hx₃ x hx).2⟩, h.fresh x (by rw [(hx₃ x hx).1]; omega)⟩) rfl rfl
    rw [hk₄]
    exact ⟨k₄, rfl, hkeeps₄⟩

/-- The arrays of a new name, filled one after the other; the bytes are in a block behind them. -/
theorem fill_arrays {k₁ : Heap Block} {b : Block} (hkeeps : h.Keeps k) (hnext : k.next = h.next + 3)
    {b₁ b₂ : Block} (hcomp : k.blocks (h.next + 1) = some b₁)
    (hcomplen : k.blocks (h.next + 2) = some b₂)
    (hb : ∀ x, k₁.blocks x = if x = k.next then some b else k.blocks x) (bytes comp complen : Block) :
    ∃ k₂ k₃ k₄, k₁.set (some k.next) bytes = .ok k₂ ∧ k₂.set (some (h.next + 1)) comp = .ok k₃ ∧
      k₃.set (some (h.next + 2)) complen = .ok k₄ ∧ k₄.calls = k₁.calls ∧ h.Keeps k₄ := by
  obtain ⟨k₂, hk₂, hc₂, -, hb₂⟩ := Heap.set_ok (h := k₁) (a := k.next)
    (by rw [hb, if_pos rfl]) bytes
  obtain ⟨k₃, hk₃, hc₃, -, hb₃⟩ := Heap.set_ok (h := k₂) (a := h.next + 1)
    (by rwa [hb₂, if_neg (by omega), hb, if_neg (by omega)]) comp
  obtain ⟨k₄, hk₄, hc₄, -, hb₄⟩ := Heap.set_ok (h := k₃) (a := h.next + 2)
    (by rwa [hb₃, if_neg (by omega), hb₂, if_neg (by omega), hb, if_neg (by omega)]) complen
  refine ⟨k₂, k₃, k₄, hk₂, hk₃, hk₄, by omega, fun x c hx => ?_⟩
  have hlt := Heap.lt_next hx
  rw [hb₄, if_neg (by omega), hb₃, if_neg (by omega), hb₂, if_neg (by omega), hb, if_neg (by omega),
    hkeeps x c hx]

/-- A call that fails and leaves the name alone, or does not fail: unless there is memory for a new
name, and none for its bytes or its chunk number although there is one. -/
theorem dupAtomic_iff (hv : Valid h p) : DupAtomic mem h p ↔
    ¬ (mem h.calls = true ∧ mem (h.calls + 1) = true ∧ mem (h.calls + 2) = true ∧ p.chunknum ≠ none ∧
      ¬ (mem (h.calls + 3) = true ∧ mem (h.calls + 4) = true)) := by
  unfold DupAtomic prefixDup
  obtain ⟨cs, hcs, hlens, hcnt⟩ := hv.lens
  by_cases hm : mem h.calls = true ∧ mem (h.calls + 1) = true ∧ mem (h.calls + 2) = true
  · obtain ⟨k, hk, hcalls, hnext, hkeeps, ha, ⟨l, hcomp⟩, m, hcomplen⟩ :=
      @prefixNew_ok mem h p.compcnt p.suite hm.1 hm.2.1 hm.2.2
    have hlens' : lens k p = .ok (cs.map List.length) := by
      obtain ⟨m', hm', hf⟩ := lens_eq_ok.mp hlens
      exact lens_eq_ok.mpr ⟨m', hkeeps.get hm', hf⟩
    rw [hk, ok_bind]
    dsimp only
    rw [hlens', ok_bind]
    simp only [hm.1, hm.2.1, hm.2.2, true_and]
    cases h₃ : mem (h.calls + 3) with
    | false =>
      rw [Heap.malloc_none (hcalls ▸ h₃)]
      dsimp only
      cases hp : p.chunknum with
      | none =>
        obtain ⟨k', hk', hkeeps'⟩ := @prefixFree_new h k.failed (newName h p.suite p.compcnt) h.next
          hkeeps.failed ha (h.fresh _ (Nat.le_refl _))
          (fun x hx => Option.some.inj hx ▸ ⟨⟨l, hcomp⟩, h.fresh _ (by omega)⟩)
          (fun x hx => Option.some.inj hx ▸ ⟨⟨m, hcomplen⟩, h.fresh _ (by omega)⟩) rfl rfl
        refine iff_of_true ⟨k', none, ?_, fun _ => .of_keeps hv hkeeps'⟩ fun hc => hc.1 rfl
        exact (bind_eq_ok _ _ _).mpr ⟨k', hk', rfl⟩
      | some x =>
        refine iff_of_false ?_ fun hc => hc ⟨Option.some_ne_none x, fun h => Bool.false_ne_true h.1⟩
        rintro ⟨k', r, hr, hsame⟩
        obtain ⟨k'', hk'', hr⟩ := (bind_eq_ok _ _ _).mp hr
        cases hr
        obtain ⟨num, hnum⟩ := hv.chunknum x hp
        have hsame := (hsame rfl).owned x (mem_owned.mpr (.inr (.inr (.inr hp))))
        rw [prefixFree_chunknum rfl hk'', hnum] at hsame
        cases hsame
    | true =>
      obtain ⟨k₁, hk₁, hc₁, hn₁, hb₁⟩ :=
        Heap.malloc_ok (hcalls ▸ h₃) (.bytes (.replicate (cs.map List.length).sum 0))
      have hold : h.Keeps k₁ := fun x c hx => by
        have hlt := Heap.lt_next (hkeeps x c hx)
        rw [hb₁, if_neg (by omega), hkeeps x c hx]
      obtain ⟨k₂, k₃, k₄, hk₂, hk₃, hk₄, hc₄, hold₄⟩ :=
        fill_arrays hkeeps hnext hcomp hcomplen hb₁ (.bytes cs.flatten)
          (.comp (pointers k.next (cs.map List.length))) (.complen ((cs.map List.length).map some))
      rw [hk₁]
      dsimp only
      rw [comps_keeps hold hcs, ok_bind, hk₂, ok_bind]
      show (∃ h' r, (k₂.set (some (h.next + 1)) _ >>= _) = _ ∧ _) ↔ _
      rw [hk₃, ok_bind]
      show (∃ h' r, (k₃.set (some (h.next + 2)) _ >>= _) = _ ∧ _) ↔ _
      rw [hk₄, ok_bind]
      have hcalls₄ : k₄.calls = h.calls + 4 := by omega
      cases hp : p.chunknum with
      | none => exact iff_of_true ⟨_, some _, rfl, fun h => by cases h⟩ fun hc => hc.1 rfl
      | some x =>
        obtain ⟨num, hnum⟩ := hv.chunknum x hp
        have hx₄ := hold₄ x _ hnum
        have hsome : ¬ (some x).isNone = true := Bool.false_ne_true
        rw [if_neg hsome]
        cases h₄ : mem (h.calls + 4) with
        | false =>
          rw [Heap.malloc_none (hcalls₄ ▸ h₄)]
          refine iff_of_false ?_ fun hc => hc ⟨Option.some_ne_none x, fun h => Bool.false_ne_true h.2⟩
          rintro ⟨k', r, hr, -⟩
          obtain ⟨num', -, hr⟩ := (bind_eq_ok _ _ _).mp hr
          cases hr
        | true =>
          obtain ⟨k₅, hk₅, -, -, hb₅⟩ := Heap.malloc_ok (hcalls₄ ▸ h₄) (Block.chunknum none)
          obtain ⟨k₆, hk₆, -⟩ := Heap.set_ok (h := k₅) (a := k₄.next) (by rw [hb₅, if_pos rfl])
            (.chunknum (some num))
          have hx₅ : chunkOf k₅ (some x) = .ok num := by
            have hlt := Heap.lt_next hx₄
            unfold chunkOf
            rw [Heap.get_eq (by rw [hb₅, if_neg (by omega), hx₄])]
            rfl
          rw [hk₅]
          dsimp only
          rw [hx₅, ok_bind, hk₆, ok_bind]
          exact iff_of_true ⟨_, some _, rfl, fun h => by cases h⟩ fun hc => hc.2 ⟨rfl, rfl⟩
  · obtain ⟨k, hk, hkeeps⟩ := @prefixNew_fails mem h p.compcnt p.suite hm
    rw [hk]
    exact iff_of_true ⟨k, none, rfl, fun _ => .of_keeps hv hkeeps⟩ fun hc => hm ⟨hc.1, hc.2.1, hc.2.2.1⟩

end Dup

/-! ## Names without a heap -/

/-- The name without a heap that a name stands for. -/
structure Represents (h : Heap Block) (p : Name) (P : Prefix) : Prop where
  bytes : ∃ b, p.bytes = some b ∧ h.blocks b = some (.bytes P.mem) ∧
    ptrs h p = .ok (P.comp.map fun s => ⟨b, s.off⟩)
  lens : lens h p = .ok (P.comp.map (·.len))
  suite : p.suite = P.suite
  chunknum : P.chunknum = none ∧ p.chunknum = none ∨
    ∃ a n, p.chunknum = some a ∧ h.blocks a = some (.chunknum (some n)) ∧ P.chunknum = some n.toNat

section Represents

variable {mem : Nat → Bool} {h : Heap Block} {p : Name} {P Q : Prefix} {cmp : List UInt8}

theorem Represents.compcnt (hr : Represents h p P) : p.compcnt = P.compcnt := by
  obtain ⟨l, -, hl⟩ := lens_eq_ok.mp hr.lens
  rw [← firstN_length hl, List.length_map, Prefix.compcnt]

theorem Represents.valid (hr : Represents h p P) (hc : ∃ cs, comps h p = .ok cs) : Valid h p := by
  obtain ⟨b, hb, hmem, -⟩ := hr.bytes
  refine ⟨hc, fun a ha => ?_, fun a ha => ?_⟩
  · obtain rfl := Option.some.inj (hb.symm.trans ha)
    exact ⟨_, hmem⟩
  · rcases hr.chunknum with ⟨-, hn⟩ | ⟨a', n, hn, hblock, -⟩
    · cases hn.symm.trans ha
    · obtain rfl := Option.some.inj (hn.symm.trans ha)
      exact ⟨n, hblock⟩

theorem Represents.copyFrom {n : Nat} {old : List UInt8} (hr : Represents h p P)
    (hold : rdBytes P.mem 0 n = .ok old) : copyFrom h p.bytes 0 n = .ok old := by
  obtain ⟨b, hb, hmem, -⟩ := hr.bytes
  unfold OnHeap.copyFrom
  split
  · rename_i hn
    rw [hn] at hold
    obtain ⟨-, hold⟩ := rdBytes_eq_ok.mp hold
    rw [← hold]
    rfl
  · rw [hb, bytesOf_eq_ok.mpr (Heap.get_eq hmem), ok_bind]
    exact hold

/-- Where there is memory, `ccnl_prefix_appendCmp` is what it is without a heap. -/
theorem Represents.append (hr : Represents h p P) (hc : ∃ cs, comps h p = .ok cs)
    (h₁ : mem h.calls = true) (h₂ : mem (h.calls + 1) = true) (h₃ : mem (h.calls + 2) = true)
    (ha : Ccnl.prefixAppendCmp P cmp = .ok Q) :
    ∃ h' p', prefixAppendCmp mem h p cmp = .ok (h', p', 0) ∧ Represents h' p' Q := by
  have hv := hr.valid hc
  have hcnt := hr.compcnt
  unfold Ccnl.prefixAppendCmp at ha
  by_cases hfull : maxNameComp ≤ P.compcnt
  · rw [if_pos hfull] at ha
    cases ha
  rw [if_neg hfull] at ha
  obtain ⟨old, hold, hQ⟩ := (bind_eq_ok _ _ _).mp ha
  cases hQ
  have hcopy := hr.copyFrom hold
  rcases @prefixAppendCmp_copies mem h p cmp hv (by omega) h₁ h₂ h₃ _ hr.lens with
    ⟨e, he, -⟩ | ⟨old', h', hold', happ, -, hcomp, hcomplen, hbytes, hnum⟩
  · cases hcopy.symm.trans he
  cases hcopy.symm.trans hold'
  refine ⟨h', p.grown h, happ, ⟨⟨h.next + 2, rfl, hbytes, ?_⟩, ?_, hr.suite, ?_⟩⟩
  · refine ptrs_eq_ok.mpr ⟨_, Heap.get_eq hcomp, ?_⟩
    have hfirst := firstN_map_some ((laidOut 0 (P.comp.map (·.len) ++ [cmp.length])).map
      fun s => (⟨h.next + 2, s.off⟩ : Ptr))
    rw [List.length_map, length_laidOut, List.length_append, List.length_map, List.map_map] at hfirst
    rw [← hfirst, ← Prefix.compcnt, ← hcnt]
    rfl
  · refine lens_eq_ok.mpr ⟨_, Heap.get_eq hcomplen, ?_⟩
    have hfirst := firstN_map_some (P.comp.map (·.len) ++ [cmp.length])
    rw [List.length_append, List.length_map] at hfirst
    have hback : (laidOut 0 (P.comp.map (·.len) ++ [cmp.length])).map (·.len) =
        P.comp.map (·.len) ++ [cmp.length] := map_len_laidOut _ _
    rw [hback, ← hfirst, ← Prefix.compcnt, ← hcnt]
    rfl
  · rcases hr.chunknum with hn | ⟨a, n, hn, hblock, hP⟩
    · exact .inl hn
    · exact .inr ⟨a, n, hn, (hnum a hn).trans hblock, hP⟩

end Represents

/-! ## All three -/

/-- When the three functions leave a name alone where they fail. -/
theorem edits_atomic_iff {mem : Nat → Bool} {h : Heap Block} {p : Name} (hv : Valid h p)
    (cmp : List UInt8) (k : UInt32) :
    (AppendAtomic mem h p cmp ↔ maxNameComp ≤ p.compcnt ∨
      (mem h.calls = true ∧ mem (h.calls + 1) = true ∧ mem (h.calls + 2) = true) ∧ Contiguous h p) ∧
    (AddAtomic mem h p k ↔ 0xff ≤ k ∨ (p.suite ≠ .ndntlv ∧ p.suite ≠ .ccntlv) ∨
      maxNameComp ≤ p.compcnt ∨ (mem h.calls = true ∧ mem (h.calls + 1) = true ∧
        mem (h.calls + 2) = true ∧ mem (h.calls + 3) = true) ∧ Readable h p) ∧
    (DupAtomic mem h p ↔ ¬ (mem h.calls = true ∧ mem (h.calls + 1) = true ∧
      mem (h.calls + 2) = true ∧ p.chunknum ≠ none ∧
      ¬ (mem (h.calls + 3) = true ∧ mem (h.calls + 4) = true))) :=
  ⟨appendAtomic_iff hv, addAtomic_iff hv, dupAtomic_iff hv⟩

/-- The name /a, chunk 1. -/
def heapOfA : Heap Block :=
  (((Heap.empty.add (.bytes [97])).add (.comp [some ⟨0, 0⟩])).add (.complen [some 1])).add
    (.chunknum (some 1))

def nameOfA : Name where
  comp := some 1
  complen := some 2
  compcnt := 1
  suite := .ndntlv
  bytes := some 0
  chunknum := some 3

theorem valid_a : Valid heapOfA nameOfA :=
  ⟨⟨[[97]], by decide⟩, fun a ha => Option.some.inj ha ▸ ⟨[97], rfl⟩,
    fun a ha => Option.some.inj ha ▸ ⟨1, rfl⟩⟩

theorem edits_atomic_a : AppendAtomic (fun _ => true) heapOfA nameOfA [98] ∧
    AddAtomic (fun _ => true) heapOfA nameOfA 2 ∧ DupAtomic (fun _ => true) heapOfA nameOfA := by
  obtain ⟨happ, hadd, hdup⟩ := @edits_atomic_iff (fun _ => true) heapOfA nameOfA valid_a [98] 2
  refine ⟨happ.mpr (.inr ⟨⟨rfl, rfl, rfl⟩, [[97]], by decide, by decide⟩),
    hadd.mpr (.inr (.inr (.inr ⟨⟨rfl, rfl, rfl, rfl⟩, [[97]], [97], by decide, by decide⟩))),
    hdup.mpr fun h => h.2.2.2.2 ⟨rfl, rfl⟩⟩

/-- Without memory the count is one too large; without memory for the chunk number the name has
another component; and without memory for the bytes of the copy the name has lost its chunk number. -/
theorem edits_not_atomic : Valid heapOfA nameOfA ∧ ¬ AppendAtomic (fun _ => false) heapOfA nameOfA [98] ∧
    ¬ AddAtomic (· < 7) heapOfA nameOfA 2 ∧ ¬ DupAtomic (· < 7) heapOfA nameOfA := by
  refine ⟨valid_a, fun h => ?_, fun h => ?_, fun h => ?_⟩
  · rcases (appendAtomic_iff valid_a).mp h with h | h
    · exact absurd h (by decide)
    · exact Bool.false_ne_true h.1.1
  · rcases (addAtomic_iff valid_a).mp h with h | h | h | h
    · exact absurd h (by decide)
    · exact h.1 rfl
    · exact absurd h (by decide)
    · exact absurd h.1.2.2.2 (by decide)
  · refine (dupAtomic_iff valid_a).mp h ⟨by decide, by decide, by decide, by decide, fun h => ?_⟩
    exact absurd h.1 (by decide)

end Ccnl.OnHeap
