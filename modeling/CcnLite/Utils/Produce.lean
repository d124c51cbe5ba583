import CcnLite.Core.Types
import CcnLite.Lib.Pieces
import CcnLite.Lib.Run

/-!
# Chunk production (`ccn-lite-produce.c`)

`produce` is `main` from the option `-c` on: the size of the chunks, the number of the last chunk
from the size of the file, and the loop that reads the file and gives each chunk to the packet
encoder. The file is read as a whole by `read` calls that return what is asked for as long as there
is something left.

`Chunked` is what the stream of chunks is for. `produce_chunks_iff` says when the encoder gets such
a stream.
-/

namespace Ccnl

open CRun

/-- `CCNL_MAX_CHUNK_SIZE` of `ccn-lite-produce.c`. -/
def maxChunkSize : Nat := 4048

/-- `chunk_size`, from what `strtol` makes of the option `-c`. -/
def chunkSize (opt : Option Int) : Nat :=
  match opt with
  | none => maxChunkSize
  | some v =>
    let n := (v % 2 ^ 64).toNat
    if maxChunkSize < n then maxChunkSize else n

/-- What the encoder gets: `ccnl_ccntlv_prependContentWithHdr` or `ccnl_ndntlv_prependContent`. -/
structure Chunk where
  chunknum : Nat
  payload : List UInt8
  lastchunknum : Nat
  deriving DecidableEq, Repr

/-- The variables of the loop. `chunk` is what is in `chunk_buf`, `rest` what has not been read, and
`given` what the encoder has got so far. -/
structure Produce where
  chunk : List UInt8
  rest : List UInt8
  isLast : Bool := false
  chunknum : Nat := 0
  given : List Chunk := []
  deriving DecidableEq, Repr

/-- `size_t` division. -/
def divSize (a b : Nat) : Run (Nat × Nat) := if b = 0 then .error .div else .ok (a / b, a % b)

section Produce

variable (encode : Suite → Chunk → Bool) (suite : Suite)

/-- A pass of the loop. It leaves with what the encoder has got and the value to return. -/
def produceStep (chunksize last : Nat) (s : Produce) : Run (Produce ⊕ (List Chunk × Int)) := do
  if s.isLast ∨ s.chunk.length = 0 then return .inr (s.given, 0)
  let isLast := decide (s.chunk.length < chunksize)
  if suite ≠ .ccntlv ∧ suite ≠ .ndntlv then return .inr (s.given, -1)
  let c : Chunk := ⟨s.chunknum, s.chunk, last⟩
  let given := s.given ++ [c]
  if ¬ encode suite c then return .inr (given, -1)
  let chunknum := u32 (s.chunknum + 1)
  if isLast then return .inl { s with isLast := true, chunknum := chunknum, given := given }
  return .inl
    { chunk := s.rest.take chunksize
      rest := s.rest.drop chunksize
      isLast := false
      chunknum := chunknum
      given := given }

/-- `main`. A file with too many chunks is refused. -/
def produce (opt : Option Int) (file : List UInt8) : Run (List Chunk × Int) := do
  let chunksize := chunkSize opt
  let (last, rem) ← divSize file.length chunksize
  if uint32Max < last then return ([], 1)
  let last := if rem = 0 then u32 (last + uint32Max) else last
  loop (produceStep encode suite chunksize last) (file.length + 2)
    { chunk := file.take chunksize, rest := file.drop chunksize }

end Produce

/-! ## The stream -/

/-- The chunks of a file: numbers from 0 on without a gap, the payloads together are the file, all
but the last have the size of a chunk, and each names the number of the last. -/
structure Chunked (chunksize : Nat) (file : List UInt8) (cs : List Chunk) : Prop where
  chunknums : ∃ n, cs.map (·.chunknum) = List.range (n + 1) ∧ ∀ c ∈ cs, c.lastchunknum = n
  payloads : cs.flatMap (·.payload) = file
  full : ∀ c ∈ cs.dropLast, c.payload.length = chunksize

/-- The chunks of a file, cut off its front. -/
def chunksOf (chunksize : Nat) (file : List UInt8) : List Chunk :=
  (List.range (pieceCount chunksize file.length)).map fun k =>
    ⟨k, piece chunksize file k, pieceCount chunksize file.length - 1⟩

section Stream

variable {d k : Nat} {file : List UInt8}

theorem chunksOf_payloads (k : Nat) :
    ((chunksOf d file).take k).flatMap (·.payload) =
      file.take (min k (pieceCount d file.length) * d) := by
  rw [chunksOf, ← List.map_take, List.take_range, List.flatMap_map]
  exact flatMap_piece d file _

theorem chunksOf_dropLast :
    (chunksOf d file).dropLast = (List.range (pieceCount d file.length - 1)).map fun k =>
      ⟨k, piece d file k, pieceCount d file.length - 1⟩ := by
  rw [chunksOf]
  cases pieceCount d file.length with
  | zero => rfl
  | succ n => simp [List.range_succ]

theorem chunksOf_chunked (hd : 0 < d) (hfile : file ≠ []) : Chunked d file (chunksOf d file) where
  chunknums := by
    have hpos : 0 < pieceCount d file.length :=
      (pieceCount_pos hd).mpr (List.length_pos_iff.mpr hfile)
    refine ⟨pieceCount d file.length - 1, ?_, ?_⟩
    · rw [Nat.sub_add_cancel hpos, chunksOf, List.map_map]
      exact List.map_id _
    · intro c hc
      obtain ⟨k, -, rfl⟩ := List.mem_map.mp hc
      rfl
  payloads := by
    rw [chunksOf, List.flatMap_map]
    exact flatMap_pieces hd file
  full c hc := by
    rw [chunksOf_dropLast] at hc
    obtain ⟨k, hk, rfl⟩ := List.mem_map.mp hc
    rw [List.mem_range] at hk
    exact length_piece_of_lt (by omega) hd

theorem Chunked.ne_nil {cs : List Chunk} (h : Chunked d file cs) : cs ≠ [] := by
  obtain ⟨n, hn, -⟩ := h.chunknums
  rintro rfl
  simp [List.range_succ] at hn

/-- The first chunk names the number of the last, so no proper prefix of the chunks of a file is a
stream. -/
theorem Chunked.eq_of_prefix {cs : List Chunk} (h : Chunked d file cs)
    (hpre : cs <+: chunksOf d file) : cs = chunksOf d file := by
  obtain ⟨n, hn, hlast⟩ := h.chunknums
  have hlen := congrArg List.length hn
  rw [List.length_map, List.length_range] at hlen
  obtain ⟨c, hc⟩ := List.exists_mem_of_ne_nil cs h.ne_nil
  obtain ⟨k, hk, hck⟩ := List.mem_map.mp (hpre.subset hc)
  have hcn := hlast c hc
  rw [List.mem_range] at hk
  subst hck
  refine hpre.eq_of_length ?_
  rw [hlen, chunksOf, List.length_map, List.length_range]
  dsimp only at hcn
  omega

end Stream

/-! ## The loop -/

/-- A program that gives its chunks to an encoder one after another, and stops at the first that
the encoder refuses. -/
def untilRefused (encode : Chunk → Bool) : List Chunk → List Chunk × Int
  | [] => ([], 0)
  | c :: cs =>
    if encode c then (c :: (untilRefused encode cs).1, (untilRefused encode cs).2) else ([c], -1)

section Refused

variable {encode : Chunk → Bool}

theorem untilRefused_isPrefix (cs : List Chunk) : (untilRefused encode cs).1 <+: cs := by
  induction cs with
  | nil => exact List.prefix_rfl
  | cons c cs ih =>
    rw [untilRefused]
    split
    · exact (List.prefix_cons_inj c).mpr ih
    · exact ⟨cs, rfl⟩

/-- All chunks have been given when the encoder refuses at most the last. -/
theorem untilRefused_eq_iff (cs : List Chunk) :
    (untilRefused encode cs).1 = cs ↔ ∀ c ∈ cs.dropLast, encode c = true := by
  induction cs with
  | nil => simp [untilRefused]
  | cons c cs ih =>
    rw [untilRefused]
    cases cs with
    | nil => split <;> simp [untilRefused]
    | cons c' cs =>
      rw [List.dropLast_cons_cons, List.forall_mem_cons]
      split
      · rename_i h
        rw [List.cons.injEq, ih]
        simp [h]
      · rename_i h
        simp [h]

end Refused

section Loop

variable {encode : Suite → Chunk → Bool} {suite : Suite} {d last : Nat} {file : List UInt8}

/-- The variables after `k` passes. -/
def produceAt (d : Nat) (file : List UInt8) (k : Nat) (given : List Chunk) : Produce where
  chunk := piece d file k
  rest := file.drop ((k + 1) * d)
  chunknum := u32 k
  given := given

theorem produceAt_succ (k : Nat) (given : List Chunk) :
    produceAt d file (k + 1) given =
      { chunk := (file.drop ((k + 1) * d)).take d
        rest := (file.drop ((k + 1) * d)).drop d
        chunknum := u32 (k + 1)
        given := given } := by
  rw [produceAt, List.drop_drop, Nat.succ_mul (k + 1)]
  rfl

/-- The chunks from number `k` on, as the loop makes them. -/
def chunksFrom (d last : Nat) (file : List UInt8) (k m : Nat) : List Chunk :=
  (List.range' k m).map fun j => ⟨j, piece d file j, last⟩

theorem produceStep_end {s : Produce} (h : s.isLast = true ∨ s.chunk.length = 0) :
    produceStep encode suite d last s = .ok (.inr (s.given, 0)) := by
  rw [produceStep, if_pos h]
  rfl

/-- A pass with a chunk in the buffer gives it to the encoder. It goes on to the next chunk, or,
when this one is short, to the end. -/
theorem produceStep_at {k : Nat} (hsuite : suite = .ccntlv ∨ suite = .ndntlv)
    (hk : k < 2 ^ 32) (hne : (piece d file k).length ≠ 0) (given : List Chunk) :
    produceStep encode suite d last (produceAt d file k given) =
      let c : Chunk := ⟨k, piece d file k, last⟩
      if encode suite c then
        .ok (.inl (if (piece d file k).length < d then
          { produceAt d file k (given ++ [c]) with isLast := true, chunknum := u32 (k + 1) }
        else produceAt d file (k + 1) (given ++ [c])))
      else .ok (.inr (given ++ [c], -1)) := by
  have hk32 : u32 k = k := Nat.mod_eq_of_lt hk
  have hgo : ¬ ((produceAt d file k given).isLast = true ∨
      (produceAt d file k given).chunk.length = 0) := by
    simpa [produceAt] using hne
  have hs : ¬ (suite ≠ .ccntlv ∧ suite ≠ .ndntlv) := by
    rintro ⟨h₁, h₂⟩
    exact hsuite.elim h₁ h₂
  rw [produceStep, if_neg hgo]
  simp only [if_neg hs, produceAt_succ]
  simp only [produceAt, hk32]
  cases encode suite ⟨k, piece d file k, last⟩ with
  | false => rfl
  | true => by_cases hlt : (piece d file k).length < d <;> simp [hlt]

/-- The loop gives the chunks from number `k` on to the encoder, until it refuses one. -/
theorem produce_loop (hd : 0 < d) (hsuite : suite = .ccntlv ∨ suite = .ndntlv) (m : Nat) :
    ∀ k given n, k + m = pieceCount d file.length → k + m ≤ 2 ^ 32 → m < n →
      loop (produceStep encode suite d last) n (produceAt d file k given) =
        .ok (given ++ (untilRefused (encode suite) (chunksFrom d last file k m)).1,
          (untilRefused (encode suite) (chunksFrom d last file k m)).2) := by
  induction m with
  | zero =>
    intro k given n hk hmax hn
    obtain ⟨n, rfl⟩ := Nat.exists_eq_succ_of_ne_zero (Nat.ne_of_gt hn)
    refine loop_succ_eq_ok.mpr (.inr ?_)
    rw [produceStep_end (.inr ?_)]
    · simp [produceAt, chunksFrom, untilRefused]
    · have := (lt_pieceCount (n := file.length) (k := k) hd).not.mp (by omega)
      rw [produceAt, length_piece]
      omega
  | succ m ih =>
    intro k given n hk hmax hn
    obtain ⟨n, rfl⟩ := Nat.exists_eq_succ_of_ne_zero (Nat.ne_of_gt (Nat.zero_lt_of_lt hn))
    have hlt : k * d < file.length := (lt_pieceCount hd).mp (by omega)
    have hne : (piece d file k).length ≠ 0 := by
      rw [length_piece]
      omega
    rw [chunksFrom, List.range'_succ, List.map_cons, untilRefused, loop,
      produceStep_at hsuite (by omega) hne]
    dsimp only
    split
    · by_cases hshort : (piece d file k).length < d
      · -- a short chunk is the last of all, and the next pass ends the loop
        have hm : m = 0 := by
          by_contra hm
          exact Nat.ne_of_lt hshort (length_piece_of_lt (by omega) hd)
        subst hm
        obtain ⟨n, rfl⟩ := Nat.exists_eq_succ_of_ne_zero (Nat.ne_of_gt (Nat.lt_of_succ_lt_succ hn))
        rw [if_pos hshort, ok_bind]
        dsimp only
        rw [loop, produceStep_end (.inl rfl)]
        simp [untilRefused, produceAt]
      · rw [if_neg hshort, ok_bind]
        dsimp only
        rw [ih (k + 1) _ n (by omega) (by omega) (by omega), chunksFrom, List.append_assoc]
        rfl
    · rfl

end Loop

/-! ## The program -/

section Main

variable {encode : Suite → Chunk → Bool} {suite : Suite} {opt : Option Int} {file : List UInt8}

/-- The number of the last chunk is one less than the number of chunks. -/
theorem last_eq {d n : Nat} (hd : 0 < d) (hn : 0 < n) (hmax : n / d ≤ uint32Max) :
    (if n % d = 0 then u32 (n / d + uint32Max) else n / d) = pieceCount d n - 1 := by
  have hq := pieceCount_eq hd n
  have hpos := (pieceCount_pos (n := n) hd).mpr hn
  split <;> rename_i h
  · rw [if_pos h] at hq
    rw [hq, u32]
    simp only [uint32Max] at *
    omega
  · rw [if_neg h] at hq
    omega

/-- What the encoder gets of a file that is not refused. -/
theorem produce_eq (hd : 0 < chunkSize opt) (hfile : file ≠ [])
    (hmax : file.length / chunkSize opt ≤ uint32Max) (hsuite : suite = .ccntlv ∨ suite = .ndntlv) :
    produce encode suite opt file = .ok (untilRefused (encode suite) (chunksOf (chunkSize opt) file))
    := by
  have hlast := last_eq hd (List.length_pos_iff.mpr hfile) hmax
  have hq := pieceCount_eq hd file.length
  have hle := pieceCount_le hd file.length
  have hinit : produceAt (chunkSize opt) file 0 [] =
      { chunk := file.take (chunkSize opt), rest := file.drop (chunkSize opt) } := by
    simp [produceAt, piece, u32]
  rw [produce, divSize, if_neg (Nat.ne_of_gt hd), ok_bind]
  dsimp only
  rw [if_neg (Nat.not_lt.mpr hmax), hlast, ← hinit, produce_loop hd hsuite _ 0 [] _ (Nat.zero_add _)]
  · rw [chunksOf, List.range_eq_range']
    simp only [chunksFrom, List.nil_append]
  · simp only [uint32Max] at hmax
    split at hq <;> omega
  · omega

/-- The other files are not cut: the encoder gets nothing. -/
theorem produce_none (encode : Suite → Chunk → Bool) (hd : 0 < chunkSize opt)
    (h : ¬ (file ≠ [] ∧ file.length / chunkSize opt ≤ uint32Max ∧
      (suite = .ccntlv ∨ suite = .ndntlv))) :
    ∃ rc, produce encode suite opt file = .ok ([], rc) := by
  rw [produce, divSize, if_neg (Nat.ne_of_gt hd), ok_bind]
  dsimp only
  split
  · exact ⟨1, rfl⟩
  rename_i hmax
  by_cases hfile : file = []
  · subst hfile
    refine ⟨0, ?_⟩
    rw [loop, produceStep_end (.inr (by simp))]
    rfl
  · have hs : suite ≠ .ccntlv ∧ suite ≠ .ndntlv :=
      not_or.mp fun hs => h ⟨hfile, Nat.not_lt.mp hmax, hs⟩
    refine ⟨-1, ?_⟩
    rw [loop, produceStep, if_neg (by simp [Nat.ne_of_gt hd, hfile]), if_pos hs]
    rfl

/-- What the program makes is the stream of the chunks of the file exactly when the size of a chunk
is not zero, the file is not empty and has at most `UINT32_MAX` full chunks, the suite is one of
the two that have chunks, and the encoder refuses at most the last chunk. -/
theorem produce_chunks_iff (encode : Suite → Chunk → Bool) (suite : Suite) (opt : Option Int)
    (file : List UInt8) :
    (∃ cs rc, produce encode suite opt file = .ok (cs, rc) ∧ Chunked (chunkSize opt) file cs) ↔
      chunkSize opt ≠ 0 ∧ file ≠ [] ∧ file.length / chunkSize opt ≤ uint32Max ∧
        (suite = .ccntlv ∨ suite = .ndntlv) ∧
        ∀ c ∈ (chunksOf (chunkSize opt) file).dropLast, encode suite c = true := by
  constructor
  · rintro ⟨cs, rc, h, hcs⟩
    have hd : chunkSize opt ≠ 0 := by
      intro hd
      rw [produce, divSize, if_pos hd] at h
      cases h
    have hpos := Nat.pos_of_ne_zero hd
    by_cases hgood : file ≠ [] ∧ file.length / chunkSize opt ≤ uint32Max ∧
        (suite = .ccntlv ∨ suite = .ndntlv)
    · obtain ⟨hfile, hmax, hsuite⟩ := hgood
      have hrun := h.symm.trans (produce_eq hpos hfile hmax hsuite)
      obtain rfl := congrArg Prod.fst (Except.ok.inj hrun)
      exact ⟨hd, hfile, hmax, hsuite,
        (untilRefused_eq_iff _).mp (hcs.eq_of_prefix (untilRefused_isPrefix _))⟩
    · obtain ⟨rc', hrun⟩ := produce_none encode hpos hgood
      obtain rfl := congrArg Prod.fst (Except.ok.inj (h.symm.trans hrun))
      exact absurd rfl hcs.ne_nil
  · rintro ⟨hd, hfile, hmax, hsuite, henc⟩
    have hd := Nat.pos_of_ne_zero hd
    refine ⟨_, _, produce_eq hd hfile hmax hsuite, ?_⟩
    rw [(untilRefused_eq_iff _).mpr henc]
    exact chunksOf_chunked hd hfile

/-- With `-c 0` the number of the last chunk is a quotient by zero. -/
theorem produce_chunk_size_zero :
    ¬ ∀ (encode : Suite → Chunk → Bool) (suite : Suite) (opt : Option Int) (file : List UInt8),
      ∃ cs rc, produce encode suite opt file = .ok (cs, rc) ∧ Chunked (chunkSize opt) file cs := by
  intro h
  obtain ⟨cs, rc, hrun, -⟩ := h (fun _ _ => true) .ndntlv (some 0) [7]
  have hdiv : produce (fun _ _ => true) .ndntlv (some 0) [7] = .error .div := by decide
  rw [hdiv] at hrun
  cases hrun

end Main

end Ccnl
