import CcnLite.Pkt.Builder
import CcnLite.Pkt.Ccntlv
import CcnLite.Pkt.NdntlvRoundtrip
import Mathlib.Data.List.Induction

/-!
# Fetching a chunked object (`ccn-lite-fetch.c`)

`fetchStep` is a pass of the loop of `main`: a request, and what is made of the answer.
`ccnl_extractDataAndChunkInfo` frees the packet before the loop writes its content, so what is
written is what the C library leaves of the bytes of a freed buffer (`freed`).

A `ChunkedObject` is a series of Data packets as the library's own parsers read them. `Fetched` is
what the loop is for: it writes the chunks in order, and gives up after three misses in a row.
-/

namespace Ccnl

open CRun

/-! ## The answers -/

/-- `ccntlv_isHeader`. -/
def ccntlvIsHeader (mem : List UInt8) (len : Nat) : Run Bool := do
  if len < ccnxHdrlen then return false
  let hp ← rdBytes mem 0 ccnxHdrlen
  if hp.getD 0 0 ≠ ccnxTlvV1 then return false
  return ¬ beNat ((hp.drop 2).take 2) < len

/-- `ccntlv_isData`. -/
def ccntlvIsData (mem : List UInt8) (len : Nat) : Run Bool := do
  if ← ccntlvIsHeader mem len then return (← rd mem 1) == ccnxPtData
  else return false

/-- `ccnl_ccntlv_getHdrLen`. The field is read in the host's byte order. -/
def ccntlvGetHdrLen (mem : List UInt8) (datalen : Nat) : Run Nat := do
  let hp ← rdBytes mem 7 2
  let hdrlen := beNat hp.reverse
  if hdrlen ≤ datalen then return hdrlen else throw .bail

/-- The bytes of the content, those at a NULL pointer of length 0 when there is none. -/
def Pkt.contentBytes (pkt : Pkt) : List UInt8 := (pkt.content.map (·.bytes pkt.buf)).getD []

/-- The parser behind the fixed header of a CCNx packet. -/
def ccntlvAfterHdr (mem : List UInt8) (len : Nat) : Run Pkt := do
  let hdrlen ← ccntlvGetHdrLen mem len
  let (pkt, _) ← ccntlvBytes2pkt mem 0 ⟨hdrlen, len - hdrlen⟩
  return pkt

/-- The parser behind the header of an NDN packet, which is a Data packet. -/
def ndntlvAfterHead (mem : List UInt8) (len : Nat) : Run Pkt := do
  match ← ndntlvDehead mem ⟨0, len⟩ with
  | (none, _) => throw .bail
  | (some (typ, _), c) =>
    if typ ≠ ndnTlvData then throw .bail
    let (pkt, _) ← ndntlvBytes2pkt mem typ 0 c
    return pkt

/-- The packet that `ccnl_extractDataAndChunkInfo` makes of `len` bytes received. For CCNx it is
the Data packets that the code turns down. -/
def extractPkt (suite : Suite) (mem : List UInt8) (len : Nat) : Run Pkt :=
  match suite with
  | .ccntlv => do
    if ← ccntlvIsData mem len then throw .bail
    ccntlvAfterHdr mem len
  | .ndntlv => ndntlvAfterHead mem len
  | .ccnb | .localrpc => throw .bail

/-- `ccnl_extractDataAndChunkInfo`: the name, the number of the last chunk and the content. -/
def extractDataAndChunkInfo (suite : Suite) (mem : List UInt8) (len : Nat) :
    Run (Prefix × Int × List UInt8) := do
  let pkt ← extractPkt suite mem len
  let pfx ← deref pkt.pfx
  return (pfx.dup, pkt.finalBlockId, pkt.contentBytes)

/-- `prefix->comp[prefix->compcnt-1]`. -/
def lastComp (p : Prefix) : Run Span :=
  match p.comp.getLast? with
  | some s => .ok s
  | none => .error .wrap

/-- `ccnl_prefix_removeChunkNumComponent`. -/
def removeChunkNumComponent (suite : Suite) (p : Prefix) : Run (Option Prefix) := do
  let cut : Prefix := { p with comp := p.comp.dropLast }
  match suite with
  | .ccntlv =>
    let s ← lastComp p
    if (← rd p.mem (s.off + 1)).toNat = ccnxTlvNChunk then return some cut else return none
  | .ndntlv =>
    let s ← lastComp p
    if (← rd p.mem s.off) = ndnMarkerSegmentNumber then return some cut else return some p
  | .ccnb | .localrpc => return none

/-! ## The loop -/

/-- What a request brings. `behind` is what the receive buffer holds after the bytes received. -/
inductive Answer where
  | timeout
  | datagram (bytes behind : List UInt8)
  deriving DecidableEq, Repr

/-- A call of `write`, with the chunk number of the packet. -/
structure Written where
  chunknum : Option Nat
  bytes : List UInt8
  deriving DecidableEq, Repr

/-- The variables of the loop. `exit` is what `main` returns. -/
structure Fetch where
  retry : Nat := 0
  curchunknum : Option Nat
  pfx : Prefix
  written : List Written := []
  exit : Option Int := none
  deriving DecidableEq, Repr

def maxretry : Nat := 3

namespace Fetch

/-- Before the loop. -/
def start (suite : Suite) (pfx : Prefix) : Fetch where
  curchunknum := if suite = .ccntlv then some 0 else none
  pfx := pfx

/-- The name of the next request. -/
def request (s : Fetch) : Prefix :=
  match s.curchunknum with
  | some k => { s.pfx with chunknum := some k }
  | none => s.pfx

/-- `retry++`, and the end of the pass. -/
def miss (s : Fetch) : Fetch :=
  { s with
    retry := s.retry + 1
    exit := if s.retry + 1 < maxretry then none else some 1 }

end Fetch

section Loop

variable (suite : Suite) (freed : List UInt8 → List UInt8)

/-- A pass of the loop. -/
def fetchStep (s : Fetch) (a : Answer) : Run Fetch := do
  if suite = .ccnb then return { s with exit := some (-1) }
  let s := { s with pfx := s.request }
  match a with
  | .timeout => return s.miss
  | .datagram bytes behind =>
    match ← attempt (extractDataAndChunkInfo suite (bytes ++ behind) bytes.length) with
    | none => return s.miss
    | some (next, lastchunknum, content) =>
      match next.chunknum with
      | none =>
        return { s with
          pfx := next, written := s.written ++ [⟨none, freed content⟩], exit := some 0 }
      | some chunknum =>
        let cur := s.curchunknum.getD 0
        let removed ← removeChunkNumComponent suite next
        let s : Fetch := { s with
          curchunknum := some cur
          pfx := removed.getD next
          retry := if removed.isNone then s.retry + 1 else s.retry }
        if chunknum = 0 ∨ cur = chunknum then
          let s : Fetch := { s with written := s.written ++ [⟨some chunknum, freed content⟩] }
          if lastchunknum ≠ -1 ∧ lastchunknum = chunknum then return { s with exit := some 0 }
          else return { s with curchunknum := some (u32 (cur + 1)), retry := 0 }
        else return s.miss

/-- The loop, as far as there are answers. -/
def fetchRun : List Answer → Fetch → Run Fetch
  | [], s => .ok s
  | a :: as, s =>
    if s.exit.isSome then .ok s
    else do
      let s ← fetchStep suite freed s a
      fetchRun as s

end Loop

/-! ## Chunked objects -/

/-- A timeout, or an answer that cannot be parsed. -/
def Lost (suite : Suite) : Answer → Prop
  | .timeout => True
  | .datagram bytes behind =>
    extractDataAndChunkInfo suite (bytes ++ behind) bytes.length = .error .bail

/-- A Data packet, as the parsers of the library read it. -/
def dataPkt (suite : Suite) (mem : List UInt8) (len : Nat) : Run Pkt :=
  match suite with
  | .ccntlv => do
    if ← ccntlvIsData mem len then ccntlvAfterHdr mem len
    else throw .bail
  | .ndntlv => ndntlvAfterHead mem len
  | .ccnb | .localrpc => throw .bail

/-- The component of a name that holds its chunk number. -/
def ChunkComp (suite : Suite) (v : List UInt8) : Prop :=
  match suite with
  | .ccntlv => (v[1]?).map UInt8.toNat = some ccnxTlvNChunk
  | .ndntlv => v.head? = some ndnMarkerSegmentNumber
  | .ccnb | .localrpc => False

/-- The packet is chunk `k` of the object with the name `name` and the last chunk `last`. -/
structure IsChunk (suite : Suite) (name : List (List UInt8)) (last k : Nat) (payload : List UInt8)
    (pkt : Pkt) : Prop where
  name : ∃ p v, pkt.pfx = some p ∧ p.comps = name ++ [v] ∧ ChunkComp suite v ∧ p.chunknum = some k
  payload : pkt.contentBytes = payload
  final : pkt.finalBlockId = last ∨ k < last ∧ pkt.finalBlockId = -1

/-- A chunked object; chunk numbers are `uint32_t`. The NDN parser looks at a byte behind the packet,
which the receive buffer has. -/
structure ChunkedObject (suite : Suite) where
  name : List (List UInt8)
  last : Nat
  last_le : last ≤ uint32Max
  payload : Nat → List UInt8
  wire : Nat → List UInt8
  chunks : ∀ k ≤ last, ∀ behind ≠ [], ∃ pkt,
    dataPkt suite (wire k ++ behind) (wire k).length = .ok pkt ∧
      IsChunk suite name last k (payload k) pkt

namespace ChunkedObject

variable {suite : Suite} (obj : ChunkedObject suite)

/-- The answer is chunk `k`. -/
def Chunk (k : Nat) (a : Answer) : Prop := ∃ behind, behind ≠ [] ∧ a = .datagram (obj.wire k) behind

/-- The answer is a timeout, cannot be parsed, or is one of the chunks. -/
def Allowed (a : Answer) : Prop := Lost suite a ∨ ∃ k ≤ obj.last, obj.Chunk k a

/-- The first `j` chunks, each written once. -/
def front (j : Nat) : List Written :=
  (List.range j).map fun k => ⟨some k, obj.payload k⟩

end ChunkedObject

/-- What holds at every moment, after the answers `as`. The program has written the first chunks;
it ends with success only after the last; when it gives up, three answers in a row brought nothing
to write, and none of them was the chunk needed next. -/
structure Fetched {suite : Suite} (obj : ChunkedObject suite) (freed : List UInt8 → List UInt8)
    (s₀ : Fetch) (as : List Answer) (s : Fetch) : Prop where
  written : s.written = obj.front s.written.length
  length : s.written.length ≤ obj.last + 1
  done : s.exit = some 0 → s.written.length = obj.last + 1
  gaveUp : s.exit = some 1 → ∃ pre x y z s', pre ++ [x, y, z] <+: as ∧
    fetchRun suite freed pre s₀ = .ok s' ∧ s'.written = s.written ∧
    ∀ a ∈ [x, y, z], ¬ obj.Chunk s.written.length a

/-! ## A pass -/

theorem Prefix.comps_dup (p : Prefix) : p.dup.comps = p.comps :=
  bytes_pieces (show At p.comps.flatten 0 p.comps.flatten from List.prefix_rfl)

/-- The last component of a name, and its first byte. -/
theorem lastComp_of_comps {p : Prefix} {name : List (List UInt8)} {v : List UInt8}
    (h : p.comps = name ++ [v]) (hv : v ≠ []) :
    ∃ s, lastComp p = .ok s ∧ p.mem[s.off]? = v.head? := by
  have hlast : p.comp.getLast?.map (·.bytes p.mem) = some v := by
    rw [← List.getLast?_map, ← Prefix.comps, h, List.getLast?_concat]
  obtain ⟨s, hs, rfl⟩ := Option.map_eq_some_iff.mp hlast
  refine ⟨s, by rw [lastComp, hs], ?_⟩
  have hlen : s.len ≠ 0 := by
    intro h0
    exact hv (by rw [Span.bytes, h0, List.take_zero])
  rw [Span.bytes, List.head?_take, if_neg hlen, List.head?_drop]

section Pass

variable {suite : Suite} {s : Fetch} {a : Answer}

theorem fetchStep_lost (freed : List UInt8 → List UInt8) (s : Fetch) (hs : suite ≠ .ccnb)
    (h : Lost suite a) :
    fetchStep suite freed s a = .ok { s with pfx := s.request }.miss := by
  rw [fetchStep, if_neg hs]
  cases a with
  | timeout => rfl
  | datagram bytes behind =>
    dsimp only
    rw [show extractDataAndChunkInfo suite (bytes ++ behind) bytes.length = .error .bail from h]
    rfl

variable {k : Nat}

/-- What the program makes of chunk `k` of an NDN object. -/
theorem extract_chunk (obj : ChunkedObject .ndntlv) (hk : k ≤ obj.last) {behind : List UInt8}
    (hb : behind ≠ []) : ∃ next final p,
      extractDataAndChunkInfo .ndntlv (obj.wire k ++ behind) (obj.wire k).length =
        .ok (next, final, obj.payload k) ∧
      next.chunknum = some k ∧ removeChunkNumComponent .ndntlv next = .ok (some p) ∧
      (final = obj.last ∨ k < obj.last ∧ final = -1) := by
  obtain ⟨pkt, hpkt, hchunk⟩ := obj.chunks k hk behind hb
  obtain ⟨q, v, hpfx, hcomps, hv, hnum⟩ := hchunk.name
  have hne : v ≠ [] := by
    rintro rfl
    cases hv
  obtain ⟨c, hc, hfirst⟩ := lastComp_of_comps ((Prefix.comps_dup q).trans hcomps) hne
  have hrd : rd q.dup.mem c.off = .ok ndnMarkerSegmentNumber := rd_eq_ok.mpr (hfirst.trans hv)
  refine ⟨q.dup, pkt.finalBlockId, { q.dup with comp := q.dup.comp.dropLast }, ?_, hnum, ?_,
    hchunk.final⟩
  · rw [extractDataAndChunkInfo, show extractPkt .ndntlv _ _ = .ok pkt from hpkt, ok_bind, hpfx,
      hchunk.payload]
    rfl
  · rw [removeChunkNumComponent]
    dsimp only
    rw [hc, ok_bind, hrd, ok_bind, if_pos rfl]
    rfl

/-- The chunk that is needed next, or chunk 0, is written. -/
theorem fetchStep_hit (freed : List UInt8 → List UInt8) (obj : ChunkedObject .ndntlv)
    (hk : k ≤ obj.last) (ha : obj.Chunk k a) (hit : k = 0 ∨ s.curchunknum.getD 0 = k) :
    ∃ s', fetchStep .ndntlv freed s a = .ok s' ∧
      s'.written = s.written ++ [⟨some k, freed (obj.payload k)⟩] ∧
      (k = obj.last → s'.exit = some 0) ∧
      (k < obj.last → s'.exit = s.exit ∧ s'.retry = 0 ∧
        s'.curchunknum = some (u32 (s.curchunknum.getD 0 + 1))) := by
  obtain ⟨behind, hb, rfl⟩ := ha
  obtain ⟨next, final, p, hext, hnum, hrem, hfinal⟩ := extract_chunk obj hk hb
  rw [fetchStep, if_neg (by decide)]
  dsimp only
  rw [hext, attempt_ok, ok_bind]
  dsimp only
  rw [hnum]
  dsimp only
  rw [hrem, ok_bind, if_pos hit]
  by_cases hend : final ≠ -1 ∧ final = k
  · rw [if_pos hend]
    refine ⟨_, rfl, rfl, fun _ => rfl, fun hlt => ?_⟩
    omega
  · rw [if_neg hend]
    refine ⟨_, rfl, rfl, fun hlast => ?_, fun _ => ⟨rfl, rfl, rfl⟩⟩
    omega

/-- Another chunk is not. -/
theorem fetchStep_other (freed : List UInt8 → List UInt8) (obj : ChunkedObject .ndntlv)
    (hk : k ≤ obj.last) (ha : obj.Chunk k a)
    (hother : ¬ (k = 0 ∨ s.curchunknum.getD 0 = k)) :
    ∃ p, fetchStep .ndntlv freed s a =
      .ok { s with pfx := p, curchunknum := some (s.curchunknum.getD 0) }.miss := by
  obtain ⟨behind, hb, rfl⟩ := ha
  obtain ⟨next, final, p, hext, hnum, hrem, hfinal⟩ := extract_chunk obj hk hb
  refine ⟨p, ?_⟩
  rw [fetchStep, if_neg (by decide)]
  dsimp only
  rw [hext, attempt_ok, ok_bind]
  dsimp only
  rw [hnum]
  dsimp only
  rw [hrem, ok_bind, if_neg hother]
  rfl

end Pass

/-! ## Runs -/

section Runs

variable {suite : Suite} {freed : List UInt8 → List UInt8} {s₀ s s' : Fetch} {a : Answer}
  {as bs : List Answer}

theorem fetchRun_ended (h : s.exit.isSome) : fetchRun suite freed as s = .ok s := by
  cases as with
  | nil => rfl
  | cons a as => rw [fetchRun, if_pos h]

theorem fetchRun_append :
    fetchRun suite freed (as ++ bs) s = fetchRun suite freed as s >>= fetchRun suite freed bs := by
  induction as generalizing s with
  | nil => rfl
  | cons a as ih =>
    rw [List.cons_append, fetchRun, fetchRun]
    split
    · rename_i h
      rw [ok_bind, fetchRun_ended h]
    · rw [bind_assoc]
      simp only [ih]

/-- One more answer. -/
theorem fetchRun_snoc (h : fetchRun suite freed as s₀ = .ok s) (hs : s.exit = none) :
    fetchRun suite freed (as ++ [a]) s₀ = fetchStep suite freed s a := by
  rw [fetchRun_append, h, ok_bind, fetchRun, if_neg (by rw [hs]; decide)]
  cases fetchStep suite freed s a <;> rfl

/-- The last `n` answers have brought nothing to write, and none of them is `needed`. -/
def Misses (suite : Suite) (freed : List UInt8 → List UInt8) (needed : Answer → Prop)
    (s₀ : Fetch) (as : List Answer) (s : Fetch) (n : Nat) : Prop :=
  ∃ pre ms s', as = pre ++ ms ∧ ms.length = n ∧ fetchRun suite freed pre s₀ = .ok s' ∧
    s'.written = s.written ∧ ∀ a ∈ ms, ¬ needed a

theorem Misses.none {needed : Answer → Prop} (h : fetchRun suite freed as s₀ = .ok s) :
    Misses suite freed needed s₀ as s 0 :=
  ⟨as, [], s, (List.append_nil as).symm, rfl, h, rfl, fun _ h => nomatch h⟩

theorem Misses.next {needed : Answer → Prop} {n : Nat} (h : Misses suite freed needed s₀ as s n)
    (ha : ¬ needed a) (hw : s'.written = s.written) :
    Misses suite freed needed s₀ (as ++ [a]) s' (n + 1) := by
  obtain ⟨pre, ms, s₁, rfl, hlen, hrun, hw₁, hms⟩ := h
  refine ⟨pre, ms ++ [a], s₁, List.append_assoc .., by simp [hlen], hrun, hw₁.trans hw.symm, ?_⟩
  intro b hb
  rcases List.mem_append.mp hb with hb | hb
  · exact hms b hb
  · rw [List.mem_singleton.mp hb]
    exact ha

variable {obj : ChunkedObject suite}

/-- What holds while the program goes on: the first chunks are written, the current chunk number is
the next, and `retry` counts the misses since the last chunk. -/
structure Going (obj : ChunkedObject suite) (freed : List UInt8 → List UInt8) (s₀ : Fetch)
    (as : List Answer) (s : Fetch) : Prop where
  run : fetchRun suite freed as s₀ = .ok s
  exit : s.exit = none
  written : s.written = obj.front s.written.length
  le : s.written.length ≤ obj.last
  cur : s.curchunknum.getD 0 = s.written.length
  retry : s.retry < maxretry
  misses : Misses suite freed (obj.Chunk s.written.length) s₀ as s s.retry

theorem Going.fetched (h : Going obj freed s₀ as s) : Fetched obj freed s₀ as s where
  written := h.written
  length := Nat.le_succ_of_le h.le
  done hd := by simp [h.exit] at hd
  gaveUp hg := by simp [h.exit] at hg

/-- What the program has come to after the answers `as`. -/
def Stands (obj : ChunkedObject suite) (freed : List UInt8 → List UInt8) (s₀ : Fetch)
    (as : List Answer) (s : Fetch) : Prop :=
  fetchRun suite freed as s₀ = .ok s ∧ Fetched obj freed s₀ as s ∧
    (s.exit = none → Going obj freed s₀ as s)

theorem Going.stands (h : Going obj freed s₀ as s) : Stands obj freed s₀ as s :=
  ⟨h.run, h.fetched, fun _ => h⟩

/-- After the program has ended nothing changes. -/
theorem Stands.ended (h : Stands obj freed s₀ as s) (hs : s.exit.isSome) :
    Stands obj freed s₀ (as ++ [a]) s := by
  obtain ⟨hrun, hf, -⟩ := h
  refine ⟨by rw [fetchRun_append, hrun, ok_bind, fetchRun_ended hs], { hf with
    gaveUp := fun hg => ?_ }, fun hnone => by simp [hnone] at hs⟩
  obtain ⟨pre, x, y, z, s₁, hpre, hrest⟩ := hf.gaveUp hg
  exact ⟨pre, x, y, z, s₁, hpre.trans (List.prefix_append _ _), hrest⟩

/-- A pass that writes nothing, at an answer that is not the chunk needed next. -/
theorem Going.miss (h : Going obj freed s₀ as s) (ha : ¬ obj.Chunk s.written.length a)
    {p : Prefix} {cur : Option Nat} (hcur : cur.getD 0 = s.curchunknum.getD 0)
    (hstep : fetchStep suite freed s a = .ok { s with pfx := p, curchunknum := cur }.miss) :
    Stands obj freed s₀ (as ++ [a]) { s with pfx := p, curchunknum := cur }.miss := by
  have hrun := (fetchRun_snoc (a := a) h.run h.exit).trans hstep
  have hmisses : Misses _ _ _ s₀ (as ++ [a]) { s with pfx := p, curchunknum := cur }.miss _ :=
    h.misses.next ha rfl
  by_cases hlt : s.retry + 1 < maxretry
  · refine Going.stands ⟨hrun, if_pos hlt, h.written, h.le, hcur.trans h.cur, hlt, hmisses⟩
  · have hretry : s.retry + 1 = 3 := by
      have := h.retry
      unfold maxretry at this hlt
      omega
    have hexit : { s with pfx := p, curchunknum := cur }.miss.exit = some 1 := if_neg hlt
    refine ⟨hrun, ⟨h.written, Nat.le_succ_of_le h.le, fun hd => ?_, fun _ => ?_⟩, fun hnone => ?_⟩
    · simp [hexit] at hd
    · rw [hretry] at hmisses
      obtain ⟨pre, ms, s₁, heq, hlen, hpre⟩ := hmisses
      match ms, hlen with
      | [x, y, z], _ => exact ⟨pre, x, y, z, s₁, heq ▸ List.prefix_rfl, hpre⟩
    · simp [hexit] at hnone

end Runs

/-! ## NDN -/

section Ndn

variable {freed : List UInt8 → List UInt8} {s₀ s s' : Fetch} {a : Answer} {as : List Answer}
  {obj : ChunkedObject .ndntlv}

theorem front_succ (j : Nat) : obj.front (j + 1) = obj.front j ++ [⟨some j, obj.payload j⟩] := by
  rw [ChunkedObject.front, List.range_succ, List.map_append]
  rfl

/-- What an answer must be like for the program to do right: chunk 0 does not come again once it is
written, and the freed buffer still has the bytes of a chunk that is to be written. -/
def InOrder (obj : ChunkedObject .ndntlv) (freed : List UInt8 → List UInt8) (s : Fetch)
    (a : Answer) : Prop :=
  (obj.Chunk 0 a → s.written = []) ∧
    (obj.Chunk s.written.length a →
      freed (obj.payload s.written.length) = obj.payload s.written.length)

/-- The chunk needed next. -/
theorem Going.hit (h : Going obj freed s₀ as s) (ha : obj.Chunk s.written.length a)
    (hfreed : freed (obj.payload s.written.length) = obj.payload s.written.length) :
    ∃ s', Stands obj freed s₀ (as ++ [a]) s' := by
  obtain ⟨s', hstep, hw, hend, hgo⟩ := fetchStep_hit freed obj h.le ha (.inr h.cur)
  have hrun := (fetchRun_snoc (a := a) h.run h.exit).trans hstep
  rw [hfreed] at hw
  have hlen : s'.written.length = s.written.length + 1 := by rw [hw, List.length_append]; rfl
  have hfront : s'.written = obj.front s'.written.length := by
    rw [hlen, front_succ, ← h.written, hw]
  refine ⟨s', ?_⟩
  rcases Nat.eq_or_lt_of_le h.le with hlast | hlt
  · have hexit := hend hlast
    exact ⟨hrun, ⟨hfront, by omega, fun _ => by omega, fun hg => by simp [hexit] at hg⟩,
      fun hnone => by simp [hexit] at hnone⟩
  · obtain ⟨hexit, hretry, hcur⟩ := hgo hlt
    have hmax := obj.last_le
    have hu32 : u32 (s.written.length + 1) = s.written.length + 1 := by
      unfold uint32Max at hmax
      exact Nat.mod_eq_of_lt (by omega)
    refine Going.stands ⟨hrun, hexit.trans h.exit, hfront, by omega, ?_, ?_, ?_⟩
    · rw [hcur, h.cur, Option.getD_some, hu32, hlen]
    · rw [hretry]
      decide
    · rw [hretry]
      exact .none hrun

variable {k l : Nat}

/-- A chunk can be parsed. -/
theorem chunk_not_lost (hk : k ≤ obj.last) (ha : obj.Chunk k a) : ¬ Lost .ndntlv a := by
  obtain ⟨behind, hb, rfl⟩ := ha
  obtain ⟨next, final, p, hext, -⟩ := extract_chunk obj hk hb
  intro h
  cases hext.symm.trans h

/-- A packet is one chunk only. -/
theorem chunk_unique (hk : k ≤ obj.last) (hl : l ≤ obj.last) (ha : obj.Chunk k a)
    (ha' : obj.Chunk l a) : k = l := by
  obtain ⟨behind, hb, rfl⟩ := ha
  obtain ⟨behind', hb', heq⟩ := ha'
  obtain ⟨hwire, rfl⟩ := Answer.datagram.inj heq
  obtain ⟨next, final, p, hext, hnum, -⟩ := extract_chunk obj hk hb
  obtain ⟨next', final', p', hext', hnum', -⟩ := extract_chunk obj hl hb
  rw [← hwire, hext] at hext'
  obtain ⟨rfl, -⟩ := Prod.mk.inj (Except.ok.inj hext')
  exact Option.some.inj (hnum.symm.trans hnum')

/-- One more answer. -/
theorem Going.next (h : Going obj freed s₀ as s) (ha : obj.Allowed a)
    (hin : InOrder obj freed s a) : ∃ s', Stands obj freed s₀ (as ++ [a]) s' := by
  rcases ha with hlost | ⟨k, hk, hchunk⟩
  · have hne : ¬ obj.Chunk s.written.length a := fun hc => chunk_not_lost h.le hc hlost
    exact ⟨_, h.miss hne rfl (fetchStep_lost freed s (by decide) hlost)⟩
  · by_cases hneeded : k = s.written.length
    · subst hneeded
      exact h.hit hchunk (hin.2 hchunk)
    · have hother : ¬ (k = 0 ∨ s.curchunknum.getD 0 = k) := by
        rw [h.cur]
        rintro (rfl | rfl)
        · rw [hin.1 hchunk] at hneeded
          exact hneeded rfl
        · exact hneeded rfl
      have hne : ¬ obj.Chunk s.written.length a :=
        fun hc => hneeded (chunk_unique hk h.le hchunk hc)
      obtain ⟨p, hstep⟩ := fetchStep_other freed obj hk hchunk hother
      refine ⟨_, h.miss hne ?_ hstep⟩
      rfl

/-- An answer after which the program stands right is in order. -/
theorem Going.inOrder (h : Going obj freed s₀ as s)
    (hnext : ∃ s', fetchRun .ndntlv freed (as ++ [a]) s₀ = .ok s' ∧
      Fetched obj freed s₀ (as ++ [a]) s') : InOrder obj freed s a := by
  obtain ⟨s', hrun, hf⟩ := hnext
  rw [fetchRun_snoc h.run h.exit] at hrun
  -- what a chunk writes is the next chunk
  have hwrite : ∀ k, k ≤ obj.last → obj.Chunk k a → (k = 0 ∨ s.curchunknum.getD 0 = k) →
      k = s.written.length ∧ freed (obj.payload k) = obj.payload s.written.length := by
    intro k hk hchunk hit
    obtain ⟨s₁, hstep, hw, -⟩ := fetchStep_hit freed obj hk hchunk hit
    obtain rfl := Except.ok.inj (hrun.symm.trans hstep)
    have hfront := hf.written
    rw [hw, List.length_append, List.length_singleton, front_succ, ← h.written] at hfront
    obtain ⟨hnum, hbytes⟩ := Written.mk.inj (List.singleton_inj.mp (List.append_cancel_left hfront))
    exact ⟨Option.some.inj hnum, hbytes⟩
  refine ⟨fun hchunk => ?_, fun hchunk => (hwrite _ h.le hchunk (.inr h.cur)).2⟩
  exact List.eq_nil_of_length_eq_zero (hwrite 0 (Nat.zero_le _) hchunk (.inl rfl)).1.symm

/-- Each answer that the program still takes is in order. -/
def AllInOrder (obj : ChunkedObject .ndntlv) (freed : List UInt8 → List UInt8) (s₀ : Fetch)
    (as : List Answer) : Prop :=
  ∀ pre a s, pre ++ [a] <+: as → fetchRun .ndntlv freed pre s₀ = .ok s → s.exit = none →
    InOrder obj freed s a

/-- The program stands right after answers in order. -/
theorem stands_of_inOrder (h₀ : Going obj freed s₀ [] s₀) (hall : ∀ a ∈ as, obj.Allowed a)
    (hin : AllInOrder obj freed s₀ as) : ∃ s, Stands obj freed s₀ as s := by
  induction as using List.reverseRecOn with
  | nil => exact ⟨s₀, h₀.stands⟩
  | append_singleton as a ih =>
    obtain ⟨s, hs⟩ := ih (fun b hb => hall b (List.mem_append_left _ hb)) fun pre b t hpre =>
      hin pre b t (hpre.trans (List.prefix_append _ _))
    cases he : s.exit with
    | some v => exact ⟨s, hs.ended (by rw [he]; rfl)⟩
    | none =>
      exact (hs.2.2 he).next (hall a (by simp)) (hin as a s List.prefix_rfl hs.1 he)

/-- Only answers in order leave the program right at every moment. -/
theorem inOrder_of_fetched (h₀ : Going obj freed s₀ [] s₀) (hall : ∀ a ∈ as, obj.Allowed a)
    (hf : ∀ pre, pre <+: as → ∃ s, fetchRun .ndntlv freed pre s₀ = .ok s ∧
      Fetched obj freed s₀ pre s) : AllInOrder obj freed s₀ as := by
  induction as using List.reverseRecOn with
  | nil =>
    intro pre a s hpre
    simp at hpre
  | append_singleton as b ih =>
    have hall' : ∀ a ∈ as, obj.Allowed a := fun a ha => hall a (List.mem_append_left _ ha)
    have hin := ih hall' fun pre hpre => hf pre (hpre.trans (List.prefix_append _ _))
    intro pre a s hpre hrun hexit
    rcases List.prefix_concat_iff.mp hpre with heq | hpre
    · obtain ⟨rfl, hab⟩ := List.append_inj' heq rfl
      obtain rfl := List.singleton_inj.mp hab
      obtain ⟨s', hs'⟩ := stands_of_inOrder h₀ hall' hin
      obtain rfl := Except.ok.inj (hrun.symm.trans hs'.1)
      exact (hs'.2.2 hexit).inOrder (hf _ List.prefix_rfl)
    · exact hin pre a s hpre hrun hexit

end Ndn

/-! ## CCNx -/

section Ccnx

variable {freed : List UInt8 → List UInt8} {a : Answer} {as : List Answer}
  {obj : ChunkedObject .ccntlv} {k : Nat}

/-- A chunk is turned down like an answer that cannot be parsed. -/
theorem chunk_lost (hk : k ≤ obj.last) (ha : obj.Chunk k a) : Lost .ccntlv a := by
  obtain ⟨behind, hb, rfl⟩ := ha
  obtain ⟨pkt, hpkt, -⟩ := obj.chunks k hk behind hb
  obtain ⟨isData, hdata, hpkt⟩ := (bind_eq_ok _ _ _).mp hpkt
  cases isData with
  | false => simp at hpkt
  | true =>
    show extractDataAndChunkInfo .ccntlv _ _ = _
    rw [extractDataAndChunkInfo, extractPkt]
    dsimp only
    rw [hdata]
    rfl

theorem lost_of_allowed (ha : obj.Allowed a) : Lost .ccntlv a := by
  rcases ha with hlost | ⟨k, hk, hchunk⟩
  · exact hlost
  · exact chunk_lost hk hchunk

/-- Every answer is a miss. -/
theorem ccnx_run (freed : List UInt8 → List UInt8) (pfx : Prefix)
    (hall : ∀ a ∈ as, obj.Allowed a) :
    ∃ s, fetchRun .ccntlv freed as (.start .ccntlv pfx) = .ok s ∧ s.written = [] ∧
      (as.length < maxretry → s.exit = none ∧ s.retry = as.length) ∧
      (maxretry ≤ as.length → s.exit = some 1) := by
  induction as using List.reverseRecOn with
  | nil => exact ⟨_, rfl, rfl, fun _ => ⟨rfl, rfl⟩, fun h => nomatch h⟩
  | append_singleton as a ih =>
    obtain ⟨s, hrun, hw, hgoes, hends⟩ := ih fun b hb => hall b (List.mem_append_left _ hb)
    rw [List.length_append, List.length_singleton]
    by_cases hlt : as.length < maxretry
    · obtain ⟨hnone, hretry⟩ := hgoes hlt
      have hstep := fetchStep_lost freed s (by decide)
        (lost_of_allowed (hall a (by simp)))
      refine ⟨_, (fetchRun_snoc hrun hnone).trans hstep, hw, fun h => ⟨?_, ?_⟩, fun h => ?_⟩
      · exact if_pos (by rw [hretry]; exact h)
      · rw [← hretry]
        rfl
      · exact if_neg (by rw [hretry]; exact Nat.not_lt.mpr h)
    · have hdone := hends (Nat.not_lt.mp hlt)
      exact ⟨s, by rw [fetchRun_append, hrun, ok_bind, fetchRun_ended (by rw [hdone]; rfl)], hw,
        fun h => absurd (Nat.lt_of_succ_lt h) hlt, fun _ => hdone⟩

/-- The chunk needed is chunk 0 for ever, so the program must not see it. -/
theorem ccnx_fetched_iff (hall : ∀ a ∈ as, obj.Allowed a) (pfx : Prefix) :
    (∀ pre, pre <+: as → ∃ s, fetchRun .ccntlv freed pre (.start .ccntlv pfx) = .ok s ∧
        Fetched obj freed (.start .ccntlv pfx) pre s) ↔
      (as.length < maxretry ∨ ∀ a ∈ as.take maxretry, ¬ obj.Chunk 0 a) := by
  constructor
  · intro hf
    by_cases hlt : as.length < maxretry
    · exact .inl hlt
    refine .inr ?_
    have htake : (as.take maxretry).length = maxretry := by
      rw [List.length_take]
      omega
    have hpre := List.take_prefix maxretry as
    obtain ⟨s, hrun, hf⟩ := hf _ hpre
    obtain ⟨s', hrun', hw, -, hends⟩ := ccnx_run freed pfx
      (fun a ha => hall a (hpre.subset ha))
    obtain rfl := Except.ok.inj (hrun.symm.trans hrun')
    obtain ⟨pre, x, y, z, s₁, hxyz, -, -, hne⟩ := hf.gaveUp (hends (Nat.le_of_eq htake.symm))
    have hlen := hxyz.length_le
    rw [List.length_append, htake] at hlen
    have hnil : pre.length = 0 := Nat.le_zero.mp (Nat.le_of_add_le_add_right hlen)
    obtain rfl := List.eq_nil_of_length_eq_zero hnil
    have hall3 : [x, y, z] = as.take maxretry := hxyz.eq_of_length htake.symm
    rw [← hall3]
    rw [hw] at hne
    exact hne
  · intro h pre hpre
    obtain ⟨s, hrun, hw, hgoes, hends⟩ := ccnx_run freed pfx
      (fun a ha => hall a (hpre.subset ha))
    have hnothing : s.written.length = 0 := by rw [hw]; rfl
    refine ⟨s, hrun, ⟨by rw [hw]; rfl, by omega, fun hd => ?_, fun hg => ?_⟩⟩
    · by_cases hlt : pre.length < maxretry
      · simp [(hgoes hlt).1] at hd
      · simp [hends (Nat.not_lt.mp hlt)] at hd
    · have hge : maxretry ≤ pre.length := by
        by_contra hlt
        simp [(hgoes (Nat.not_le.mp hlt)).1] at hg
      have hle := hpre.length_le
      have hnone := h.resolve_left (by omega)
      have htake : (as.take maxretry).length = 3 := List.length_take_of_le (by omega)
      match has : as.take maxretry, htake with
      | [x, y, z], _ =>
        rw [has] at hnone
        refine ⟨[], x, y, z, _, ?_, rfl, hw.symm, ?_⟩
        · rw [List.nil_append, ← has]
          exact List.prefix_of_prefix_length_le (List.take_prefix _ _) hpre
            (Nat.le_trans (Nat.le_of_eq (by rw [has]; rfl)) hge)
        · rw [hnothing]
          exact hnone

end Ccnx

/-! ## An object -/

/-- What `ndntlvParse` makes of a Data packet. -/
theorem ndntlvAfterHead_of_parse {mem : List UInt8} {len : Nat} {pkt : Pkt} {c : Cursor}
    (h : ndntlvParse mem ⟨0, len⟩ = .ok (pkt, c)) (htype : pkt.type = ndnTlvData) :
    ∃ pkt', ndntlvAfterHead mem len = .ok pkt' ∧ pkt = { pkt' with type := ndnTlvData } := by
  obtain ⟨typ, len', c₁, pkt', hhead, -, hpkt, rfl⟩ := ndntlvParse_eq_ok.mp h
  have htyp : typ = ndnTlvData := htype
  refine ⟨pkt', ?_, by rw [htyp]⟩
  rw [ndntlvAfterHead, hhead, ok_bind]
  dsimp only
  rw [if_neg (not_not_intro htyp), hpkt]
  rfl

/-- The object of the chunks that the NDN encoder makes of payloads. The last chunk number is less
than the one that stands for none. -/
def producedObject (name : Prefix) (last : UInt32) (payload : Nat → List UInt8)
    (hname : NdnEncodable name) (hlast : last.toNat ≠ uint32Max)
    (hlen : ∀ k ≤ last.toNat, (ndnData { name with chunknum := some k } (payload k)
      (some { finalblockid := last })).length < 2 ^ 32) : ChunkedObject .ndntlv where
  name := name.comps
  last := last.toNat
  last_le := Nat.le_of_lt_succ last.toNat_lt
  payload := payload
  wire k := ndnData { name with chunknum := some k } (payload k) (some { finalblockid := last })
  chunks k hk behind hb := by
    obtain ⟨b, behind, rfl⟩ := List.exists_cons_of_ne_nil hb
    have hk32 : k ≤ uint32Max := Nat.le_trans hk (Nat.le_of_lt_succ last.toNat_lt)
    have hnamek : NdnEncodable { name with chunknum := some k } :=
      ⟨hname.count, hname.comp, fun l hl => by cases hl; exact hk32⟩
    obtain ⟨pkt, hsame, hparse⟩ := parse_data hnamek (at_mid [] _ (b :: behind)) (hlen k hk)
    rw [List.nil_append, List.length_nil, Nat.zero_add, rd_eq_ok.mpr (by
      rw [List.getElem?_append_right (Nat.le_refl _), Nat.sub_self, List.getElem?_cons_zero]),
      ok_bind] at hparse
    obtain ⟨pkt', hpkt, rfl⟩ := ndntlvAfterHead_of_parse hparse hsame.type
    obtain ⟨q, hq, hcomps, hnum⟩ := hsame.name
    obtain ⟨c, hc, hbytes, -⟩ := hsame.content
    refine ⟨pkt', hpkt, ⟨⟨q, _, hq, hcomps, rfl, hnum⟩, ?_, .inl ?_⟩⟩
    · rw [Pkt.contentBytes, show pkt'.content = some c from hc]
      exact hbytes
    · exact hsame.finalBlockId.trans (if_pos hlast)

/-- The object /a with two chunks of one byte. -/
def twoChunks : ChunkedObject .ndntlv :=
  producedObject (slashA .ndntlv) 1 (fun k => [UInt8.ofNat k])
    ⟨by decide, by decide, fun k hk => nomatch hk⟩ (by decide)
    fun k hk => by
      obtain rfl | rfl : k = 0 ∨ k = 1 := by
        have hk : k ≤ 1 := hk
        omega
      · decide +kernel
      · decide +kernel

/-- Chunk `k` as an answer. -/
def answerOf (k : Nat) : Answer := .datagram (twoChunks.wire k) [0]

theorem chunk_answerOf (k : Nat) : twoChunks.Chunk k (answerOf k) := ⟨[0], by decide, rfl⟩

/-! ## Both formats -/

/-- When the program does right on the answers `as`. With NDN each answer must be in order while the
program runs; with CCNx none of the three answers that it waits for may be the first chunk. -/
def Orderly : {suite : Suite} → ChunkedObject suite → (List UInt8 → List UInt8) → Fetch →
    List Answer → Prop
  | .ndntlv, obj, freed, s₀, as => AllInOrder obj freed s₀ as
  | .ccntlv, obj, _, _, as => as.length < maxretry ∨ ∀ a ∈ as.take maxretry, ¬ obj.Chunk 0 a
  | .ccnb, _, _, _, _ | .localrpc, _, _, _, _ => True

theorem start_going (obj : ChunkedObject .ndntlv) (freed : List UInt8 → List UInt8)
    (pfx : Prefix) : Going obj freed (.start .ndntlv pfx) [] (.start .ndntlv pfx) :=
  ⟨rfl, rfl, rfl, Nat.zero_le _, rfl, Nat.zero_lt_succ 2, .none rfl⟩

/-- The program writes the object and nothing else, and gives up only after three misses, exactly
when the answers are orderly. -/
theorem fetched_iff {suite : Suite} (obj : ChunkedObject suite) (freed : List UInt8 → List UInt8)
    (pfx : Prefix) (as : List Answer) (hall : ∀ a ∈ as, obj.Allowed a) :
    (∀ pre, pre <+: as → ∃ s, fetchRun suite freed pre (.start suite pfx) = .ok s ∧
        Fetched obj freed (.start suite pfx) pre s) ↔
      Orderly obj freed (.start suite pfx) as := by
  cases suite with
  | ndntlv =>
    refine ⟨inOrder_of_fetched (start_going obj freed pfx) hall, fun hin pre hpre => ?_⟩
    have hall' : ∀ a ∈ pre, obj.Allowed a := fun a ha => hall a (hpre.subset ha)
    obtain ⟨s, hs⟩ := stands_of_inOrder (start_going obj freed pfx) hall' fun pre' a s h =>
      hin pre' a s (h.trans hpre)
    exact ⟨s, hs.1, hs.2.1⟩
  | ccntlv => exact ccnx_fetched_iff hall pfx
  | ccnb =>
    obtain ⟨pkt, hpkt, -⟩ := obj.chunks 0 (Nat.zero_le _) [0] (by decide)
    cases hpkt
  | localrpc =>
    obtain ⟨pkt, hpkt, -⟩ := obj.chunks 0 (Nat.zero_le _) [0] (by decide)
    cases hpkt

theorem fetched_iff_two :
    (∀ pre, pre <+: [answerOf 0, .timeout, answerOf 1] → ∃ s,
        fetchRun .ndntlv id pre (.start .ndntlv (slashA .ndntlv)) = .ok s ∧
          Fetched twoChunks id (.start .ndntlv (slashA .ndntlv)) pre s) ↔
      Orderly twoChunks id (.start .ndntlv (slashA .ndntlv)) [answerOf 0, .timeout, answerOf 1] :=
  fetched_iff twoChunks id (slashA .ndntlv) [answerOf 0, .timeout, answerOf 1] (by
    intro a ha
    simp only [List.mem_cons, List.not_mem_nil, or_false] at ha
    obtain rfl | rfl | rfl := ha
    · exact .inr ⟨0, Nat.zero_le _, chunk_answerOf 0⟩
    · exact .inl trivial
    · exact .inr ⟨1, Nat.le_refl _, chunk_answerOf 1⟩)

/-- Chunk 0 comes twice, and is written twice, though the freed buffer still has its bytes. -/
theorem fetched_twice :
    ¬ ∀ (obj : ChunkedObject .ndntlv) (pfx : Prefix) (as : List Answer),
      (∀ a ∈ as, obj.Allowed a) → ∀ pre, pre <+: as → ∃ s,
        fetchRun .ndntlv id pre (.start .ndntlv pfx) = .ok s ∧
          Fetched obj id (.start .ndntlv pfx) pre s := by
  intro h
  have hall : ∀ a ∈ [answerOf 0, answerOf 0], twoChunks.Allowed a := by
    intro a ha
    obtain rfl : a = answerOf 0 := by simpa using ha
    exact .inr ⟨0, Nat.zero_le _, chunk_answerOf 0⟩
  have hgoing := start_going twoChunks id (slashA .ndntlv)
  obtain ⟨s, hstep, hw, -, hgo⟩ := fetchStep_hit id
    (s := .start .ndntlv (slashA .ndntlv)) twoChunks (Nat.zero_le _) (chunk_answerOf 0) (.inl rfl)
  have hrun := (fetchRun_snoc (a := answerOf 0) hgoing.run hgoing.exit).trans hstep
  have hin := inOrder_of_fetched hgoing hall (h twoChunks _ _ hall)
  have hnil := (hin [answerOf 0] (answerOf 0) s List.prefix_rfl hrun (hgo Nat.zero_lt_one).1).1
    (chunk_answerOf 0)
  rw [hw] at hnil
  cases hnil

end Ccnl
