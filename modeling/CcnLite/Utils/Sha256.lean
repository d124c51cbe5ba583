import CcnLite.Lib.Blocks
import CcnLite.Utils.Rfc2104
import Mathlib.Tactic.IntervalCases

/-!
# SHA-256 (`lib-sha256.c`)

A context holds the chaining value, the number of bits so far, and a buffer that is both the block
that is not full yet and the working space of `ccnl_SHA256_Transform`: after a transform the buffer
holds the last words of the message schedule, and what it held before is lost. The host is little
endian, so a word is loaded from four bytes and then reversed.

`Sha256.digest` is FIPS 180-4 on a list of bytes. `Sha256.Rep ctx data`: the context stands for the
data. Each function keeps it (`rep_init`, `rep_update`, `final_rep`), in whatever pieces the data
comes. So the contexts of `ccnl-ext-hmac.c` are the ones of `Sha256Ctx`, with `sha256` for the hash
(`sha256_refines`).
-/

namespace Ccnl

open CRun Front List

namespace Sha256

/-! ## Words and bytes -/

/-- Four bytes as a word, the most significant first. -/
def word (b₀ b₁ b₂ b₃ : UInt8) : UInt32 :=
  (b₀.toUInt32 <<< 24) ||| (b₁.toUInt32 <<< 16) ||| (b₂.toUInt32 <<< 8) ||| b₃.toUInt32

/-- The bytes of a word, the most significant first. -/
def bytes32 (w : UInt32) : List UInt8 :=
  [(w >>> 24).toUInt8, (w >>> 16).toUInt8, (w >>> 8).toUInt8, w.toUInt8]

def bytes64 (w : UInt64) : List UInt8 :=
  [(w >>> 56).toUInt8, (w >>> 48).toUInt8, (w >>> 40).toUInt8, (w >>> 32).toUInt8,
    (w >>> 24).toUInt8, (w >>> 16).toUInt8, (w >>> 8).toUInt8, w.toUInt8]

/-- A little endian host loads the word at `p[j]`. -/
def load32 (p : List UInt8) (j : Nat) : UInt32 :=
  word (p.getD (4 * j + 3) 0) (p.getD (4 * j + 2) 0) (p.getD (4 * j + 1) 0) (p.getD (4 * j) 0)

/-- The bytes that a little endian host stores. -/
def store32 (w : UInt32) : List UInt8 := (bytes32 w).reverse

def store64 (w : UInt64) : List UInt8 := (bytes64 w).reverse

/-- `REVERSE32`. -/
def reverse32 (w : UInt32) : UInt32 :=
  let tmp := (w >>> 16) ||| (w <<< 16)
  ((tmp &&& 0xff00ff00) >>> 8) ||| ((tmp &&& 0x00ff00ff) <<< 8)

/-- `REVERSE64`. -/
def reverse64 (w : UInt64) : UInt64 :=
  let tmp := (w >>> 32) ||| (w <<< 32)
  let tmp := ((tmp &&& 0xff00ff00ff00ff00) >>> 8) ||| ((tmp &&& 0x00ff00ff00ff00ff) <<< 8)
  ((tmp &&& 0xffff0000ffff0000) >>> 16) ||| ((tmp &&& 0x0000ffff0000ffff) <<< 16)

/-! ## The six functions -/

/-- `S32`: to the right, around. -/
def S32 (b x : UInt32) : UInt32 := (x >>> b) ||| (x <<< (32 - b))

def Ch (x y z : UInt32) : UInt32 := (x &&& y) ^^^ (~~~x &&& z)

def Maj (x y z : UInt32) : UInt32 := (x &&& y) ^^^ (x &&& z) ^^^ (y &&& z)

/-- `Sigma0_256`. -/
def Sigma0 (x : UInt32) : UInt32 := S32 2 x ^^^ S32 13 x ^^^ S32 22 x

/-- `Sigma1_256`. -/
def Sigma1 (x : UInt32) : UInt32 := S32 6 x ^^^ S32 11 x ^^^ S32 25 x

/-- `sigma0_256`. -/
def sigma0 (x : UInt32) : UInt32 := S32 7 x ^^^ S32 18 x ^^^ (x >>> 3)

/-- `sigma1_256`. -/
def sigma1 (x : UInt32) : UInt32 := S32 17 x ^^^ S32 19 x ^^^ (x >>> 10)

/-- `K256`. -/
def K256 : List UInt32 := [
  0x428a2f98, 0x71374491, 0xb5c0fbcf, 0xe9b5dba5,
  0x3956c25b, 0x59f111f1, 0x923f82a4, 0xab1c5ed5,
  0xd807aa98, 0x12835b01, 0x243185be, 0x550c7dc3,
  0x72be5d74, 0x80deb1fe, 0x9bdc06a7, 0xc19bf174,
  0xe49b69c1, 0xefbe4786, 0x0fc19dc6, 0x240ca1cc,
  0x2de92c6f, 0x4a7484aa, 0x5cb0a9dc, 0x76f988da,
  0x983e5152, 0xa831c66d, 0xb00327c8, 0xbf597fc7,
  0xc6e00bf3, 0xd5a79147, 0x06ca6351, 0x14292967,
  0x27b70a85, 0x2e1b2138, 0x4d2c6dfc, 0x53380d13,
  0x650a7354, 0x766a0abb, 0x81c2c92e, 0x92722c85,
  0xa2bfe8a1, 0xa81a664b, 0xc24b8b70, 0xc76c51a3,
  0xd192e819, 0xd6990624, 0xf40e3585, 0x106aa070,
  0x19a4c116, 0x1e376c08, 0x2748774c, 0x34b0bcb5,
  0x391c0cb3, 0x4ed8aa4a, 0x5b9cca4f, 0x682e6ff3,
  0x748f82ee, 0x78a5636f, 0x84c87814, 0x8cc70208,
  0x90befffa, 0xa4506ceb, 0xbef9a3f7, 0xc67178f2]

/-- `state`, and the registers `a` to `h`. -/
structure Regs where
  a : UInt32
  b : UInt32
  c : UInt32
  d : UInt32
  e : UInt32
  f : UInt32
  g : UInt32
  h : UInt32
  deriving DecidableEq, Repr

namespace Regs

def add (r s : Regs) : Regs :=
  ⟨r.a + s.a, r.b + s.b, r.c + s.c, r.d + s.d, r.e + s.e, r.f + s.f, r.g + s.g, r.h + s.h⟩

def words (r : Regs) : List UInt32 := [r.a, r.b, r.c, r.d, r.e, r.f, r.g, r.h]

/-- One round, with the constant `k` and the word `w` of the schedule. -/
def round (r : Regs) (k w : UInt32) : Regs :=
  let T1 := r.h + Sigma1 r.e + Ch r.e r.f r.g + k + w
  let T2 := Sigma0 r.a + Maj r.a r.b r.c
  ⟨T1 + T2, r.a, r.b, r.c, r.d + T1, r.e, r.f, r.g⟩

end Regs

/-- `sha256_initial_hash_value`. -/
def initialHashValue : Regs :=
  ⟨0x6a09e667, 0xbb67ae85, 0x3c6ef372, 0xa54ff53a, 0x510e527f, 0x9b05688c, 0x1f83d9ab, 0x5be0cd19⟩

/-! ## The functions -/

/-- `SHA256_CTX_t`. -/
structure Ctx where
  state : Regs
  bitcount : UInt64
  buffer : List UInt8
  deriving DecidableEq, Repr

/-- `ccnl_SHA256_Init`. -/
def init : Ctx := ⟨initialHashValue, 0, replicate 64 0⟩

/-- A pass of the first loop of `ccnl_SHA256_Transform`. -/
def firstPass (data : List UInt8) (s : Regs × List UInt32) (j : Nat) : Regs × List UInt32 :=
  let W256 := s.2.set j (reverse32 (load32 data j))
  (s.1.round (K256.getD j 0) (W256.getD j 0), W256)

/-- A pass of the second loop. -/
def secondPass (s : Regs × List UInt32) (j : Nat) : Regs × List UInt32 :=
  let s0 := sigma0 (s.2.getD ((j + 1) % 16) 0)
  let s1 := sigma1 (s.2.getD ((j + 14) % 16) 0)
  let W256 := s.2.set (j % 16) (s.2.getD (j % 16) 0 + (s1 + s.2.getD ((j + 9) % 16) 0 + s0))
  (s.1.round (K256.getD j 0) (W256.getD (j % 16) 0), W256)

/-- `ccnl_SHA256_Transform`. The words of `data` are read before they are written to, when `data` is
the buffer itself. -/
def transform (context : Ctx) (data : List UInt8) : Ctx :=
  let W256 := (range 16).map (load32 context.buffer)
  let s := (range 16).foldl (firstPass data) (context.state, W256)
  let s := (range' 16 48).foldl secondPass s
  { context with state := context.state.add s.1, buffer := s.2.flatMap store32 }

/-- The loop of `ccnl_SHA256_Update` over the blocks, for at most `n` of them. -/
def updateBlocks : Nat → Ctx → List UInt8 → Ctx × List UInt8
  | 0, context, data => (context, data)
  | n + 1, context, data =>
    if 64 ≤ data.length then
      let context := transform context (data.take 64)
      updateBlocks n { context with bitcount := context.bitcount + ((64 : UInt64) <<< 3) } (data.drop 64)
    else (context, data)

/-- The number of bytes in the buffer. -/
def Ctx.usedspace (context : Ctx) : Nat := ((context.bitcount >>> 3) % 64).toNat

/-- `ccnl_SHA256_Update` from the loop on. -/
def updateRest (context : Ctx) (data : List UInt8) : Ctx :=
  let (context, data) := updateBlocks (data.length / 64) context data
  if 0 < data.length then
    { context with
      buffer := splice context.buffer 0 data
      bitcount := context.bitcount + (UInt64.ofNat data.length <<< 3) }
  else context

/-- `ccnl_SHA256_Update`. -/
def update (context : Ctx) (data : List UInt8) : Ctx :=
  if data.length = 0 then context
  else
    let usedspace := context.usedspace
    if 0 < usedspace then
      let freespace := 64 - usedspace
      if freespace ≤ data.length then
        let context := { context with
          buffer := splice context.buffer usedspace (data.take freespace)
          bitcount := context.bitcount + (UInt64.ofNat freespace <<< 3) }
        updateRest (transform context context.buffer) (data.drop freespace)
      else
        { context with
          buffer := splice context.buffer usedspace data
          bitcount := context.bitcount + (UInt64.ofNat data.length <<< 3) }
    else updateRest context data

/-- The padding of `ccnl_SHA256_Final`, up to the bit count. -/
def finalPad (usedspace : Nat) (context : Ctx) : Ctx :=
  if 0 < usedspace then
    let context := { context with buffer := context.buffer.set usedspace 0x80 }
    let usedspace := usedspace + 1
    if usedspace ≤ 56 then
      { context with buffer := splice context.buffer usedspace (replicate (56 - usedspace) 0) }
    else
      let context := if usedspace < 64 then
          { context with buffer := splice context.buffer usedspace (replicate (64 - usedspace) 0) }
        else context
      let context := transform context context.buffer
      { context with buffer := splice context.buffer 0 (replicate 56 0) }
  else { context with buffer := (splice context.buffer 0 (replicate 56 0)).set 0 0x80 }

/-- `ccnl_SHA256_Final`, and the context that it has cleared. -/
def final (context : Ctx) : List UInt8 × Ctx :=
  let usedspace := context.usedspace
  let context := finalPad usedspace { context with bitcount := reverse64 context.bitcount }
  let context := { context with buffer := splice context.buffer 56 (store64 context.bitcount) }
  let context := transform context context.buffer
  (context.state.words.flatMap fun w => store32 (reverse32 w),
    ⟨⟨0, 0, 0, 0, 0, 0, 0, 0⟩, 0, replicate 64 0⟩)

/-! ## FIPS 180-4 -/

/-- The word `t` of a block. -/
def blockWord (block : List UInt8) (t : Nat) : UInt32 :=
  word (block.getD (4 * t) 0) (block.getD (4 * t + 1) 0) (block.getD (4 * t + 2) 0)
    (block.getD (4 * t + 3) 0)

/-- The message schedule. -/
def schedule (block : List UInt8) (t : Nat) : UInt32 :=
  if _ : t < 16 then blockWord block t
  else sigma1 (schedule block (t - 2)) + schedule block (t - 7) +
    sigma0 (schedule block (t - 15)) + schedule block (t - 16)
termination_by t

/-- The first `n` rounds for a block. -/
def rounds (block : List UInt8) (r : Regs) (n : Nat) : Regs :=
  (range n).foldl (fun r t => r.round (K256.getD t 0) (schedule block t)) r

/-- The compression function. -/
def compress (H : Regs) (block : List UInt8) : Regs := H.add (rounds block H 64)

/-- The zeros between the one bit and the length. -/
def padZeros (n : Nat) : Nat := (119 - n % 64) % 64

/-- The padding behind a message of `n` bytes. The length is a number of bits, of 64 bits. -/
def padding (n : Nat) : List UInt8 :=
  0x80 :: (replicate (padZeros n) 0 ++ bytes64 (UInt64.ofNat (8 * n)))

/-- The digest of a message. -/
def digest (message : List UInt8) : List UInt8 :=
  (absorb compress 64 initialHashValue (message ++ padding message.length)).1.words.flatMap bytes32

/-! ## Words -/

section Words

/-- `REVERSE32` of a word that a little endian host has loaded. -/
theorem reverse32_word (b₀ b₁ b₂ b₃ : UInt8) : reverse32 (word b₃ b₂ b₁ b₀) = word b₀ b₁ b₂ b₃ := by
  refine UInt32.toBitVec_inj.mp (BitVec.eq_of_getLsbD_eq fun i hi => ?_)
  simp only [reverse32, word, UInt32.toBitVec_or, UInt32.toBitVec_and, UInt32.toBitVec_shiftLeft,
    UInt32.toBitVec_shiftRight, UInt8.toBitVec_toUInt32, BitVec.getLsbD_or]
  interval_cases i <;> simp

/-- A little endian host stores the bytes of a word in order when the word has been reversed. -/
theorem store32_reverse32 (w : UInt32) : store32 (reverse32 w) = bytes32 w := by
  simp only [store32, bytes32, reverse_cons, reverse_nil, nil_append, cons_append, cons.injEq,
    and_true]
  refine ⟨?_, ?_, ?_, ?_⟩ <;>
  · refine UInt8.toBitVec_inj.mp (BitVec.eq_of_getLsbD_eq fun i hi => ?_)
    simp only [reverse32, UInt32.toBitVec_toUInt8, UInt32.toBitVec_or, UInt32.toBitVec_and,
      UInt32.toBitVec_shiftLeft, UInt32.toBitVec_shiftRight]
    interval_cases i <;> simp

theorem store64_reverse64 (w : UInt64) : store64 (reverse64 w) = bytes64 w := by
  simp only [store64, bytes64, reverse_cons, reverse_nil, nil_append, cons_append, cons.injEq,
    and_true]
  refine ⟨?_, ?_, ?_, ?_, ?_, ?_, ?_, ?_⟩ <;>
  · refine UInt8.toBitVec_inj.mp (BitVec.eq_of_getLsbD_eq fun i hi => ?_)
    simp only [reverse64, UInt64.toBitVec_toUInt8, UInt64.toBitVec_or, UInt64.toBitVec_and,
      UInt64.toBitVec_shiftLeft, UInt64.toBitVec_shiftRight]
    interval_cases i <;> simp

@[simp] theorem length_store32 (w : UInt32) : (store32 w).length = 4 := rfl

@[simp] theorem length_store64 (w : UInt64) : (store64 w).length = 8 := rfl

@[simp] theorem length_bytes64 (w : UInt64) : (bytes64 w).length = 8 := rfl

end Words

/-! ## A transform -/

section Transform

variable {data : List UInt8} {r : Regs} {W : List UInt32}

theorem getD_set_self {j : Nat} (w : UInt32) (h : j < W.length) : (W.set j w).getD j 0 = w := by
  simp [getD_eq_getElem?_getD, h]

theorem getD_set_ne {i j : Nat} (w : UInt32) (h : j ≠ i) : (W.set j w).getD i 0 = W.getD i 0 := by
  simp [getD_eq_getElem?_getD, h]

theorem schedule_first {t : Nat} (h : t < 16) : schedule data t = blockWord data t := by
  rw [schedule, dif_pos h]

theorem schedule_next {t : Nat} (h : 16 ≤ t) :
    schedule data t = sigma1 (schedule data (t - 2)) + schedule data (t - 7) +
      sigma0 (schedule data (t - 15)) + schedule data (t - 16) := by
  rw [schedule, dif_neg (Nat.not_lt.mpr h)]

theorem rounds_succ (t : Nat) :
    rounds data r (t + 1) = (rounds data r t).round (K256.getD t 0) (schedule data t) := by
  simp [rounds, range_succ]

/-- The first loop: the rounds, and the words of the block. -/
theorem firstLoop (hW : W.length = 16) {n : Nat} (hn : n ≤ 16) :
    let s := (range n).foldl (firstPass data) (r, W)
    s.1 = rounds data r n ∧ s.2.length = 16 ∧ ∀ i < n, s.2.getD i 0 = schedule data i := by
  induction n with
  | zero => exact ⟨rfl, hW, fun i hi => absurd hi (Nat.not_lt_zero i)⟩
  | succ n ih =>
    obtain ⟨hr, hlen, hw⟩ := ih (by omega)
    simp only [range_succ, foldl_append, foldl_cons, foldl_nil]
    generalize (range n).foldl (firstPass data) (r, W) = s at hr hlen hw
    have hnew : reverse32 (load32 data n) = schedule data n := by
      rw [schedule_first (by omega), load32, reverse32_word, blockWord]
    refine ⟨?_, by simpa [firstPass] using hlen, fun i hi => ?_⟩
    · simp only [firstPass]
      rw [getD_set_self _ (by omega), hnew, hr, rounds_succ]
    · simp only [firstPass]
      by_cases hin : n = i
      · rw [hin, getD_set_self _ (by omega), ← hin, hnew]
      · rw [getD_set_ne _ hin, hw i (by omega)]

/-- The second loop: the rounds, and the last 16 words of the schedule, each in its place. -/
theorem secondLoop {s₀ : Regs × List UInt32} (hr₀ : s₀.1 = rounds data r 16)
    (hlen₀ : s₀.2.length = 16) (hw₀ : ∀ i < 16, s₀.2.getD i 0 = schedule data i) (n : Nat) :
    let s := (range' 16 n).foldl secondPass s₀
    s.1 = rounds data r (16 + n) ∧ s.2.length = 16 ∧
      ∀ i, n ≤ i → i < 16 + n → s.2.getD (i % 16) 0 = schedule data i := by
  induction n with
  | zero =>
    refine ⟨hr₀, hlen₀, fun i _ hi => ?_⟩
    rw [Nat.mod_eq_of_lt hi]
    exact hw₀ i hi
  | succ n ih =>
    obtain ⟨hr, hlen, hw⟩ := ih
    simp only [range'_concat, Nat.one_mul, foldl_append, foldl_cons, foldl_nil]
    generalize (range' 16 n).foldl secondPass s₀ = s at hr hlen hw
    have h1 : s.2.getD ((16 + n + 1) % 16) 0 = schedule data (16 + n - 15) := by
      rw [← hw (16 + n - 15) (by omega) (by omega)]
      congr 1
      omega
    have h14 : s.2.getD ((16 + n + 14) % 16) 0 = schedule data (16 + n - 2) := by
      rw [← hw (16 + n - 2) (by omega) (by omega)]
      congr 1
      omega
    have h9 : s.2.getD ((16 + n + 9) % 16) 0 = schedule data (16 + n - 7) := by
      rw [← hw (16 + n - 7) (by omega) (by omega)]
      congr 1
      omega
    have h0 : s.2.getD ((16 + n) % 16) 0 = schedule data (16 + n - 16) := by
      rw [← hw (16 + n - 16) (by omega) (by omega)]
      congr 1
      omega
    have hnew : s.2.getD ((16 + n) % 16) 0 + (sigma1 (s.2.getD ((16 + n + 14) % 16) 0) +
        s.2.getD ((16 + n + 9) % 16) 0 + sigma0 (s.2.getD ((16 + n + 1) % 16) 0)) =
        schedule data (16 + n) := by
      rw [h0, h14, h9, h1, schedule_next (t := 16 + n) (by omega), UInt32.add_comm]
    have hplace : (16 + n) % 16 < s.2.length := by omega
    simp only [secondPass, hnew]
    refine ⟨?_, by rw [length_set, hlen], fun i hi hi' => ?_⟩
    · rw [getD_set_self _ hplace, hr, ← Nat.add_assoc, rounds_succ]
    · by_cases hin : i = 16 + n
      · rw [hin, getD_set_self _ hplace]
      · rw [getD_set_ne _ (by omega), hw i (by omega) (by omega)]

theorem length_store (W : List UInt32) : (W.flatMap store32).length = 4 * W.length := by
  induction W with
  | nil => rfl
  | cons w W ih =>
    rw [flatMap_cons, length_append, ih, length_store32, length_cons]
    omega

/-- A transform compresses the block. -/
theorem transform_eq (context : Ctx) (data : List UInt8) :
    (transform context data).state = compress context.state data ∧
      (transform context data).bitcount = context.bitcount ∧
      (transform context data).buffer.length = 64 := by
  have hW : ((range 16).map (load32 context.buffer)).length = 16 := by simp
  obtain ⟨hr, hlen, hw⟩ := @firstLoop data context.state _ hW 16 (Nat.le_refl _)
  obtain ⟨hr', hlen', -⟩ := secondLoop hr hlen hw 48
  simp only [transform, length_store, hlen', hr', compress, Nat.reduceAdd, Nat.reduceMul, and_self]

end Transform

/-! ## Data in pieces -/

/-- The context stands for the data. -/
structure Rep (context : Ctx) (data : List UInt8) : Prop where
  state : context.state = (absorb compress 64 initialHashValue data).1
  bitcount : context.bitcount = UInt64.ofNat (8 * data.length)
  buffer : context.buffer.length = 64
  /-- What is left of the data is at the start of the buffer. -/
  pending : context.buffer.take (data.length % 64) = (absorb compress 64 initialHashValue data).2

theorem rep_init : Rep init [] := by
  refine ⟨?_, rfl, rfl, ?_⟩ <;> rw [absorb_nil (by decide)] <;> rfl

section Pieces

variable {context : Ctx} {data piece : List UInt8}

theorem bitcount_add (l n : Nat) :
    UInt64.ofNat (8 * l) + (UInt64.ofNat n <<< 3) = UInt64.ofNat (8 * (l + n)) := by
  refine UInt64.toNat_inj.mp ?_
  simp only [UInt64.toNat_add, UInt64.toNat_shiftLeft, UInt64.toNat_ofNat', Nat.shiftLeft_eq]
  have h3 : (3 : UInt64).toNat % 64 = 3 := rfl
  rw [h3]
  omega

theorem bitcount_mul (n : Nat) : UInt64.ofNat (8 * n) = UInt64.ofNat n <<< 3 := by
  have hadd := bitcount_add 0 n
  rw [Nat.zero_add] at hadd
  rw [← hadd]
  exact UInt64.zero_add _

theorem Rep.usedspace (h : Rep context data) : context.usedspace = data.length % 64 := by
  unfold Ctx.usedspace
  rw [h.bitcount]
  simp only [UInt64.toNat_mod, UInt64.toNat_shiftRight, UInt64.toNat_ofNat', Nat.shiftRight_eq_div_pow]
  have h3 : (3 : UInt64).toNat % 64 = 3 := rfl
  have h64 : (64 : UInt64).toNat = 64 := rfl
  rw [h3, h64]
  omega

/-- The loop over the blocks. -/
theorem updateBlocks_eq {n : Nat} (hn : piece.length / 64 = n) (hb : context.buffer.length = 64) :
    let r := updateBlocks n context piece
    r.1.state = (absorb compress 64 context.state piece).1 ∧
      r.1.bitcount = context.bitcount + (UInt64.ofNat (64 * n) <<< 3) ∧
      r.1.buffer.length = 64 ∧ r.2 = (absorb compress 64 context.state piece).2 := by
  induction n generalizing context piece with
  | zero =>
    have hshort : piece.length < 64 := by omega
    rw [absorb_short hshort]
    exact ⟨rfl, (UInt64.add_zero _).symm, hb, rfl⟩
  | succ n ih =>
    have hlen : 64 ≤ piece.length := by omega
    obtain ⟨hstate, hcount, hbuf⟩ := transform_eq context (piece.take 64)
    have hrest : (piece.drop 64).length / 64 = n := by
      rw [length_drop]
      omega
    simp only [updateBlocks, if_pos hlen, absorb_block (by decide) hlen, ← hstate, ← hcount]
    generalize transform context (piece.take 64) = context' at hbuf ⊢
    obtain ⟨hs, hc, hb', hr⟩ :=
      @ih { context' with bitcount := context'.bitcount + ((64 : UInt64) <<< 3) } _ hrest hbuf
    refine ⟨hs, ?_, hb', hr⟩
    rw [hc, UInt64.add_assoc]
    congr 1
    exact (bitcount_add 64 (64 * n)).trans (by rw [Nat.mul_succ, Nat.add_comm, bitcount_mul])

/-- A piece behind data that ends with a block. -/
theorem rep_updateRest (h : Rep context data) (hd : data.length % 64 = 0) :
    Rep (updateRest context piece) (data ++ piece) := by
  obtain ⟨hs, hc, hb, hr⟩ := @updateBlocks_eq context piece _ rfl h.buffer
  have habsorb := @absorb_append_whole _ _ compress 64 data (by decide) hd initialHashValue piece
  rw [← h.state] at habsorb
  have hrest : (updateBlocks (piece.length / 64) context piece).2.length = piece.length % 64 := by
    rw [hr, length_absorb_rest]
  have hmod : (data ++ piece).length % 64 = piece.length % 64 := by
    rw [length_append]
    omega
  unfold updateRest
  generalize updateBlocks (piece.length / 64) context piece = r at hs hc hb hr hrest
  obtain ⟨context', left⟩ := r
  simp only at hs hc hb hr hrest ⊢
  have hcount : context'.bitcount + (UInt64.ofNat left.length <<< 3) =
      UInt64.ofNat (8 * (data ++ piece).length) := by
    rw [hc, h.bitcount, bitcount_add, bitcount_add, length_append, hrest]
    congr 2
    omega
  split
  · rename_i hpos
    refine ⟨hs.trans (by rw [habsorb]), hcount, ?_, ?_⟩
    · rw [length_splice (by omega), hb]
    · rw [habsorb, ← hr, hmod, ← hrest, splice, take_zero, nil_append, take_left]
  · rename_i hzero
    have hnil : left.length = 0 := by omega
    refine ⟨hs.trans (by rw [habsorb]), ?_, hb, ?_⟩
    · rw [← hcount, hnil]
      exact (UInt64.add_zero _).symm
    · rw [habsorb, ← hr, hmod, ← hrest, length_eq_zero_iff.mp hnil]
      rfl

/-- The context with a piece put behind what is in the buffer. -/
def Ctx.append (context : Ctx) (usedspace : Nat) (piece : List UInt8) : Ctx :=
  { context with
    buffer := splice context.buffer usedspace piece
    bitcount := context.bitcount + (UInt64.ofNat piece.length <<< 3) }

theorem Rep.absorb (h : Rep context data) (piece : List UInt8) :
    absorb compress 64 initialHashValue (data ++ piece) =
      CRun.absorb compress 64 context.state (context.buffer.take (data.length % 64) ++ piece) := by
  rw [absorb_append (by decide), ← h.state, ← h.pending]

theorem Rep.append_count (h : Rep context data) (piece : List UInt8) :
    (context.append (data.length % 64) piece).bitcount =
      UInt64.ofNat (8 * (data ++ piece).length) := by
  rw [length_append, ← bitcount_add, ← h.bitcount]
  rfl

/-- A piece that does not fill the buffer. -/
theorem rep_fit (h : Rep context data) (hfit : data.length % 64 + piece.length < 64) :
    Rep (context.append (data.length % 64) piece) (data ++ piece) := by
  have htake : (context.buffer.take (data.length % 64)).length = data.length % 64 := by
    rw [length_take, h.buffer]
    omega
  have hshort : (context.buffer.take (data.length % 64) ++ piece).length < 64 := by
    rw [length_append, htake]
    exact hfit
  have hmod : (data ++ piece).length % 64 =
      (context.buffer.take (data.length % 64) ++ piece).length := by
    rw [length_append, length_append, htake]
    omega
  have hall := h.absorb piece
  rw [absorb_short hshort] at hall
  refine ⟨by rw [hall]; rfl, h.append_count piece, ?_, ?_⟩
  · exact (length_splice (by rw [h.buffer]; omega)).trans h.buffer
  · rw [hall, hmod]
    show (splice context.buffer _ piece).take _ = _
    rw [splice, ← append_assoc, take_left]

/-- A piece that fills it. -/
theorem rep_fill (h : Rep context data) (hfull : data.length % 64 + piece.length = 64) :
    Rep (transform (context.append (data.length % 64) piece)
      (context.append (data.length % 64) piece).buffer) (data ++ piece) := by
  have hblock : (context.append (data.length % 64) piece).buffer =
      context.buffer.take (data.length % 64) ++ piece := by
    show splice context.buffer _ piece = _
    rw [splice, drop_of_length_le (by rw [h.buffer]; omega), append_nil]
  have hsize : (context.buffer.take (data.length % 64) ++ piece).length = 64 := by
    rw [length_append, length_take, h.buffer]
    omega
  have hall := h.absorb piece
  rw [absorb_one (by decide) hsize] at hall
  obtain ⟨hs, hc, hb⟩ := transform_eq (context.append (data.length % 64) piece)
    (context.append (data.length % 64) piece).buffer
  have hmod : (data ++ piece).length % 64 = 0 := by
    rw [length_append]
    omega
  refine ⟨?_, hc.trans (h.append_count piece), hb, ?_⟩
  · rw [hs, hall, hblock]
    rfl
  · rw [hmod, hall, take_zero]

/-- A piece behind the data. -/
theorem rep_update (h : Rep context data) (piece : List UInt8) :
    Rep (update context piece) (data ++ piece) := by
  unfold update
  rw [h.usedspace]
  by_cases hnil : piece.length = 0
  · rw [if_pos hnil, length_eq_zero_iff.mp hnil, append_nil]
    exact h
  rw [if_neg hnil]
  by_cases hpos : 0 < data.length % 64
  · simp only [if_pos hpos]
    by_cases hfull : 64 - data.length % 64 ≤ piece.length
    · have hpart : (piece.take (64 - data.length % 64)).length = 64 - data.length % 64 := by
        rw [length_take]
        omega
      have hfill := @rep_fill _ _ (piece.take (64 - data.length % 64)) h (by omega)
      have hwhole : (data ++ piece.take (64 - data.length % 64)).length % 64 = 0 := by
        rw [length_append]
        omega
      have hrest := @rep_updateRest _ _ (piece.drop (64 - data.length % 64)) hfill hwhole
      rw [append_assoc, take_append_drop] at hrest
      simpa only [if_pos hfull, Ctx.append, hpart] using hrest
    · rw [if_neg hfull]
      exact rep_fit h (by omega)
  · simp only [if_neg hpos]
    exact rep_updateRest h (by omega)

theorem rep_updates (pieces : List (List UInt8)) : Rep (pieces.foldl update init) pieces.flatten := by
  suffices hgen : ∀ context data, Rep context data →
      Rep (pieces.foldl update context) (data ++ pieces.flatten) from hgen init [] rep_init
  induction pieces with
  | nil => exact fun _ _ h => by rwa [flatten_nil, append_nil]
  | cons piece pieces ih =>
    intro context data h
    rw [foldl_cons, flatten_cons, ← append_assoc]
    exact ih _ _ (rep_update h piece)

end Pieces

/-! ## The end -/

section Final

variable {context : Ctx} {data bs : List UInt8} {used : Nat}

theorem set_eq_splice {l : List UInt8} {k : Nat} (b : UInt8) (h : k < l.length) :
    l.set k b = splice l k [b] := by
  rw [set_eq_take_append_cons_drop, if_pos h]
  rfl

/-- The padding ends in the block that the data ends in. -/
theorem finalPad_short (hb : context.buffer.length = 64) (hu : used < 56) (hbs : bs.length = 8) :
    (finalPad used context).state = context.state ∧
      (finalPad used context).bitcount = context.bitcount ∧
      splice (finalPad used context).buffer 56 bs =
        context.buffer.take used ++ 0x80 :: (replicate (55 - used) 0 ++ bs) := by
  have hend : splice (splice context.buffer used (0x80 :: replicate (55 - used) 0)) 56 bs =
      context.buffer.take used ++ 0x80 :: (replicate (55 - used) 0 ++ bs) := by
    have hplace : used + (0x80 :: replicate (55 - used) (0 : UInt8)).length = 56 := by
      rw [length_cons, length_replicate]
      omega
    have hboth := @splice_append context.buffer (0x80 :: replicate (55 - used) 0) bs used (by omega)
    rw [hplace] at hboth
    rw [hboth, splice, drop_of_length_le, append_nil]
    · rfl
    · rw [length_append, length_cons, length_replicate, hb, hbs]
      omega
  by_cases hpos : 0 < used
  · have hset : splice (context.buffer.set used 0x80) (used + 1) (replicate (56 - (used + 1)) 0) =
        splice context.buffer used (0x80 :: replicate (55 - used) 0) := by
      rw [set_eq_splice _ (by omega)]
      have hboth := @splice_append context.buffer [0x80] (replicate (55 - used) 0) used (by omega)
      rw [length_singleton] at hboth
      rw [show 56 - (used + 1) = 55 - used by omega, hboth, singleton_append]
    simp only [finalPad, if_pos hpos, if_pos (show used + 1 ≤ 56 by omega), hset, hend, and_self]
  · obtain rfl : used = 0 := by omega
    have hset : (splice context.buffer 0 (replicate 56 0)).set 0 0x80 =
        splice context.buffer 0 (0x80 :: replicate 55 0) := rfl
    simp only [finalPad, Nat.lt_irrefl, if_false, hset, hend, and_self]

/-- The padding fills the block that the data ends in, and ends in another one. -/
theorem finalPad_long (hb : context.buffer.length = 64) (hu : 56 ≤ used) (hu' : used < 64)
    (hbs : bs.length = 8) :
    (finalPad used context).state =
        compress context.state (context.buffer.take used ++ 0x80 :: replicate (63 - used) 0) ∧
      (finalPad used context).bitcount = context.bitcount ∧
      splice (finalPad used context).buffer 56 bs = replicate 56 0 ++ bs := by
  have hblock : (if used + 1 < 64 then { context with
        buffer := splice (context.buffer.set used 0x80) (used + 1) (replicate (64 - (used + 1)) 0) }
      else { context with buffer := context.buffer.set used 0x80 }) = { context with
        buffer := context.buffer.take used ++ 0x80 :: replicate (63 - used) 0 } := by
    rw [set_eq_splice _ (by omega)]
    split
    · have hboth := @splice_append context.buffer [0x80] (replicate (63 - used) 0) used (by omega)
      rw [show 64 - (used + 1) = 63 - used by omega]
      rw [length_singleton] at hboth
      rw [hboth, splice, drop_of_length_le, append_nil]
      · rfl
      · rw [length_append, length_singleton, length_replicate, hb]
        omega
    · rw [splice, drop_of_length_le (by rw [hb, length_singleton]; omega),
        show 63 - used = 0 by omega]
      rfl
  simp only [finalPad, if_pos (show 0 < used by omega), if_neg (show ¬ used + 1 ≤ 56 by omega),
    hblock]
  obtain ⟨hs, hc, hlen⟩ := transform_eq { context with
      buffer := context.buffer.take used ++ 0x80 :: replicate (63 - used) 0 }
    (context.buffer.take used ++ 0x80 :: replicate (63 - used) 0)
  generalize transform _ _ = context' at hs hc hlen ⊢
  refine ⟨hs, hc, ?_⟩
  have hboth := @splice_append context'.buffer (replicate 56 0) bs 0 (Nat.zero_le _)
  rw [length_replicate, Nat.zero_add] at hboth
  rw [hboth, splice, take_zero, nil_append, drop_of_length_le, append_nil]
  rw [length_append, length_replicate, hbs, hlen]

/-- The padded message, when a context stands for the message. -/
theorem Rep.padded (h : Rep context data) :
    (finalPad (data.length % 64) { context with bitcount := reverse64 context.bitcount }).bitcount =
        reverse64 context.bitcount ∧
      compress (finalPad (data.length % 64)
          { context with bitcount := reverse64 context.bitcount }).state
        (splice (finalPad (data.length % 64)
            { context with bitcount := reverse64 context.bitcount }).buffer 56
          (bytes64 (UInt64.ofNat (8 * data.length)))) =
        (CRun.absorb compress 64 initialHashValue (data ++ padding data.length)).1 := by
  have hmod : data.length % 64 < 64 := Nat.mod_lt _ (by decide)
  have htake : (context.buffer.take (data.length % 64)).length = data.length % 64 := by
    rw [length_take, h.buffer]
    omega
  rw [h.absorb]
  by_cases hu : data.length % 64 < 56
  · obtain ⟨hs, hc, hb⟩ := @finalPad_short
      { context with bitcount := reverse64 context.bitcount } (bytes64 (UInt64.ofNat (8 * data.length)))
      _ h.buffer hu (length_bytes64 _)
    have hz : padZeros data.length = 55 - data.length % 64 := by
      unfold padZeros
      omega
    refine ⟨hc, ?_⟩
    rw [hs, hb, padding, hz, absorb_one (by decide)]
    rw [length_append, htake, length_cons, length_append, length_replicate, length_bytes64]
    omega
  · obtain ⟨hs, hc, hb⟩ := @finalPad_long
      { context with bitcount := reverse64 context.bitcount } (bytes64 (UInt64.ofNat (8 * data.length)))
      _ h.buffer (Nat.le_of_not_lt hu) hmod (length_bytes64 _)
    have hz : padZeros data.length = (63 - data.length % 64) + 56 := by
      unfold padZeros
      omega
    have hfirst : (context.buffer.take (data.length % 64) ++
        0x80 :: replicate (63 - data.length % 64) 0).length = 64 := by
      rw [length_append, htake, length_cons, length_replicate]
      omega
    have hsplit : context.buffer.take (data.length % 64) ++ padding data.length =
        (context.buffer.take (data.length % 64) ++ 0x80 :: replicate (63 - data.length % 64) 0) ++
          (replicate 56 0 ++ bytes64 (UInt64.ofNat (8 * data.length))) := by
      rw [padding, hz, replicate_add, append_assoc, append_assoc, cons_append]
    refine ⟨hc, ?_⟩
    rw [hs, hb, hsplit, absorb_append_whole (by decide) (by rw [hfirst]),
      absorb_one (by decide) hfirst, absorb_one (by decide)]
    rw [length_append, length_replicate, length_bytes64]

/-- `ccnl_SHA256_Final` gives the digest of the data. -/
theorem final_rep (h : Rep context data) : (final context).1 = digest data := by
  obtain ⟨hc, hs⟩ := h.padded
  rw [← h.bitcount] at hs
  unfold final digest
  rw [h.usedspace]
  simp only [store32_reverse32, (transform_eq _ _).1]
  rw [hc, store64_reverse64]
  exact congrArg (fun r => r.words.flatMap bytes32) hs

end Final

/-- In whatever pieces a message comes. From 2 ^ 61 bytes on the length field holds the low 64 bits of
the number of bits. -/
theorem final_pieces (pieces : List (List UInt8)) :
    (final (pieces.foldl update init)).1 = digest pieces.flatten :=
  final_rep (rep_updates pieces)

/-! ## The constants

The first 32 bits of the fractional parts of the roots of the first primes. -/

/-- The primes up to the 64th. -/
def primes : List Nat := (range 312).filter fun n => 2 ≤ n ∧ ∀ m ∈ range n, m ∣ n → m = 1 ∨ m = 0

theorem K256_cube_roots : K256.length = 64 ∧ primes.length = 64 ∧ ∀ t < 64, ∃ whole < 7,
    (2 ^ 32 * whole + (K256.getD t 0).toNat) ^ 3 < primes.getD t 0 * 2 ^ 96 ∧
      primes.getD t 0 * 2 ^ 96 < (2 ^ 32 * whole + (K256.getD t 0).toNat + 1) ^ 3 := by
  decide +kernel

theorem initialHashValue_square_roots : ∀ j < 8, ∃ whole < 5,
    (2 ^ 32 * whole + (initialHashValue.words.getD j 0).toNat) ^ 2 < primes.getD j 0 * 2 ^ 64 ∧
      primes.getD j 0 * 2 ^ 64 < (2 ^ 32 * whole + (initialHashValue.words.getD j 0).toNat + 1) ^ 2 := by
  decide +kernel

end Sha256

/-! ## The contexts of the HMAC -/

theorem Sha256.length_digest (message : List UInt8) : (Sha256.digest message).length = 32 := rfl

/-- SHA-256. -/
def sha256 (message : List UInt8) : Digest :=
  ⟨Sha256.digest message, Sha256.length_digest message⟩

namespace Sha256

/-- A call with a context. -/
inductive Call
  | init
  | update (data : List UInt8)
  | final
  deriving DecidableEq, Repr

/-- The context, and the digests so far. -/
def call (s : Ctx × List (List UInt8)) : Call → Ctx × List (List UInt8)
  | .init => (init, s.2)
  | .update data => (update s.1 data, s.2)
  | .final => ((final s.1).2, s.2 ++ [(final s.1).1])

/-- The same for a context that is the data since `ccnl_SHA256_Init`. -/
def dataCall (s : Sha256Ctx × List Digest) : Call → Run (Sha256Ctx × List Digest)
  | .init => .ok (sha256Init, s.2)
  | .update data => do return (← sha256Update data s.1, s.2)
  | .final => do
    let (md, ctx) ← sha256Final sha256 s.1
    return (ctx, s.2 ++ [md])

/-- What a call keeps. -/
structure Same (s : Ctx × List (List UInt8)) (t : Sha256Ctx × List Digest) : Prop where
  context : ∀ data, t.1 = some data → Rep s.1 data
  digests : s.2 = t.2.map Subtype.val

theorem same_call {s : Ctx × List (List UInt8)} {t t' : Sha256Ctx × List Digest} {c : Call}
    (h : Same s t) (hstep : dataCall t c = .ok t') : Same (call s c) t' := by
  cases c with
  | init =>
    cases hstep
    refine ⟨fun data hd => ?_, h.digests⟩
    cases hd
    exact rep_init
  | update piece =>
    cases ht : t.1 with
    | none => simp [dataCall, ht, sha256Update] at hstep
    | some known =>
      simp only [dataCall, ht, sha256Update, ok_bind, pure_eq_ok] at hstep
      subst hstep
      refine ⟨fun data hd => ?_, h.digests⟩
      cases hd
      exact rep_update (h.context _ ht) piece
  | final =>
    cases ht : t.1 with
    | none => simp [dataCall, ht, sha256Final] at hstep
    | some known =>
      simp only [dataCall, ht, sha256Final, ok_bind, pure_eq_ok] at hstep
      subst hstep
      refine ⟨fun data hd => absurd hd (Option.some_ne_none data).symm, ?_⟩
      simp only [call, h.digests, final_rep (h.context _ ht), map_append, map_cons, map_nil, sha256]

/-- What the calls keep. -/
theorem same_calls {s : Ctx × List (List UInt8)} {t t' : Sha256Ctx × List Digest} {calls : List Call}
    (h : Same s t) (hrun : calls.foldlM dataCall t = .ok t') : Same (calls.foldl call s) t' := by
  induction calls generalizing s t with
  | nil =>
    cases hrun
    exact h
  | cons c calls ih =>
    rw [foldlM_cons] at hrun
    obtain ⟨u, hstep, hrest⟩ := (bind_eq_ok _ _ _).mp hrun
    exact ih (same_call h hstep) hrest

end Sha256

/-- Whatever a context holds at first: with any calls in which it is initialised before it is used, and
again after each `ccnl_SHA256_Final`, each digest is the SHA-256 of the data since
`ccnl_SHA256_Init`, in whatever pieces it came. -/
theorem sha256_refines (context : Sha256.Ctx) (calls : List Sha256.Call)
    {ctx : Sha256Ctx} {digests : List Digest}
    (h : calls.foldlM Sha256.dataCall (none, []) = .ok (ctx, digests)) :
    (calls.foldl Sha256.call (context, [])).2 = digests.map Subtype.val :=
  have hstart : Sha256.Same (context, []) (none, []) := ⟨fun _ hd => (nomatch hd), rfl⟩
  (Sha256.same_calls hstart h).digests

/-- Two messages, one after the other, with one context. -/
theorem sha256_refines_twice :
    (([.init, .update [97], .update [98], .final, .init, .update [99], .final] :
        List Sha256.Call).foldl Sha256.call (⟨⟨0, 0, 0, 0, 0, 0, 0, 0⟩, 5, [1, 2]⟩, [])).2 =
      [sha256 [97, 98], sha256 [99]].map Subtype.val :=
  sha256_refines _ _ rfl

/-- `ccnl_hmac256_keyid`. -/
def hmac256Keyid (key : List UInt8) : List UInt8 :=
  let context := Sha256.update Sha256.init key
  if 64 < key.length then
    let md := (Sha256.final context).1
    (Sha256.final (Sha256.update Sha256.init md)).1
  else (Sha256.final context).1

/-- The key id of a key that is longer than a block is a digest of a digest. -/
theorem hmac256Keyid_eq (key : List UInt8) :
    hmac256Keyid key = if 64 < key.length then (sha256 (sha256 key).1).1 else (sha256 key).1 := by
  have hrep : ∀ data, (Sha256.final (Sha256.update Sha256.init data)).1 = (sha256 data).1 :=
    fun data => by
      have hpiece := Sha256.final_pieces [data]
      rwa [flatten_singleton] at hpiece
  unfold hmac256Keyid
  simp only [hrep]

end Ccnl
