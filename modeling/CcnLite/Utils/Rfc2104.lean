import CcnLite.Utils.Hmac

/-!
# HMAC-SHA256 (`ccnl-ext-hmac.c`)

`ccnl_hmac256_keyval` makes a key of 64 bytes, and `ccnl_hmac256_sign` the digest, in two rounds that
start with the key. SHA-256 is a function `H` of the data that its context was given; a context that
was not initialised since the last `ccnl_SHA256_Final` is of no use.

`hmac256` is the function of RFC 2104 for a key of one block, one of those that the signers take as a
parameter, and `hmacKey` is its key. `hmac256_rfc2104`: this is what the two functions compute.
-/

namespace Ccnl

open CRun Front List

/-! ## SHA-256 -/

/-- `SHA256_CTX_t`: the data since `ccnl_SHA256_Init`. -/
abbrev Sha256Ctx := Option (List UInt8)

def sha256Init : Sha256Ctx := some []

def sha256Update (data : List UInt8) : Sha256Ctx → Run Sha256Ctx
  | some d => .ok (some (d ++ data))
  | none => .error .uninit

/-- `ccnl_SHA256_Final`, which also clears the context. -/
def sha256Final (H : List UInt8 → Digest) : Sha256Ctx → Run (Digest × Sha256Ctx)
  | some d => .ok (H d, none)
  | none => .error .uninit

/-- `SHA256_BLOCK_LENGTH`. -/
def sha256BlockLength : Nat := 64

/-- `SHA256_DIGEST_LENGTH`. -/
def sha256DigestLength : Nat := 32

/-! ## The functions -/

section Functions

variable (H : List UInt8 → Digest)

/-- `ccnl_hmac256_keyval`; `keyval` is what the memory of the key value holds before. -/
def hmac256Keyval (key keyval : List UInt8) : Run (List UInt8) := do
  let (o, klen) ←
    if key.length ≤ sha256BlockLength then do
      let o ← app key ⟨keyval, 0⟩
      pure (o, key.length)
    else do
      let ctx ← sha256Update key sha256Init
      let (md, _) ← sha256Final H ctx
      let o ← app md.1 ⟨keyval, 0⟩
      pure (o, sha256DigestLength)
  let o ← app (replicate (sha256BlockLength - klen) 0) ⟨o.mem, klen⟩
  return o.mem

/-- `ccnl_hmac256_keysetup`; `buf` is what the memory of `buf` holds before. -/
def hmac256Keysetup (buf keyval : List UInt8) (kvlen : Nat) (pad : UInt8) : Run Sha256Ctx := do
  let kvlen := if 64 < kvlen then 64 else kvlen
  let o ← (range kvlen).foldlM (fun o i => do app [(← rd keyval i) ^^^ pad] o) ⟨buf, 0⟩
  let o ← (range (64 - kvlen)).foldlM (fun o _ => app [0 ^^^ pad] o) o
  sha256Update (← rdBytes o.mem 0 64) sha256Init

/-- `ccnl_hmac256_sign`: the memory of `md` and `*mlen`. The two calls of `ccnl_hmac256_keysetup` find
`inner` and `outer` in the memory of `buf`. -/
def hmac256Sign (inner outer keyval : List UInt8) (kvlen : Nat) (data md : List UInt8) (mlen : Nat) :
    Run (List UInt8 × Nat) := do
  let ctx ← hmac256Keysetup inner keyval kvlen 0x36
  let ctx ← sha256Update data ctx
  let (tmp, _) ← sha256Final H ctx
  let ctx ← hmac256Keysetup outer keyval kvlen 0x5c
  let ctx ← sha256Update tmp.1 ctx
  let (tmp, _) ← sha256Final H ctx
  let mlen := if sha256DigestLength < mlen then sha256DigestLength else mlen
  let o ← app (tmp.1.take mlen) ⟨md, 0⟩
  return (o.mem, mlen)

end Functions

/-! ## RFC 2104 -/

section Rfc2104

variable (H : List UInt8 → Digest)

/-- A key, or its digest if it is longer than a block, with zeros behind it. -/
def hmacKey (key : List UInt8) : HmacKey :=
  if h : key.length ≤ 64 then
    ⟨key ++ replicate (64 - key.length) 0, by rw [length_append, length_replicate]; omega⟩
  else ⟨(H key).1 ++ replicate 32 0, by rw [length_append, length_replicate, (H key).2]⟩

/-- `H((K xor opad) || H((K xor ipad) || data))`. -/
def hmac256 (K : HmacKey) (data : List UInt8) : Digest :=
  H (K.1.map (· ^^^ 0x5c) ++ (H (K.1.map (· ^^^ 0x36) ++ data)).1)

variable {H} {key keyval buf inner outer data md : List UInt8} {K : HmacKey} {pad : UInt8}
  {mlen : Nat}

/-- A write of the whole memory, in two parts. -/
theorem splice_whole {xs ys : List UInt8} (h : xs.length + ys.length = buf.length) :
    splice (splice buf 0 xs) xs.length ys = xs ++ ys := by
  have hboth := @splice_append buf xs ys 0 (Nat.zero_le _)
  rw [Nat.zero_add] at hboth
  rw [hboth, splice, take_zero, nil_append, Nat.zero_add, length_append, h, drop_length,
    append_nil]

theorem hmac256Keyval_eq (h : keyval.length = 64) :
    hmac256Keyval H key keyval = .ok (hmacKey H key).1 := by
  unfold hmac256Keyval hmacKey sha256BlockLength sha256DigestLength
  split
  · rename_i hle
    have hpad : (replicate (64 - key.length) (0 : UInt8)).length = 64 - key.length :=
      length_replicate
    rw [app_eq (by omega), ok_bind, pure_bind]
    simp only
    rw [app_eq (by rw [hpad, length_splice (by omega)]; omega), ok_bind,
      splice_whole (by rw [hpad]; omega)]
    rfl
  · have hmd := (H key).2
    have hpad : (replicate (64 - 32) (0 : UInt8)).length = 32 := rfl
    have hwhole := @splice_whole keyval (H key).1 (replicate (64 - 32) 0) (by rw [hpad]; omega)
    rw [hmd] at hwhole
    simp only [sha256Update, sha256Init, sha256Final, ok_bind, nil_append]
    rw [app_eq (by omega), ok_bind, pure_bind]
    simp only
    rw [app_eq (by rw [hpad, length_splice (by omega)]; omega), ok_bind, hwhole]
    rfl

/-- The first block of a round. -/
theorem hmac256Keysetup_eq (hb : buf.length = 64) :
    hmac256Keysetup buf K.1 64 pad = .ok (some (K.1.map (· ^^^ pad))) := by
  have hK := K.2
  have hxor : (range 64).map (fun i => K.1.getD i 0 ^^^ pad) = K.1.map (· ^^^ pad) := by
    refine ext_getElem (by simp [hK]) fun i hi _ => ?_
    rw [length_map, length_range] at hi
    simp [hK ▸ hi]
  have hloop := @app_loop buf 0 (fun o i => do app [(← rd K.1 i) ^^^ pad] o)
    (fun i => K.1.getD i 0 ^^^ pad) 64 (by omega) fun i hi o => by
      have hrd : rd K.1 i = .ok (K.1.getD i 0) := rd_eq_ok.mpr (by simp [hK ▸ hi])
      rw [hrd, ok_bind]
  have hwhole : splice buf 0 (K.1.map (· ^^^ pad)) = K.1.map (· ^^^ pad) := by
    have hall := @splice_whole buf (K.1.map (· ^^^ pad)) [] (by rw [length_map, hK, hb]; rfl)
    rwa [splice_nil, append_nil] at hall
  have hread : rdBytes (K.1.map (· ^^^ pad)) 0 64 = .ok (K.1.map (· ^^^ pad)) := by
    refine rdBytes_eq_ok.mpr ⟨.inr (by rw [length_map, hK]), ?_⟩
    rw [drop_zero, take_of_length_le (by rw [length_map, hK])]
  unfold hmac256Keysetup
  simp only [Nat.lt_irrefl, if_false]
  rw [hloop, ok_bind, hxor, hwhole, Nat.sub_self, range_zero, foldlM_nil, pure_bind, hread, ok_bind]
  rfl

/-- With a key of one block `ccnl_hmac256_sign` writes the start of the HMAC, at most 32 bytes. -/
theorem hmac256Sign_eq (hi : inner.length = 64) (ho : outer.length = 64)
    (hmd : min mlen 32 ≤ md.length) :
    hmac256Sign H inner outer K.1 64 data md mlen =
      .ok (splice md 0 ((hmac256 H K data).1.take (min mlen 32)), min mlen 32) := by
  have hmlen : (if 32 < mlen then 32 else mlen) = min mlen 32 := by
    split <;> omega
  have htake : ((hmac256 H K data).1.take (min mlen 32)).length = min mlen 32 := by
    rw [length_take, (hmac256 H K data).2]
    omega
  unfold hmac256Sign sha256DigestLength
  rw [hmac256Keysetup_eq hi, hmac256Keysetup_eq ho, hmlen]
  simp only [sha256Update, sha256Final, ok_bind]
  change app ((hmac256 H K data).1.take (min mlen 32)) ⟨md, 0⟩ >>= _ = _
  rw [app_eq (by rw [htake]; omega), ok_bind]
  rfl

/-- The call of the signers, for a digest of 32 bytes: `hmac256` is what `Signing.sign` takes. -/
theorem hmac256Sign_digest (hi : inner.length = 64) (ho : outer.length = 64)
    (hmd : md.length = 32) :
    hmac256Sign H inner outer K.1 64 data md mdlength = .ok ((hmac256 H K data).1, mdlength) := by
  have hlen := (hmac256 H K data).2
  have hwhole := @splice_whole md (hmac256 H K data).1 [] (by rw [hlen, hmd]; rfl)
  rw [splice_nil, append_nil] at hwhole
  have hmin : min mdlength 32 = 32 := rfl
  rw [hmac256Sign_eq hi ho (by rw [hmin, hmd]), hmin, take_of_length_le (Nat.le_of_eq hlen), hwhole]
  rfl

/-- For any key and message, and up to 32 bytes of output, `ccnl_hmac256_keyval` and then
`ccnl_hmac256_sign` give the first bytes of the HMAC of RFC 2104. -/
theorem hmac256_rfc2104 (H : List UInt8 → Digest) (key message : List UInt8)
    (hkv : keyval.length = 64) (hi : inner.length = 64) (ho : outer.length = 64)
    (hmlen : mlen ≤ 32) (hmd : mlen ≤ md.length) :
    (do
      let kv ← hmac256Keyval H key keyval
      hmac256Sign H inner outer kv 64 message md mlen) =
      .ok (splice md 0 ((hmac256 H (hmacKey H key) message).1.take mlen), mlen) := by
  have hmin : min mlen 32 = mlen := Nat.min_eq_left hmlen
  rw [hmac256Keyval_eq hkv, ok_bind, hmac256Sign_eq hi ho (hmin.symm ▸ hmd), hmin]

/-- A stand-in for SHA-256. -/
def lengthHash (data : List UInt8) : Digest :=
  ⟨replicate 32 (.ofNat data.length), length_replicate⟩

/-- A key of 65 bytes, which is hashed first. -/
theorem hmac256_rfc2104_long :
    (do
      let kv ← hmac256Keyval lengthHash (replicate 65 7) (replicate 64 0)
      hmac256Sign lengthHash (replicate 64 0) (replicate 64 1) kv 64 [97] (replicate 20 0) 20) =
      .ok (splice (replicate 20 0) 0
        ((hmac256 lengthHash (hmacKey lengthHash (replicate 65 7)) [97]).1.take 20), 20) :=
  hmac256_rfc2104 _ _ _ (by decide) (by decide) (by decide) (by decide) (by decide)

end Rfc2104

end Ccnl
