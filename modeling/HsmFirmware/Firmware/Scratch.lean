-- SUMMARY: sha256_raw.c in its static buffers: contexts with their 64-byte buffer, and what each function leaves in the buffers.
import HsmFirmware.Library.NorFlash
import HsmFirmware.Library.Statics
import HsmFirmware.Firmware.Sha256Raw
import HsmFirmware.Firmware.SecureCrypto

/-!
# Static scratch

`sha256_raw.c` and `secure_crypto.c` are not re-entrant: they work in static buffers, which hold
keys and intermediate hashes. Here the functions of `sha256_raw.c` are followed in these buffers,
statement by statement. A write behind the end of a buffer has no result.
-/

/-! ## Buffers -/

/-- `memcpy` into a buffer, from an index on. -/
def Vector.store {n : Nat} (buf : Vector UInt8 n) (i : Nat) (data : Bytes) :
    Option (Vector UInt8 n) :=
  if h : i + data.length ≤ n then
    some ⟨(buf.toList.take i ++ data ++ buf.toList.drop (i + data.length)).toArray, by simp; omega⟩
  else none

/-- `sha256_raw_ctx_t`, with all 64 bytes of its buffer. -/
structure Sha256CtxMem where
  state : Sha256State
  length : UInt64
  curlen : UInt32
  buf : Vector UInt8 64

/-- `memset(ctx, 0, sizeof(*ctx))`. -/
def Sha256CtxMem.zero : Sha256CtxMem := ⟨⟨0, 0, 0, 0, 0, 0, 0, 0⟩, 0, 0, .replicate 64 0⟩

/-- `hmac_sha256_raw_ctx_t`. -/
structure HmacCtxMem where
  inner : Sha256CtxMem
  outer : Sha256CtxMem

def HmacCtxMem.zero : HmacCtxMem := ⟨.zero, .zero⟩

/-- The static buffers of `sha256_raw.c` and `secure_crypto.c`. -/
inductive Static where
  | gSha256Schedule
  | gHmacPad
  | gHmacInnerHash
  | gHkdfBlock
  | gSha256OneshotCtx
  | gHmacKeyhashCtx
  | gHmacOneshotCtx
  | gHkdfCtx
  | gGroupSalt
  | gHkdfPrk
  | gGroupKey
  | gDigest
  | gExpectedMac
  | gMaterial
  | gAesCtx
  deriving DecidableEq

/-- The types of the buffers. `Aes` of wolfSSL takes `n` bytes. -/
def Static.Value (n : Nat) : Static → Type
  | .gSha256Schedule => Vector UInt32 64
  | .gHmacPad => Vector UInt8 64
  | .gSha256OneshotCtx | .gHmacKeyhashCtx => Sha256CtxMem
  | .gHmacOneshotCtx | .gHkdfCtx => HmacCtxMem
  | .gGroupSalt => Vector UInt8 2
  | .gAesCtx => Vector UInt8 n
  | .gHmacInnerHash | .gHkdfBlock | .gHkdfPrk | .gGroupKey | .gDigest | .gExpectedMac | .gMaterial =>
    Vector UInt8 32

/-- All buffers zero. -/
def Static.zero (n : Nat) : (x : Static) → x.Value n
  | .gSha256Schedule => (Vector.replicate 64 0 : Vector UInt32 64)
  | .gHmacPad => (Vector.replicate 64 0 : Vector UInt8 64)
  | .gSha256OneshotCtx | .gHmacKeyhashCtx => Sha256CtxMem.zero
  | .gHmacOneshotCtx | .gHkdfCtx => HmacCtxMem.zero
  | .gGroupSalt => (Vector.replicate 2 0 : Vector UInt8 2)
  | .gAesCtx => (Vector.replicate n 0 : Vector UInt8 n)
  | .gHmacInnerHash | .gHkdfBlock | .gHkdfPrk | .gGroupKey | .gDigest | .gExpectedMac | .gMaterial =>
    (Vector.replicate 32 0 : Vector UInt8 32)

/-- A function that works in the static buffers. -/
abbrev Scratch (n : Nat) := Statics.Code (Static.Value n)

namespace Scratch

open Statics

variable {n : Nat}

/-- `memset(g_x, 0, sizeof(g_x))`. -/
def clear (x : Static) : Scratch n Unit := write x (x.zero n)

/-! ## SHA-256 -/

/-- The first loop of `sha256_compress`. -/
def loadSchedule (block : Vector UInt8 64) (W : Vector UInt32 64) : Vector UInt32 64 :=
  (List.finRange 16).foldl
    (fun W (i : Fin 16) => W.set i (be32Load (block.toList.drop (4 * i)))) W

/-- The second loop, from word 16 on. -/
def extendSchedule (W : Vector UInt32 64) : Vector UInt32 64 :=
  (List.finRange 48).foldl
    (fun W (i : Fin 48) =>
      let s0 := rotr32 W[i.val + 1] 7 ^^^ rotr32 W[i.val + 1] 18 ^^^ (W[i.val + 1] >>> 3)
      let s1 := rotr32 W[i.val + 14] 17 ^^^ rotr32 W[i.val + 14] 19 ^^^ (W[i.val + 14] >>> 10)
      W.set (i.val + 16) (W[i.val] + s0 + W[i.val + 9] + s1)) W

def sha256Compress (ctx : Sha256CtxMem) (block : Vector UInt8 64) : Scratch n Sha256CtxMem := do
  let W ← read Static.gSha256Schedule
  write Static.gSha256Schedule (loadSchedule block W)
  let W ← read Static.gSha256Schedule
  write Static.gSha256Schedule (extendSchedule W)
  let W ← read Static.gSha256Schedule
  let s := ctx.state
  let r := (List.finRange 64).foldl
    (fun v (i : Fin 64) => sha256Round v (Vector.get sha256K i, Vector.get W i)) s
  clear Static.gSha256Schedule
  pure { ctx with
    state := ⟨s.a + r.a, s.b + r.b, s.c + r.c, s.d + r.d, s.e + r.e, s.f + r.f, s.g + r.g,
      s.h + r.h⟩ }

/-- The buffer stays as it is. -/
def sha256RawCtxInit (ctx : Sha256CtxMem) : Sha256CtxMem :=
  { ctx with state := sha256H0, length := 0, curlen := 0 }

/-- The 64 bytes at the front of the input. -/
def frontBlock (data : Bytes) (h : 64 ≤ data.length) : Vector UInt8 64 :=
  ⟨(data.take 64).toArray, by simp [h]⟩

def sha256RawCtxUpdate (ctx : Sha256CtxMem) (data : Bytes) : Scratch n Sha256CtxMem :=
  if hdata : data = [] then pure ctx
  else if h : ctx.curlen = 0 ∧ 64 ≤ data.length then do
    let ctx ← sha256Compress ctx (frontBlock data h.2)
    sha256RawCtxUpdate { ctx with length := ctx.length + 512 } (data.drop 64)
  else
    let m := min (64 - ctx.curlen).toNat data.length
    -- With a full buffer the loop of the source would not come to its end.
    if hm : m = 0 then checked none else do
    let buf ← checked (ctx.buf.store ctx.curlen.toNat (data.take m))
    let ctx := { ctx with buf := buf, curlen := ctx.curlen + UInt32.ofNat m }
    if ctx.curlen = 64 then do
      let ctx ← sha256Compress ctx ctx.buf
      sha256RawCtxUpdate { ctx with length := ctx.length + 512, curlen := 0 } (data.drop m)
    else sha256RawCtxUpdate ctx (data.drop m)
termination_by data.length
decreasing_by
  · exact length_drop_lt hdata (by decide)
  · exact length_drop_lt hdata (Nat.pos_of_ne_zero hm)
  · exact length_drop_lt hdata (Nat.pos_of_ne_zero hm)

/-- `while (ctx->curlen < limit) { ctx->buf[ctx->curlen++] = 0x00u; }` -/
def fillZeros (limit : UInt32) (ctx : Sha256CtxMem) : Option Sha256CtxMem :=
  if _ : ctx.curlen < limit then do
    let buf ← ctx.buf.store ctx.curlen.toNat [0]
    fillZeros limit { ctx with buf := buf, curlen := ctx.curlen + 1 }
  else some ctx
termination_by limit.toNat - ctx.curlen.toNat
decreasing_by
  have hlt := UInt32.lt_iff_toNat_lt.mp ‹ctx.curlen < limit›
  have := limit.toNat_lt
  simp only [UInt32.toNat_add, UInt32.toNat_one]
  omega

/-- `sha256_raw_ctx_final` from its second loop on: the block that ends in the length. -/
def finalBlock (ctx : Sha256CtxMem) : Scratch n (Sha256CtxMem × Digest) := do
  let ctx ← checked (fillZeros 56 ctx)
  let buf ← checked (ctx.buf.store 56 (be64Store ctx.length))
  let ctx ← sha256Compress { ctx with buf := buf } buf
  let s := ctx.state
  pure (.zero, (Codec.bytes 32).decode ([s.a, s.b, s.c, s.d, s.e, s.f, s.g, s.h].flatMap be32Store))

def sha256RawCtxFinal (ctx : Sha256CtxMem) : Scratch n (Sha256CtxMem × Digest) := do
  let ctx := { ctx with length := ctx.length + ctx.curlen.toUInt64 * 8 }
  let buf ← checked (ctx.buf.store ctx.curlen.toNat [0x80])
  let ctx := { ctx with buf := buf, curlen := ctx.curlen + 1 }
  if 56 < ctx.curlen then do
    let ctx ← checked (fillZeros 64 ctx)
    let ctx ← sha256Compress ctx ctx.buf
    finalBlock { ctx with curlen := 0 }
  else finalBlock ctx

def sha256Raw (msg : Bytes) : Scratch n Digest := do
  let ctx ← read Static.gSha256OneshotCtx
  let ctx := sha256RawCtxInit ctx
  write Static.gSha256OneshotCtx ctx
  let ctx ← sha256RawCtxUpdate ctx msg
  write Static.gSha256OneshotCtx ctx
  let (ctx, digest) ← sha256RawCtxFinal ctx
  write Static.gSha256OneshotCtx ctx
  clear Static.gSha256OneshotCtx
  pure digest

/-! ## HMAC -/

/-- `for (i = 0; i < 64; i++) { g_hmac_pad[i] ^= b; }` -/
def xorPad (b : UInt8) : Scratch n Unit := do
  let pad ← read Static.gHmacPad
  write Static.gHmacPad (Vector.map (· ^^^ b) pad)

/-- `memcpy` to the front of `g_hmac_pad`. -/
def storePad (data : Bytes) : Scratch n Unit := do
  let pad ← read Static.gHmacPad
  let pad ← checked (Vector.store pad 0 data)
  write Static.gHmacPad pad

/-- The key into `g_hmac_pad`, hashed if it is longer than a block. -/
def normaliseKey (key : Bytes) : Scratch n Unit := do
  clear Static.gHmacPad
  if 64 < key.length then do
    let keyhash ← read Static.gHmacKeyhashCtx
    let keyhash := sha256RawCtxInit keyhash
    write Static.gHmacKeyhashCtx keyhash
    let keyhash ← sha256RawCtxUpdate keyhash key
    write Static.gHmacKeyhashCtx keyhash
    let (keyhash, digest) ← sha256RawCtxFinal keyhash
    write Static.gHmacKeyhashCtx keyhash
    storePad digest.toList
    clear Static.gHmacKeyhashCtx
  else if 0 < key.length then storePad key
  else pure ()

def hmacSha256RawInit (ctx : HmacCtxMem) (key : Bytes) : Scratch n HmacCtxMem := do
  normaliseKey key
  xorPad 0x36
  let pad ← read Static.gHmacPad
  let inner ← sha256RawCtxUpdate (sha256RawCtxInit ctx.inner) (Vector.toList pad)
  -- 0x36 ^ 0x5c is 0x6a.
  xorPad 0x6A
  let pad ← read Static.gHmacPad
  let outer ← sha256RawCtxUpdate (sha256RawCtxInit ctx.outer) (Vector.toList pad)
  clear Static.gHmacPad
  pure ⟨inner, outer⟩

def hmacSha256RawUpdate (ctx : HmacCtxMem) (data : Bytes) : Scratch n HmacCtxMem := do
  let inner ← sha256RawCtxUpdate ctx.inner data
  pure { ctx with inner := inner }

def hmacSha256RawFinal (ctx : HmacCtxMem) : Scratch n (HmacCtxMem × Digest) := do
  let (_, digest) ← sha256RawCtxFinal ctx.inner
  write Static.gHmacInnerHash digest
  let hash ← read Static.gHmacInnerHash
  let outer ← sha256RawCtxUpdate ctx.outer (Vector.toList hash)
  let (_, mac) ← sha256RawCtxFinal outer
  clear Static.gHmacInnerHash
  pure (.zero, mac)

def hmacSha256Raw (key msg : Bytes) : Scratch n Digest := do
  let ctx ← read Static.gHmacOneshotCtx
  let ctx ← hmacSha256RawInit ctx key
  write Static.gHmacOneshotCtx ctx
  let ctx ← hmacSha256RawUpdate ctx msg
  write Static.gHmacOneshotCtx ctx
  let (ctx, mac) ← hmacSha256RawFinal ctx
  write Static.gHmacOneshotCtx ctx
  clear Static.gHmacOneshotCtx
  pure mac

/-! ## HKDF -/

/-- An absent or empty salt stands for `zero_salt`. -/
def hkdfExtractSha256 (salt : Option Bytes) (ikm : Bytes) : Scratch n Digest :=
  match salt with
  | none | some [] => hmacSha256Raw (List.replicate 32 0) ikm
  | some salt => hmacSha256Raw salt ikm

/-- `if (c) { hmac_sha256_raw_update(&g_hkdf_ctx, ...); }` -/
def updateHkdfCtx (c : Prop) [Decidable c] (data : Bytes) : Scratch n Unit :=
  if c then do
    let ctx ← read Static.gHkdfCtx
    let ctx ← hmacSha256RawUpdate ctx data
    write Static.gHkdfCtx ctx
  else pure ()

/-- One iteration of the loop of `hkdf_expand_sha256`: `T(counter)` into `g_hkdf_block`. -/
def hkdfBlock (prk info : Bytes) (counter : UInt8) : Scratch n Unit := do
  let ctx ← read Static.gHkdfCtx
  let ctx ← hmacSha256RawInit ctx prk
  write Static.gHkdfCtx ctx
  let block ← read Static.gHkdfBlock
  -- T(0) is the empty string.
  updateHkdfCtx (1 < counter) (Vector.toList block)
  updateHkdfCtx (0 < info.length) info
  updateHkdfCtx True [counter]
  let ctx ← read Static.gHkdfCtx
  let (ctx, block) ← hmacSha256RawFinal ctx
  write Static.gHkdfBlock block
  write Static.gHkdfCtx ctx
  clear Static.gHkdfCtx

/-- The loop: `done` bytes of `out` are written. It gives the output buffer and the counter. -/
def hkdfExpandLoop (prk info : Bytes) (out : Mem) (outLen : Nat) (done : Nat) (counter : UInt8) :
    Scratch n (Mem × UInt8) :=
  if done < outLen then do
    let counter := counter + 1
    hkdfBlock prk info counter
    let block ← read Static.gHkdfBlock
    let take := min (outLen - done) 32
    hkdfExpandLoop prk info (out.write done ((Vector.toList block).take take)) outLen (done + take)
      counter
  else pure (out, counter)
termination_by outLen - done

def hkdfExpandSha256 (prk info : Bytes) (out : Mem) (outLen : Nat) : Scratch n (Mem × UInt8) := do
  clear Static.gHkdfBlock
  let r ← hkdfExpandLoop prk info out outLen 0 0
  clear Static.gHkdfBlock
  pure r

end Scratch
