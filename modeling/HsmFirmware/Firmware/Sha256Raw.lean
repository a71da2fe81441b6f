-- SUMMARY: sha256_raw.c: SHA-256 with its streaming contexts, and HMAC-SHA-256.
import Mathlib.Tactic.Common
import HsmFirmware.Library.Codec

/-!
# SHA-256 and HMAC

The hash of the firmware as it is computed: a context absorbs bytes in pieces,
compresses whole blocks of 64, and pads at the end. What a context computes
depends on the bytes it has absorbed and not on how they were cut, so that the
other modules speak of the absorbed bytes alone.
-/

/-- `sha256_K`. -/
def sha256K : Vector UInt32 64 := #v[
  0x428a2f98, 0x71374491, 0xb5c0fbcf, 0xe9b5dba5, 0x3956c25b, 0x59f111f1, 0x923f82a4, 0xab1c5ed5,
  0xd807aa98, 0x12835b01, 0x243185be, 0x550c7dc3, 0x72be5d74, 0x80deb1fe, 0x9bdc06a7, 0xc19bf174,
  0xe49b69c1, 0xefbe4786, 0x0fc19dc6, 0x240ca1cc, 0x2de92c6f, 0x4a7484aa, 0x5cb0a9dc, 0x76f988da,
  0x983e5152, 0xa831c66d, 0xb00327c8, 0xbf597fc7, 0xc6e00bf3, 0xd5a79147, 0x06ca6351, 0x14292967,
  0x27b70a85, 0x2e1b2138, 0x4d2c6dfc, 0x53380d13, 0x650a7354, 0x766a0abb, 0x81c2c92e, 0x92722c85,
  0xa2bfe8a1, 0xa81a664b, 0xc24b8b70, 0xc76c51a3, 0xd192e819, 0xd6990624, 0xf40e3585, 0x106aa070,
  0x19a4c116, 0x1e376c08, 0x2748774c, 0x34b0bcb5, 0x391c0cb3, 0x4ed8aa4a, 0x5b9cca4f, 0x682e6ff3,
  0x748f82ee, 0x78a5636f, 0x84c87814, 0x8cc70208, 0x90befffa, 0xa4506ceb, 0xbef9a3f7, 0xc67178f2]

/-- The working variables `a` to `h`, and the chaining state. -/
structure Sha256State where
  a : UInt32
  b : UInt32
  c : UInt32
  d : UInt32
  e : UInt32
  f : UInt32
  g : UInt32
  h : UInt32

/-- `sha256_H0`. -/
def sha256H0 : Sha256State :=
  ⟨0x6a09e667, 0xbb67ae85, 0x3c6ef372, 0xa54ff53a, 0x510e527f, 0x9b05688c, 0x1f83d9ab, 0x5be0cd19⟩

/-- `ROTR32`. -/
def rotr32 (x : UInt32) (n : UInt32) : UInt32 := (x >>> n) ||| (x <<< (32 - n))

def be32Load (b : Bytes) : UInt32 :=
  ((b.getD 0 0).toUInt32 <<< 24) ||| ((b.getD 1 0).toUInt32 <<< 16) |||
    ((b.getD 2 0).toUInt32 <<< 8) ||| (b.getD 3 0).toUInt32

/-- The message schedule, the newest word first. `n` words are still to come. -/
def sha256Extend : Nat → List UInt32 → List UInt32
  | 0, W => W
  | n + 1, W =>
    let w15 := W.getD 14 0
    let w2 := W.getD 1 0
    let s0 := rotr32 w15 7 ^^^ rotr32 w15 18 ^^^ (w15 >>> 3)
    let s1 := rotr32 w2 17 ^^^ rotr32 w2 19 ^^^ (w2 >>> 10)
    sha256Extend n ((W.getD 15 0 + s0 + W.getD 6 0 + s1) :: W)

def sha256Schedule (block : Bytes) : List UInt32 :=
  (sha256Extend 48 ((List.range 16).map fun i => be32Load (block.drop (4 * i))).reverse).reverse

def sha256Round (s : Sha256State) (kw : UInt32 × UInt32) : Sha256State :=
  let s1 := rotr32 s.e 6 ^^^ rotr32 s.e 11 ^^^ rotr32 s.e 25
  let t1 := s.h + s1 + ((s.e &&& s.f) ^^^ (~~~s.e &&& s.g)) + kw.1 + kw.2
  let s0 := rotr32 s.a 2 ^^^ rotr32 s.a 13 ^^^ rotr32 s.a 22
  let t2 := s0 + ((s.a &&& s.b) ^^^ (s.a &&& s.c) ^^^ (s.b &&& s.c))
  ⟨t1 + t2, s.a, s.b, s.c, s.d + t1, s.e, s.f, s.g⟩

def sha256Compress (s : Sha256State) (block : Bytes) : Sha256State :=
  let r := (sha256K.toList.zip (sha256Schedule block)).foldl sha256Round s
  ⟨s.a + r.a, s.b + r.b, s.c + r.c, s.d + r.d, s.e + r.e, s.f + r.f, s.g + r.g, s.h + r.h⟩

/-- `sha256_raw_ctx_t`. The first `curlen` bytes of the buffer are the list `buf`. -/
structure Sha256RawCtx where
  state : Sha256State
  length : UInt64
  buf : Bytes

def sha256RawCtxInit : Sha256RawCtx := ⟨sha256H0, 0, []⟩

theorem length_drop_lt {data : Bytes} {n : Nat} (hdata : data ≠ []) (hn : 0 < n) :
    (data.drop n).length < data.length := by
  rw [List.length_drop]
  exact Nat.sub_lt (List.length_pos_iff.mpr hdata) hn

/-- The loop of `sha256_raw_ctx_update`: whole blocks straight from the input while the
    buffer is empty, else as much as fits the buffer. -/
def sha256RawCtxUpdate (ctx : Sha256RawCtx) (data : Bytes) : Sha256RawCtx :=
  if hdata : data = [] then ctx
  else if ctx.buf = [] ∧ 64 ≤ data.length then
    sha256RawCtxUpdate
      { ctx with state := sha256Compress ctx.state (data.take 64), length := ctx.length + 512 }
      (data.drop 64)
  else
    let n := min (64 - ctx.buf.length) data.length
    let buf := ctx.buf ++ data.take n
    if hn : n = 0 then ctx
    else if buf.length = 64 then
      sha256RawCtxUpdate ⟨sha256Compress ctx.state buf, ctx.length + 512, []⟩ (data.drop n)
    else sha256RawCtxUpdate { ctx with buf := buf } (data.drop n)
termination_by data.length
decreasing_by
  · exact length_drop_lt hdata (by decide)
  · exact length_drop_lt hdata (Nat.pos_of_ne_zero hn)
  · exact length_drop_lt hdata (Nat.pos_of_ne_zero hn)

def be32Store (x : UInt32) : Bytes :=
  [(x >>> 24).toUInt8, (x >>> 16).toUInt8, (x >>> 8).toUInt8, x.toUInt8]

def be64Store (x : UInt64) : Bytes :=
  [(x >>> 56).toUInt8, (x >>> 48).toUInt8, (x >>> 40).toUInt8, (x >>> 32).toUInt8,
    (x >>> 24).toUInt8, (x >>> 16).toUInt8, (x >>> 8).toUInt8, x.toUInt8]

def sha256RawCtxFinal (ctx : Sha256RawCtx) : Vector UInt8 32 :=
  let length := ctx.length + UInt64.ofNat ctx.buf.length * 8
  let buf := ctx.buf ++ [0x80]
  let (state, buf) :=
    if 56 < buf.length then
      (sha256Compress ctx.state (buf ++ List.replicate (64 - buf.length) 0), [])
    else (ctx.state, buf)
  let s := sha256Compress state (buf ++ List.replicate (56 - buf.length) 0 ++ be64Store length)
  (Codec.bytes 32).decode ([s.a, s.b, s.c, s.d, s.e, s.f, s.g, s.h].flatMap be32Store)

def sha256Raw (msg : Bytes) : Vector UInt8 32 :=
  sha256RawCtxFinal (sha256RawCtxUpdate sha256RawCtxInit msg)

/-! ## HMAC -/

/-- `hmac_sha256_raw_ctx_t`. -/
structure HmacSha256RawCtx where
  inner : Sha256RawCtx
  outer : Sha256RawCtx

/-- The key, hashed when it is longer than a block, padded with zeros to one. -/
def hmacPad (key : Bytes) : Bytes :=
  let key := if 64 < key.length then (sha256Raw key).toList else key
  key ++ List.replicate (64 - key.length) 0

def hmacSha256RawInit (key : Bytes) : HmacSha256RawCtx :=
  let ipad := (hmacPad key).map (· ^^^ 0x36)
  -- 0x36 ^ 0x5c is 0x6a.
  let opad := ipad.map (· ^^^ 0x6A)
  ⟨sha256RawCtxUpdate sha256RawCtxInit ipad, sha256RawCtxUpdate sha256RawCtxInit opad⟩

def hmacSha256RawUpdate (ctx : HmacSha256RawCtx) (data : Bytes) : HmacSha256RawCtx :=
  { ctx with inner := sha256RawCtxUpdate ctx.inner data }

def hmacSha256RawFinal (ctx : HmacSha256RawCtx) : Vector UInt8 32 :=
  sha256RawCtxFinal (sha256RawCtxUpdate ctx.outer (sha256RawCtxFinal ctx.inner).toList)

def hmacSha256Raw (key msg : Bytes) : Vector UInt8 32 :=
  hmacSha256RawFinal (hmacSha256RawUpdate (hmacSha256RawInit key) msg)

/-! ## Streaming

Absorbing bytes compresses the whole blocks of what is buffered and what is new,
and buffers the rest. -/

/-- Compress whole blocks as long as there are any. -/
def sha256Absorb (state : Sha256State) (length : UInt64) (bs : Bytes) : Sha256RawCtx :=
  if 64 ≤ bs.length then
    sha256Absorb (sha256Compress state (bs.take 64)) (length + 512) (bs.drop 64)
  else ⟨state, length, bs⟩
termination_by bs.length

theorem sha256Absorb_long {state : Sha256State} {length : UInt64} {bs : Bytes}
    (h : 64 ≤ bs.length) : sha256Absorb state length bs =
      sha256Absorb (sha256Compress state (bs.take 64)) (length + 512) (bs.drop 64) := by
  rw [sha256Absorb, if_pos h]

theorem sha256Absorb_block {state : Sha256State} {length : UInt64} {block : Bytes}
    (h : block.length = 64) (rest : Bytes) : sha256Absorb state length (block ++ rest) =
      sha256Absorb (sha256Compress state block) (length + 512) rest := by
  rw [sha256Absorb_long (by simp; omega), List.take_left' h, List.drop_left' h]

theorem sha256Absorb_short {state : Sha256State} {length : UInt64} {bs : Bytes}
    (h : bs.length < 64) : sha256Absorb state length bs = ⟨state, length, bs⟩ := by
  rw [sha256Absorb, if_neg (by omega)]

theorem sha256Absorb_buf_lt (state : Sha256State) (length : UInt64) (bs : Bytes) :
    (sha256Absorb state length bs).buf.length < 64 := by
  induction state, length, bs using sha256Absorb.induct with
  | case1 state length bs h ih =>
    rw [sha256Absorb, if_pos h]
    exact ih
  | case2 state length bs h =>
    rw [sha256Absorb, if_neg h]
    exact Nat.not_le.mp h

theorem sha256Absorb_append (state : Sha256State) (length : UInt64) (bs cs : Bytes) :
    sha256Absorb state length (bs ++ cs) =
      sha256Absorb (sha256Absorb state length bs).state (sha256Absorb state length bs).length
        ((sha256Absorb state length bs).buf ++ cs) := by
  induction state, length, bs using sha256Absorb.induct with
  | case1 state length bs h ih =>
    have hsplit : bs ++ cs = bs.take 64 ++ (bs.drop 64 ++ cs) := by
      rw [← List.append_assoc, List.take_append_drop]
    rw [sha256Absorb_long h, hsplit, sha256Absorb_block (by simp [h]), ih]
  | case2 state length bs h => rw [sha256Absorb_short (Nat.not_le.mp h)]

/-- The loop of `sha256_raw_ctx_update`, on a buffer that is not full. -/
theorem sha256RawCtxUpdate_eq (ctx : Sha256RawCtx) (data : Bytes) (hbuf : ctx.buf.length < 64) :
    sha256RawCtxUpdate ctx data = sha256Absorb ctx.state ctx.length (ctx.buf ++ data) := by
  induction hn : data.length using Nat.strong_induction_on generalizing ctx data with
  | _ len ih =>
    rw [sha256RawCtxUpdate]
    by_cases hdata : data = []
    · subst hdata
      rw [dif_pos rfl, List.append_nil, sha256Absorb_short hbuf]
    have hpos := List.length_pos_iff.mpr hdata
    rw [dif_neg hdata]
    by_cases hdirect : ctx.buf = [] ∧ 64 ≤ data.length
    · obtain ⟨hnil, h64⟩ := hdirect
      rw [if_pos ⟨hnil, h64⟩, ih (data.drop 64).length (by simp; omega) _ _ (by simp [hnil]) rfl,
        hnil, List.nil_append, List.nil_append]
      exact (sha256Absorb_long h64).symm
    · rw [if_neg hdirect]
      simp only
      rw [dif_neg (by omega)]
      have htake : (ctx.buf ++ data.take (min (64 - ctx.buf.length) data.length)).length =
          ctx.buf.length + min (64 - ctx.buf.length) data.length := by
        simp
      by_cases hfull : (ctx.buf ++ data.take (min (64 - ctx.buf.length) data.length)).length = 64
      · have hblock := @sha256Absorb_block ctx.state ctx.length _ hfull
          (data.drop (min (64 - ctx.buf.length) data.length))
        rw [List.append_assoc, List.take_append_drop] at hblock
        rw [if_pos hfull, hblock, ih (data.drop _).length (by simp; omega) _ _ (by simp) rfl,
          List.nil_append]
      · have hall : min (64 - ctx.buf.length) data.length = data.length := by omega
        rw [if_neg hfull, hall, List.take_length, List.drop_length]
        rw [ih 0 (by omega) _ [] (by simp; omega) rfl, List.append_nil]

/-- How the bytes are cut makes no difference. -/
theorem sha256RawCtxUpdate_append (ctx : Sha256RawCtx) (data data' : Bytes)
    (hbuf : ctx.buf.length < 64) :
    sha256RawCtxUpdate (sha256RawCtxUpdate ctx data) data' =
      sha256RawCtxUpdate ctx (data ++ data') := by
  rw [sha256RawCtxUpdate_eq ctx _ hbuf, sha256RawCtxUpdate_eq ctx _ hbuf,
    sha256RawCtxUpdate_eq _ _ (sha256Absorb_buf_lt _ _ _), ← List.append_assoc,
    ← sha256Absorb_append]

theorem sha256RawCtxUpdate_buf_lt (ctx : Sha256RawCtx) (data : Bytes) (hbuf : ctx.buf.length < 64) :
    (sha256RawCtxUpdate ctx data).buf.length < 64 := by
  rw [sha256RawCtxUpdate_eq ctx _ hbuf]
  exact sha256Absorb_buf_lt _ _ _

theorem sha256RawCtxUpdate_nil (ctx : Sha256RawCtx) : sha256RawCtxUpdate ctx [] = ctx := by
  rw [sha256RawCtxUpdate, dif_pos rfl]

theorem foldl_sha256RawCtxUpdate (pieces : List Bytes) (ctx : Sha256RawCtx)
    (hbuf : ctx.buf.length < 64) :
    pieces.foldl sha256RawCtxUpdate ctx = sha256RawCtxUpdate ctx pieces.flatten := by
  induction pieces generalizing ctx with
  | nil => exact (sha256RawCtxUpdate_nil ctx).symm
  | cons data pieces ih =>
    rw [List.foldl_cons, ih _ (sha256RawCtxUpdate_buf_lt ctx data hbuf), List.flatten_cons,
      sha256RawCtxUpdate_append _ _ _ hbuf]

theorem hmacSha256RawInit_buf_lt (key : Bytes) : (hmacSha256RawInit key).inner.buf.length < 64 :=
  sha256RawCtxUpdate_buf_lt _ _ (by decide)

theorem foldl_hmacSha256RawUpdate (pieces : List Bytes) (ctx : HmacSha256RawCtx)
    (hbuf : ctx.inner.buf.length < 64) :
    pieces.foldl hmacSha256RawUpdate ctx = hmacSha256RawUpdate ctx pieces.flatten := by
  have hfold : ∀ ctx : HmacSha256RawCtx, pieces.foldl hmacSha256RawUpdate ctx =
      { ctx with inner := pieces.foldl sha256RawCtxUpdate ctx.inner } := by
    induction pieces with
    | nil => exact fun _ => rfl
    | cons data pieces ih => exact fun ctx => ih _
  rw [hfold, foldl_sha256RawCtxUpdate _ _ hbuf, hmacSha256RawUpdate]
