-- SUMMARY: SHA-256 as FIPS 180-4 states it: constants, padding, message schedule, compression.
import Mathlib.Tactic.Common
import Mathlib.Tactic.Ring
import HsmFirmware.Library.Codec

/-!
# SHA-256 (FIPS 180-4)

The standard, for messages of whole bytes. The constants are taken from where the standard takes
them: the first 32 bits of the fractional parts of roots of primes.
-/

namespace Fips180

/-! ## Constants (4.2.2, 5.3.3) -/

/-- The floor of the `n`-th root of `x`, bit by bit from the top: `b` bits are to come, and `r` is
    what the higher bits give. -/
def rootFloor (n x : Nat) : Nat → Nat → Nat
  | 0, r => r
  | b + 1, r => rootFloor n x b (if (r + 2 ^ b) ^ n ≤ x then r + 2 ^ b else r)

theorem rootFloor_spec {n x : Nat} (b : Nat) {r : Nat} (hr : r ^ n ≤ x) (hx : x < (r + 2 ^ b) ^ n) :
    rootFloor n x b r ^ n ≤ x ∧ x < (rootFloor n x b r + 1) ^ n := by
  induction b generalizing r with
  | zero => exact ⟨hr, hx⟩
  | succ b ih =>
    unfold rootFloor
    split
    · rename_i hle
      apply ih hle
      rwa [Nat.add_assoc, ← Nat.two_mul, ← Nat.pow_succ']
    · rename_i hnot
      exact ih hr (Nat.lt_of_not_le hnot)

/-- The first 32 bits of the fractional part of the `n`-th root of `x`. -/
def rootWord (n x : Nat) : UInt32 := UInt32.ofNat (rootFloor n (x * 2 ^ (32 * n)) 48 0)

/-- The first 64 primes. -/
def primes : Vector Nat 64 := #v[
  2, 3, 5, 7, 11, 13, 17, 19, 23, 29, 31, 37, 41, 43, 47, 53,
  59, 61, 67, 71, 73, 79, 83, 89, 97, 101, 103, 107, 109, 113, 127, 131,
  137, 139, 149, 151, 157, 163, 167, 173, 179, 181, 191, 193, 197, 199, 211, 223,
  227, 229, 233, 239, 241, 251, 257, 263, 269, 271, 277, 281, 283, 293, 307, 311]

/-- `K_t`: cube roots of the first 64 primes. -/
def K : Vector UInt32 64 := primes.map (rootWord 3)

/-- `H^(0)`: square roots of the first 8. -/
def initial : Vector UInt32 8 := (primes.take 8).map (rootWord 2)

/-! ## Functions (4.1.2) -/

/-- `ROTR^n`. -/
def rotr (n : Nat) (x : UInt32) : UInt32 := ⟨x.toBitVec.rotateRight n⟩

def ch (x y z : UInt32) : UInt32 := (x &&& y) ^^^ (~~~x &&& z)

def maj (x y z : UInt32) : UInt32 := (x &&& y) ^^^ (x &&& z) ^^^ (y &&& z)

/-- `Σ_0`. -/
def bigSigma0 (x : UInt32) : UInt32 := rotr 2 x ^^^ rotr 13 x ^^^ rotr 22 x

/-- `Σ_1`. -/
def bigSigma1 (x : UInt32) : UInt32 := rotr 6 x ^^^ rotr 11 x ^^^ rotr 25 x

/-- `σ_0`. -/
def smallSigma0 (x : UInt32) : UInt32 := rotr 7 x ^^^ rotr 18 x ^^^ (x >>> 3)

/-- `σ_1`. -/
def smallSigma1 (x : UInt32) : UInt32 := rotr 17 x ^^^ rotr 19 x ^^^ (x >>> 10)

/-! ## Preprocessing (5.1.1, 5.2.1) -/

/-- The last `n` base-256 digits of a number, the most significant first. -/
def bigEndian (n x : Nat) : Bytes := (List.range n).reverse.map fun i => UInt8.ofNat (x / 256 ^ i)

@[simp] theorem length_bigEndian (n x : Nat) : (bigEndian n x).length = n := by
  simp [bigEndian]

/-- The number of zero bytes that fill the last block. -/
def zeros (length : Nat) : Nat := (119 - length % 64) % 64

/-- A one bit, zeros, and the length in bits. -/
def padding (length : Nat) : Bytes :=
  0x80 :: (List.replicate (zeros length) 0 ++ bigEndian 8 (8 * length))

def pad (message : Bytes) : Bytes := message ++ padding message.length

/-- Padding fills whole blocks of 64 bytes. -/
theorem length_pad (message : Bytes) : 64 ∣ (pad message).length := by
  simp only [pad, padding, zeros, List.length_append, List.length_cons, List.length_replicate,
    length_bigEndian]
  omega

/-- `M_i`: the words of a block. -/
def wordAt (block : Bytes) (i : Nat) : UInt32 :=
  UInt32.ofNat ((((block.getD (4 * i) 0).toNat * 256 + (block.getD (4 * i + 1) 0).toNat) * 256 +
    (block.getD (4 * i + 2) 0).toNat) * 256 + (block.getD (4 * i + 3) 0).toNat)

/-! ## Hash computation (6.2.2) -/

/-- `W_t`. -/
def schedule (block : Bytes) (t : Nat) : UInt32 :=
  if t < 16 then wordAt block t
  else smallSigma1 (schedule block (t - 2)) + schedule block (t - 7) +
    smallSigma0 (schedule block (t - 15)) + schedule block (t - 16)
termination_by t

theorem schedule_lt {block : Bytes} {t : Nat} (h : t < 16) : schedule block t = wordAt block t := by
  rw [schedule, if_pos h]

theorem schedule_add (block : Bytes) (t : Nat) : schedule block (t + 16) =
    smallSigma1 (schedule block (t + 14)) + schedule block (t + 9) +
      smallSigma0 (schedule block (t + 1)) + schedule block t := by
  rw [schedule, if_neg (Nat.not_lt.mpr (Nat.le_add_left 16 t))]
  rfl

/-- One round on the working variables `a` to `h`. -/
def round (v : Vector UInt32 8) (k w : UInt32) : Vector UInt32 8 :=
  let t1 := v[7] + bigSigma1 v[4] + ch v[4] v[5] v[6] + k + w
  let t2 := bigSigma0 v[0] + maj v[0] v[1] v[2]
  #v[t1 + t2, v[0], v[1], v[2], v[3] + t1, v[4], v[5], v[6]]

/-- `H^(i)` from `H^(i-1)` and `M^(i)`. -/
def compress (H : Vector UInt32 8) (block : Bytes) : Vector UInt32 8 :=
  let v := (List.finRange 64).foldl (fun v (t : Fin 64) => round v K[t] (schedule block t)) H
  v.zipWith (· + ·) H

/-- The blocks of a message, one by one. -/
def compressAll (H : Vector UInt32 8) (message : Bytes) : Vector UInt32 8 :=
  if 64 ≤ message.length then compressAll (compress H (message.take 64)) (message.drop 64) else H
termination_by message.length

/-- The digest of a message of fewer than 2^61 bytes. -/
def sha256 (message : Bytes) : Bytes :=
  (compressAll initial (pad message)).toList.flatMap fun x => bigEndian 4 x.toNat

theorem compressAll_block {block : Bytes} (h : block.length = 64) (H : Vector UInt32 8)
    (rest : Bytes) : compressAll H (block ++ rest) = compressAll (compress H block) rest := by
  rw [compressAll, if_pos (by simp [h]), List.take_left' h, List.drop_left' h]

theorem compressAll_short {message : Bytes} (h : message.length < 64) (H : Vector UInt32 8) :
    compressAll H message = H := by
  rw [compressAll, if_neg (Nat.not_le.mpr h)]

@[simp] theorem length_sha256 (message : Bytes) : (sha256 message).length = 32 := by
  simp [sha256, List.length_flatMap]

end Fips180
