-- SUMMARY: HMAC as RFC 2104 and HKDF as RFC 5869 state them, over any hash and any MAC.
import Mathlib.Tactic.Common
import HsmFirmware.Library.Codec

/-!
# HMAC and HKDF

The two constructions over byte strings. HMAC takes a hash and the length of its blocks, HKDF a
MAC and the length of its tags.
-/

/-! ## HMAC (RFC 2104) -/

namespace Rfc2104

variable (H : Bytes → Bytes) (blockLen : Nat)

/-- The key, hashed first if it is longer than a block, filled with zeros to a block. -/
def blockKey (key : Bytes) : Bytes :=
  let key := if blockLen < key.length then H key else key
  key ++ List.replicate (blockLen - key.length) 0

def ipad (key : Bytes) : Bytes := (blockKey H blockLen key).map (· ^^^ 0x36)

def opad (key : Bytes) : Bytes := (blockKey H blockLen key).map (· ^^^ 0x5C)

/-- `H(K xor opad, H(K xor ipad, text))`. -/
def hmac (key text : Bytes) : Bytes :=
  H (opad H blockLen key ++ H (ipad H blockLen key ++ text))

end Rfc2104

/-! ## HKDF (RFC 5869) -/

namespace Rfc5869

variable (mac : Bytes → Bytes → Bytes) (hashLen : Nat)

/-- A salt that is not provided is a string of zeros. -/
def extract (salt : Option Bytes) (ikm : Bytes) : Bytes :=
  mac (salt.getD (List.replicate hashLen 0)) ikm

/-- `T(i)`. -/
def T (prk info : Bytes) : Nat → Bytes
  | 0 => []
  | i + 1 => mac prk (T prk info i ++ info ++ [UInt8.ofNat (i + 1)])

/-- `T(i + 1) | ... | T(i + n)`. -/
def blocks (prk info : Bytes) (i n : Nat) : Bytes :=
  (List.range n).flatMap fun j => T mac prk info (i + 1 + j)

/-- The first `L` bytes of `T(1) | T(2) | ... | T(N)`, where `N` blocks have `L` bytes or more. -/
def expand (prk info : Bytes) (L : Nat) : Bytes :=
  (blocks mac prk info 0 ((L + hashLen - 1) / hashLen)).take L

theorem blocks_succ (prk info : Bytes) (i n : Nat) :
    blocks mac prk info i (n + 1) = T mac prk info (i + 1) ++ blocks mac prk info (i + 1) n := by
  unfold blocks
  rw [List.range_succ_eq_map, List.flatMap_cons, List.flatMap_map]
  congr 2
  funext j
  congr 1
  omega

end Rfc5869
