-- SUMMARY: trng.c poll by poll, and the nonces security_generate_nonce draws from it.
import HsmFirmware.Library.Polling
import HsmFirmware.Library.Codec

/-!
# Random numbers

`trng_read_bytes` has the peripheral capture one word of 32 bits after the other. A capture that
fails, or is not ready after `TRNG_POLL_LIMIT` polls, is tried again.
-/

/-- `TRNG_POLL_LIMIT`. -/
def trngPollLimit : Nat := 1000000

/-- What each poll of the peripheral shows: nothing, a failed command, which is `some none`, or a
    capture. -/
abbrev TrngPolls := Nat → Option (Option UInt32)

section

variable (trng : TrngPolls)

/-- The loop of `trng_read_bytes`, with the bytes written so far. Gives the number of the next
    poll, too. -/
def trngReadBytesFrom (len : Nat) : Nat → Nat → Bytes → Option (Bytes × Nat)
  | 0, _, _ => none
  | fuel + 1, n, written =>
    if written.length < len then
      match Polling.poll trng trngPollLimit n with
      | (some (some word), next) =>
        trngReadBytesFrom len fuel next
          (written ++ (Codec.u32.encode word).take (len - written.length))
      | (_, next) => trngReadBytesFrom len fuel next written
    else some (written, n)

def trngReadBytes (len fuel : Nat) : Option (Bytes × Nat) := trngReadBytesFrom trng len fuel 0 []

/-- `security_generate_nonce` of the target. It returns false with `none`, and true with the bytes
    of `out`. -/
def targetGenerateNonce (outLen fuel : Nat) : Option (Option Bytes) :=
  if outLen = 0 then some none else (trngReadBytes trng outLen fuel).map fun r => some r.1

end
