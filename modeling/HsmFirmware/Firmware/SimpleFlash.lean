-- SUMMARY: simple_flash.c and the packet-level part of host_messaging.c that handlers use for errors.
import HsmFirmware.Device.Dev

/-!
# Simple flash

`flash_simple_erase_page` and `flash_simple_write`. A write is cut into pieces of
64 bytes, each padded with `0xFF` to an even number of 32-bit words and
programmed by one command of the flash controller.
-/

/-- The words programmed for one piece: the piece in a buffer of 64 bytes `0xFF`, as
    an even number of 32-bit words. -/
def programWords (chunk : Bytes) : Bytes :=
  let words := (chunk.length + 3) / 4
  let words := if words % 2 ≠ 0 then words + 1 else words
  (chunk ++ List.replicate (64 - chunk.length) 0xFF).take (4 * words)

def flashSimpleErasePage (address : Nat) : Dev Int := do
  if ← Dev.erase address then pure 0 else pure (-1)

def flashSimpleWrite (address : Nat) (buffer : Bytes) : Dev Int :=
  if buffer = [] then pure 0 else do
    let chunk := buffer.take 64
    if ← Dev.program address (programWords chunk) then
      flashSimpleWrite (address + chunk.length) (buffer.drop 64)
    else pure (-1)
termination_by buffer.length
decreasing_by
  have := List.length_pos_iff.mpr ‹_›
  simp
  omega

/-- `print_error`. -/
def printError (msg : String) : Dev Unit := do
  let _ ← Dev.send .control errorMsg (ascii msg)

/-- Print an error and return -1. -/
def reject (msg : String) : Dev Int := do
  printError msg
  pure (-1)
