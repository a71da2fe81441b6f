-- SUMMARY: simple_uart.c poll by poll, and computations on a UART over a schedule of its polls.
import HsmFirmware.Library.Polling
import HsmFirmware.Firmware.HostMessaging

/-!
# Simple UART

`uart_readbyte_timeout` polls the receive FIFO, 4000 times for each millisecond of its timeout, or
without end. A read is timed on its own: the next one starts with the whole timeout again.
-/

/-- What `uart_try_readbyte` gives at each poll. -/
abbrev UartPolls := Nat → Option UInt8

/-- `UART_RX_TIMEOUT_MS`, the timeout that never ends. -/
def uartRxTimeoutMs : UInt32 := 0xFFFFFFFF
/-- `UART_XFER_TIMEOUT_MS`. -/
def uartXferTimeoutMs : UInt32 := 2000
/-- `UART_TIMEOUT_LOOPS_PER_MS`. -/
def uartTimeoutLoopsPerMs : UInt32 := 4000

/-- The polls of a read, `none` for those without end. -/
def uartTimeoutLoops (timeoutMs : UInt32) : Option Nat :=
  if timeoutMs = uartRxTimeoutMs then none
  else
    let loops64 : UInt64 := timeoutMs.toUInt64 * uartTimeoutLoopsPerMs.toUInt64
    let loops : UInt32 := if loops64 > 0xFFFFFFFF then 0xFFFFFFFF else loops64.toUInt32
    some loops.toNat

/-- `uart_readbyte_timeout`. Gives the number of the next poll, too. -/
def uartReadbyteTimeout (polls : UartPolls) (timeoutMs : UInt32) (fuel n : Nat) :
    Option (Option UInt8 × Nat) :=
  Polling.await polls (uartTimeoutLoops timeoutMs) fuel n

/-- `uart_frame_timeout_ms`. -/
def uartFrameTimeoutMs (uart : Uart) : UInt32 :=
  if uart = .control then uartRxTimeoutMs else uartXferTimeoutMs

/-- A computation on a UART from a poll on, where the wait for a magic byte has its own timeout. -/
def Link.onPolls {α : Type} (polls : UartPolls) (uart : Uart) (timeoutMs : UInt32) (fuel : Nat) :
    Link α → Nat → Option (α × Nat)
  | .ret a, n => some (a, n)
  | .call (.device o) k, n => onPolls polls uart timeoutMs fuel (k (hsm.refuse o)) n
  | .call (.writebyte _) k, n => onPolls polls uart timeoutMs fuel (k ()) n
  | .call .readbyte k, n =>
    (uartReadbyteTimeout polls (uartFrameTimeoutMs uart) fuel n).bind fun r =>
      onPolls polls uart timeoutMs fuel (k r.1) r.2
  | .call .readMagic k, n =>
    (Polling.seek polls (· = msgMagic) (uartTimeoutLoops timeoutMs) fuel n).bind fun r =>
      onPolls polls uart timeoutMs fuel (k r.1) r.2

/-- `read_packet_timeout`, from the poll 0 on. -/
def polledReadPacketTimeout (polls : UartPolls) (uart : Uart) (capacity : UInt16)
    (timeoutMs : UInt32) (fuel : Nat) : Option HostFrame :=
  (Link.onPolls polls uart timeoutMs fuel (readFrame capacity) 0).map fun r => r.1
