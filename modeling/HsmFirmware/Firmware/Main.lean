-- SUMMARY: HSM.c: the handlers by opcode, and the main loop of a release build over the frames of the host.
import HsmFirmware.Firmware.Commands

/-!
# Main loop

An iteration reads one frame into `uart_buf` and hands it to the handler of its
opcode. The buffer is never cleared: a handler sees what earlier frames left behind
the end of its packet.
-/

/-- What `init` does with RAM and flash: the PIN state, then both tables. It goes on when one of
    them fails. -/
def init (fw : Firmware) : Dev Unit := do
  if (← pinInit fw) ≠ 0 then printError "PIN init failed\n"
  if (← initCommands) ≠ 0 then printError "Blob store init failed\n"

/-- The handlers of host commands. -/
inductive Handler where
  | list
  | read
  | write
  | receive
  | interrogate
  | listen
  | deleteFile
  | changePin
  | digest
  deriving DecidableEq, Repr

/-- The code of a handler. `listen` ignores the packet that starts it. -/
def handle (fw : Firmware) (h : Handler) (pktLen : UInt16) (buf : Mem) : Dev Int :=
  match h with
  | .list => list fw pktLen buf
  | .read => read fw pktLen buf
  | .write => write fw pktLen buf
  | .receive => receive fw pktLen buf
  | .interrogate => interrogate fw pktLen buf
  | .listen => listen fw
  | .deleteFile => deleteFile fw pktLen buf
  | .changePin => changePin fw pktLen buf
  | .digest => digest fw pktLen buf

/-- The opcodes a release build answers. -/
def releaseHandler (cmd : MsgType) : Option Handler :=
  if cmd = listMsg then some .list
  else if cmd = readMsg then some .read
  else if cmd = writeMsg then some .write
  else if cmd = receiveMsg then some .receive
  else if cmd = interrogateMsg then some .interrogate
  else if cmd = listenMsg then some .listen
  else none

/-- What `read_packet` makes of the next frame: how it ends, and the bytes it has stored in
    the buffer by then. -/
structure HostFrame where
  status : MsgStatus
  cmd : MsgType
  body : Bytes

/-- The error message for a frame that could not be read. -/
def frameError : MsgStatus → String
  | .badPtr => "Bad cmd pointer\n"
  | .noAck => "Failed to receive ACK from host\n"
  | .badLen => "Received bad length\n"
  | .timeout => "UART frame timeout\n"
  | .ok => "Failed to receive cmd from host\n"

/-- `"Invalid Command: %c\n"`, up to the first NUL. -/
def invalidCommand (cmd : MsgType) : Bytes :=
  (ascii "Invalid Command: " ++ [cmd] ++ ascii "\n").takeWhile (· ≠ 0)

/-- What an iteration does with the frame. -/
def dispatch (fw : Firmware) (frame : HostFrame) (uartBuf : Mem) : Dev Unit :=
  if frame.status ≠ .ok then printError (frameError frame.status)
  else
    match releaseHandler frame.cmd with
    | some h => do
      let _ ← handle fw h (UInt16.ofNat frame.body.length) uartBuf
    | none => do
      let _ ← Dev.send .control errorMsg (invalidCommand frame.cmd)

/-- One iteration of the loop of `main`. -/
def mainStep (fw : Firmware) (frame : HostFrame) (uartBuf : Mem) : Dev Mem := do
  let uartBuf := uartBuf.write 0 frame.body
  dispatch fw frame uartBuf
  pure uartBuf
