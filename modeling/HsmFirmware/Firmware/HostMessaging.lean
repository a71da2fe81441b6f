-- SUMMARY: host_messaging.c: packets on a UART byte by byte, with the acknowledgements between their blocks.
import HsmFirmware.Library.Network
import HsmFirmware.Firmware.Main

/-!
# Host messaging

A packet is a header of four bytes and a body in blocks of 256 bytes. The receiver
acknowledges the header and each block; a sender waits for that, unless the opcode is
one that is never acknowledged.
-/

/-! ## Byte operations -/

/-- What a device does when UART1 is seen byte by byte. -/
inductive LinkOp where
  /-- Any operation that does not use UART1. -/
  | device (o : Op)
  /-- `uart_writebyte`. -/
  | writebyte (b : UInt8)
  /-- `uart_readbyte_timeout`. -/
  | readbyte
  /-- `uart_readbyte_timeout` in a loop, until it gives the magic byte. -/
  | readMagic

/-- A byte that does not come in time is `none`, a magic byte `false`. -/
def LinkRes : LinkOp → Type
  | .device o => Res o
  | .writebyte _ => Unit
  | .readbyte => Option UInt8
  | .readMagic => Bool

/-- A computation that uses UART1 byte by byte. -/
abbrev Link := Prog LinkRes

namespace Link

def writebyte (b : UInt8) : Link Unit := @Prog.op LinkOp LinkRes (.writebyte b)
def readbyte : Link (Option UInt8) := @Prog.op LinkOp LinkRes .readbyte
def readMagic : Link Bool := @Prog.op LinkOp LinkRes .readMagic

end Link

open Link

/-! ## Writing -/

/-- `MSG_MAGIC`. -/
def msgMagic : UInt8 := 0x25

/-- `await_ack`. -/
def awaitAck : Link MsgStatus := do
  match ← readbyte with
  | none => pure .timeout
  | some b =>
    if b ≠ msgMagic then pure .noAck else do
    match ← readbyte with
    | none => pure .timeout
    | some b =>
      if b ≠ ackMsg then pure .noAck else do
      match ← readbyte with
      | none => pure .timeout
      | some _ => do
        match ← readbyte with
        | none => pure .timeout
        | some _ => pure .ok

/-- A run of `uart_writebyte`. -/
def writeAll : Bytes → Link Unit
  | [] => pure ()
  | b :: bs => do
    writebyte b
    writeAll bs

/-- The opcodes that are acknowledged. -/
def needsAck (type : MsgType) : Bool := type ≠ ackMsg && type ≠ debugMsg && type ≠ errorMsg

/-- The size of the next block, of the bytes left to write. -/
def writeBlock (left : UInt16) : UInt16 := if 256 < left then 256 else left

theorem toNat_writeBlock (left : UInt16) : (writeBlock left).toNat = min left.toNat 256 := by
  have h256 : (256 : UInt16).toNat = 256 := rfl
  rw [writeBlock]
  split
  · rename_i h
    rw [UInt16.lt_iff_toNat_lt] at h
    omega
  · rename_i h
    rw [UInt16.lt_iff_toNat_lt] at h
    omega

/-- The bytes left behind an offset. -/
theorem toNat_sub_offset {len offset : UInt16} (h : offset < len) :
    (len - offset).toNat = len.toNat - offset.toNat :=
  UInt16.toNat_sub_of_le len offset (UInt16.le_of_lt h)

/-- The offset does not overflow. -/
theorem toNat_next_offset {len offset : UInt16} (h : offset < len) :
    (offset + writeBlock (len - offset)).toNat =
      offset.toNat + min (len.toNat - offset.toNat) 256 := by
  have hlt : offset.toNat < len.toNat := UInt16.lt_iff_toNat_lt.mp h
  have hlen := len.toNat_lt
  rw [UInt16.toNat_add, toNat_writeBlock, toNat_sub_offset h, Nat.mod_eq_of_lt (by omega)]

/-- The loop of `write_bytes`. -/
def writeBytesFrom (buf : Bytes) (len : UInt16) (shouldAck : Bool) (offset : UInt16) :
    Link MsgStatus :=
  if offset < len then do
    let block := writeBlock (len - offset)
    writeAll ((buf.drop offset.toNat).take block.toNat)
    let rc ← if shouldAck then awaitAck else pure .ok
    if rc ≠ .ok then pure rc else
    writeBytesFrom buf len shouldAck (offset + block)
  else pure .ok
termination_by len.toNat - offset.toNat
decreasing_by
  rename_i h
  have hlt : offset.toNat < len.toNat := UInt16.lt_iff_toNat_lt.mp h
  rw [toNat_next_offset h]
  omega

def writeBytes (buf : Bytes) (len : UInt16) (shouldAck : Bool) : Link MsgStatus :=
  writeBytesFrom buf len shouldAck 0

/-- `msg_header_t`. -/
def msgHeader (type : MsgType) (len : UInt16) : Bytes := [msgMagic, type] ++ Codec.u16.encode len

def writeHeader (type : MsgType) (len : UInt16) : Link MsgStatus := do
  writeAll (msgHeader type len)
  if needsAck type then awaitAck else pure .ok

def writePacket (type : MsgType) (buf : Bytes) (len : UInt16) : Link MsgStatus := do
  let rc ← writeHeader type len
  if rc ≠ .ok then pure rc
  else if 0 < len then writeBytes buf len (needsAck type)
  else pure .ok

def writeAck : Link MsgStatus := writePacket ackMsg [] 0

/-! ## Writing hex -/

/-- The digit of the low nibble. -/
def hexChar (nibble : UInt8) : UInt8 := (ascii "0123456789abcdef").getD (nibble &&& 0xF).toNat 0

/-- The loop of `write_hex` over the bytes left. -/
def writeHexFrom (shouldAck : Bool) : Bytes → UInt16 → Link MsgStatus
  | [], _ => pure .ok
  | b :: bs, blockPos => do
    writebyte (hexChar (b >>> 4))
    writebyte (hexChar b)
    let blockPos := blockPos + 2
    if blockPos = 256 then do
      let rc ← if shouldAck then awaitAck else pure .ok
      if rc ≠ .ok then pure rc else writeHexFrom shouldAck bs 0
    else writeHexFrom shouldAck bs blockPos

/-- `write_hex`. -/
def writeHex (type : MsgType) (buf : Bytes) : Link Int :=
  if 0x7FFF < buf.length then pure (-1) else do
    writeAll (msgHeader type (UInt16.ofNat (buf.length * 2)))
    let rc ← if needsAck type then awaitAck else pure .ok
    if rc ≠ .ok then pure rc.toInt else do
    let rc ← writeHexFrom (needsAck type) buf 0
    pure rc.toInt

/-! ## Reading -/

/-- Read bytes behind those in `p`, until there are enough or one does not come. -/
def readBlock : Nat → Bytes → Link (Bool × Bytes)
  | 0, p => pure (true, p)
  | n + 1, p => do
    match ← readbyte with
    | none => pure (false, p)
    | some b => readBlock n (p ++ [b])

/-- The size of the next block, of the bytes that remain to be read. -/
def readBlockLen (remaining : UInt16) : UInt16 := if remaining < 256 then remaining else 256

theorem toNat_readBlockLen (remaining : UInt16) :
    (readBlockLen remaining).toNat = min remaining.toNat 256 := by
  have h256 : (256 : UInt16).toNat = 256 := rfl
  rw [readBlockLen]
  split
  · rename_i h
    rw [UInt16.lt_iff_toNat_lt] at h
    omega
  · rename_i h
    rw [UInt16.lt_iff_toNat_lt] at h
    omega

theorem toNat_next_remaining (remaining : UInt16) :
    (remaining - readBlockLen remaining).toNat = remaining.toNat - min remaining.toNat 256 := by
  rw [UInt16.toNat_sub_of_le, toNat_readBlockLen]
  rw [UInt16.le_iff_toNat_le, toNat_readBlockLen]
  exact Nat.min_le_left _ _

theorem toNat_pos {remaining : UInt16} (h : ¬ remaining = 0) : 0 < remaining.toNat :=
  Nat.pos_of_ne_zero fun h0 => h (UInt16.toNat.inj h0)

/-- The loop of `read_packet` over the blocks of the body. `p` holds the bytes stored so far, and
    the offset of the source is their number. -/
def readBody (remaining : UInt16) (p : Bytes) : Link (MsgStatus × Bytes) :=
  if remaining = 0 then pure (.ok, p) else do
    let r ← readBlock (readBlockLen remaining).toNat p
    if !r.1 then pure (.timeout, r.2) else do
    let _ ← writeAck
    readBody (remaining - readBlockLen remaining) r.2
termination_by remaining.toNat
decreasing_by
  rename_i h _
  have hpos := toNat_pos h
  rw [toNat_next_remaining]
  omega

/-- `read_packet` and `read_packet_timeout`, which differ in how long they wait. A capacity of 0
    is unchecked. -/
def readFrame (capacity : UInt16) : Link HostFrame := do
  if !(← readMagic) then pure ⟨.timeout, 0, []⟩ else do
  match ← readbyte with
  | none => pure ⟨.timeout, 0, []⟩
  | some cmd => do
    let lo ← readbyte
    let hi ← readbyte
    match lo, hi with
    | some lo, some hi => do
      let pktLen := Codec.u16.decode [lo, hi]
      let _ ← writeAck
      if capacity ≠ 0 ∧ capacity < pktLen then pure ⟨.badLen, cmd, []⟩ else do
      let r ← readBody pktLen []
      pure ⟨r.1, cmd, r.2⟩
    | _, _ => pure ⟨.timeout, cmd, []⟩

def readPacket (capacity : UInt16) : Link HostFrame := readFrame capacity

/-- What the caller of `read_packet_timeout` looks at. -/
def HostFrame.received (frame : HostFrame) : Received :=
  if frame.status = .ok then .packet frame.cmd frame.body else .failed frame.status

def readPacketTimeout (capacity : UInt16) : Link Received := do
  let frame ← readFrame capacity
  pure frame.received

/-! ## Handlers on the link -/

/-- A program of the device, with the packets on UART1 written and read byte by byte. -/
def onLink {α : Type} : Prog Res α → Link α
  | .ret a => .ret a
  | .call (.send .transfer cmd payload) k => do
    let rc ← writePacket cmd payload (UInt16.ofNat payload.length)
    onLink (k rc)
  | .call (.recv .transfer capacity) k => do
    let r ← readPacketTimeout (UInt16.ofNat capacity)
    onLink (k r)
  | .call o k => .call (.device o) fun r => onLink (k r)

/-- What a device on the link does next, when no byte is waited for too long. -/
def linkNext {α : Type} : World × Link α → Next UInt8 (World × Link α)
  | (_, .ret _) => .halt
  | (w, .call (.device o) k) => .silent ((hsm.act o w).2, k (hsm.act o w).1)
  | (w, .call (.writebyte b) k) => .put b (w, k ())
  | (w, .call .readbyte k) => .take fun b => (w, k (some b))
  | (w, .call .readMagic k) =>
    .take fun b => if b = msgMagic then (w, k true) else (w, .call .readMagic k)

/-- What it does when the byte it waits for does not come. -/
def linkTimeout {α : Type} : World × Link α → Option (World × Link α)
  | (w, .call .readbyte k) => some (w, k none)
  | (w, .call .readMagic k) => some (w, k false)
  | _ => none

/-! ## A device and what it reads -/

/-- What comes in on a UART, byte for byte. A byte that does not come in time is `none`, and
    behind the end no byte comes. -/
abbrev UartInput := List (Option UInt8)

/-- Drop the bytes up to the first magic byte. -/
def UartInput.skipToMagic : UartInput → Bool × UartInput
  | [] => (false, [])
  | none :: s => (false, s)
  | some b :: s => if b = msgMagic then (true, s) else skipToMagic s

/-- What a computation returns for a stream, and what it leaves of it. -/
def Link.onInput {α : Type} : Link α → UartInput → α × UartInput
  | .ret a, s => (a, s)
  | .call (.device o) k, s => onInput (k (hsm.refuse o)) s
  | .call (.writebyte _) k, s => onInput (k ()) s
  | .call .readbyte k, [] => onInput (k none) []
  | .call .readbyte k, b :: s => onInput (k b) s
  | .call .readMagic k, s => onInput (k (UartInput.skipToMagic s).1) (UartInput.skipToMagic s).2

/-- `read_packet` as the loop of `main` calls it, with `pkt_len` set to 0. -/
def mainReadPacket : Link HostFrame := readPacket 0
