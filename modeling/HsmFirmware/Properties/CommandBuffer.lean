-- SUMMARY: What read_packet stores in uart_buf for the loop of main is bounded exactly when the length announced is.
import HsmFirmware.Specs.Input
import HsmFirmware.Specs.FileCommands

/-!
# Command-buffer bound

`uart_buf` has `MAX_MSG_SIZE` bytes, but `main` calls `read_packet` with a length of 0,
which is the unchecked one. The header of a frame then decides alone how many bytes are
stored.
-/

/-- What the buffer needs of one call of `read_packet` in the loop of `main`, which reads `frame`
    from `s`. -/
structure BoundedRead (s : UartInput) (frame : HostFrame) : Prop where
  /-- Bytes are stored below the end of the buffer. -/
  stored : frame.body.length ≤ maxMsgSize
  /-- A longer frame is refused. -/
  rejected : ∀ len, s.headerLength = some len → maxMsgSize < len.toNat → frame.status = .badLen
  /-- The length of the packet a handler gets. -/
  entered : frame.status = .ok → (UInt16.ofNat frame.body.length).toNat ≤ maxMsgSize
  /-- The length of the contents `write` accepts, whatever was in the buffer before. -/
  accepted : ∀ fw (uartBuf : Mem), frame.status = .ok →
    (StoreCommand.byWrite (UInt16.ofNat frame.body.length) (uartBuf.write 0 frame.body)).Accepted fw →
    (WriteCommand.ofBuf (uartBuf.write 0 frame.body)).contentsLen.toNat ≤ maxContentsSize

/-- A frame stored within the buffer keeps every bound, if its header announces no more. -/
theorem BoundedRead.of_stored {s : UartInput} {frame : HostFrame}
    (hstored : frame.body.length ≤ maxMsgSize)
    (hheader : ∀ len, s.headerLength = some len → len.toNat ≤ maxMsgSize) : BoundedRead s frame := by
  have hentered : (UInt16.ofNat frame.body.length).toNat ≤ maxMsgSize := by
    rw [UInt16.toNat_ofNat']
    exact (Nat.mod_le _ _).trans hstored
  refine ⟨hstored, ?_, ?_, ?_⟩
  · intro len hlen hlong
    exact absurd (hheader len hlen) (Nat.not_le.mpr hlong)
  · intro _
    exact hentered
  · intro fw uartBuf _ haccepted
    have hle := (StoreCommand.contentsLen_le haccepted).trans hentered
    exact Nat.le_of_add_le_add_left hle

/-- For every stream, the call keeps the buffer's bounds just when the first header announces no
    more than the buffer holds. -/
theorem mainReadPacket_bounded_iff (s : UartInput) :
    BoundedRead s (mainReadPacket.onInput s).1 ↔
      ∀ len, s.headerLength = some len → len.toNat ≤ maxMsgSize := by
  have hreads := mainReadPacket_reads s
  generalize (mainReadPacket.onInput s).1 = frame at hreads ⊢
  constructor
  · intro h len hlen
    apply Nat.not_lt.mp
    intro hlong
    have hbad := h.rejected len hlen hlong
    cases hreads with
    | timedOut hnone _ _ =>
      rw [hnone] at hlen
      cases hlen
    | announced n _ hstatus _ _ => exact hstatus hbad
  · intro h
    refine .of_stored ?_ h
    cases hreads with
    | timedOut _ _ hbody =>
      rw [hbody]
      exact Nat.zero_le _
    | announced n hlen _ hle _ => exact hle.trans (h n hlen)

/-- A complete frame is stored as a whole, however long it is. -/
theorem mainReadPacket_body (cmd lo hi : UInt8) (bs : Bytes)
    (h : bs.length = (Codec.u16.decode [lo, hi]).toNat) :
    (mainReadPacket.onInput ([msgMagic, cmd, lo, hi].map some ++ bs.map some)).1.body = bs := by
  have hread := readBody_onInput_all (Codec.u16.decode [lo, hi]) bs [] [] h
  rw [List.append_nil, List.nil_append] at hread
  rw [mainReadPacket_onInput]
  show ((readHeader 0).onInput (some cmd :: some lo :: some hi :: bs.map some)).1.body = bs
  rw [readHeader_complete, hread]

/-- A frame of one byte more than the buffer holds. -/
def overlongFrame : UartInput :=
  [msgMagic, writeMsg, 0x3C, 0x20].map some ++ (List.replicate 8252 0).map some

/-- It is stored past the end of the buffer. -/
theorem mainReadPacket_bounded_fails :
    ¬ ∀ s : UartInput, BoundedRead s (mainReadPacket.onInput s).1 := by
  intro h
  have hstored := (h overlongFrame).stored
  have hlen : (List.replicate 8252 (0 : UInt8)).length = 8252 := List.length_replicate
  rw [overlongFrame, mainReadPacket_body writeMsg 0x3C 0x20 _ hlen, hlen] at hstored
  exact absurd hstored (by decide)
