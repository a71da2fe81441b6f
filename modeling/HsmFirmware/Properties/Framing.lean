-- SUMMARY: A packet written to UART1 is read back on the other side, in every order of bytes and steps.
import HsmFirmware.Firmware.Release
import HsmFirmware.Specs.Link

/-!
# Framing round trip

The writer and the reader of a packet are two loops of their own. Whatever the order in
which they move and the bytes arrive, they end with the packet handed over and nothing
left on the link.
-/

/-- A packet that is acknowledged and fits the buffer is received as it was sent: all runs of
    writer and reader end with both at `MSG_OK`, the packet read, and both channels empty. -/
theorem packet_roundTrip (type : MsgType) (buf : Bytes) (capacity : UInt16)
    (stray : Channel UInt8) (w v : World) (ha : type ≠ ackMsg) (hd : type ≠ debugMsg)
    (he : type ≠ errorMsg) (hbuf : buf.length ≤ 65535) (hcap : buf.length ≤ capacity.toNat)
    (harrived : msgMagic ∉ stray.arrived) (hwire : msgMagic ∉ stray.wire) :
    Net.EndsIn linkNext linkNext
      ⟨(w, writePacket type buf (UInt16.ofNat buf.length)), (v, readPacketTimeout capacity), stray,
        .empty⟩
      ⟨(w, pure .ok), (v, pure (.packet type buf)), .empty, .empty⟩ := by
  have hack : needsAck type = true := by simp [needsAck, ha, hd, he]
  have hmeets := @meets_packet_stray _ _ w v type hack buf (Nat.lt_succ_of_le hbuf) capacity
    (.inr hcap) stray harrived hwire pure pure
  rw [bind_pure, bind_pure] at hmeets
  exact .of_reaches hmeets ⟨rfl, rfl, rfl, rfl⟩

/-- A list request of 300 bytes, behind a stray acknowledgement opcode. -/
theorem packet_roundTrip_sample :
    Net.EndsIn linkNext linkNext
      ⟨(World.sample, writePacket listMsg (List.replicate 300 0) (UInt16.ofNat 300)),
        (World.sample, readPacketTimeout 300), ⟨[], [ackMsg]⟩, .empty⟩
      ⟨(World.sample, pure .ok), (World.sample, pure (.packet listMsg (List.replicate 300 0))),
        .empty, .empty⟩ := by
  have hlen : (List.replicate 300 (0 : UInt8)).length = 300 := List.length_replicate
  have h := packet_roundTrip listMsg (List.replicate 300 0) 300 ⟨[], [ackMsg]⟩ World.sample
    World.sample (by decide) (by decide) (by decide) (by omega) hlen.le (by decide) (by decide)
  rwa [hlen] at h
