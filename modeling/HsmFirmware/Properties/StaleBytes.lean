-- SUMMARY: A handler depends on the first pkt_len bytes of the command buffer only.
import HsmFirmware.Firmware.Main
import HsmFirmware.Specs.Read
import HsmFirmware.Specs.FileCommands

/-!
# Stale bytes

`uart_buf` keeps what earlier packets left in it. Every handler checks the length of
its packet before it reads a field, so that two buffers with the same packet in front
make it the same program: it performs the same operations on the same answers.
-/

section

variable {fw : Firmware} {pktLen : UInt16} {buf buf' : Mem}

/-- A field within the packet. -/
theorem Mem.Agree.field {n : Nat} (h : Mem.Agree buf buf' 0 n) {a k : Nat} (hk : a + k ≤ n) :
    buf.read a k = buf'.read a k :=
  h.read (Nat.zero_le a) hk

/-- A byte within the packet. -/
theorem Mem.Agree.byte {n : Nat} (h : Mem.Agree buf buf' 0 n) {a : Nat} (ha : a < n) :
    buf a = buf' a :=
  h a (Nat.zero_le a) ha

/-- The fixed part of a write command. -/
theorem WriteCommand.ofBuf_congr (hlen : ¬ pktLen < writeCmdMinLen)
    (h : Mem.Agree buf buf' 0 pktLen.toNat) :
    WriteCommand.ofBuf buf' = { WriteCommand.ofBuf buf with contents := (ofBuf buf').contents } := by
  have hmin : 59 ≤ pktLen.toNat := le_of_not_short hlen
  have hpin := h.field (a := 0) (k := pinLength) (by simp only [pinLength]; omega)
  have hgroup := h.field (a := 7) (k := 2) (by omega)
  have hname := h.field (a := 9) (k := 32) (by omega)
  have huuid := h.field (a := 41) (k := 16) (by omega)
  have hcontents := h.field (a := 57) (k := 2) (by omega)
  have hslot := h.byte (a := 6) (by omega)
  simp only [ofBuf, hpin, hgroup, hname, huuid, hcontents, hslot]

/-- The contents, when the packet is long enough for them. -/
theorem WriteCommand.contents_congr (hlen : ¬ pktLen < writeCmdMinLen)
    (h : Mem.Agree buf buf' 0 pktLen.toNat)
    (hfits : ¬ pktLen - writeCmdMinLen < (ofBuf buf).contentsLen) :
    (ofBuf buf').contents = (ofBuf buf).contents := by
  have hmin : 59 ≤ pktLen.toNat := le_of_not_short hlen
  have hsub : (pktLen - writeCmdMinLen).toNat = pktLen.toNat - 59 := by
    rw [UInt16.toNat_sub_of_le pktLen writeCmdMinLen (UInt16.le_iff_toNat_le.mpr hmin)]
    rfl
  have hfits' : (ofBuf buf).contentsLen.toNat ≤ pktLen.toNat - 59 := by
    rw [← hsub]
    exact le_of_not_short hfits
  have hlength := h.field (a := 57) (k := 2) (by omega)
  show buf'.read 59 _ = buf.read 59 _
  rw [← hlength]
  refine (h.field ?_).symm
  simp only [ofBuf] at hfits'
  omega

theorem write_congr (h : Mem.Agree buf buf' 0 pktLen.toNat) :
    write fw pktLen buf = write fw pktLen buf' := by
  rw [write, write]
  by_cases hlen : pktLen < writeCmdMinLen
  · rw [if_pos hlen, if_pos hlen]
  rw [if_neg hlen, if_neg hlen, WriteCommand.ofBuf_congr hlen h]
  -- The two commands differ at most in contents the packet does not hold.
  have hchecked : writeChecked fw pktLen (WriteCommand.ofBuf buf) = writeChecked fw pktLen
      { WriteCommand.ofBuf buf with contents := (WriteCommand.ofBuf buf').contents } := by
    rw [writeChecked, writeChecked]
    by_cases hfits : pktLen - writeCmdMinLen < (WriteCommand.ofBuf buf).contentsLen
    · simp only [hfits, if_true]
    · rw [WriteCommand.contents_congr hlen h hfits]
  rw [hchecked]

/-- Two buffers with the same packet in front make a handler the same program. -/
theorem handle_congr (h : Handler) (hagree : Mem.Agree buf buf' 0 pktLen.toNat) :
    handle fw h pktLen buf = handle fw h pktLen buf' := by
  have hpin : ∀ {n : UInt16}, 6 ≤ n.toNat → ¬ pktLen < n →
      buf.read 0 pinLength = buf'.read 0 pinLength := fun hn hlen =>
    hagree.field (Nat.le_trans hn (le_of_not_short hlen))
  cases h with
  | list =>
    simp only [handle, list]
    by_cases hlen : pktLen < 6
    · rw [if_pos hlen, if_pos hlen]
    · rw [if_neg hlen, if_neg hlen, hpin (by decide) hlen]
  | read =>
    simp only [handle, read_eq]
    by_cases hlen : pktLen < 7
    · rw [if_pos hlen, if_pos hlen]
    · rw [if_neg hlen, if_neg hlen, hpin (by decide) hlen,
        hagree.byte (le_of_not_short hlen : 6 < pktLen.toNat)]
  | write => exact write_congr hagree
  | receive =>
    simp only [handle, receive]
    by_cases hlen : pktLen < 8
    · rw [if_pos hlen, if_pos hlen]
    · have h8 : 8 ≤ pktLen.toNat := le_of_not_short hlen
      rw [if_neg hlen, if_neg hlen, hpin (by decide) hlen, hagree.byte (by omega : 6 < pktLen.toNat),
        hagree.byte (by omega : 7 < pktLen.toNat)]
  | interrogate =>
    simp only [handle, interrogate]
    by_cases hlen : pktLen < 6
    · rw [if_pos hlen, if_pos hlen]
    · rw [if_neg hlen, if_neg hlen, hpin (by decide) hlen]
  | listen => rfl
  | deleteFile =>
    simp only [handle, deleteFile]
    by_cases hlen : pktLen < 7
    · rw [if_pos hlen, if_pos hlen]
    · rw [if_neg hlen, if_neg hlen, hpin (by decide) hlen,
        hagree.byte (le_of_not_short hlen : 6 < pktLen.toNat)]
  | changePin =>
    simp only [handle, changePin]
    by_cases hlen : pktLen < 12
    · rw [if_pos hlen, if_pos hlen]
    · have hnew := hagree.field (a := 6) (k := pinLength) (le_of_not_short hlen)
      rw [if_neg hlen, if_neg hlen, hpin (by decide) hlen, hnew]
  | digest =>
    simp only [handle, digest]
    by_cases hlen : 1 ≤ pktLen
    · rw [if_pos hlen, if_pos hlen, hagree.byte (UInt16.le_iff_toNat_le.mp hlen)]
    · rw [if_neg hlen, if_neg hlen]

end

/-- For every state and every schedule of flash failures, a handler gives the same replies,
    the same UART1 traffic, the same flash commands and the same state from two buffers that
    agree on the first `pkt_len` bytes. -/
theorem handle_ignores_stale (fw : Firmware) (h : Handler) (pktLen : UInt16) (buf buf' : Mem)
    (hagree : Mem.Agree buf buf' 0 pktLen.toNat) (fs : Schedule) (ram : Ram) (w : World) :
    (handle fw h pktLen buf).exec fs ram w = (handle fw h pktLen buf').exec fs ram w := by
  rw [handle_congr h hagree]

/-- A `read` command with the rest of an old `write` command behind it. -/
theorem handle_ignores_stale_read :
    (handle .sample .read 7 (sampleWrite 0 1 "a")).exec [] .sampleStored .sampleStored =
      (handle .sample .read 7 (Mem.write (fun _ => 0) 0 (ascii "a1b2c3" ++ [0]))).exec []
        .sampleStored .sampleStored := by
  have hagree : ∀ x < 7, sampleWrite 0 1 "a" x =
    Mem.write (fun _ => 0) 0 (ascii "a1b2c3" ++ [0]) x := by decide
  exact handle_ignores_stale .sample .read 7 _ _ (fun x _ hx => hagree x hx) [] .sampleStored
    .sampleStored

/-- What an earlier frame left in `uart_buf` makes no difference to the next one. -/
theorem dispatch_ignores_buffer (fw : Firmware) (frame : HostFrame) (uartBuf uartBuf' : Mem)
    (hlen : frame.body.length < 65536) :
    dispatch fw frame (uartBuf.write 0 frame.body) =
      dispatch fw frame (uartBuf'.write 0 frame.body) := by
  have hagree : Mem.Agree (uartBuf.write 0 frame.body) (uartBuf'.write 0 frame.body) 0
      (UInt16.ofNat frame.body.length).toNat := by
    intro x _ hx
    have hlength : (UInt16.ofNat frame.body.length).toNat = frame.body.length :=
      UInt16.toNat_ofNat_of_lt' hlen
    rw [hlength] at hx
    simp only [Mem.write, Nat.zero_add, Nat.zero_le, true_and, if_pos hx]
  simp only [dispatch, handle_congr _ hagree]
