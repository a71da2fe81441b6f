-- SUMMARY: A packet written on one side of the link and read on the other, byte by byte and block by block.
import HsmFirmware.Firmware.HostMessaging

/-!
# Packets on the link

While both sides are at the same packet, every byte that is written is the next one to be
read: blocks and acknowledgements alternate, and the channels are empty in between.
-/

/-- Two devices connected by UART1. -/
abbrev LinkNet (α β : Type) := Net UInt8 (World × Link α) (World × Link β)

/-- Some order of moves leads from one state of the two devices to the other. -/
abbrev Meets {α β : Type} (n t : LinkNet α β) : Prop := Net.Reaches linkNext linkNext n t

section

variable {α β : Type} {w v : World} {c : Channel UInt8}

/-! ## Bytes -/

theorem meets_byte (b : UInt8) (f : Unit → Link α) (g : Option UInt8 → Link β) :
    Meets ⟨(w, Link.writebyte b >>= f), (v, Link.readbyte >>= g), .empty, c⟩
      ⟨(w, f ()), (v, g (some b)), .empty, c⟩ :=
  Net.Reaches.pass (k := fun b => (v, g (some b))) rfl rfl

theorem meets_writeAll (bs p : Bytes) (k : Unit → Link α) (k' : Bool × Bytes → Link β) :
    Meets ⟨(w, writeAll bs >>= k), (v, readBlock bs.length p >>= k'), .empty, c⟩
      ⟨(w, k ()), (v, k' (true, p ++ bs)), .empty, c⟩ := by
  induction bs generalizing p with
  | nil =>
    rw [List.append_nil]
    exact .refl _
  | cons b bs ih =>
    have hpass : Meets ⟨(w, writeAll (b :: bs) >>= k),
        (v, readBlock (b :: bs).length p >>= k'), .empty, c⟩
        ⟨(w, writeAll bs >>= k), (v, readBlock bs.length (p ++ [b]) >>= k'), .empty, c⟩ :=
      meets_byte b (fun _ => writeAll bs >>= k) _
    have hrest := ih (p ++ [b])
    rw [List.append_assoc, List.singleton_append] at hrest
    exact hpass.trans hrest

/-- The receiver acknowledges what the sender waits to have acknowledged. -/
theorem meets_ack (k : MsgStatus → Link α) (k' : MsgStatus → Link β) :
    Meets ⟨(w, awaitAck >>= k), (v, writeAck >>= k'), c, .empty⟩
      ⟨(w, k .ok), (v, k' .ok), c, .empty⟩ := by
  have hbyte : ∀ (b : UInt8) (f : Option UInt8 → Link α) (g : Unit → Link β),
      Meets ⟨(w, Link.readbyte >>= f), (v, Link.writebyte b >>= g), c, .empty⟩
        ⟨(w, f (some b)), (v, g ()), c, .empty⟩ := fun b f g =>
    Net.Reaches.swap (n := ⟨(v, Link.writebyte b >>= g), (w, Link.readbyte >>= f), .empty, c⟩)
      (meets_byte b g f)
  exact (((hbyte msgMagic _ _).trans (hbyte ackMsg _ _)).trans (hbyte 0 _ _)).trans (hbyte 0 _ _)

/-- Stray bytes are dropped. -/
theorem meets_stray {s : World × Link α} (stray wire : Bytes) (hstray : msgMagic ∉ stray)
    (k : Bool → Link β) :
    Meets ⟨s, (v, Link.readMagic >>= k), ⟨wire, stray⟩, c⟩
      ⟨s, (v, Link.readMagic >>= k), ⟨wire, []⟩, c⟩ := by
  induction stray with
  | nil => exact .refl _
  | cons b stray ih =>
    obtain ⟨hb, hrest⟩ : msgMagic ≠ b ∧ msgMagic ∉ stray := by simpa using hstray
    have htake : Meets ⟨s, (v, Link.readMagic >>= k), ⟨wire, b :: stray⟩, c⟩
        ⟨s, if b = msgMagic then (v, k true) else (v, Link.readMagic >>= k), ⟨wire, stray⟩, c⟩ :=
      Net.Reaches.take
        (k := fun b => if b = msgMagic then (v, k true) else (v, Link.readMagic >>= k)) rfl
    rw [if_neg (Ne.symm hb)] at htake
    exact htake.trans (ih hrest)

/-! ## Blocks -/

/-- The body, from an offset on. -/
theorem meets_body (buf : Bytes) (hbuf : buf.length < 65536) (offset : UInt16)
    (hoffset : offset.toNat ≤ buf.length) (p : Bytes) (k : MsgStatus → Link α)
    (k' : MsgStatus × Bytes → Link β) :
    Meets ⟨(w, writeBytesFrom buf (UInt16.ofNat buf.length) true offset >>= k),
        (v, readBody (UInt16.ofNat buf.length - offset) p >>= k'), .empty, .empty⟩
      ⟨(w, k .ok), (v, k' (.ok, p ++ buf.drop offset.toNat)), .empty, .empty⟩ := by
  have hlen : (UInt16.ofNat buf.length).toNat = buf.length := UInt16.toNat_ofNat_of_lt' hbuf
  induction hn : buf.length - offset.toNat using Nat.strong_induction_on generalizing offset p with
  | _ n ih =>
    rw [writeBytesFrom, readBody]
    by_cases hlt : offset < UInt16.ofNat buf.length
    · have hlt' : offset.toNat < buf.length := by
        rw [UInt16.lt_iff_toNat_lt, hlen] at hlt
        exact hlt
      have hleft := toNat_sub_offset hlt
      have hnext := toNat_next_offset hlt
      rw [hlen] at hleft hnext
      have hne : ¬ UInt16.ofNat buf.length - offset = 0 := by
        intro h0
        rw [h0, UInt16.toNat_zero] at hleft
        omega
      rw [if_pos hlt, if_neg hne]
      simp only [if_true, bind_assoc]
      -- Both sides have cut the same block.
      generalize hblock : (buf.drop offset.toNat).take
        (writeBlock (UInt16.ofNat buf.length - offset)).toNat = block
      have hcount : (readBlockLen (UInt16.ofNat buf.length - offset)).toNat = block.length := by
        rw [← hblock, toNat_readBlockLen, toNat_writeBlock, hleft]
        simp
      have hremaining : UInt16.ofNat buf.length - offset -
          readBlockLen (UInt16.ofNat buf.length - offset) =
            UInt16.ofNat buf.length - (offset + writeBlock (UInt16.ofNat buf.length - offset)) := by
        apply UInt16.toNat.inj
        rw [toNat_next_remaining, hleft, UInt16.toNat_sub_of_le, hnext, hlen]
        · omega
        · rw [UInt16.le_iff_toNat_le, hnext, hlen]
          omega
      rw [hcount, hremaining]
      refine (meets_writeAll block p _ _).trans ?_
      rw [if_neg (by simp), bind_assoc]
      refine (meets_ack _ _).trans ?_
      rw [if_neg (by simp)]
      have hrest := ih (buf.length - (offset + writeBlock (UInt16.ofNat buf.length - offset)).toNat)
        (by omega) (offset + writeBlock (UInt16.ofNat buf.length - offset)) (by omega)
        (p ++ block) rfl
      have hdrop : block ++ buf.drop (offset + writeBlock (UInt16.ofNat buf.length - offset)).toNat =
          buf.drop offset.toNat := by
        rw [hnext, ← hblock, toNat_writeBlock, hleft, ← List.drop_drop]
        exact List.take_append_drop _ _
      rw [List.append_assoc, hdrop] at hrest
      exact hrest
    · have hge : ¬ offset.toNat < buf.length := by
        rw [UInt16.lt_iff_toNat_lt, hlen] at hlt
        exact hlt
      have heq : offset = UInt16.ofNat buf.length := UInt16.toNat.inj (by omega)
      subst heq
      rw [if_neg hlt, UInt16.sub_self, if_pos rfl, List.drop_of_length_le (by omega),
        List.append_nil]
      exact .refl _

/-! ## Packets -/

/-- What the receiver does behind a header. -/
def readFrameBody (capacity : UInt16) (type : MsgType) (len : UInt16) : Link HostFrame :=
  if capacity ≠ 0 ∧ capacity < len then pure ⟨.badLen, type, []⟩ else do
    let r ← readBody len []
    pure ⟨r.1, type, r.2⟩

/-- The magic byte starts a frame. -/
theorem meets_magic (f : Unit → Link α) (g : Bool → Link β) :
    Meets ⟨(w, Link.writebyte msgMagic >>= f), (v, Link.readMagic >>= g), .empty, c⟩
      ⟨(w, f ()), (v, g true), .empty, c⟩ := by
  have hpass : Meets ⟨(w, Link.writebyte msgMagic >>= f), (v, Link.readMagic >>= g), .empty, c⟩
      ⟨(w, f ()), if msgMagic = msgMagic then (v, g true) else (v, Link.readMagic >>= g),
        .empty, c⟩ :=
    Net.Reaches.pass
      (k := fun b => if b = msgMagic then (v, g true) else (v, Link.readMagic >>= g)) rfl rfl
  rwa [if_pos rfl] at hpass

/-- The reader takes a header and is about to acknowledge it. -/
theorem meets_headerBytes (type : MsgType) (len capacity : UInt16) (k : Unit → Link α)
    (k' : HostFrame → Link β) :
    Meets ⟨(w, writeAll (msgHeader type len) >>= k), (v, readFrame capacity >>= k'), .empty, c⟩
      ⟨(w, k ()), (v, writeAck >>= fun _ => readFrameBody capacity type len >>= k'), .empty, c⟩ := by
  obtain ⟨lo, hi, hbytes⟩ : ∃ lo hi, Codec.u16.encode len = [lo, hi] := ⟨_, _, rfl⟩
  have hdecode : Codec.u16.decode [lo, hi] = len := by rw [← hbytes, Codec.decode_encode']
  simp only [readFrame, msgHeader, hbytes, bind_assoc]
  refine (meets_magic _ _).trans ?_
  rw [if_neg (by simp), bind_assoc]
  refine (meets_byte type _ _).trans ?_
  simp only [bind_assoc]
  refine (meets_byte lo _ _).trans ((meets_byte hi _ _).trans ?_)
  simp only [hdecode, bind_assoc]
  exact .refl _

theorem meets_header {type : MsgType} (hack : needsAck type = true) (len capacity : UInt16)
    (k : MsgStatus → Link α) (k' : HostFrame → Link β) :
    Meets ⟨(w, writeHeader type len >>= k), (v, readFrame capacity >>= k'), .empty, .empty⟩
      ⟨(w, k .ok), (v, readFrameBody capacity type len >>= k'), .empty, .empty⟩ := by
  rw [writeHeader, bind_assoc, hack]
  exact (meets_headerBytes type len capacity _ _).trans (meets_ack _ _)

/-- A packet crosses the link: the sender gets its acknowledgements, the receiver the packet. -/
theorem meets_packet {type : MsgType} (hack : needsAck type = true) (buf : Bytes)
    (hbuf : buf.length < 65536) (capacity : UInt16)
    (hcap : capacity = 0 ∨ buf.length ≤ capacity.toNat) (k : MsgStatus → Link α)
    (k' : Received → Link β) :
    Meets ⟨(w, writePacket type buf (UInt16.ofNat buf.length) >>= k),
        (v, readPacketTimeout capacity >>= k'), .empty, .empty⟩
      ⟨(w, k .ok), (v, k' (.packet type buf)), .empty, .empty⟩ := by
  have hlen : (UInt16.ofNat buf.length).toNat = buf.length := UInt16.toNat_ofNat_of_lt' hbuf
  have hfits : ¬ (capacity ≠ 0 ∧ capacity < UInt16.ofNat buf.length) := by
    rintro ⟨h0, hlt⟩
    rw [UInt16.lt_iff_toNat_lt, hlen] at hlt
    exact (hcap.resolve_left h0).not_gt hlt
  simp only [writePacket, readPacketTimeout, bind_assoc]
  refine (meets_header hack _ _ _ _).trans ?_
  rw [if_neg (by simp), readFrameBody, if_neg hfits, bind_assoc, hack]
  by_cases hpos : 0 < UInt16.ofNat buf.length
  · have hbody := @meets_body α β w v buf hbuf 0 (Nat.zero_le _) [] k
      fun r => pure (HostFrame.mk r.1 type r.2) >>= fun frame => pure frame.received >>= k'
    rw [UInt16.sub_zero] at hbody
    rw [if_pos hpos]
    exact hbody
  · have hnil : buf = [] := by
      rw [UInt16.lt_iff_toNat_lt, hlen] at hpos
      exact List.eq_nil_of_length_eq_zero (Nat.eq_zero_of_not_pos hpos)
    subst hnil
    have hzero : UInt16.ofNat ([] : Bytes).length = 0 := rfl
    rw [if_neg hpos, hzero, readBody, if_pos rfl]
    exact .refl _

/-- The same behind stray bytes, on the wire or arrived. -/
theorem meets_packet_stray {type : MsgType} (hack : needsAck type = true) (buf : Bytes)
    (hbuf : buf.length < 65536) (capacity : UInt16)
    (hcap : capacity = 0 ∨ buf.length ≤ capacity.toNat) (stray : Channel UInt8)
    (harrived : msgMagic ∉ stray.arrived) (hwire : msgMagic ∉ stray.wire)
    (k : MsgStatus → Link α) (k' : Received → Link β) :
    Meets ⟨(w, writePacket type buf (UInt16.ofNat buf.length) >>= k),
        (v, readPacketTimeout capacity >>= k'), stray, .empty⟩
      ⟨(w, k .ok), (v, k' (.packet type buf)), .empty, .empty⟩ := by
  have hall : msgMagic ∉ stray.arrived ++ stray.wire := by
    rw [List.mem_append, not_or]
    exact ⟨harrived, hwire⟩
  refine (Net.Reaches.deliverAll stray.wire stray.arrived).trans ?_
  have hdrop : Meets ⟨(w, writePacket type buf (UInt16.ofNat buf.length) >>= k),
      (v, readPacketTimeout capacity >>= k'), ⟨[], stray.arrived ++ stray.wire⟩, .empty⟩
      ⟨(w, writePacket type buf (UInt16.ofNat buf.length) >>= k),
        (v, readPacketTimeout capacity >>= k'), ⟨[], []⟩, .empty⟩ := by
    simp only [readPacketTimeout, readFrame, bind_assoc]
    exact meets_stray _ _ hall _
  exact hdrop.trans (meets_packet hack buf hbuf capacity hcap k k')

end
