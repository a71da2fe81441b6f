-- SUMMARY: What read_packet stores for any bytes that come in, and what the header announces.
import HsmFirmware.Firmware.HostMessaging

/-!
# Reading from a stream

The reader of a packet against an arbitrary stream. How many bytes it stores is decided by the
length in the first header; whether they come decides how it ends.
-/

namespace Link

variable {α β : Type}

theorem onInput_bind (p : Link α) (f : α → Link β) (s : UartInput) :
    (p >>= f).onInput s = (f (p.onInput s).1).onInput (p.onInput s).2 := by
  induction p generalizing s with
  | ret a => rfl
  | call o k ih =>
    cases o with
    | device o => exact ih _ _
    | writebyte b => exact ih _ _
    | readbyte =>
      cases s with
      | nil => exact ih _ _
      | cons b s => exact ih _ _
    | readMagic => exact ih _ _

@[simp] theorem onInput_writeAll (bs : Bytes) (s : UartInput) : (writeAll bs).onInput s = ((), s) := by
  induction bs with
  | nil => rfl
  | cons b bs ih => exact ih

@[simp] theorem onInput_writeAck (s : UartInput) : writeAck.onInput s = (.ok, s) := rfl

end Link

open Link

/-! ## Bodies -/

/-- No more bytes are stored than asked for, and all of them when they come. -/
theorem readBlock_onInput (n : Nat) (p : Bytes) (s : UartInput) :
    ((readBlock n p).onInput s).1.2.length ≤ p.length + n ∧
      (((readBlock n p).onInput s).1.1 = true →
        ((readBlock n p).onInput s).1.2.length = p.length + n) := by
  induction n generalizing p s with
  | zero => exact ⟨Nat.le_refl _, fun _ => rfl⟩
  | succ n ih =>
    have hstop : p.length ≤ p.length + (n + 1) ∧ (false = true → p.length = p.length + (n + 1)) :=
      ⟨Nat.le_add_right _ _, fun h => (Bool.false_ne_true h).elim⟩
    cases s with
    | nil => exact hstop
    | cons b s =>
      cases b with
      | none => exact hstop
      | some b =>
        have h := ih (p ++ [b]) s
        rw [List.length_append, List.length_singleton, Nat.add_assoc, Nat.add_comm 1] at h
        exact h

theorem readBlock_onInput_all (bs p : Bytes) (s : UartInput) :
    (readBlock bs.length p).onInput (bs.map some ++ s) = ((true, p ++ bs), s) := by
  induction bs generalizing p with
  | nil =>
    rw [List.append_nil]
    rfl
  | cons b bs ih =>
    have h := ih (p ++ [b])
    rw [List.append_assoc, List.singleton_append] at h
    exact h

theorem readBody_onInput (n : UInt16) (p : Bytes) (s : UartInput) :
    ((readBody n p).onInput s).1.2.length ≤ p.length + n.toNat ∧
      (((readBody n p).onInput s).1.1 = .ok →
        ((readBody n p).onInput s).1.2.length = p.length + n.toNat) ∧
      ((readBody n p).onInput s).1.1 ≠ .badLen := by
  induction hn : n.toNat using Nat.strong_induction_on generalizing n p s with
  | _ k ih =>
    subst hn
    rw [readBody]
    split
    · rename_i hzero
      subst hzero
      exact ⟨Nat.le_refl _, fun _ => rfl, by intro h; cases h⟩
    rename_i hne
    have hpos := toNat_pos hne
    have hlen := toNat_readBlockLen n
    have hrest := toNat_next_remaining n
    obtain ⟨hle, hall⟩ := readBlock_onInput (readBlockLen n).toNat p s
    rw [onInput_bind]
    generalize (readBlock (readBlockLen n).toNat p).onInput s = r at hle hall
    obtain ⟨⟨came, q⟩, s⟩ := r
    cases came with
    | false =>
      refine ⟨?_, ?_, ?_⟩
      · exact hle.trans (by omega)
      · intro h
        cases h
      · intro h
        cases h
    | true =>
      have hq : q.length = p.length + (readBlockLen n).toNat := hall rfl
      have h := ih (n - readBlockLen n).toNat (by omega) (n - readBlockLen n) q s rfl
      have hsum : q.length + (n - readBlockLen n).toNat = p.length + n.toNat := by omega
      rw [hsum] at h
      exact h

theorem readBody_onInput_all (n : UInt16) (bs p : Bytes) (s : UartInput) (h : bs.length = n.toNat) :
    (readBody n p).onInput (bs.map some ++ s) = ((.ok, p ++ bs), s) := by
  induction hn : n.toNat using Nat.strong_induction_on generalizing n p bs with
  | _ k ih =>
    subst hn
    rw [readBody]
    split
    · rename_i hzero
      subst hzero
      obtain rfl : bs = [] := List.eq_nil_of_length_eq_zero h
      rw [List.append_nil]
      rfl
    rename_i hne
    have hpos := toNat_pos hne
    have hlen := toNat_readBlockLen n
    have hrest := toNat_next_remaining n
    have htake : (bs.take (readBlockLen n).toNat).length = (readBlockLen n).toNat := by
      rw [List.length_take]
      omega
    have hsplit : bs.map some ++ s = (bs.take (readBlockLen n).toNat).map some ++
        ((bs.drop (readBlockLen n).toNat).map some ++ s) := by
      rw [← List.append_assoc, ← List.map_append, List.take_append_drop]
    have hblock := readBlock_onInput_all (bs.take (readBlockLen n).toNat) p
      ((bs.drop (readBlockLen n).toNat).map some ++ s)
    rw [htake] at hblock
    rw [onInput_bind, hsplit, hblock]
    have hnext := ih (n - readBlockLen n).toNat (by omega) (n - readBlockLen n)
      (bs.drop (readBlockLen n).toNat) (p ++ bs.take (readBlockLen n).toNat)
      (by rw [List.length_drop]; omega) rfl
    rw [List.append_assoc, List.take_append_drop] at hnext
    exact hnext

/-! ## Headers -/

/-- The length field behind a magic byte. -/
def UartInput.fieldLength : UartInput → Option UInt16
  | some _ :: some lo :: some hi :: _ => some (Codec.u16.decode [lo, hi])
  | _ => none

/-- The length field of the first header, if the header is complete. -/
def UartInput.headerLength : UartInput → Option UInt16
  | [] => none
  | none :: _ => none
  | some b :: s => if b = msgMagic then fieldLength s else headerLength s

theorem headerLength_eq (s : UartInput) :
    s.headerLength = if s.skipToMagic.1 then s.skipToMagic.2.fieldLength else none := by
  induction s with
  | nil => rfl
  | cons b s ih =>
    cases b with
    | none => rfl
    | some b =>
      rw [UartInput.headerLength, UartInput.skipToMagic]
      split
      · rfl
      · exact ih

/-- `read_packet` behind the magic byte. -/
def readHeader (capacity : UInt16) : Link HostFrame := do
  match ← readbyte with
  | none => pure ⟨.timeout, 0, []⟩
  | some cmd => do
    let lo ← readbyte
    let hi ← readbyte
    match lo, hi with
    | some lo, some hi => do
      let pktLen := Codec.u16.decode [lo, hi]
      let _ ← writeAck
      if capacity ≠ 0 ∧ capacity < pktLen then pure ⟨.badLen, cmd, []⟩ else do
      let r ← readBody pktLen []
      pure ⟨r.1, cmd, r.2⟩
    | _, _ => pure ⟨.timeout, cmd, []⟩

theorem mainReadPacket_onInput (s : UartInput) :
    (mainReadPacket.onInput s).1 =
      if s.skipToMagic.1 then ((readHeader 0).onInput s.skipToMagic.2).1 else ⟨.timeout, 0, []⟩ := by
  show ((if !s.skipToMagic.1 then pure ⟨.timeout, 0, []⟩ else readHeader 0 :
    Link HostFrame).onInput s.skipToMagic.2).1 = _
  cases s.skipToMagic.1 <;> rfl

/-- A complete header is followed by its body. -/
theorem readHeader_complete (cmd lo hi : UInt8) (s : UartInput) :
    ((readHeader 0).onInput (some cmd :: some lo :: some hi :: s)).1 =
      ⟨((readBody (Codec.u16.decode [lo, hi]) []).onInput s).1.1, cmd,
        ((readBody (Codec.u16.decode [lo, hi]) []).onInput s).1.2⟩ := by
  have hfree : ¬ ((0 : UInt16) ≠ 0 ∧ 0 < Codec.u16.decode [lo, hi]) := fun h => h.1 rfl
  show ((if (0 : UInt16) ≠ 0 ∧ 0 < Codec.u16.decode [lo, hi] then pure ⟨.badLen, cmd, []⟩ else
    readBody (Codec.u16.decode [lo, hi]) [] >>= fun r =>
      (pure (HostFrame.mk r.1 cmd r.2) : Link HostFrame)).onInput s).1 = _
  rw [if_neg hfree, onInput_bind]
  rfl

/-- How `read_packet` ends behind a magic byte: it times out in the header, or takes as many
    bytes as the header announces, or times out before. -/
inductive HeaderRead (len : Option UInt16) (frame : HostFrame) : Prop where
  | timedOut (hlen : len = none) (hstatus : frame.status = .timeout) (hbody : frame.body = [])
  | announced (n : UInt16) (hlen : len = some n) (hstatus : frame.status ≠ .badLen)
      (hle : frame.body.length ≤ n.toNat)
      (hall : frame.status = .ok → frame.body.length = n.toNat)

theorem readHeader_onInput (s : UartInput) :
    HeaderRead s.fieldLength ((readHeader 0).onInput s).1 := by
  rcases s with _ | ⟨_ | cmd, _ | ⟨_ | lo, _ | ⟨_ | hi, s⟩⟩⟩
  case cons.some.cons.some.cons.some =>
    obtain ⟨hle, hall, hstatus⟩ := readBody_onInput (Codec.u16.decode [lo, hi]) [] s
    rw [List.length_nil, Nat.zero_add] at hle hall
    rw [readHeader_complete]
    exact .announced _ rfl hstatus hle hall
  all_goals exact .timedOut rfl rfl rfl

theorem mainReadPacket_reads (s : UartInput) :
    HeaderRead s.headerLength (mainReadPacket.onInput s).1 := by
  rw [headerLength_eq, mainReadPacket_onInput]
  cases s.skipToMagic.1 with
  | false => exact .timedOut rfl rfl rfl
  | true => exact readHeader_onInput _
