-- SUMMARY: When write_hex and write_packet do the same on a UART, for every buffer and all replies of the peer.
import HsmFirmware.Firmware.HostMessaging

/-!
# Packets of hex digits

`write_hex` streams the digits of a buffer, and waits for an acknowledgement after 256 of them.
`write_packet` waits after each block, the last one included, whatever its size.
-/

open Link

/-! ## Events on a UART -/

/-- What happens on a UART: a byte is written, or the next reply is waited for. -/
inductive UartEvent where
  | wrote (b : UInt8)
  | awaited
  deriving DecidableEq

/-- The replies of a peer, one for each read. One that does not come in time is `none`. -/
abbrev Replies := Nat → Option UInt8

/-- What a computation returns, the number of the next reply, and what has happened. It is not one
    that looks for a magic byte. -/
def Link.onReplies {α : Type} (replies : Replies) : Link α → Nat → α × Nat × List UartEvent
  | .ret a, n => (a, n, [])
  | .call (.device o) k, n => onReplies replies (k (hsm.refuse o)) n
  | .call (.writebyte b) k, n =>
    let r := onReplies replies (k ()) n
    (r.1, r.2.1, .wrote b :: r.2.2)
  | .call .readbyte k, n =>
    let r := onReplies replies (k (replies n)) (n + 1)
    (r.1, r.2.1, .awaited :: r.2.2)
  | .call .readMagic k, n => onReplies replies (k false) n

section

variable {α β : Type} {replies : Replies}

theorem onReplies_bind (p : Link α) (f : α → Link β) (n : Nat) :
    onReplies replies (p >>= f) n =
      ((onReplies replies (f (onReplies replies p n).1) (onReplies replies p n).2.1).1,
        (onReplies replies (f (onReplies replies p n).1) (onReplies replies p n).2.1).2.1,
        (onReplies replies p n).2.2 ++
          (onReplies replies (f (onReplies replies p n).1) (onReplies replies p n).2.1).2.2) := by
  induction p generalizing n with
  | ret a => rfl
  | call o k ih =>
    cases o with
    | device o => exact ih _ _
    | readMagic => exact ih _ _
    | writebyte b =>
      exact congrArg (fun r : β × Nat × List UartEvent => (r.1, r.2.1, .wrote b :: r.2.2)) (ih () n)
    | readbyte =>
      exact congrArg (fun r : β × Nat × List UartEvent => (r.1, r.2.1, .awaited :: r.2.2))
        (ih (replies n) (n + 1))

/-- Two computations that start alike are alike if they go on so. -/
theorem onReplies_bind_congr (p : Link α) (f g : α → Link β) (n : Nat) :
    onReplies replies (p >>= f) n = onReplies replies (p >>= g) n ↔
      onReplies replies (f (onReplies replies p n).1) (onReplies replies p n).2.1 =
        onReplies replies (g (onReplies replies p n).1) (onReplies replies p n).2.1 := by
  rw [onReplies_bind, onReplies_bind]
  simp [Prod.ext_iff]

theorem onReplies_writeAll (bs : Bytes) (n : Nat) :
    onReplies replies (writeAll bs) n = ((), n, bs.map .wrote) := by
  induction bs with
  | nil => rfl
  | cons b bs ih =>
    exact congrArg (fun r : Unit × Nat × List UartEvent => (r.1, r.2.1, .wrote b :: r.2.2)) ih

/-- The next four replies are an acknowledgement. -/
def Acked (replies : Replies) (n : Nat) : Prop :=
  replies n = some msgMagic ∧ replies (n + 1) = some ackMsg ∧ (replies (n + 2)).isSome ∧
    (replies (n + 3)).isSome

theorem onReplies_readbyte (f : Option UInt8 → Link α) (n : Nat) :
    onReplies replies (readbyte >>= f) n =
      ((onReplies replies (f (replies n)) (n + 1)).1, (onReplies replies (f (replies n)) (n + 1)).2.1,
        .awaited :: (onReplies replies (f (replies n)) (n + 1)).2.2) := rfl

/-- The wait for an acknowledgement takes it, or fails. -/
theorem onReplies_awaitAck (n : Nat) :
    (Acked replies n ∧
        onReplies replies awaitAck n = (.ok, n + 4, List.replicate 4 .awaited)) ∨
      ¬ Acked replies n ∧ (onReplies replies awaitAck n).1 ≠ .ok := by
  unfold awaitAck Acked
  have htimeout : MsgStatus.timeout ≠ .ok := by decide
  have hnoAck : MsgStatus.noAck ≠ .ok := by decide
  rw [onReplies_readbyte]
  rcases h₁ : replies n with _ | b
  · exact .inr ⟨by simp, htimeout⟩
  by_cases hmagic : b = msgMagic
  · subst hmagic
    dsimp only
    rw [if_neg (not_not_intro rfl), onReplies_readbyte]
    rcases h₂ : replies (n + 1) with _ | b
    · exact .inr ⟨by simp, htimeout⟩
    by_cases hack : b = ackMsg
    · subst hack
      dsimp only
      rw [if_neg (not_not_intro rfl), onReplies_readbyte]
      rcases h₃ : replies (n + 2) with _ | b
      · exact .inr ⟨by simp, htimeout⟩
      dsimp only
      rw [onReplies_readbyte]
      rcases h₄ : replies (n + 3) with _ | b'
      · exact .inr ⟨by simp, htimeout⟩
      · exact .inl ⟨⟨rfl, rfl, rfl, rfl⟩, rfl⟩
    · refine .inr ⟨by simp [hack], ?_⟩
      dsimp only
      rw [if_pos hack]
      exact hnoAck
  · refine .inr ⟨by simp [hmagic], ?_⟩
    dsimp only
    rw [if_pos hmagic]
    exact hnoAck

/-- It waits at once. -/
theorem awaitAck_awaits (n : Nat) : (onReplies replies awaitAck n).2.2 ≠ [] := by
  unfold awaitAck
  rw [onReplies_readbyte]
  exact List.cons_ne_nil _ _

end

/-! ## Blocks of digits -/

/-- The digit of a value below 16: `0` to `9`, then `a` to `f`. -/
def hexDigit (n : Nat) : UInt8 := UInt8.ofNat (if n < 10 then 48 + n else 87 + n)

/-- The digits of a buffer, for each byte the high one first. -/
def hexEncode (buf : Bytes) : Bytes :=
  buf.flatMap fun b => [hexDigit (b.toNat / 16), hexDigit (b.toNat % 16)]

/-- The table of `write_hex` holds the digits. -/
theorem hexChar_eq (b : UInt8) : hexChar b = hexDigit (b.toNat % 16) := by
  have htable : ∀ n < 16, (ascii "0123456789abcdef").getD n 0 = hexDigit n := by decide
  have hnibble : (b &&& 0xF).toNat = b.toNat % 16 := by
    rw [UInt8.toNat_and]
    exact Nat.and_two_pow_sub_one_eq_mod b.toNat 4
  rw [hexChar, hnibble]
  exact htable _ (Nat.mod_lt _ (by decide))

theorem hexEncode_cons (b : UInt8) (bs : Bytes) :
    hexEncode (b :: bs) = hexChar (b >>> 4) :: hexChar b :: hexEncode bs := by
  have hhigh : (b >>> 4).toNat % 16 = b.toNat / 16 := by
    have hshift : (b >>> 4).toNat = b.toNat / 16 := by
      rw [UInt8.toNat_shiftRight, Nat.shiftRight_eq_div_pow]
      rfl
    have hlt := b.toNat_lt
    rw [hshift]
    omega
  rw [hexChar_eq, hexChar_eq, hhigh]
  rfl

@[simp] theorem length_hexEncode (buf : Bytes) : (hexEncode buf).length = 2 * buf.length := by
  induction buf with
  | nil => rfl
  | cons b bs ih =>
    show (hexEncode bs).length + 1 + 1 = _
    rw [ih, List.length_cons]
    omega

theorem hexEncode_append (bs cs : Bytes) : hexEncode (bs ++ cs) = hexEncode bs ++ hexEncode cs :=
  List.flatMap_append

theorem take_hexEncode (buf : Bytes) (n : Nat) :
    (hexEncode buf).take (2 * n) = hexEncode (buf.take n) := by
  by_cases hn : n ≤ buf.length
  · rw [← List.take_append_drop n buf, hexEncode_append, List.take_append_drop]
    exact List.take_left' (by simp [hn])
  · rw [List.take_of_length_le (by simp; omega), List.take_of_length_le (by omega)]

theorem drop_hexEncode (buf : Bytes) (n : Nat) :
    (hexEncode buf).drop (2 * n) = hexEncode (buf.drop n) := by
  by_cases hn : n ≤ buf.length
  · rw [← List.take_append_drop n buf, hexEncode_append, List.take_append_drop]
    exact List.drop_left' (by simp [hn])
  · rw [List.drop_eq_nil_of_le (by simp; omega), List.drop_eq_nil_of_le (by omega)]
    rfl

/-- What follows a block: an acknowledgement if there is to be one, and what remains. -/
def thenAck (shouldAck : Bool) (rest : Link MsgStatus) : Link MsgStatus := do
  let rc ← if shouldAck then awaitAck else pure .ok
  if rc ≠ .ok then pure rc else rest

/-- The digits of a buffer as `write_bytes` writes them. -/
def hexBlocks (shouldAck : Bool) (buf : Bytes) : Link MsgStatus :=
  if buf = [] then pure .ok else do
    writeAll (hexEncode (buf.take 128))
    thenAck shouldAck (hexBlocks shouldAck (buf.drop 128))
termination_by buf.length
decreasing_by
  have := List.length_pos_iff.mpr ‹_›
  simp
  omega

theorem hexBlocks_cons {buf : Bytes} (h : buf ≠ []) (shouldAck : Bool) :
    hexBlocks shouldAck buf = (do
      writeAll (hexEncode (buf.take 128))
      thenAck shouldAck (hexBlocks shouldAck (buf.drop 128))) := by
  rw [hexBlocks, if_neg h]

theorem writeBytesFrom_eq_hexBlocks (shouldAck : Bool) (digits rest : Bytes) (offset : UInt16)
    (hlen : digits.length < 65536) (hle : offset.toNat ≤ digits.length)
    (hrest : digits.drop offset.toNat = hexEncode rest) :
    writeBytesFrom digits (UInt16.ofNat digits.length) shouldAck offset =
      hexBlocks shouldAck rest := by
  have hnat : (UInt16.ofNat digits.length).toNat = digits.length := UInt16.toNat_ofNat_of_lt' hlen
  have hcount : digits.length - offset.toNat = 2 * rest.length := by
    rw [← List.length_drop, hrest, length_hexEncode]
  induction hn : rest.length using Nat.strong_induction_on generalizing rest offset with
  | _ n ih =>
    subst hn
    rw [writeBytesFrom]
    by_cases hb : rest = []
    · subst hb
      have hend : ¬ offset < UInt16.ofNat digits.length := by
        rw [UInt16.lt_iff_toNat_lt, hnat]
        rw [List.length_nil] at hcount
        omega
      rw [if_neg hend, hexBlocks, if_pos rfl]
    · have hpos : 0 < rest.length := List.length_pos_iff.mpr hb
      have hlt : offset < UInt16.ofNat digits.length := by
        rw [UInt16.lt_iff_toNat_lt, hnat]
        omega
      have hblock : (writeBlock (UInt16.ofNat digits.length - offset)).toNat =
          min (2 * rest.length) 256 := by
        rw [toNat_writeBlock, toNat_sub_offset hlt, hnat, hcount]
      have hnext := toNat_next_offset hlt
      rw [hnat, hcount] at hnext
      have hdigits : (digits.drop offset.toNat).take
          (writeBlock (UInt16.ofNat digits.length - offset)).toNat = hexEncode (rest.take 128) := by
        rw [hrest, hblock, ← take_hexEncode]
        obtain hmin | hmin := Nat.le_total (2 * rest.length) 256
        · rw [Nat.min_eq_left hmin, List.take_of_length_le (by simp),
            List.take_of_length_le (by simpa using hmin)]
        · rw [Nat.min_eq_right hmin]
      have hdrop : digits.drop (offset + writeBlock (UInt16.ofNat digits.length - offset)).toNat =
          hexEncode (rest.drop 128) := by
        rw [hnext, ← List.drop_drop, hrest, ← drop_hexEncode]
        obtain hmin | hmin := Nat.le_total (2 * rest.length) 256
        · rw [Nat.min_eq_left hmin, List.drop_eq_nil_of_le (by simp),
            List.drop_eq_nil_of_le (by simpa using hmin)]
        · rw [Nat.min_eq_right hmin]
      rw [if_pos hlt, hexBlocks_cons hb, ← hdigits,
        ← ih (rest.drop 128).length (by rw [List.length_drop]; omega) (rest.drop 128) _ (by omega)
          hdrop (by rw [hnext, List.length_drop]; omega) rfl]
      rfl

/-! ## The digits as they are streamed -/

theorem toNat_add_two {pos : UInt16} (h : pos.toNat + 2 ≤ 256) : (pos + 2).toNat = pos.toNat + 2 := by
  have htwo : (2 : UInt16).toNat = 2 := rfl
  rw [UInt16.toNat_add, htwo, Nat.mod_eq_of_lt (by omega)]

theorem eq_256_iff {pos : UInt16} : pos = 256 ↔ pos.toNat = 256 := by
  rw [← UInt16.toNat_inj]
  rfl

theorem writeHexFrom_short (shouldAck : Bool) (bs : Bytes) (pos : UInt16)
    (h : pos.toNat + 2 * bs.length < 256) :
    writeHexFrom shouldAck bs pos = (do
      writeAll (hexEncode bs)
      pure .ok) := by
  induction bs generalizing pos with
  | nil => rfl
  | cons b bs ih =>
    rw [List.length_cons] at h
    have hpos := @toNat_add_two pos (by omega)
    have hne : ¬ pos + 2 = 256 := by
      rw [eq_256_iff, hpos]
      omega
    unfold writeHexFrom
    simp only [hne, if_false]
    rw [ih (pos + 2) (by omega), hexEncode_cons]
    rfl

/-- A full block is acknowledged. -/
theorem writeHexFrom_full (shouldAck : Bool) (bs rest : Bytes) (pos : UInt16) (hne : bs ≠ [])
    (h : pos.toNat + 2 * bs.length = 256) :
    writeHexFrom shouldAck (bs ++ rest) pos = (do
      writeAll (hexEncode bs)
      thenAck shouldAck (writeHexFrom shouldAck rest 0)) := by
  induction bs generalizing pos with
  | nil => exact absurd rfl hne
  | cons b bs ih =>
    rw [List.length_cons] at h
    have hpos := @toNat_add_two pos (by omega)
    rw [List.cons_append]
    conv_lhs => unfold writeHexFrom
    by_cases hb : bs = []
    · subst hb
      have heq : pos + 2 = 256 := by
        rw [eq_256_iff, hpos]
        exact h
      simp only [heq, if_true]
      rw [hexEncode_cons]
      rfl
    · have hlen : 0 < bs.length := List.length_pos_iff.mpr hb
      have hlt : ¬ pos + 2 = 256 := by
        rw [eq_256_iff, hpos]
        omega
      simp only [hlt, if_false]
      rw [ih (pos + 2) hb (by omega), hexEncode_cons]
      rfl

/-! ## The two on a UART -/

section

variable {replies : Replies} {shouldAck : Bool}

theorem onReplies_thenAck_false (rest : Link MsgStatus) (n : Nat) :
    onReplies replies (thenAck false rest) n = onReplies replies rest n := by
  unfold thenAck
  rfl

/-- After a block, the two go on alike, or the acknowledgement has failed for both. -/
theorem thenAck_congr_iff (rest rest' : Link MsgStatus) (n : Nat) :
    onReplies replies (thenAck true rest) n = onReplies replies (thenAck true rest') n ↔
      (Acked replies n → onReplies replies rest (n + 4) = onReplies replies rest' (n + 4)) := by
  unfold thenAck
  simp only [if_true]
  rw [onReplies_bind_congr]
  obtain ⟨hacked, hack⟩ | ⟨hfails, hack⟩ := @onReplies_awaitAck replies n
  · simp only [hack, ne_eq, not_true_eq_false, if_false]
    exact ⟨fun h _ => h, fun h => h hacked⟩
  · rw [if_pos hack, if_pos hack]
    exact iff_of_true rfl fun h => absurd h hfails

/-- One of the next acknowledgements fails. -/
def AckFails (replies : Replies) (n count : Nat) : Prop := ∃ j < count, ¬ Acked replies (n + 4 * j)

theorem ackFails_succ (n count : Nat) :
    AckFails replies n (count + 1) ↔ (Acked replies n → AckFails replies (n + 4) count) := by
  unfold AckFails
  constructor
  · rintro ⟨j, hj, hfails⟩ hacked
    cases j with
    | zero => exact absurd hacked hfails
    | succ j =>
      rw [Nat.mul_succ, Nat.add_comm (4 * j), ← Nat.add_assoc] at hfails
      exact ⟨j, Nat.lt_of_succ_lt_succ hj, hfails⟩
  · intro h
    by_cases hacked : Acked replies n
    · obtain ⟨j, hj, hfails⟩ := h hacked
      rw [Nat.add_assoc, Nat.add_comm 4, ← Nat.mul_succ] at hfails
      exact ⟨j + 1, Nat.succ_lt_succ hj, hfails⟩
    · exact ⟨0, Nat.succ_pos count, hacked⟩

/-- The digits of a buffer go out alike, without acknowledgements or with no digits left behind
    the last full block, and up to an acknowledgement that fails. -/
theorem writeHexFrom_iff (buf : Bytes) (n : Nat) :
    onReplies replies (writeHexFrom shouldAck buf 0) n =
        onReplies replies (hexBlocks shouldAck buf) n ↔
      shouldAck = false ∨ buf.length % 128 = 0 ∨ AckFails replies n (buf.length / 128) := by
  induction hlen : buf.length using Nat.strong_induction_on generalizing buf n with
  | _ len ih =>
    subst hlen
    by_cases hshort : buf.length < 128
    · rw [writeHexFrom_short shouldAck buf 0 (by rw [UInt16.toNat_zero]; omega)]
      by_cases hb : buf = []
      · subst hb
        rw [hexBlocks, if_pos rfl]
        exact iff_of_true rfl (.inr (.inl rfl))
      · have hpos : 0 < buf.length := List.length_pos_iff.mpr hb
        have hnone : ¬ AckFails replies n (buf.length / 128) := by
          rw [Nat.div_eq_of_lt hshort]
          rintro ⟨j, hj, -⟩
          exact Nat.not_lt_zero j hj
        have hdrop : hexBlocks shouldAck (buf.drop 128) = pure .ok := by
          rw [List.drop_eq_nil_of_le (by omega), hexBlocks, if_pos rfl]
        rw [hexBlocks_cons hb, List.take_of_length_le (by omega), onReplies_bind_congr, hdrop]
        cases shouldAck with
        | false => exact iff_of_true rfl (.inl rfl)
        | true =>
          refine iff_of_false ?_ (by simp [hnone, Nat.mod_eq_of_lt hshort, hb])
          intro h
          have hevents := congrArg (fun r => r.2.2) h
          unfold thenAck at hevents
          simp only [if_true] at hevents
          rw [onReplies_bind] at hevents
          exact awaitAck_awaits _ (List.append_eq_nil_iff.mp hevents.symm).1
    · have hb : buf ≠ [] := by
        rintro rfl
        exact hshort (by decide)
      have hpiece : (buf.take 128).length = 128 := by
        rw [List.length_take]
        omega
      have hrest : (buf.drop 128).length = buf.length - 128 := List.length_drop
      have hfull := writeHexFrom_full shouldAck (buf.take 128) (buf.drop 128) 0
        (List.ne_nil_of_length_pos (by omega)) (by rw [hpiece]; rfl)
      rw [List.take_append_drop] at hfull
      rw [hfull, hexBlocks_cons hb, onReplies_bind_congr, onReplies_writeAll]
      have hnext := ih (buf.drop 128).length (by omega) (buf.drop 128)
      have hcount : buf.length / 128 = (buf.drop 128).length / 128 + 1 := by omega
      have hmod : buf.length % 128 = (buf.drop 128).length % 128 := by omega
      rw [hcount, hmod]
      cases shouldAck with
      | false =>
        rw [onReplies_thenAck_false, onReplies_thenAck_false]
        exact iff_of_true ((hnext n rfl).mpr (.inl rfl)) (.inl rfl)
      | true =>
        dsimp only
        rw [thenAck_congr_iff, hnext (n + 4) rfl, ackFails_succ]
        tauto

end

/-- The header, and what follows it. -/
def headed (type : MsgType) (len : UInt16) (body : Link MsgStatus) : Link MsgStatus := do
  writeAll (msgHeader type len)
  thenAck (needsAck type) body

/-- `write_packet` of the digits. -/
theorem writePacket_hexEncode (type : MsgType) (buf : Bytes) (hbuf : buf.length ≤ 32767) :
    writePacket type (hexEncode buf) (UInt16.ofNat (2 * buf.length)) =
      headed type (UInt16.ofNat (2 * buf.length)) (hexBlocks (needsAck type) buf) := by
  have hbody := writeBytesFrom_eq_hexBlocks (needsAck type) (hexEncode buf) buf 0
    (by rw [length_hexEncode]; omega) (Nat.zero_le _) rfl
  rw [length_hexEncode] at hbody
  have hrest : (if 0 < UInt16.ofNat (2 * buf.length) then
      writeBytes (hexEncode buf) (UInt16.ofNat (2 * buf.length)) (needsAck type) else pure .ok) =
      hexBlocks (needsAck type) buf := by
    rw [← hbody]
    split
    · rfl
    · rename_i hzero
      rw [writeBytesFrom, if_neg hzero]
  unfold writePacket writeHeader headed thenAck
  rw [hrest, bind_assoc]
  cases needsAck type <;> rfl

/-- `write_hex`, up to the value it returns. -/
theorem writeHex_eq (type : MsgType) (buf : Bytes) (hbuf : buf.length ≤ 32767) :
    writeHex type buf = (do
      let rc ← headed type (UInt16.ofNat (2 * buf.length)) (writeHexFrom (needsAck type) buf 0)
      pure rc.toInt) := by
  have hstatus : ∀ (rc : MsgStatus) (body : Link MsgStatus),
      (if rc ≠ .ok then pure rc.toInt else body >>= fun rc => pure rc.toInt : Link Int) =
        (if rc ≠ .ok then pure rc else body) >>= fun rc => pure rc.toInt := by
    intro rc body
    split <;> rfl
  unfold writeHex headed thenAck
  rw [if_neg (by omega), Nat.mul_comm, bind_assoc]
  cases needsAck type with
  | false => rfl
  | true =>
    simp only [if_true, bind_assoc, hstatus]

theorem toInt_injective : Function.Injective MsgStatus.toInt := by
  intro rc rc' h
  cases rc <;> cases rc' <;> first | rfl | cases h

theorem onReplies_toInt (p : Link MsgStatus) (replies : Replies) (n : Nat) :
    onReplies replies (p >>= fun rc => pure rc.toInt) n =
      ((onReplies replies p n).1.toInt, (onReplies replies p n).2) := by
  rw [onReplies_bind]
  exact Prod.ext rfl (Prod.ext rfl (List.append_nil _))

/-- The values of the statuses differ. -/
theorem onReplies_toInt_congr (p q : Link MsgStatus) (replies : Replies) (n : Nat) :
    onReplies replies (p >>= fun rc => pure rc.toInt) n =
        onReplies replies (q >>= fun rc => pure rc.toInt) n ↔
      onReplies replies p n = onReplies replies q n := by
  rw [onReplies_toInt, onReplies_toInt]
  obtain ⟨rc, r⟩ := onReplies replies p n
  obtain ⟨rc', r'⟩ := onReplies replies q n
  simp only [Prod.mk.injEq, toInt_injective.eq_iff]

theorem headed_iff (type : MsgType) (len : UInt16) (buf : Bytes) (replies : Replies) :
    onReplies replies (headed type len (writeHexFrom (needsAck type) buf 0)) 0 =
        onReplies replies (headed type len (hexBlocks (needsAck type) buf)) 0 ↔
      needsAck type = false ∨ buf.length % 128 = 0 ∨ AckFails replies 0 (buf.length / 128 + 1) := by
  unfold headed
  rw [onReplies_bind_congr, onReplies_writeAll]
  cases hack : needsAck type with
  | false =>
    rw [onReplies_thenAck_false, onReplies_thenAck_false, writeHexFrom_iff]
    simp
  | true =>
    rw [thenAck_congr_iff, writeHexFrom_iff, ackFails_succ]
    dsimp only
    tauto

/-- `write_hex` and `write_packet` do the same exactly if the opcode is not acknowledged, or the
    digits fill their blocks, or an acknowledgement fails before the last block. -/
theorem writeHex_same_iff (type : MsgType) (buf : Bytes) (hbuf : buf.length ≤ 32767)
    (replies : Replies) :
    onReplies replies (writeHex type buf) 0 =
        onReplies replies (do
          let rc ← writePacket type (hexEncode buf) (UInt16.ofNat (2 * buf.length))
          pure rc.toInt) 0 ↔
      needsAck type = false ∨ buf.length % 128 = 0 ∨
        ∃ j < buf.length / 128 + 1, ¬ Acked replies (4 * j) := by
  rw [writeHex_eq type buf hbuf, writePacket_hexEncode type buf hbuf, onReplies_toInt_congr,
    headed_iff]
  unfold AckFails
  simp only [Nat.zero_add]

/-- A peer that acknowledges everything. -/
def Replies.acking : Replies := fun n => if n % 4 = 0 then some msgMagic else some ackMsg

/-- A buffer that does not fill a block. -/
def sampleByte : Bytes := [0xA5]

/-- A byte in a message that is not acknowledged. -/
theorem writeHex_same_iff_sample :
    onReplies .acking (writeHex debugMsg sampleByte) 0 =
        onReplies .acking (do
          let rc ← writePacket debugMsg (hexEncode sampleByte) (UInt16.ofNat (2 * sampleByte.length))
          pure rc.toInt) 0 ↔
      needsAck debugMsg = false ∨ sampleByte.length % 128 = 0 ∨
        ∃ j < sampleByte.length / 128 + 1, ¬ Acked .acking (4 * j) :=
  writeHex_same_iff debugMsg sampleByte (by decide) .acking

/-- To a peer that acknowledges everything, only `write_packet` waits for the acknowledgement of
    two digits. -/
theorem writeHex_differs :
    onReplies .acking (writeHex listMsg sampleByte) 0 ≠
      onReplies .acking (do
        let rc ← writePacket listMsg (hexEncode sampleByte) (UInt16.ofNat (2 * sampleByte.length))
        pure rc.toInt) 0 := by
  rw [ne_eq, writeHex_eq listMsg sampleByte (by decide),
    writePacket_hexEncode listMsg sampleByte (by decide), onReplies_toInt_congr, headed_iff]
  rintro (hack | hlen | ⟨j, hj, hfails⟩)
  · exact absurd hack (by decide)
  · exact absurd hlen (by decide)
  · obtain rfl : j = 0 := Nat.lt_one_iff.mp hj
    exact hfails ⟨rfl, rfl, rfl, rfl⟩
