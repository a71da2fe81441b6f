-- SUMMARY: flash_simple_write over any driver: the commands it gives, the bytes they program, and what a failing command leaves.
import HsmFirmware.Specs.Flash

/-!
# Writing flash

The driver of the flash controller programs what it is given, or fails after any effect at all.
`current_addr` is a 32-bit address, so a write that reaches the last one goes on at the first.
-/

/-- What each program command does, by its number: it succeeds, or fails with this effect. -/
abbrev Driver := Nat → Option (Mem32 → Mem32)

/-- The flash controller: the commands it has had, and the flash. -/
structure Controller where
  commands : Nat
  flash : Mem32

/-- `DL_FlashCTL_programMemoryBlockingFromRAM64WithECCGenerated` and
    `DL_FlashCTL_waitForCmdDone`. -/
def Driver.program (driver : Driver) (addr : Nat) (data : Bytes) (c : Controller) :
    Bool × Controller :=
  match driver c.commands with
  | none => (true, ⟨c.commands + 1, c.flash.program (.ofNat addr) data⟩)
  | some effect => (false, ⟨c.commands + 1, effect c.flash⟩)

/-- A device with this driver. Its log has the program commands. -/
def Driver.machine (driver : Driver) : Machine Res Controller where
  durable
    | .program _ _ => true
    | _ => false
  act
    | .program addr data, c => driver.program addr data c
    | o, c => (hsm.refuse o, c)
  refuse := hsm.refuse

/-- From a command on, so many succeed. -/
def Driver.Succeeds (driver : Driver) (first n : Nat) : Prop := ∀ j < n, driver (first + j) = none

/-- From a command on, `n` succeed, or there is a first one that fails. -/
theorem Driver.succeeds_or (driver : Driver) (first n : Nat) :
    driver.Succeeds first n ∨
      ∃ k effect, k < n ∧ driver.Succeeds first k ∧ driver (first + k) = some effect := by
  induction n with
  | zero => exact .inl fun j hj => absurd hj (Nat.not_lt_zero j)
  | succ n ih =>
    obtain h | ⟨k, effect, hk, h, heffect⟩ := ih
    · cases hlast : driver (first + n) with
      | some effect => exact .inr ⟨n, effect, n.lt_succ_self, h, hlast⟩
      | none =>
        refine .inl fun j hj => ?_
        obtain hlt | rfl := Nat.lt_succ_iff_lt_or_eq.mp hj
        · exact h j hlt
        · exact hlast
    · exact .inr ⟨k, effect, hk.trans n.lt_succ_self, h, heffect⟩

theorem Driver.Succeeds.tail {driver : Driver} {first n : Nat} (h : driver.Succeeds first (n + 1)) :
    driver.Succeeds (first + 1) n := by
  intro j hj
  rw [Nat.add_right_comm, Nat.add_assoc]
  exact h (j + 1) (Nat.succ_lt_succ hj)

/-! ## Runs -/

section

variable {driver : Driver} {c : Controller} {address : Nat} {buffer : Bytes}

/-- A write gives the command for its first piece, and goes on if it succeeds. -/
theorem exec_flashSimpleWrite (h : buffer ≠ []) (ram : Ram) :
    driver.machine.exec ((flashSimpleWrite address buffer).run ram) [] c =
      (driver.machine.exec
        (if (driver.program address (programWords (buffer.take 64)) c).1 then
          (flashSimpleWrite (address + (buffer.take 64).length) (buffer.drop 64)).run ram
        else .ret (-1, ram)) []
        (driver.program address (programWords (buffer.take 64)) c).2).logged
      [.program address (programWords (buffer.take 64))] := by
  rw [flashSimpleWrite, if_neg h]
  refine (Machine.exec_call_nil driver.machine _ c rfl).trans ?_
  show Halt.logged _ (driver.machine.exec ((if (driver.program address _ c).1 then
    flashSimpleWrite _ _ else pure (-1) : Dev Int).run ram) [] _) = _
  cases (driver.program address (programWords (buffer.take 64)) c).1 <;> rfl

theorem flashSimpleWrite_rest (address : Nat) (buffer : Bytes) :
    flashSimpleWrite (address + (buffer.take 64).length) (buffer.drop 64) =
      flashSimpleWrite (address + 64) (buffer.drop 64) := by
  by_cases hlen : 64 ≤ buffer.length
  · rw [List.length_take, Nat.min_eq_left hlen]
  · have hnil : buffer.drop 64 = [] := List.drop_eq_nil_of_le (by omega)
    rw [hnil, flashSimpleWrite, flashSimpleWrite, if_pos rfl, if_pos rfl]

/-- A piece and the first bytes after it. -/
theorem program_piece (address : Nat) (buffer : Bytes) (n : Nat) (m : Mem32)
    (hsize : buffer.length ≤ UInt32.size) :
    (m.program (.ofNat address) (buffer.take 64)).program (.ofNat (address + 64))
        ((buffer.drop 64).take n) =
      m.program (.ofNat address) (buffer.take (64 + n)) := by
  by_cases hlen : 64 ≤ buffer.length
  · have hpiece : (buffer.take 64).length = 64 := by rw [List.length_take, Nat.min_eq_left hlen]
    have happ := @Mem32.program_append (.ofNat address) (buffer.take 64) ((buffer.drop 64).take n)
      (by rw [hpiece, List.length_take, List.length_drop]; omega) m
    rw [hpiece] at happ
    rw [UInt32.ofNat_add, List.take_add]
    exact happ
  · rw [List.drop_eq_nil_of_le (by omega), List.take_nil, Mem32.program_nil,
      List.take_of_length_le (by omega), List.take_of_length_le (by omega)]

theorem program_programWords32 {chunk : Bytes} (h : chunk.length ≤ 64) (a : UInt32) (m : Mem32) :
    m.program a (programWords chunk) = m.program a chunk := by
  rw [programWords_eq h, Mem32.program_append_ff]

/-- The command for the first piece succeeds. -/
theorem exec_first (h : buffer ≠ []) (ram : Ram) (hdriver : driver c.commands = none) :
    driver.machine.exec ((flashSimpleWrite address buffer).run ram) [] c =
      (driver.machine.exec ((flashSimpleWrite (address + 64) (buffer.drop 64)).run ram) []
        ⟨c.commands + 1, c.flash.program (.ofNat address) (buffer.take 64)⟩).logged
      [.program address (programWords (buffer.take 64))] := by
  have hpiece : (buffer.take 64).length ≤ 64 := List.length_take_le _ _
  rw [exec_flashSimpleWrite h, flashSimpleWrite_rest]
  unfold Driver.program
  rw [hdriver, program_programWords32 hpiece]
  rfl

/-- Where all its commands succeed, a write programs the buffer. -/
theorem exec_succeeds (ram : Ram) (hsize : buffer.length ≤ UInt32.size)
    (h : driver.Succeeds c.commands ((buffer.length + 63) / 64)) :
    driver.machine.exec ((flashSimpleWrite address buffer).run ram) [] c =
      .done (0, ram)
        ⟨c.commands + (buffer.length + 63) / 64, c.flash.program (.ofNat address) buffer⟩
        (writeOps address buffer) [] := by
  induction hn : buffer.length using Nat.strong_induction_on generalizing address buffer c with
  | _ n ih =>
    subst hn
    by_cases hb : buffer = []
    · subst hb
      rw [flashSimpleWrite, if_pos rfl, Mem32.program_nil]
      rfl
    · have hpos : 0 < buffer.length := List.length_pos_iff.mpr hb
      have hcount : (buffer.length + 63) / 64 = ((buffer.drop 64).length + 63) / 64 + 1 := by
        rw [List.length_drop]
        omega
      have hdrop : (buffer.drop 64).length < buffer.length := by
        rw [List.length_drop]
        omega
      rw [hcount] at h ⊢
      rw [exec_first hb ram (h 0 (Nat.succ_pos _)), ih _ hdrop (by omega) h.tail rfl,
        Halt.logged_done, writeOps_cons hb]
      have hprogram := program_piece address buffer (buffer.drop 64).length c.flash hsize
      have htake : buffer.take (64 + (buffer.drop 64).length) = buffer :=
        List.take_of_length_le (by rw [List.length_drop]; omega)
      rw [List.take_length, htake] at hprogram
      dsimp only
      rw [hprogram, Nat.add_assoc, Nat.add_comm 1]
      rfl

/-- Where the command for a piece fails, the pieces before it have been programmed. -/
theorem exec_fails (ram : Ram) (hsize : buffer.length ≤ UInt32.size) {k : Nat}
    {effect : Mem32 → Mem32} (hk : k < (buffer.length + 63) / 64)
    (h : driver.Succeeds c.commands k) (heffect : driver (c.commands + k) = some effect) :
    driver.machine.exec ((flashSimpleWrite address buffer).run ram) [] c =
      .done (-1, ram)
        ⟨c.commands + k + 1, effect (c.flash.program (.ofNat address) (buffer.take (64 * k)))⟩
        ((writeOps address buffer).take (k + 1)) [] := by
  have hb : buffer ≠ [] := by
    rintro rfl
    exact absurd hk (Nat.not_lt_zero k)
  induction k generalizing address buffer c with
  | zero =>
    rw [exec_flashSimpleWrite hb, writeOps_cons hb]
    unfold Driver.program
    rw [Nat.add_zero] at heffect
    rw [heffect, Nat.mul_zero, List.take_zero, Mem32.program_nil]
    rfl
  | succ k ih =>
    have hlen : (buffer.drop 64).length = buffer.length - 64 := List.length_drop
    have hrest : buffer.drop 64 ≠ [] := by
      rw [← List.length_pos_iff]
      omega
    have hnext : c.commands + (k + 1) = c.commands + 1 + k := by rw [Nat.add_assoc, Nat.add_comm 1]
    rw [hnext] at heffect ⊢
    rw [exec_first hb ram (h 0 (Nat.succ_pos _)), ih (by omega) (by omega) h.tail heffect hrest,
      Halt.logged_done, program_piece address buffer _ c.flash hsize, writeOps_cons hb,
      List.take_succ_cons, Nat.mul_succ, Nat.add_comm 64]
    rfl

end

/-! ## Commands -/

/-- A program command as the controller takes it: an aligned address, and 32-bit words in pairs. -/
def Op.Aligned : Op → Prop
  | .program addr data =>
    (UInt32.ofNat addr).toNat % 8 = 0 ∧ ∃ words, data.length = 4 * words ∧ words % 2 = 0 ∧ words ≤ 16
  | _ => False

/-- The 8-byte words a command programs, by their addresses. -/
def Op.touches : Op → List UInt32
  | .program addr data => (List.range (data.length / 8)).map fun j => .ofNat (addr + 8 * j)
  | _ => []

theorem writeOps_aligned {address : Nat} (h : address % 8 = 0) (buffer : Bytes) :
    ∀ o ∈ writeOps address buffer, o.Aligned := by
  intro o ho
  unfold writeOps at ho
  obtain ⟨i, -, rfl⟩ := List.mem_map.mp ho
  have hlen := @length_programWords ((buffer.drop (64 * i)).take 64) (List.length_take_le _ _)
  have hle : ((buffer.drop (64 * i)).take 64).length ≤ 64 := List.length_take_le _ _
  refine ⟨?_, (((buffer.drop (64 * i)).take 64).length + 7) / 8 * 2, ?_, ?_, ?_⟩
  · rw [UInt32.toNat_ofNat']
    omega
  · omega
  · omega
  · omega

theorem touches_programWords (address : Nat) (chunk : Bytes) (h : chunk.length ≤ 64) :
    (Op.program address (programWords chunk)).touches =
      (List.range ((chunk.length + 7) / 8)).map fun j => .ofNat (address + 8 * j) := by
  show (List.range ((programWords chunk).length / 8)).map _ = _
  rw [length_programWords h, Nat.mul_div_cancel _ (by decide)]

/-- The words of a write, one after the other. -/
theorem writeOps_touches (address : Nat) (buffer : Bytes) :
    (writeOps address buffer).flatMap Op.touches =
      (List.range ((buffer.length + 7) / 8)).map fun j => .ofNat (address + 8 * j) := by
  induction hn : buffer.length using Nat.strong_induction_on generalizing address buffer with
  | _ n ih =>
    subst hn
    by_cases hb : buffer = []
    · subst hb
      rfl
    · have hpos : 0 < buffer.length := List.length_pos_iff.mpr hb
      have hdrop : (buffer.drop 64).length < buffer.length := by
        rw [List.length_drop]
        omega
      rw [writeOps_cons hb, List.flatMap_cons, ih _ hdrop _ _ rfl,
        touches_programWords _ _ (List.length_take_le _ _)]
      by_cases hlen : 64 ≤ buffer.length
      · have hcount : (buffer.length + 7) / 8 = 8 + ((buffer.drop 64).length + 7) / 8 := by
          rw [List.length_drop]
          omega
        rw [hcount, List.range_add, List.map_append, List.map_map, List.length_take,
          Nat.min_eq_left hlen]
        congr 1
        apply List.map_congr_left
        intro j _
        show UInt32.ofNat (address + 64 + 8 * j) = UInt32.ofNat (address + 8 * (8 + j))
        congr 1
        omega
      · rw [List.drop_eq_nil_of_le (by omega), List.take_of_length_le (by omega)]
        simp

theorem writeOps_touches_nodup (address : Nat) (buffer : Bytes) (h : buffer.length ≤ UInt32.size) :
    ((writeOps address buffer).flatMap Op.touches).Nodup := by
  rw [writeOps_touches]
  refine List.Nodup.map_on ?_ List.nodup_range
  intro i hi j hj heq
  rw [List.mem_range] at hi hj
  have hnat := congrArg UInt32.toNat heq
  rw [UInt32.toNat_ofNat', UInt32.toNat_ofNat'] at hnat
  unfold UInt32.size at h
  omega

theorem nodup_touches_take {L : List Op} (h : (L.flatMap Op.touches).Nodup) (k : Nat) :
    ((L.take k).flatMap Op.touches).Nodup := by
  rw [← List.take_append_drop k L, List.flatMap_append] at h
  exact h.of_append_left

/-! ## The write -/

/-- Bytes programmed from an address on, and nothing else. -/
structure Programmed (address : UInt32) (data : Bytes) (m m' : Mem32) : Prop where
  bytes : ∀ i (h : i < data.length), m' (address + .ofNat i) = m (address + .ofNat i) &&& data[i]
  rest : ∀ x, (∀ i < data.length, x ≠ address + .ofNat i) → m' x = m x

theorem programmed_program (address : UInt32) {data : Bytes} (h : data.length ≤ UInt32.size)
    (m : Mem32) : Programmed address data m (m.program address data) where
  bytes _ hi := Mem32.program_add address hi h m
  rest _ hx := Mem32.program_apart hx m

/-- Whatever the driver does, `flash_simple_write` gives well-formed commands, no word twice. If
    they succeed, they program the buffer. If one fails, the pieces before it are programmed. -/
theorem flashSimpleWrite_exact (driver : Driver) (address : UInt32) (haligned : address.toNat % 8 = 0)
    (buffer : Bytes) (hsize : buffer.length < UInt32.size) (ram : Ram) (flash : Mem32) :
    ∃ rc n flash' L,
      driver.machine.exec ((flashSimpleWrite address.toNat buffer).run ram) [] ⟨0, flash⟩ =
        .done (rc, ram) ⟨n, flash'⟩ L [] ∧
      (∀ o ∈ L, o.Aligned) ∧ (L.flatMap Op.touches).Nodup ∧
      ((∀ k < (buffer.length + 63) / 64, driver k = none) →
        rc = 0 ∧ Programmed address buffer flash flash') ∧
      ∀ k effect, k < (buffer.length + 63) / 64 → (∀ j < k, driver j = none) →
        driver k = some effect →
        rc = -1 ∧ n = k + 1 ∧
          ∃ before, Programmed address (buffer.take (64 * k)) flash before ∧ flash' = effect before := by
  have hcommands := writeOps_aligned haligned buffer
  have hnodup := writeOps_touches_nodup address.toNat buffer hsize.le
  have htake : ∀ k, (buffer.take (64 * k)).length ≤ UInt32.size := fun k =>
    (List.length_take_le' _ _).trans hsize.le
  have haddr : UInt32.ofNat address.toNat = address := UInt32.ofNat_toNat
  obtain h | ⟨k, effect, hk, h, heffect⟩ := driver.succeeds_or 0 ((buffer.length + 63) / 64)
  · have hexec := @exec_succeeds driver ⟨0, flash⟩ address.toNat buffer ram hsize.le h
    rw [haddr] at hexec
    refine ⟨_, _, _, _, hexec, hcommands, hnodup, ?_, ?_⟩
    · intro _
      exact ⟨rfl, programmed_program address hsize.le flash⟩
    · intro k effect hk _ heffect
      have hnone := h k hk
      rw [Nat.zero_add] at hnone
      cases hnone.symm.trans heffect
  · have hexec := @exec_fails driver ⟨0, flash⟩ address.toNat buffer ram hsize.le k effect hk h heffect
    rw [haddr] at hexec
    rw [Nat.zero_add] at heffect
    refine ⟨_, _, _, _, hexec, fun o ho => hcommands o (List.mem_of_mem_take ho),
      nodup_touches_take hnodup _, ?_, ?_⟩
    · intro hall
      cases (hall k hk).symm.trans heffect
    · intro k' effect' hk' hbefore heffect'
      have hge : k ≤ k' := by
        by_contra hlt
        have hnone := h k' (Nat.lt_of_not_le hlt)
        rw [Nat.zero_add] at hnone
        cases hnone.symm.trans heffect'
      obtain rfl | hlt := hge.eq_or_lt
      · cases heffect.symm.trans heffect'
        exact ⟨rfl, by rw [Nat.zero_add], _, programmed_program address (htake k) flash, rfl⟩
      · cases (hbefore k hlt).symm.trans heffect

/-- A driver whose third command fails. -/
def Driver.sample : Driver := fun k => if k = 2 then some id else none

/-- Of 130 bytes it programs 128. -/
theorem flashSimpleWrite_exact_sample :
    ∃ flash' L,
      Driver.sample.machine.exec ((flashSimpleWrite 0x2000 (List.replicate 130 7)).run .reset) []
          ⟨0, fun _ => 0xFF⟩ = .done (-1, .reset) ⟨3, flash'⟩ L [] ∧
        Programmed 0x2000 ((List.replicate 130 7).take 128) (fun _ => 0xFF) flash' := by
  have hlen : (List.replicate 130 (7 : UInt8)).length = 130 := List.length_replicate
  obtain ⟨rc, n, flash', L, hexec, -, -, -, hfails⟩ :=
    flashSimpleWrite_exact .sample 0x2000 (by decide) (List.replicate 130 7)
      (by rw [hlen]; decide) .reset fun _ => 0xFF
  obtain ⟨rfl, rfl, before, h, rfl⟩ := hfails 2 id (by rw [hlen]; decide) (by decide) rfl
  exact ⟨_, L, hexec, h⟩
