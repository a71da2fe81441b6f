-- SUMMARY: What the flash functions do: the commands they give, under every schedule, and the memory any prefix of them leaves.
import HsmFirmware.Firmware.SimpleFlash

/-!
# Flash functions

The commands of `flash_simple_write` in closed form. A prefix of them programs a
prefix of the data, which is what a power loss leaves behind.
-/

open Machine (replay)

/-! ## Commands -/

/-- The commands of `flash_simple_write`. -/
def writeOps (address : Nat) (buffer : Bytes) : List Op :=
  (List.range ((buffer.length + 63) / 64)).map fun i =>
    .program (address + 64 * i) (programWords ((buffer.drop (64 * i)).take 64))

/-- Erase a page, then write it. -/
def pageOps (address : Nat) (page : Bytes) : List Op :=
  .erase address :: writeOps address page

@[simp] theorem writeOps_nil (address : Nat) : writeOps address [] = [] := rfl

@[simp] theorem length_writeOps (address : Nat) (buffer : Bytes) :
    (writeOps address buffer).length = (buffer.length + 63) / 64 := by
  simp [writeOps]

theorem writeOps_cons {address : Nat} {buffer : Bytes} (h : buffer ≠ []) :
    writeOps address buffer =
      .program address (programWords (buffer.take 64)) ::
        writeOps (address + 64) (buffer.drop 64) := by
  have hpos : 0 < buffer.length := List.length_pos_iff.mpr h
  have hcount : (buffer.length + 63) / 64 = ((buffer.drop 64).length + 63) / 64 + 1 := by
    simp
    omega
  rw [writeOps, hcount, List.range_succ_eq_map, List.map_cons, List.map_map, writeOps]
  refine congrArg₂ List.cons (by simp) (List.map_congr_left fun i _ => ?_)
  simp only [Function.comp, List.drop_drop, Nat.succ_eq_add_one]
  rw [show address + 64 * (i + 1) = address + 64 + 64 * i by omega,
    show 64 * (i + 1) = 64 + 64 * i by omega]

/-- The words of a piece: the piece, padded with `0xFF` to a multiple of 8 bytes. -/
theorem programWords_eq {chunk : Bytes} (h : chunk.length ≤ 64) :
    programWords chunk =
      chunk ++ List.replicate ((chunk.length + 7) / 8 * 8 - chunk.length) 0xFF := by
  have hwords : 4 * (if (chunk.length + 3) / 4 % 2 ≠ 0 then (chunk.length + 3) / 4 + 1
      else (chunk.length + 3) / 4) = (chunk.length + 7) / 8 * 8 := by
    split <;> omega
  simp only [programWords, hwords]
  rw [List.take_append, List.take_of_length_le (by omega), List.take_replicate]
  congr 2
  omega

theorem length_programWords {chunk : Bytes} (h : chunk.length ≤ 64) :
    (programWords chunk).length = (chunk.length + 7) / 8 * 8 := by
  rw [programWords_eq h]
  simp
  omega

theorem program_programWords {chunk : Bytes} (h : chunk.length ≤ 64) (address : Nat) (m : Mem) :
    m.program address (programWords chunk) = m.program address chunk := by
  rw [programWords_eq h, Mem.program_append_ff]

/-- The first `j` commands program the first `64 * j` bytes. -/
theorem replay_take_writeOps (address : Nat) (buffer : Bytes) (j : Nat) (m : Mem) :
    replay flashStep ((writeOps address buffer).take j) m =
      m.program address (buffer.take (64 * j)) := by
  induction j generalizing address buffer m with
  | zero => simp [Mem.program_nil]
  | succ j ih =>
    by_cases hb : buffer = []
    · subst hb
      simp [Mem.program_nil]
    · rw [writeOps_cons hb, List.take_succ_cons, Machine.replay_cons, ih, flashStep,
        program_programWords (by simp)]
      by_cases hlen : 64 ≤ buffer.length
      · have hpiece : (buffer.take 64).length = 64 := by simp [hlen]
        have happ := Mem.program_append address (buffer.take 64)
          ((buffer.drop 64).take (64 * j)) m
        rw [hpiece] at happ
        rw [happ, Nat.mul_succ, Nat.add_comm _ 64, List.take_add]
      · rw [List.drop_eq_nil_of_le (by omega), List.take_nil, Mem.program_nil,
          List.take_of_length_le (by omega), List.take_of_length_le (by omega)]

theorem replay_writeOps (address : Nat) (buffer : Bytes) (m : Mem) :
    replay flashStep (writeOps address buffer) m = m.program address buffer := by
  have h := replay_take_writeOps address buffer ((buffer.length + 63) / 64) m
  rwa [List.take_of_length_le (by simp), List.take_of_length_le (by omega)] at h

/-! ## Schedules -/

theorem flashSimpleErasePage_attempts (address : Nat) (ram : Ram) (w : World) :
    (flashSimpleErasePage address).Attempts ram w 0 ram (w.after [.erase address])
      [.erase address] (· = (-1, ram)) := by
  refine Machine.Attempts.call_durable rfl ?_ ?_
  · exact Machine.Attempts.ret hsm _ _ _
  · exact Machine.Quiet.ret rfl

theorem flashSimpleWrite_attempts (address : Nat) (buffer : Bytes) (ram : Ram) (w : World) :
    (flashSimpleWrite address buffer).Attempts ram w 0 ram (w.after (writeOps address buffer))
      (writeOps address buffer) (· = (-1, ram)) := by
  induction hn : buffer.length using Nat.strong_induction_on generalizing address buffer w with
  | _ n ih =>
    rw [flashSimpleWrite]
    by_cases hb : buffer = []
    · subst hb
      simp only [if_true, writeOps_nil, World.after_nil]
      exact Dev.Attempts.pure
    · have hpos : 0 < buffer.length := List.length_pos_iff.mpr hb
      rw [if_neg hb, writeOps_cons hb]
      refine Machine.Attempts.call_durable rfl ?_ ?_
      · have hrec := ih (buffer.drop 64).length (by simp; omega) (address + (buffer.take 64).length)
          (buffer.drop 64) (w.after [.program address (programWords (buffer.take 64))]) rfl
        have hops : writeOps (address + (buffer.take 64).length) (buffer.drop 64) =
            writeOps (address + 64) (buffer.drop 64) := by
          by_cases hlen : 64 ≤ buffer.length
          · simp [hlen]
          · rw [List.drop_eq_nil_of_le (by omega), writeOps_nil, writeOps_nil]
        rw [hops, ← World.after_append] at hrec
        exact hrec
      · exact Machine.Quiet.ret rfl

/-- Writing, then going on; a refused command ends with `e`. -/
theorem checkedWrite_attempts {β : Type} {address : Nat} {buffer : Bytes} {e b : β} {k : Dev β}
    {ram ram' : Ram} {w w' : World} {L : List Op} {bad : β × Ram → Prop}
    (hk : k.Attempts ram (w.after (writeOps address buffer)) b ram' w' L bad) (he : bad (e, ram)) :
    (do if (← flashSimpleWrite address buffer) ≠ 0 then pure e else k : Dev β).Attempts ram w b ram' w'
      (writeOps address buffer ++ L) bad := by
  apply Dev.Attempts.bind (flashSimpleWrite_attempts address buffer ram w) hk
  rintro c ram'' hc
  cases hc
  exact Dev.Quiet.pure he

/-- Rewriting a page, then going on; a refused command ends with `e`. -/
theorem rewritePage_attempts {β : Type} {address : Nat} {page : Bytes} {e b : β} {k : Dev β}
    {ram ram' : Ram} {w w' : World} {L : List Op} {bad : β × Ram → Prop}
    (hk : k.Attempts ram (w.after (pageOps address page)) b ram' w' L bad) (he : bad (e, ram)) :
    (do
      if (← flashSimpleErasePage address) ≠ 0 then pure e else do
      if (← flashSimpleWrite address page) ≠ 0 then pure e else k : Dev β).Attempts ram w b ram' w'
      (pageOps address page ++ L) bad := by
  have hwrite : (do if (← flashSimpleWrite address page) ≠ 0 then pure e else k :
      Dev β).Attempts ram (w.after [.erase address]) b ram' w' (writeOps address page ++ L) bad := by
    refine checkedWrite_attempts ?_ he
    rw [← World.after_append]
    exact hk
  apply Dev.Attempts.bind (L := [.erase address]) (flashSimpleErasePage_attempts address ram w) hwrite
  rintro c ram'' hc
  cases hc
  exact Dev.Quiet.pure he

theorem flashSimpleErasePage_onFlash (address : Nat) : (flashSimpleErasePage address).OnFlash := by
  refine Dev.OnFlash.bind (fun _ => ⟨trivial, fun _ => trivial⟩) fun ok => ?_
  cases ok <;> exact Dev.OnFlash.pure _

theorem flashSimpleWrite_onFlash (address : Nat) (buffer : Bytes) :
    (flashSimpleWrite address buffer).OnFlash := by
  induction hn : buffer.length using Nat.strong_induction_on generalizing address buffer with
  | _ n ih =>
    rw [flashSimpleWrite]
    by_cases hb : buffer = []
    · rw [if_pos hb]
      exact Dev.OnFlash.pure _
    · have hpos : 0 < buffer.length := List.length_pos_iff.mpr hb
      rw [if_neg hb]
      refine Dev.OnFlash.bind (fun _ => ⟨trivial, fun _ => trivial⟩) fun ok => ?_
      cases ok with
      | false => exact Dev.OnFlash.pure _
      | true => exact ih (buffer.drop 64).length (by simp; omega) _ _ rfl

/-! ## Frames -/

/-- The commands in a log change only addresses in `[lo, hi)`. -/
def Op.Within (lo hi : Nat) : Op → Prop
  | .erase address => lo ≤ address / pageSize * pageSize ∧ (address / pageSize + 1) * pageSize ≤ hi
  | .program address data => lo ≤ address ∧ address + data.length ≤ hi
  | _ => True

theorem Op.Within.mono {lo hi lo' hi' : Nat} {o : Op} (h : o.Within lo hi) (hlo : lo' ≤ lo)
    (hhi : hi ≤ hi') : o.Within lo' hi' := by
  cases o with
  | erase address => exact ⟨hlo.trans h.1, h.2.trans hhi⟩
  | program address data => exact ⟨hlo.trans h.1, h.2.trans hhi⟩
  | _ => trivial

theorem agree_flashStep {lo hi a b : Nat} {o : Op} (h : o.Within lo hi) (hd : b ≤ lo ∨ hi ≤ a)
    (m : Mem) : Mem.Agree (flashStep o m) m a b := by
  cases o with
  | erase address =>
    obtain ⟨h₁, h₂⟩ := h
    refine Mem.agree_erase (by decide) ?_
    cases hd with
    | inl hd => exact .inl (hd.trans h₁)
    | inr hd => exact .inr (h₂.trans hd)
  | program address data =>
    obtain ⟨h₁, h₂⟩ := h
    refine Mem.agree_program ?_
    cases hd with
    | inl hd => exact .inl (hd.trans h₁)
    | inr hd => exact .inr (h₂.trans hd)
  | _ => exact Mem.Agree.refl _ _ _

/-- A log leaves a range alone when each of its commands does. -/
theorem agree_replay_apart {a b : Nat} {L : List Op}
    (h : ∀ o ∈ L, ∃ lo hi, o.Within lo hi ∧ (b ≤ lo ∨ hi ≤ a)) (m : Mem) :
    Mem.Agree (replay flashStep L m) m a b := by
  induction L generalizing m with
  | nil => exact Mem.Agree.refl _ _ _
  | cons o L ih =>
    obtain ⟨lo, hi, hwithin, hd⟩ := h o List.mem_cons_self
    refine (ih (fun o ho => h o (List.mem_cons_of_mem _ ho)) (flashStep o m)).trans ?_
    exact agree_flashStep hwithin hd m

/-- A log leaves every range outside its own alone. -/
theorem agree_replay {lo hi a b : Nat} {L : List Op} (h : ∀ o ∈ L, o.Within lo hi)
    (hd : b ≤ lo ∨ hi ≤ a) (m : Mem) : Mem.Agree (replay flashStep L m) m a b :=
  agree_replay_apart (fun o ho => ⟨lo, hi, h o ho, hd⟩) m

/-- `flash_simple_write` stays within its data, rounded up to flash words. -/
theorem writeOps_within {address lo hi : Nat} {buffer : Bytes} (hlo : lo ≤ address)
    (hhi : address + (buffer.length + 7) / 8 * 8 ≤ hi) :
    ∀ o ∈ writeOps address buffer, o.Within lo hi := by
  intro o ho
  obtain ⟨i, hi', rfl⟩ := List.mem_map.mp ho
  have hrange := List.mem_range.mp hi'
  refine ⟨by omega, ?_⟩
  rw [length_programWords (by simp)]
  simp only [List.length_take, List.length_drop]
  omega

theorem pageOps_within {address lo hi : Nat} {page : Bytes} (ha : address % pageSize = 0)
    (hp : page.length ≤ pageSize) (hlo : lo ≤ address) (hhi : address + pageSize ≤ hi) :
    ∀ o ∈ pageOps address page, o.Within lo hi := by
  intro o ho
  have hdiv : address / pageSize * pageSize = address := Nat.div_mul_cancel (Nat.dvd_of_mod_eq_zero ha)
  cases List.mem_cons.mp ho with
  | inl h =>
    subst h
    refine ⟨by omega, ?_⟩
    rw [Nat.add_mul, Nat.one_mul]
    omega
  | inr h =>
    refine writeOps_within hlo ?_ o h
    simp only [pageSize] at hp hhi
    omega

/-! ## Packets sent -/

/-- The world after a packet. -/
def World.answered (w : World) (p : Packet) : World :=
  { w with acks := w.acks.tail, sent := w.sent ++ [p] }

/-- An error message to the host. -/
def errorPacket (msg : String) : Packet := ⟨.control, errorMsg, ascii msg⟩

@[simp] theorem World.flash_answered (w : World) (p : Packet) : (w.answered p).flash = w.flash := rfl

theorem World.answered_inj {w : World} {p q : Packet} (h : w.answered p = w.answered q) : p = q := by
  have hsent := congrArg World.sent h
  simpa [World.answered] using hsent

theorem exec_send_answered (uart : Uart) (cmd : MsgType) (payload : Bytes) (fs : Schedule) (ram : Ram)
    (w : World) :
    (Dev.send uart cmd payload).exec fs ram w =
      .done (w.acks.headD .ok, ram) (w.answered ⟨uart, cmd, payload⟩) [] fs := rfl

@[simp] theorem reject_exec (msg : String) (fs : Schedule) (ram : Ram) (w : World) :
    (reject msg).exec fs ram w = .done (-1, ram) (w.answered (errorPacket msg)) [] fs := rfl
