-- SUMMARY: The flash controller word by word: a program command as the 64-bit words it is carried out in, and what a prefix of them leaves.
import HsmFirmware.Specs.Flash

/-!
# Flash words

One command to program up to 64 bytes is carried out in words of 64 bits, one
after the other, up to the first that fails. Here a handler runs on a controller
that can fail, or lose power, between two words.
-/

open Machine (replay)

/-- `DL_FlashCTL_programMemoryBlockingFromRAM64WithECCGenerated`. -/
def programWordwise (addr : Nat) (data : Bytes) : Prog Res Bool :=
  if data = [] then .ret true
  else
    .call (.program addr (data.take 8)) fun (ok : Bool) =>
      if ok then programWordwise (addr + 8) (data.drop 8) else .ret false
termination_by data.length
decreasing_by
  have := List.length_pos_iff.mpr ‹_›
  simp
  omega

/-- An operation on such a controller. -/
def Op.wordwise : (o : Op) → Prog Res (Res o)
  | .program addr data => programWordwise addr data
  | o => .op o

/-- A handler on such a controller. -/
def Dev.wordwise {α : Type} (h : Dev α) : Dev α := fun ram => (h.run ram).interp Op.wordwise

theorem Dev.wordwise_bind {α β : Type} (h : Dev α) (f : α → Dev β) :
    (h >>= f).wordwise = h.wordwise >>= fun a => (f a).wordwise := by
  funext ram
  exact Prog.interp_bind Op.wordwise (h.run ram) fun r => (f r.1).run r.2

/-! ## Commands -/

/-- The words of a program command, or of several that follow each other. -/
def wordOps (addr : Nat) (data : Bytes) : List Op :=
  if data = [] then [] else .program addr (data.take 8) :: wordOps (addr + 8) (data.drop 8)
termination_by data.length
decreasing_by
  have := List.length_pos_iff.mpr ‹_›
  simp
  omega

@[simp] theorem wordOps_nil (addr : Nat) : wordOps addr [] = [] := by
  unfold wordOps
  rfl

theorem wordOps_cons {addr : Nat} {data : Bytes} (h : data ≠ []) :
    wordOps addr data = .program addr (data.take 8) :: wordOps (addr + 8) (data.drop 8) := by
  rw [wordOps, if_neg h]

theorem length_wordOps (addr : Nat) (data : Bytes) :
    (wordOps addr data).length = (data.length + 7) / 8 := by
  induction addr, data using wordOps.induct with
  | case1 addr => simp
  | case2 addr data h ih =>
    have hpos : 0 < data.length := List.length_pos_iff.mpr h
    rw [wordOps_cons h, List.length_cons, ih, List.length_drop]
    omega

theorem wordOps_append {addr : Nat} {data data' : Bytes} (h : data.length % 8 = 0) :
    wordOps addr (data ++ data') = wordOps addr data ++ wordOps (addr + data.length) data' := by
  induction addr, data using wordOps.induct with
  | case1 addr => simp
  | case2 addr data hne ih =>
    have hpos : 0 < data.length := List.length_pos_iff.mpr hne
    have hlong : 8 ≤ data.length := by omega
    rw [wordOps_cons hne, wordOps_cons (by simp [hne]), List.take_append_of_le_length hlong,
      List.drop_append_of_le_length hlong, ih (by rw [List.length_drop]; omega), List.cons_append,
      List.length_drop, show addr + 8 + (data.length - 8) = addr + data.length by omega]

/-- The first `j` words program the first `8 * j` bytes. -/
theorem replay_take_wordOps (addr : Nat) (data : Bytes) (j : Nat) (m : Mem) :
    replay flashStep ((wordOps addr data).take j) m = m.program addr (data.take (8 * j)) := by
  induction addr, data using wordOps.induct generalizing j m with
  | case1 addr => simp [Mem.program_nil]
  | case2 addr data hne ih =>
    cases j with
    | zero => simp [Mem.program_nil]
    | succ j =>
      rw [wordOps_cons hne, List.take_succ_cons, Machine.replay_cons, ih, flashStep]
      by_cases hlen : 8 ≤ data.length
      · have hpiece : (data.take 8).length = 8 := by simp [hlen]
        have happ := Mem.program_append addr (data.take 8) ((data.drop 8).take (8 * j)) m
        rw [hpiece] at happ
        rw [happ, Nat.mul_succ, Nat.add_comm _ 8, List.take_add]
      · rw [List.drop_eq_nil_of_le (by omega), List.take_nil, Mem.program_nil,
          List.take_of_length_le (by omega), List.take_of_length_le (by omega)]

/-! ## Schedules -/

theorem programWordwise_attempts (addr : Nat) (data : Bytes) (w : World) :
    hsm.Attempts (programWordwise addr data) w true (w.after (wordOps addr data))
      (wordOps addr data) (· = false) := by
  induction addr, data using wordOps.induct generalizing w with
  | case1 addr =>
    unfold programWordwise
    rw [if_pos rfl, wordOps_nil]
    exact Machine.Attempts.ret hsm _ _ _
  | case2 addr data hne ih =>
    unfold programWordwise
    rw [if_neg hne, wordOps_cons hne]
    refine Machine.Attempts.call_durable rfl ?_ ?_
    · have hrest := ih (w.after [.program addr (data.take 8)])
      rw [← World.after_append] at hrest
      exact hrest
    · exact Machine.Quiet.ret rfl

theorem programWords_of_length {chunk : Bytes} (h : chunk.length = 64) :
    programWords chunk = chunk := by
  rw [programWords_eq (by omega), h]
  simp

/-- `flash_simple_write` of whole pieces, word by word. -/
theorem flashSimpleWrite_wordwise (address : Nat) (buffer : Bytes) (ram : Ram) (w : World)
    (h : buffer.length % 64 = 0) :
    (flashSimpleWrite address buffer).wordwise.Attempts ram w 0 ram
      (w.after (wordOps address buffer)) (wordOps address buffer) (· = (-1, ram)) := by
  induction hn : buffer.length using Nat.strong_induction_on generalizing address buffer w with
  | _ n ih =>
    rw [flashSimpleWrite]
    by_cases hb : buffer = []
    · subst hb
      rw [if_pos rfl, wordOps_nil]
      exact Machine.Attempts.ret hsm _ _ _
    · have hpos : 0 < buffer.length := List.length_pos_iff.mpr hb
      have hpiece : (buffer.take 64).length = 64 := by
        rw [List.length_take]
        omega
      have hsplit : wordOps address buffer =
          wordOps address (buffer.take 64) ++ wordOps (address + 64) (buffer.drop 64) := by
        have happ := @wordOps_append address (buffer.take 64) (buffer.drop 64) (by rw [hpiece])
        rwa [List.take_append_drop, hpiece] at happ
      rw [if_neg hb, hsplit]
      simp only [programWords_of_length hpiece, hpiece]
      have hrest := ih (buffer.drop 64).length (by rw [List.length_drop]; omega) (address + 64)
        (buffer.drop 64) (w.after (wordOps address (buffer.take 64)))
        (by rw [List.length_drop]; omega) rfl
      rw [← World.after_append] at hrest
      refine Machine.Attempts.bind (programWordwise_attempts address (buffer.take 64) w) hrest ?_
      rintro ok rfl
      exact Machine.Quiet.ret rfl

/-- Rewriting a page, word by word. -/
theorem rewritePage_wordwise {address : Nat} {page : Bytes} (h : page.length % 64 = 0) (ram : Ram)
    (w : World) :
    (do
      if (← flashSimpleErasePage address) ≠ 0 then pure (-1) else do
      if (← flashSimpleWrite address page) ≠ 0 then pure (-1) else pure 0 :
        Dev Int).wordwise.Attempts ram w 0 ram
      (w.after (.erase address :: wordOps address page)) (.erase address :: wordOps address page)
      (· = (-1, ram)) := by
  have herase : (flashSimpleErasePage address).wordwise.Attempts ram w 0 ram
      (w.after [.erase address]) [.erase address] (· = (-1, ram)) := by
    refine Machine.Attempts.call_durable rfl ?_ ?_
    · exact Machine.Attempts.ret hsm _ _ _
    · exact Machine.Quiet.ret rfl
  have hwrite : (do if (← flashSimpleWrite address page) ≠ 0 then pure (-1) else pure 0 :
      Dev Int).wordwise.Attempts ram (w.after [.erase address]) 0 ram
      (w.after (.erase address :: wordOps address page)) (wordOps address page)
      (· = (-1, ram)) := by
    rw [Dev.wordwise_bind, ← List.append_nil (wordOps address page)]
    refine Dev.Attempts.bind (flashSimpleWrite_wordwise address page ram _ h) ?_ ?_
    · rw [← World.after_append, List.append_nil]
      exact Machine.Attempts.ret hsm _ _ _
    · rintro c ram'' hc
      cases hc
      exact Machine.Quiet.ret rfl
  rw [Dev.wordwise_bind]
  refine Dev.Attempts.bind (L := [.erase address]) herase hwrite ?_
  rintro c ram'' hc
  cases hc
  exact Machine.Quiet.ret rfl
