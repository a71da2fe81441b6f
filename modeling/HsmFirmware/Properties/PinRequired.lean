-- SUMMARY: Runs of the release main loop: without the PIN in its packet, an iteration touches no file and tells none.
import HsmFirmware.Specs.FileCommands
import HsmFirmware.Specs.Keeps
import HsmFirmware.Properties.PinChange

/-!
# The PIN is required

An iteration of the main loop that does not handle an L, R, W, C or I packet with the
right PIN writes the PIN page at most, sends fixed texts to the host, and uses UART1 in
`listen` only.
-/

/-! ## Runs of the main loop -/

/-- The state of the device between two iterations. -/
structure LoopState where
  uartBuf : Mem
  ram : Ram
  world : World

/-- An iteration: where it begins, the frame of the host, and the faults of the flash. -/
structure Iteration where
  before : LoopState
  frame : HostFrame
  faults : Schedule

namespace Iteration

/-- How the iteration ends. -/
def ending (fw : Firmware) (it : Iteration) : Halt Op World (Mem × Ram) :=
  (mainStep fw it.frame it.before.uartBuf).exec it.faults it.before.ram it.before.world

end Iteration

/-- The main loop runs from a state through these iterations. The last one may lose power, or
    be the last for now. -/
inductive MainRun (fw : Firmware) : LoopState → List Iteration → Prop where
  | stop (s : LoopState) : MainRun fw s []
  | last (s : LoopState) (frame : HostFrame) (faults : Schedule) :
      MainRun fw s [⟨s, frame, faults⟩]
  | next {s : LoopState} {frame : HostFrame} {faults rest : Schedule} {uartBuf : Mem} {ram : Ram}
      {w : World} {L : List Op} {its : List Iteration}
      (h : (Iteration.mk s frame faults).ending fw = .done (uartBuf, ram) w L rest)
      (tail : MainRun fw ⟨uartBuf, ram, w⟩ its) :
      MainRun fw s (⟨s, frame, faults⟩ :: its)

/-! ## Iterations without the PIN -/

/-- The opcodes of the commands that need the PIN: L, R, W, C and I. -/
def pinCommands : List MsgType := [listMsg, readMsg, writeMsg, receiveMsg, interrogateMsg]

/-- The fixed texts for the host that need no PIN. -/
def statusTexts : List String :=
  ["Packet too short\n", "Invalid pin\n", frameError .badPtr, frameError .timeout,
    frameError .noAck, frameError .badLen]

/-- The packets for the host that need no PIN. They depend on the opcode alone. -/
def statusPackets (cmd : MsgType) : List Packet :=
  ⟨.control, errorMsg, invalidCommand cmd⟩ :: (listenPackets ++ statusTexts.map errorPacket)

namespace Iteration

/-- The iteration handles a packet that needs the PIN. -/
def NeedsPin (it : Iteration) : Prop := it.frame.status = .ok ∧ it.frame.cmd ∈ pinCommands

/-- The iteration handles such a packet, and its first six bytes are the PIN. -/
structure CarriesPin (pin : Bytes) (it : Iteration) : Prop where
  needsPin : it.NeedsPin
  complete : pinLength ≤ it.frame.body.length
  isPin : it.frame.body.take pinLength = pin

/-- Another PIN in the packet does not have the hash of the PIN. -/
def PinDistinct (fw : Firmware) (pin : Bytes) (it : Iteration) : Prop :=
  pinLength ≤ it.frame.body.length →
    computePinHash fw (it.frame.body.take pinLength) = computePinHash fw pin →
      it.frame.body.take pinLength = pin

end Iteration

/-- A run that changes no slot page, FAT or name table, sends no byte of a file to the host, and
    uses UART1 in `listen` only. -/
structure LeavesFiles {α : Type} (ram : Ram) (w : World) (cmd : MsgType)
    (res : Halt Op World (α × Ram)) : Prop where
  commands : ∀ o ∈ res.log, o.Within pinStateAddr (pinStateAddr + pageSize)
  flash : Mem.Agree res.state.flash w.flash 0 pinStateAddr
  tables : res.Sat (fun r _ _ _ => r.2.gFat = ram.gFat ∧ r.2.gNameTable = ram.gNameTable)
    fun _ _ => True
  packets : ∃ ps, res.state.sent = w.sent ++ ps ∧
    ∀ p ∈ ps, (p.uart = .control → p ∈ statusPackets cmd) ∧ (p.uart = .transfer → cmd = listenMsg)
  asked : cmd ≠ listenMsg → res.state.recvs = w.recvs

/-- A run that changes the PIN failure count and its page at most. -/
structure CountsFailure {α : Type} (ram : Ram) (res : Halt Op World (α × Ram)) : Prop where
  commands : ∀ o ∈ res.log, o.Within pinStateAddr (pinStateAddr + pageSize)
  ram : res.Sat (fun r _ _ _ => ∃ count, r.2 = ram.setFails count) fun _ _ => True

section

variable {α β : Type} {ram : Ram} {w : World} {cmd : MsgType}

/-- What is done with the result makes no difference. -/
theorem LeavesFiles.map {res : Halt Op World (α × Ram)} (h : LeavesFiles ram w cmd res)
    (g : α → β) :
    LeavesFiles ram w cmd (res.andThen fun r t rest => .done (g r.1, r.2) t [] rest) := by
  cases res with
  | done r t L rest =>
    rw [Halt.andThen_done, Halt.logged_done, List.append_nil]
    exact ⟨h.commands, h.flash, h.tables, h.packets, h.asked⟩
  | off t L => exact ⟨h.commands, h.flash, trivial, h.packets, h.asked⟩

theorem CountsFailure.map {res : Halt Op World (α × Ram)} (h : CountsFailure ram res) (g : α → β) :
    CountsFailure ram (res.andThen fun r t rest => .done (g r.1, r.2) t [] rest) := by
  cases res with
  | done r t L rest =>
    rw [Halt.andThen_done, Halt.logged_done, List.append_nil]
    exact ⟨h.commands, h.ram⟩
  | off t L => exact ⟨h.commands, trivial⟩

/-- One fixed packet for the host. -/
theorem LeavesFiles.reply {a : α} {p : Packet} {fs : Schedule} (hp : p ∈ statusPackets cmd)
    (huart : p.uart = .control) : LeavesFiles ram w cmd (.done (a, ram) (w.answered p) [] fs) where
  commands _ ho := (List.not_mem_nil ho).elim
  flash := .refl _ _ _
  tables := ⟨rfl, rfl⟩
  packets := ⟨[p], rfl, List.forall_mem_singleton.mpr
    ⟨fun _ => hp, fun htransfer => nomatch huart.symm.trans htransfer⟩⟩
  asked _ := rfl

/-- How a run ends that the PIN gate, or the check in front of it, has refused. -/
inductive PinRefusal (ram : Ram) (w : World) : Halt Op World (Int × Ram) → Prop where
  | done {msg : String} {rc : Int} {count : UInt32} {L : List Op} {rest : Schedule}
      (hmsg : msg ∈ statusTexts)
      (hL : ∀ o ∈ L, o.Within pinStateAddr (pinStateAddr + pageSize)) :
      PinRefusal ram w
        (.done (rc, ram.setFails count) ((w.after L).answered (errorPacket msg)) L rest)
  | off {L : List Op} (hL : ∀ o ∈ L, o.Within pinStateAddr (pinStateAddr + pageSize)) :
      PinRefusal ram w (.off (w.after L) L)

theorem PinRefusal.leavesFiles {res : Halt Op World (Int × Ram)} (h : PinRefusal ram w res) :
    LeavesFiles ram w cmd res := by
  cases h with
  | @done msg rc count L rest hmsg hL =>
    have hp : errorPacket msg ∈ statusPackets cmd :=
      List.mem_cons_of_mem _ (List.mem_append_right _ (List.mem_map_of_mem hmsg))
    exact
      { commands := hL
        flash := agree_replay hL (.inl (Nat.le_refl _)) w.flash
        tables := ⟨rfl, rfl⟩
        packets := ⟨[errorPacket msg], rfl, List.forall_mem_singleton.mpr
          ⟨fun _ => hp, fun htransfer => nomatch htransfer⟩⟩
        asked := fun _ => rfl }
  | off hL =>
    exact
      { commands := hL
        flash := agree_replay hL (.inl (Nat.le_refl _)) w.flash
        tables := trivial
        packets := ⟨[], (List.append_nil _).symm, by simp⟩
        asked := fun _ => rfl }

theorem PinRefusal.countsFailure {res : Halt Op World (Int × Ram)} (h : PinRefusal ram w res) :
    CountsFailure ram res := by
  cases h with
  | done hmsg hL => exact ⟨hL, _, rfl⟩
  | off hL => exact ⟨hL, trivial⟩

variable {fw : Firmware}

theorem gated_refusal {pktLen n : UInt16} {pin : Bytes} {k : Dev Int}
    (h : ¬ pktLen < n → ¬ PinCorrect fw ram pin) (fs : Schedule) :
    PinRefusal ram w ((if pktLen < n then reject "Packet too short\n" else do
      if (← pinGate fw pin) ≠ 0 then pure (-1) else k : Dev Int).exec fs ram w) := by
  by_cases hlen : pktLen < n
  · rw [if_pos hlen, reject_exec]
    exact @PinRefusal.done ram w "Packet too short\n" (-1) ram.gFailCount [] fs (by decide)
      (by simp)
  rw [if_neg hlen]
  have hend := @gated_ending fw pin ram k fs w
  generalize Dev.exec _ fs ram w = res at hend ⊢
  cases hend with
  | entered hpin => exact (h hlen hpin).elim
  | refused _ hL => exact .done (by decide) hL
  | cut hL => exact .off hL

/-- `listen` needs no PIN. -/
theorem listen_leavesFiles (fs : Schedule) :
    LeavesFiles ram w listenMsg ((listen fw).exec fs ram w) := by
  have hkeeps := @listen_keepsFiles fw ram
  have hquiet := Machine.quiet_of_yields (M := hsm) (hkeeps.mono (fun o ho => by
    cases o <;> first | rfl | cases ho) fun _ h => h)
  have hsends : ((listen fw).run ram).Performs (Op.Sends fun p =>
      (p.uart = .control → p ∈ statusPackets listenMsg) ∧
        (p.uart = .transfer → listenMsg = listenMsg)) := by
    refine hkeeps.performs.mono fun o ho => ?_
    cases o with
    | send uart cmd payload =>
      refine ⟨fun huart => ?_, fun _ => rfl⟩
      obtain rfl : uart = .control := huart
      exact List.mem_cons_of_mem _ (List.mem_append_left _ ho)
    | _ => trivial
  obtain ⟨r, t, hexec, hfiles⟩ := hquiet fs w
  obtain ⟨ps, hps, hall⟩ := sent_exec hsends fs w
  have hflash := (listen fw).flash_exec fs ram w
  have hexec' : (listen fw).exec fs ram w = .done r t [] fs := hexec
  rw [hexec] at hps
  rw [hexec'] at hflash ⊢
  exact
    { commands := by simp [Halt.log]
      flash := by
        rw [hflash]
        exact .refl _ _ _
      tables := ⟨congrArg (·.1) hfiles, congrArg (·.2.1) hfiles⟩
      packets := ⟨ps, hps, hall⟩
      asked := fun h => (h rfl).elim }

end

/-! ## One iteration -/

section

variable {fw : Firmware} {it : Iteration} {pin : Bytes}

theorem mem_pinCommands {cmd : MsgType} {h : Handler} (hcmd : releaseHandler cmd = some h) :
    cmd ∈ pinCommands ∨ cmd = listenMsg ∧ h = .listen := by
  rw [releaseHandler] at hcmd
  split at hcmd
  · rename_i heq
    exact .inl (by simp [pinCommands, heq])
  split at hcmd
  · rename_i heq
    exact .inl (by simp [pinCommands, heq])
  split at hcmd
  · rename_i heq
    exact .inl (by simp [pinCommands, heq])
  split at hcmd
  · rename_i heq
    exact .inl (by simp [pinCommands, heq])
  split at hcmd
  · rename_i heq
    exact .inl (by simp [pinCommands, heq])
  split at hcmd
  · rename_i heq
    exact .inr ⟨heq, (Option.some.inj hcmd).symm⟩
  · cases hcmd

namespace Iteration

/-- The buffer the handler sees. -/
def buf (it : Iteration) : Mem := it.before.uartBuf.write 0 it.frame.body

theorem ending_eq (fw : Firmware) (it : Iteration) :
    it.ending fw = ((dispatch fw it.frame it.buf).exec it.faults it.before.ram
      it.before.world).andThen fun r t rest => .done (it.buf, r.2) t [] rest := by
  rw [ending, mainStep, Dev.exec_bind]
  rfl

theorem ending_handle {h : Handler} (hok : it.frame.status = .ok)
    (hcmd : releaseHandler it.frame.cmd = some h) :
    it.ending fw = ((handle fw h (UInt16.ofNat it.frame.body.length) it.buf).exec it.faults
      it.before.ram it.before.world).andThen fun r t rest => .done (it.buf, r.2) t [] rest := by
  rw [ending_eq, dispatch, if_neg (not_not_intro hok), hcmd]
  dsimp only
  rw [Dev.exec_bind]
  cases (handle fw h (UInt16.ofNat it.frame.body.length) it.buf).exec it.faults it.before.ram
    it.before.world <;> simp

/-- The first six bytes of a long enough packet. -/
theorem read_buf (h : pinLength ≤ it.frame.body.length) :
    it.buf.read 0 pinLength = it.frame.body.take pinLength := by
  rw [← Mem.take_read it.buf 0 it.frame.body.length pinLength h, buf, Mem.read_write]

/-- A packet without the PIN is refused. -/
theorem refusal {h : Handler} (hok : it.frame.status = .ok)
    (hcmd : releaseHandler it.frame.cmd = some h) (hpinCmd : it.frame.cmd ∈ pinCommands)
    (hfits : it.frame.body.length ≤ maxMsgSize)
    (hpin : computePinHash fw pin = some it.before.ram.gPinHash)
    (hcoll : it.PinDistinct fw pin) (hno : ¬ it.CarriesPin pin) :
    PinRefusal it.before.ram it.before.world
      ((handle fw h (UInt16.ofNat it.frame.body.length) it.buf).exec it.faults it.before.ram
        it.before.world) := by
  have hlength : (UInt16.ofNat it.frame.body.length).toNat = it.frame.body.length :=
    UInt16.toNat_ofNat_of_lt' (by simp only [maxMsgSize] at hfits; simp [UInt16.size]; omega)
  have hrefused : ∀ n : UInt16, pinLength ≤ n.toNat →
      ¬ UInt16.ofNat it.frame.body.length < n →
        ¬ PinCorrect fw it.before.ram (it.buf.read 0 pinLength) := by
    intro n hn hlen hcorrect
    have hcomplete : pinLength ≤ it.frame.body.length := by
      rw [UInt16.lt_iff_toNat_lt, hlength] at hlen
      omega
    rw [read_buf hcomplete] at hcorrect
    exact hno ⟨⟨hok, hpinCmd⟩, hcomplete, hcoll hcomplete (hcorrect.2.trans hpin.symm)⟩
  cases h with
  | list => exact gated_refusal (hrefused 6 (by decide)) _
  | read =>
    rw [handle, read_eq]
    exact gated_refusal (hrefused 7 (by decide)) _
  | write => exact gated_refusal (hrefused writeCmdMinLen (by decide)) _
  | receive => exact gated_refusal (hrefused 8 (by decide)) _
  | interrogate => exact gated_refusal (hrefused 6 (by decide)) _
  | listen | deleteFile | changePin | digest =>
    simp only [pinCommands, List.mem_cons, List.not_mem_nil, or_false] at hpinCmd
    rcases hpinCmd with h | h | h | h | h <;> rw [h] at hcmd <;> cases hcmd

/-- What an iteration does that does not carry the PIN. -/
theorem leavesFiles (hfits : it.frame.body.length ≤ maxMsgSize)
    (hpin : computePinHash fw pin = some it.before.ram.gPinHash)
    (hcoll : it.PinDistinct fw pin) (hno : ¬ it.CarriesPin pin) :
    LeavesFiles it.before.ram it.before.world it.frame.cmd (it.ending fw) := by
  by_cases hok : it.frame.status = .ok
  swap
  · have hp : errorPacket (frameError it.frame.status) ∈ statusPackets it.frame.cmd := by
      refine List.mem_cons_of_mem _ (List.mem_append_right _ (List.mem_map_of_mem ?_))
      cases hst : it.frame.status with
      | ok => exact (hok hst).elim
      | badPtr | timeout | noAck | badLen => decide
    rw [ending_eq, dispatch, if_pos hok]
    exact .reply hp rfl
  cases hcmd : releaseHandler it.frame.cmd with
  | none =>
    rw [ending_eq, dispatch, if_neg (not_not_intro hok), hcmd]
    exact .reply List.mem_cons_self rfl
  | some h =>
    rw [ending_handle hok hcmd]
    rcases mem_pinCommands hcmd with hpinCmd | ⟨hlisten, rfl⟩
    · exact (refusal hok hcmd hpinCmd hfits hpin hcoll hno).leavesFiles.map fun _ => it.buf
    · rw [hlisten]
      exact (listen_leavesFiles it.faults).map fun _ => it.buf

theorem countsFailure (hneeds : it.NeedsPin) (hfits : it.frame.body.length ≤ maxMsgSize)
    (hpin : computePinHash fw pin = some it.before.ram.gPinHash)
    (hcoll : it.PinDistinct fw pin) (hno : ¬ it.CarriesPin pin) :
    CountsFailure it.before.ram (it.ending fw) := by
  obtain ⟨hok, hpinCmd⟩ := hneeds
  obtain ⟨h, hcmd⟩ : ∃ h, releaseHandler it.frame.cmd = some h := by
    simp only [pinCommands, List.mem_cons, List.not_mem_nil, or_false] at hpinCmd
    rcases hpinCmd with h | h | h | h | h <;> rw [h] <;> exact ⟨_, rfl⟩
  rw [ending_handle hok hcmd]
  exact (refusal hok hcmd hpinCmd hfits hpin hcoll hno).countsFailure.map fun _ => it.buf

/-- No iteration changes the PIN. -/
theorem gPinHash_ending {uartBuf : Mem} {ram : Ram} {w : World} {L : List Op} {rest : Schedule}
    (h : it.ending fw = .done (uartBuf, ram) w L rest) :
    ram.gPinHash = it.before.ram.gPinHash := by
  have hstep : (mainStep fw it.frame it.before.uartBuf).KeepsPin := by
    refine Dev.Keeps.bind ?_ fun _ => .pure _
    rw [dispatch]
    split
    · exact (Dev.Keeps.op trivial).bind fun _ => .pure _
    split
    · rename_i h hcmd
      exact (handle_keepsPin hcmd _ _).bind fun _ => .pure _
    · exact (Dev.Keeps.op trivial).bind fun _ => .pure _
  have hsat := Machine.exec_yields (M := hsm) (hstep it.before.ram) it.faults it.before.world
  have hend : hsm.exec ((mainStep fw it.frame it.before.uartBuf).run it.before.ram) it.faults
      it.before.world = .done (uartBuf, ram) w L rest := h
  rw [hend] at hsat
  exact hsat

end Iteration

end

/-! ## Whole runs -/

/-- The PIN held at the start of a run is held in all its iterations. -/
theorem MainRun.pinHash {fw : Firmware} {pin : Bytes} {s : LoopState} {its : List Iteration}
    (hrun : MainRun fw s its) (hpin : computePinHash fw pin = some s.ram.gPinHash) :
    ∀ it ∈ its, computePinHash fw pin = some it.before.ram.gPinHash := by
  induction hrun with
  | stop s => simp
  | last s frame faults => exact List.forall_mem_singleton.mpr hpin
  | @next s frame faults rest uartBuf ram w L its h tail ih =>
    refine List.forall_mem_cons.mpr ⟨hpin, ih ?_⟩
    rw [hpin, ← Iteration.gPinHash_ending h]

/-- In every run of the release main loop, an iteration that does not handle an L, R, W, C or I
    packet with the right PIN in its first six bytes leaves the files alone: it changes no slot
    page, FAT or name table, sends none of their bytes to the host, and uses UART1 in `listen`
    only. If its packet was one of these five, it changes the PIN failure count and its page at
    most. -/
theorem mainRun_needsPin (fw : Firmware) (pin : Bytes) (s : LoopState) (its : List Iteration)
    (hrun : MainRun fw s its) (hpin : computePinHash fw pin = some s.ram.gPinHash)
    (hfits : ∀ it ∈ its, it.frame.body.length ≤ maxMsgSize)
    (hcoll : ∀ it ∈ its, it.PinDistinct fw pin) :
    ∀ it ∈ its, ¬ it.CarriesPin pin →
      LeavesFiles it.before.ram it.before.world it.frame.cmd (it.ending fw) ∧
        (it.NeedsPin → CountsFailure it.before.ram (it.ending fw)) := by
  intro it hmem hno
  have hheld := hrun.pinHash hpin it hmem
  exact ⟨Iteration.leavesFiles (hfits it hmem) hheld (hcoll it hmem) hno, fun hneeds =>
    Iteration.countsFailure hneeds (hfits it hmem) hheld (hcoll it hmem) hno⟩

/-- An L packet with this PIN. -/
def samplePinFrame (pin : String) : HostFrame := ⟨.ok, listMsg, ascii pin⟩

/-- A host tries a wrong PIN first, and then the right one. -/
theorem mainRun_needsPin_sample :
    ∃ t : LoopState,
      let wrong : Iteration := ⟨⟨fun _ => 0, .copying, .sample⟩, samplePinFrame "000000", []⟩
      MainRun .copying wrong.before [wrong, ⟨t, samplePinFrame "a1b2c3", []⟩] ∧
      LeavesFiles .copying .sample listMsg (wrong.ending .copying) ∧
      CountsFailure .copying (wrong.ending .copying) := by
  let wrong : Iteration := ⟨⟨fun _ => 0, .copying, .sample⟩, samplePinFrame "000000", []⟩
  obtain ⟨⟨uartBuf, ram⟩, w, L, hruns⟩ :=
    Machine.exists_runs hsm ((mainStep .copying wrong.frame wrong.before.uartBuf).run .copying) .sample
  let right : Iteration := ⟨⟨uartBuf, ram, w⟩, samplePinFrame "a1b2c3", []⟩
  have hrun : MainRun .copying wrong.before [wrong, right] := .next hruns (.last _ _ _)
  have hfits : ∀ it ∈ [wrong, right], it.frame.body.length ≤ maxMsgSize := by
    intro it hit
    rcases List.mem_pair.mp hit with rfl | rfl
    · show (samplePinFrame "000000").body.length ≤ maxMsgSize
      decide
    · show (samplePinFrame "a1b2c3").body.length ≤ maxMsgSize
      decide
  -- The hashes of the two PINs differ, and the second packet holds the PIN.
  have hdistinct : ∀ it ∈ [wrong, right], it.PinDistinct .copying (ascii "a1b2c3") := by
    obtain ⟨key, hkey⟩ := Firmware.copying_computePinHash
    intro it hit
    rcases List.mem_pair.mp hit with rfl | rfl
    · intro _ hsame
      rw [hkey, hkey] at hsame
      exact Primitives.copying_hmac_inj (by decide) (by decide) (Option.some.inj hsame)
    · intro _ _
      show (samplePinFrame "a1b2c3").body.take pinLength = ascii "a1b2c3"
      decide
  have hno : ¬ wrong.CarriesPin (ascii "a1b2c3") := by
    intro h
    have hsame : (samplePinFrame "000000").body.take pinLength = ascii "a1b2c3" := h.isPin
    exact absurd hsame (by decide)
  obtain ⟨hleaves, hcounts⟩ := mainRun_needsPin .copying (ascii "a1b2c3") wrong.before [wrong, right]
    hrun Ram.copying_pinCorrect.2 hfits hdistinct wrong List.mem_cons_self hno
  exact ⟨right.before, hrun, hleaves, hcounts ⟨rfl, List.mem_cons_self⟩⟩
