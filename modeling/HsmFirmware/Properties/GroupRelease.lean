-- SUMMARY: Over all runs of the device: a file is released under the permission and the proofs for the group its record is sealed under.
import Mathlib.Data.Fintype.Pigeonhole
import HsmFirmware.Library.Recovery
import HsmFirmware.Specs.Groups
import HsmFirmware.Specs.Released
import HsmFirmware.Properties.FileMap
import HsmFirmware.Properties.Disclosure
import HsmFirmware.Properties.StaleBytes

/-!
# Released groups

A record is sealed under the group of its header, while the permission to read it and the proofs
for a transfer are checked against the group of its name entry. The two agree in every run in which
each store that changes the group of a slot gets as far as erasing the old record. Power can be lost
at any time, and the flash can fail.
-/

open Recovery (Run)

/-! ## The system -/

/-- A boot, up to the main loop. The packet buffer holds anything. -/
def bootStep (fw : Firmware) (uartBuf : Mem) : Dev Mem := do
  init fw
  pure uartBuf

/-- The release firmware. A command is a frame of the host. -/
def mainSystem (fw : Firmware) : Recovery.System Res Mem HostFrame (Mem × Ram) where
  boot uartBuf := (bootStep fw uartBuf).run .reset
  command frame s := (mainStep fw frame s.1).run s.2

/-- Everything but the flash can change between two commands. -/
def SameFlash (w w' : World) : Prop := w'.flash = w.flash

/-- The frame fits the buffer, and if it comes to a store that writes another group over a record,
    that store gets past the first erase of the slot. -/
structure StoresReachSlot (fw : Firmware) (frame : HostFrame) (fs : Schedule) (s : Mem × Ram)
    (w : World) : Prop where
  fits : frame.body.length ≤ maxMsgSize
  reaches : ∀ c ram w' fs', ComesToStore fw (UInt16.ofNat frame.body.length)
      (s.1.write 0 frame.body) s.2 w fs frame.cmd c ram w' fs' →
    ∀ slot, slotIsValid c.request.slotNum = some slot → c.Accepted fw →
      c.ReachesSlot fw slot ram w' fs'

/-- The frame fits the buffer, and a store that it comes to, with the right PIN and past its checks,
    settles the entry of its slot. -/
structure StoresSettle (fw : Firmware) (frame : HostFrame) (fs : Schedule) (s : Mem × Ram)
    (w : World) : Prop where
  fits : frame.body.length ≤ maxMsgSize
  settles : ∀ c ram w' fs', ComesToStore fw (UInt16.ofNat frame.body.length)
      (s.1.write 0 frame.body) s.2 w fs frame.cmd c ram w' fs' →
    ∀ slot, slotIsValid c.request.slotNum = some slot →
      PinCorrect fw s.2 ((s.1.write 0 frame.body).read 0 pinLength) → c.Accepted fw →
        c.Settles fw slot ram w' fs'

theorem StoresReachSlot.settles {fw : Firmware} {frame : HostFrame} {fs : Schedule} {s : Mem × Ram}
    {w : World} (h : StoresReachSlot fw frame fs s w) : StoresSettle fw frame fs s w :=
  ⟨h.fits, fun c ram w' fs' hcomes slot hslot _ haccepted =>
    (h.reaches c ram w' fs' hcomes slot hslot haccepted).settles⟩

/-! ## What a step keeps -/

section

variable {fw : Firmware} {slot : Slot} {ram : Ram} {w : World} {fs : Schedule} {frame : HostFrame}
  {uartBuf : Mem}

/-- What spares the slots and the name table leaves the entries right. -/
theorem Dev.Keeps.keepsNames {α : Type} {h : Dev α} (hh : h.Keeps Op.OnPinPage Ram.gNameTable)
    (hnames : NamesRight slot ram w.flash) : KeepsNames slot (h.exec fs ram w) := by
  have hflash := h.flash_exec fs ram w
  have hlog : ∀ o ∈ (h.exec fs ram w).log, o.OnPinPage :=
    Machine.exec_log_performs (hh ram).performs fs w
  have hram : (h.exec fs ram w).Sat (fun r _ _ _ => r.2.gNameTable = ram.gNameTable)
      fun _ _ => True := Machine.exec_yields (hh ram) fs w
  generalize h.exec fs ram w = res at hflash hlog hram
  have hagree : Mem.Agree res.state.flash w.flash 0 pinStateAddr := by
    rw [hflash]
    exact agree_onPinPage hlog w.flash
  cases res with
  | done r t L rest => exact hnames.congr hram hagree
  | off t L => exact (hnames.congr rfl hagree).inFlash

theorem handle_keepsNames {h : Handler} (hgcm : fw.prim.GcmLaws)
    (hcmd : releaseHandler frame.cmd = some h) (hok : StoresSettle fw frame fs (uartBuf, ram) w)
    (hnames : NamesRight slot ram w.flash) :
    KeepsNames slot ((handle fw h (UInt16.ofNat frame.body.length)
      (uartBuf.write 0 frame.body)).exec fs ram w) := by
  have hspares : ∀ {k : Dev Int}, k.KeepsTables → KeepsNames slot (k.exec fs ram w) := by
    intro k hk
    apply Dev.Keeps.keepsNames _ hnames
    intro ram
    exact (hk ram).mono (fun _ ho => ho) fun _ htables =>
      congrArg (fun tables => tables.2.1) htables
  obtain ⟨hfits, hsettles⟩ := hok
  have hlen : (UInt16.ofNat frame.body.length).toNat ≤ maxMsgSize := by
    rw [UInt16.toNat_ofNat']
    exact (Nat.mod_le _ _).trans hfits
  unfold releaseHandler at hcmd
  split at hcmd
  · cases hcmd
    exact hspares (list_keepsTables _ _)
  split at hcmd
  · cases hcmd
    exact hspares (read_keepsTables _ _)
  split at hcmd
  · rename_i heq
    cases hcmd
    apply write_keepsNames hgcm hlen hnames
    intro c ram' w' fs' hcomes hslot
    rw [← heq] at hcomes
    exact hsettles c ram' w' fs' hcomes slot hslot
  split at hcmd
  · rename_i heq
    cases hcmd
    apply receive_keepsNames hgcm hnames
    intro c ram' w' fs' hcomes hslot
    rw [← heq] at hcomes
    exact hsettles c ram' w' fs' hcomes slot hslot
  split at hcmd
  · cases hcmd
    exact hspares (interrogate_keepsTables _ _)
  split at hcmd
  · cases hcmd
    apply Dev.Keeps.keepsNames _ hnames
    intro ram
    apply (listen_keepsFiles ram).mono
    · intro o ho
      cases o <;> trivial
    · intro r hfiles
      exact congrArg (fun files => files.2.1) hfiles
  · cases hcmd

theorem mainStep_keepsNames (hgcm : fw.prim.GcmLaws)
    (hok : StoresSettle fw frame fs (uartBuf, ram) w) (hnames : NamesRight slot ram w.flash) :
    KeepsNames slot ((mainStep fw frame uartBuf).exec fs ram w) := by
  rw [mainStep, Dev.exec_bind]
  apply KeepsNames.andThen
  swap
  · intro r t rest hr
    exact hr
  have hprint : ∀ cmd payload, (Dev.send .control cmd payload >>= fun _ =>
      (pure () : Dev Unit)).Keeps Op.OnPinPage Ram.gNameTable := by
    intro cmd payload
    exact (Dev.Keeps.op trivial).bind fun _ => .pure _
  unfold dispatch
  split
  · exact (hprint _ _).keepsNames hnames
  split
  · rename_i h hcmd
    rw [Dev.exec_bind]
    apply KeepsNames.andThen (handle_keepsNames hgcm hcmd hok hnames)
    intro r t rest hr
    exact hr
  · exact (hprint _ _).keepsNames hnames

/-- A boot with right entries in flash loads them. -/
theorem bootStep_keepsNames {res : Halt Op World (Mem × Ram)}
    (hright : EntryRight w.flash slot (nameAt w.flash slot))
    (hres : (bootStep fw uartBuf).exec fs .reset w = res) : KeepsNames slot res := by
  have hnames : NamesRight slot (Ram.reset.loaded w.flash) w.flash := ⟨hright, hright⟩
  rw [bootStep, Dev.exec_bind] at hres
  generalize hboot : (init fw).exec fs .reset w = loaded at hres
  have hloads := init_loads hboot
  cases loaded with
  | off t L =>
    rw [← hres]
    exact (hnames.congr rfl hloads).inFlash
  | done r t L rest =>
    obtain ⟨hfat, hloaded, hagree⟩ := hloads
    have hkept := hnames.congr rfl hagree
    rw [← hres]
    refine ⟨?_, hkept.inFlash⟩
    show EntryRight t.flash slot (r.2.gNameTable slot)
    rw [hloaded]
    exact hkept.inFlash

/-- Right entries are an invariant of the system. -/
theorem mainSystem_namesRight (hgcm : fw.prim.GcmLaws) (slot : Slot) :
    Recovery.Invariant hsm (mainSystem fw) SameFlash (StoresSettle fw)
      (fun w => EntryRight w.flash slot (nameAt w.flash slot))
      fun s w => NamesRight slot s.2 w.flash where
  boot uartBuf fs w h := by
    generalize hres : hsm.exec ((mainSystem fw).boot uartBuf) fs w = res
    exact bootStep_keepsNames h hres
  command frame fs s w hok h := mainStep_keepsNames hgcm hok h
  lost s w h := h.inFlash
  changes s w w' hflash h := by
    rw [show w'.flash = w.flash from hflash]
    exact h

end

/-! ## What an iteration sends -/

section

variable {fw : Firmware} {ram : Ram} {w : World} {fs : Schedule} {frame : HostFrame} {uartBuf : Mem}

/-- An iteration with a command is the run of its handler. -/
theorem mainStep_exec {h : Handler} (hok : frame.status = .ok)
    (hcmd : releaseHandler frame.cmd = some h) (fs : Schedule) (ram : Ram) (w : World) :
    (mainStep fw frame uartBuf).exec fs ram w =
      ((handle fw h (UInt16.ofNat frame.body.length) (uartBuf.write 0 frame.body)).exec fs ram
        w).andThen fun r t rest => .done (uartBuf.write 0 frame.body, r.2) t [] rest := by
  rw [mainStep, Dev.exec_bind, dispatch, if_neg (not_not_intro hok), hcmd]
  dsimp only
  rw [Dev.exec_bind]
  generalize (handle fw h (UInt16.ofNat frame.body.length) (uartBuf.write 0 frame.body)).exec fs ram
    w = res
  cases res with
  | done r t L rest => simp
  | off t L => rfl

theorem Adds.andThen {Q : Packet → Prop} {α β : Type} {res : Halt Op World (α × Ram)}
    (h : Adds Q w res) (g : α × Ram → β × Ram) :
    Adds Q w (res.andThen fun r t rest => .done (g r) t [] rest) := by
  cases res with
  | done r t L rest => exact h
  | off t L => exact h

/-- Other commands than `listen` send no file to a peer. -/
theorem mainStep_unfiled (h : frame.cmd ≠ listenMsg) :
    (mainStep fw frame uartBuf).Sends fun p => ¬ p.IsFile := by
  intro ram
  apply Prog.Follows.performs (mainStep_follows frame uartBuf ram)
  intro l o ho
  have hlength : ∀ {α : Type} (c : Codec α) (a : α), c.size ≠ ReceiveResponse.codec.size →
      ¬ (⟨.transfer, receiveMsg, c.encode a⟩ : Packet).IsFile :=
    fun c a hne hfile => hne ((c.length_encode a).symm.trans hfile.2.2)
  have hother : ∀ payload, ¬ (⟨.transfer, interrogateMsg, payload⟩ : Packet).IsFile :=
    fun payload hfile => absurd hfile.2.1 (show interrogateMsg ≠ receiveMsg by decide)
  cases ho with
  | device hlocal =>
    cases o with
    | send uart cmd payload =>
      intro hfile
      have huart : uart = .transfer := hfile.1
      subst huart
      exact hlocal
    | _ => trivial
  | await => trivial
  | deny => exact fun hfile => absurd hfile.2.1 (show errorMsg ≠ receiveMsg by decide)
  | requestFile request => exact hlength _ _ (by decide)
  | proveFile => exact hlength _ _ (by decide)
  | challengeFile _ hcmd | challengeList _ hcmd => exact (h hcmd).elim
  | sendFile hsends => exact (h hsends.command).elim
  | sendList hsends => exact (h hsends.command).elim
  | requestList | proveList => exact hother _

/-- A frame that is not understood is answered with an error. -/
theorem mainStep_failed (hok : frame.status ≠ .ok) :
    (mainStep fw frame uartBuf).Sends fun p => p = errorPacket (frameError frame.status) := by
  have herror : (Dev.send .control errorMsg (ascii (frameError frame.status))).Sends
      fun p => p = errorPacket (frameError frame.status) := Dev.Sends.send rfl
  rw [mainStep, dispatch, if_pos hok]
  exact (herror.bind fun _ => .pure _).bind fun _ => .pure _

/-- What a read command of the host sends. -/
theorem mainStep_reads (hcmd : frame.cmd = readMsg) (fs : Schedule) (ram : Ram) (w : World) :
    Adds (fun p => p.cmd = readMsg →
        ∃ slot, ReadAllowed fw ram w.flash (uartBuf.write 0 frame.body 6) slot p) w
      ((mainStep fw frame uartBuf).exec fs ram w) := by
  by_cases hok : frame.status = .ok
  · rw [mainStep_exec hok (h := .read) (by rw [hcmd]; rfl)]
    exact (read_adds _ _ fs ram w).andThen _
  · apply (Adds.of_sends (mainStep_failed hok) fs ram w).mono
    rintro p rfl herror
    exact absurd herror (show errorMsg ≠ readMsg by decide)

/-- What any command sends to a peer. -/
theorem mainStep_releases (fs : Schedule) (ram : Ram) (w : World) :
    Adds (fun p => p.IsFile → ∃ x : FileSession fw ram w, x.Sends p) w
      ((mainStep fw frame uartBuf).exec fs ram w) := by
  by_cases hcmd : frame.cmd = listenMsg
  swap
  · apply (Adds.of_sends (mainStep_unfiled hcmd) fs ram w).mono
    intro p hp hfile
    exact (hp hfile).elim
  by_cases hok : frame.status = .ok
  · rw [mainStep_exec hok (h := .listen) (by rw [hcmd]; rfl)]
    exact (listen_adds fs ram w).andThen _
  · apply (Adds.of_sends (mainStep_failed hok) fs ram w).mono
    rintro p rfl hfile
    exact (not_isFile_error _ hfile).elim

theorem Adds.mem {Q : Packet → Prop} {α : Type} {h : Dev α} {p : Packet}
    (hadds : Adds Q w (h.exec fs ram w)) (hp : p ∈ h.packets fs ram w) : Q p := by
  obtain ⟨ps, hps, hQ⟩ := hadds
  rw [Dev.packets, hps, List.drop_left] at hp
  exact hQ p hp

/-- A record that can be read in an occupied slot has the group of its entry, if the entry is
    right. -/
theorem NamesRight.groupMask {slot : Slot} {owner : Option Digest} {mask : UInt32} {d : Bytes}
    (h : NamesRight slot ram w.flash) (hoccupied : ram.occupied slot = true)
    (hd : recordContents fw w.flash ram.gFat slot owner mask = some d) :
    (headerAt w.flash slot).groupMask = (ram.gNameTable slot).groupId.toUInt32 := by
  obtain ⟨header, hload, -⟩ := recordContents_some hd
  obtain ⟨rfl, ⟨hmagic, -⟩, -⟩ := loadHeader_eq_ok.mp hload
  exact h.inRam ((Ram.occupied_iff.mp hoccupied).1) hmagic

/-- What an iteration sends of a file: to the host under the permission to read the group its record
    is sealed under, to a peer for a proof for that group. -/
def ReleasesByGroup (fw : Firmware) (frame : HostFrame) (uartBuf : Mem) (ram : Ram) (w : World)
    (p : Packet) : Prop :=
  (frame.cmd = readMsg → p.cmd = readMsg → ∃ slot groupId,
    ReadAllowed fw ram w.flash (uartBuf.write 0 frame.body 6) slot p ∧
    (headerAt w.flash slot).groupMask = groupId.toUInt32 ∧
    validatePermission fw groupId .permRead = true) ∧
  (p.IsFile → ∃ x : FileSession fw ram w, x.Sends p ∧
    (headerAt w.flash x.slot).groupMask = x.proof.groupId.toUInt32)

/-- With right entries a file leaves the device only under the group of its record. -/
theorem releases_of_namesRight {p : Packet}
    (hp : p ∈ (mainStep fw frame uartBuf).packets fs ram w)
    (hnames : ∀ slot, NamesRight slot ram w.flash) : ReleasesByGroup fw frame uartBuf ram w p := by
  constructor
  · intro hcmd hread
    obtain ⟨slot, hallowed⟩ := (mainStep_reads hcmd fs ram w).mem hp hread
    obtain ⟨d, hd, -⟩ := hallowed.contents
    refine ⟨slot, (ram.gNameTable slot).groupId, hallowed, ?_, hallowed.permitted⟩
    exact (hnames slot).groupMask (slotOccupied_some hallowed.occupied).2 hd
  · intro hfile
    obtain ⟨x, hsends⟩ := (mainStep_releases fs ram w).mem hp hfile
    obtain ⟨d, hd, hpacket⟩ := hsends
    refine ⟨x, ⟨d, hd, hpacket⟩, ?_⟩
    rw [x.proves.groupId]
    exact (hnames x.slot).groupMask (slotOccupied_some x.occupied).2 hd

end

/-- Over any run of the device, with power losses and failures of the flash at any time, and a host
    and a peer that send anything: if every store that writes another group over a record gets past
    the first erase of its slot, then a read command gives a file only if the permission table lets
    the group be read that the record of its slot is sealed under, and a file goes to a peer only
    for a proof for that group. -/
theorem released_group (fw : Firmware) (hgcm : fw.prim.GcmLaws) (w₀ : World)
    (hright : ∀ slot, EntryRight w₀.flash slot (nameAt w₀.flash slot)) (uartBuf : Mem) (ram : Ram)
    (w : World)
    (hrun : Run hsm (mainSystem fw) SameFlash (StoresReachSlot fw) w₀ (.on (uartBuf, ram) w))
    (frame : HostFrame) (fs : Schedule) (p : Packet)
    (hp : p ∈ (mainStep fw frame uartBuf).packets fs ram w) :
    (frame.cmd = readMsg → p.cmd = readMsg → ∃ slot groupId,
      ReadAllowed fw ram w.flash (uartBuf.write 0 frame.body 6) slot p ∧
      (headerAt w.flash slot).groupMask = groupId.toUInt32 ∧
      validatePermission fw groupId .permRead = true) ∧
    (p.IsFile → ∃ x : FileSession fw ram w, x.Sends p ∧
      (headerAt w.flash x.slot).groupMask = x.proof.groupId.toUInt32) := by
  have hsettled := hrun.mono fun _ _ _ _ hok => hok.settles
  exact releases_of_namesRight hp fun slot =>
    hsettled.holds (mainSystem_namesRight hgcm slot) (hright slot)

/-! ## A sample -/

/-- The packet of a write command for a file in slot 0, and that of a read command for it. -/
def sampleWriteFrame (groupId : UInt16) : HostFrame :=
  ⟨.ok, writeMsg, (sampleWrite 0 groupId "a").read 0 359⟩
def sampleReadFrame : HostFrame := ⟨.ok, readMsg, ascii "a1b2c3" ++ [0]⟩

section

variable {fw : Firmware} {ram ram' : Ram} {w w' : World} {frame : HostFrame} {uartBuf : Mem}
  {rc : Int} {L : List Op} {hash : Digest} {m : FileMap}

theorem mainStep_runs {h : Handler} (hok : frame.status = .ok)
    (hcmd : releaseHandler frame.cmd = some h)
    (hrun : (handle fw h (UInt16.ofNat frame.body.length) (uartBuf.write 0 frame.body)).Runs ram w
      rc ram' w' L) :
    (mainStep fw frame uartBuf).Runs ram w (uartBuf.write 0 frame.body) ram' w' L := by
  show (mainStep fw frame uartBuf).exec [] ram w = _
  rw [mainStep_exec hok hcmd, show Dev.exec _ [] ram w = _ from hrun, Halt.andThen_done,
    Halt.logged_done, List.append_nil]

theorem sample_blank : World.sample.flash.Erased 0 (pinStateAddr + pageSize) := fun _ _ _ => rfl

theorem nameAt_blank {m : Mem} (h : m.Erased 0 (pinStateAddr + pageSize)) (slot : Slot) :
    nameAt m slot = .erased := by
  have hslot : slot.val < 8 := slot.isLt
  apply nameAt_erased
  apply h.mono (Nat.zero_le _)
  simp only [nameTableAddr, pinStateAddr, pageSize]
  omega

theorem copying_provisionedHash : ∃ hash, provisionedHash .copying = some hash := by
  obtain ⟨key, hkey⟩ : ∃ key, ∀ pin, computePinHash .copying pin =
      some (Primitives.copying.hmac key pin) := Firmware.withPin_computePinHash (ascii "a1b2c3")
  unfold provisionedHash
  rw [if_neg (by decide)]
  exact ⟨_, hkey _⟩

/-- A blank device at its first boot. -/
theorem sample_boots (h : provisionedHash fw = some hash) :
    ∃ ram w, Run hsm (mainSystem fw) SameFlash (StoresReachSlot fw) .sample
        (.on (fun _ => 0, ram) w) ∧ Represents fw hash ram w .empty := by
  obtain ⟨⟨⟩, ram, w, L, hboot, -, hempty⟩ := @init_represents fw hash World.sample h
    (hashAt_blank (sample_blank.mono (Nat.zero_le _) (Nat.le_refl _))) (nameAt_blank sample_blank)
    fun _ => Option.some_ne_none _
  have hrun : (bootStep fw fun _ => 0).Runs .reset World.sample (fun _ => 0) ram w L :=
    Dev.Runs.bind_quiet hboot rfl
  exact ⟨ram, w, Run.init.step (.boot (fun _ => 0) [] hrun), hempty⟩

/-- The packet in `uart_buf` is the one of the frame. -/
theorem sampleWriteFrame_length (groupId : UInt16) : (sampleWriteFrame groupId).body.length = 359 :=
  Mem.length_read _ _ _

theorem handle_sampleWriteFrame (groupId : UInt16) :
    handle fw .write (UInt16.ofNat (sampleWriteFrame groupId).body.length)
        (uartBuf.write 0 (sampleWriteFrame groupId).body) =
      handle fw .write 359 (sampleWrite 0 groupId "a") := by
  rw [sampleWriteFrame_length]
  exact handle_congr .write (Mem.agree_write_read _ _ 0 359)

/-- A store without faults reaches its slot, if a nonce can be drawn. -/
theorem StoreCommand.reachesSlot_noFault {c : StoreCommand} {slot : Slot}
    (hsealed : canSeal fw w = true) (hhash : getPinHash fw c.request.pin ≠ none)
    (hfits : c.request.contents.length ≤ maxContentsSize) : c.ReachesSlot fw slot ram w [] := by
  right
  constructor
  · intro hnone
    have hsome := @FileCommand.isSome_record fw w slot c hhash hfits
    rw [hnone, hsealed] at hsome
    cases hsome
  · have hrest : Schedule.attempt (c.gate ram).length [] = [] := by
      cases (c.gate ram).length <;> rfl
    rw [hrest]
    intro o ho
    simp at ho

theorem Policy.rootSecret {pin : Bytes} (hknown : (Policy.ofBuild fw hash).knows pin = true) :
    ∃ root, securityGetRootSecret fw = some root := by
  have hhash : computePinHash fw pin = some hash := beq_iff_eq.mp hknown
  rw [computePinHash] at hhash
  cases hroot : securityGetRootSecret fw with
  | none =>
    rw [hroot] at hhash
    cases hhash
  | some root => exact ⟨root, rfl⟩

theorem Represents.seals (h : Represents fw hash ram w m) {pin : Bytes}
    (hknown : (Policy.ofBuild fw hash).knows pin = true) : canSeal fw w = true := by
  obtain ⟨root, hroot⟩ := Policy.rootSecret hknown
  rw [canSeal, hroot, Option.isSome_iff_ne_none.mpr (h.draws _)]
  rfl

/-- A file of the group, over whatever is in slot 0. -/
theorem Represents.storesSample (hgcm : fw.prim.GcmLaws) (h : Represents fw hash ram w m)
    (hknown : (Policy.ofBuild fw hash).knows (ascii "a1b2c3") = true) (uartBuf : Mem)
    (groupId : UInt16)
    (hpin : (WriteCommand.ofBuf (sampleWrite 0 groupId "a")).pin = ascii "a1b2c3")
    (hgroup : (WriteCommand.ofBuf (sampleWrite 0 groupId "a")).groupId = groupId)
    (hslot : (WriteCommand.ofBuf (sampleWrite 0 groupId "a")).slot = 0)
    (hlen : (WriteCommand.ofBuf (sampleWrite 0 groupId "a")).contentsLen = 300)
    (hzero : groupId ≠ 0) (hperm : validatePermission fw groupId .permWrite = true) :
    ∃ f ram' w', Recovery.Step hsm (mainSystem fw) SameFlash (StoresReachSlot fw)
        (.on (uartBuf, ram) w)
        (.on (uartBuf.write 0 (sampleWriteFrame groupId).body, ram') w') ∧
      f.groupId = groupId ∧ Represents fw hash ram' w' (Function.update m 0 (some f)) := by
  let s : FileStore := ⟨.byWrite 359 (sampleWrite 0 groupId "a"), sampleWrite_fits 0 groupId "a",
    fun h => hzero (hgroup.symm.trans h)⟩
  have hanswer := h.stores hgcm s trivial
  have hstore : m.store (Policy.ofBuild fw hash) s =
      ([⟨.control, writeMsg, []⟩], Function.update m 0 (some s.file)) := by
    have hallowed : (Policy.ofBuild fw hash).permits .permWrite
        (WriteCommand.ofBuf (sampleWrite 0 groupId "a")).groupId = true := by
      rw [hgroup]
      exact hperm
    have hput : slotIsValid (WriteCommand.ofBuf (sampleWrite 0 groupId "a")).slot = some 0 := by
      rw [hslot]
      rfl
    unfold FileMap.store FileMap.guarded FileMap.put
    dsimp only [s]
    rw [if_neg (by decide), hpin, if_pos hknown, hallowed, if_neg (by decide), hlen,
      if_neg (by decide)]
    dsimp only [StoreCommand.request]
    rw [hput]
  rw [hstore] at hanswer
  obtain ⟨rc, ram', w', L, hrun, -, hrep⟩ := hanswer
  refine ⟨s.file, ram', w', ?_, hgroup, hrep⟩
  have hhandle : (handle fw .write (UInt16.ofNat (sampleWriteFrame groupId).body.length)
      (uartBuf.write 0 (sampleWriteFrame groupId).body)).Runs ram w rc ram' w' L := by
    rw [handle_sampleWriteFrame]
    exact hrun
  refine .command (sampleWriteFrame groupId) [] ⟨?_, ?_⟩ (mainStep_runs (h := .write) rfl rfl hhandle)
  · rw [sampleWriteFrame_length]
    decide
  · intro c ram'' w'' fs' hcomes slot hslot haccepted
    cases hcomes with
    | write =>
      have hagree := Mem.agree_write_read uartBuf (sampleWrite 0 groupId "a") 0 359
      have hsame : (WriteCommand.ofBuf (uartBuf.write 0 (sampleWriteFrame groupId).body)).pin =
          ascii "a1b2c3" :=
        (hagree.read (Nat.le_refl 0) (show 0 + pinLength ≤ 0 + 359 by decide)).trans hpin
      apply StoreCommand.reachesSlot_noFault (h.seals hknown)
      · show getPinHash fw (WriteCommand.ofBuf _).pin ≠ none
        rw [hsame, Policy.pinHash hknown (by decide)]
        exact Option.some_ne_none _
      · have hle := StoreCommand.contentsLen_le haccepted
        rw [sampleWriteFrame_length] at hle
        show (Mem.read _ 59 _).length ≤ maxContentsSize
        rw [Mem.length_read]
        exact (Nat.le_of_add_le_add_left (Nat.le_trans hle (show 359 ≤ 59 + 300 by decide))).trans
          (by decide)

/-- The contents of a file as `listen` reads them. -/
theorem Represents.transferContents (h : Represents fw hash ram w m) (hgcm : fw.prim.GcmLaws)
    {slot : Slot} {f : KeptFile} (hfile : m slot = some f) :
    recordContents fw w.flash ram.gFat slot none (ram.gNameTable slot).groupId.toUInt32 =
      some f.contents := by
  have hslot := h.slots slot
  rw [hfile] at hslot
  obtain ⟨r, rfl, hkept⟩ := hslot
  have hgroup : (ram.gNameTable r.slot).groupId = f.groupId := by
    rw [hkept.name]
    rfl
  rw [hkept.stored.contents hgcm hkept.fits hkept.key hkept.fat, hkept.group, hkept.data, hgroup,
    if_neg]
  rintro (hzero | ⟨hnone, -⟩)
  · rw [UInt32.and_self] at hzero
    exact f.hasGroup (mask_eq_zero.mp (by rw [hzero]; rfl))
  · exact hnone rfl

/-- Eight entries do not hold all nonces. -/
theorem Ram.exists_fresh (ram : Ram) (nt : UInt32) (groupId : UInt16) (op : UInt8) :
    ∃ nr, ¬ ram.Replayed nr nt groupId op := by
  by_contra hall
  have hheld : ∀ n : Fin 9, ram.Replayed (UInt32.ofNat n) nt groupId op :=
    fun n => not_not.mp fun hn => hall ⟨_, hn⟩
  choose entry hentry using hheld
  obtain ⟨a, b, hne, heq⟩ := Fintype.exists_ne_map_eq_of_card_lt entry (by decide)
  have hnonce : ∀ n, (ram.gReplayCache (entry n)).nr = UInt32.ofNat n := by
    intro n
    have h := hentry n
    simp only [ReplayEntry.isFor, Bool.and_eq_true, beq_iff_eq] at h
    exact h.1.1.1.2
  apply hne
  have hsame : UInt32.ofNat a = UInt32.ofNat b := by
    rw [← hnonce a, ← hnonce b, heq]
  have hval := congrArg UInt32.toNat hsame
  rw [UInt32.toNat_ofNat_of_lt' (Nat.lt_trans a.isLt (by decide)),
    UInt32.toNat_ofNat_of_lt' (Nat.lt_trans b.isLt (by decide))] at hval
  exact Fin.ext hval

theorem sampleReadFrame_pin (uartBuf : Mem) :
    (uartBuf.write 0 sampleReadFrame.body).read 0 pinLength = ascii "a1b2c3" := rfl

theorem sampleReadFrame_slot (uartBuf : Mem) : uartBuf.write 0 sampleReadFrame.body 6 = 0 := rfl

/-- The host reads the file in slot 0. -/
theorem Represents.readsSample (hgcm : fw.prim.GcmLaws) (h : Represents fw hash ram w m)
    (hknown : (Policy.ofBuild fw hash).knows (ascii "a1b2c3") = true) {f : KeptFile}
    (hfile : m 0 = some f) (hperm : validatePermission fw f.groupId .permRead = true)
    (uartBuf : Mem) :
    ⟨.control, readMsg, f.name.toList ++ f.contents⟩ ∈
      (mainStep fw sampleReadFrame uartBuf).packets [] ram w := by
  have hanswer := h.reads hgcm 7 (uartBuf.write 0 sampleReadFrame.body)
  have hread : m.read (Policy.ofBuild fw hash) 7 (uartBuf.write 0 sampleReadFrame.body) =
      ([⟨.control, readMsg, f.name.toList ++ f.contents⟩], m) := by
    unfold FileMap.read FileMap.guarded FileMap.readFile
    have hlookup : m.lookup (uartBuf.write 0 sampleReadFrame.body 6) = some f := by
      rw [sampleReadFrame_slot]
      exact hfile
    rw [if_neg (by decide), sampleReadFrame_pin, if_pos hknown, hlookup]
    exact if_pos hperm
  rw [hread] at hanswer
  obtain ⟨rc, ram', w', L, hruns, hsent, -⟩ := hanswer
  have hexec : (mainStep fw sampleReadFrame uartBuf).exec [] ram w = _ :=
    mainStep_runs (h := .read) rfl rfl hruns
  rw [Dev.packets, hexec, Halt.state, hsent, List.drop_left]
  exact List.mem_singleton_self _

/-- A peer asks for the file in slot 0 with a nonce, and answers with a proof. -/
def World.askedFor (w : World) (nr : UInt32) (proof : ReceiveProof) : World :=
  { w with
    rng := fun _ => some fun _ => 0
    acks := []
    recvs := 0
    peer := fun n _ =>
      if n = 0 then .packet receiveMsg (ReceiveRequest.codec.encode ⟨0, nr⟩)
      else .packet receiveMsg (ReceiveProof.codec.encode proof) }

/-- A peer with the root secret gets the file in slot 0. -/
theorem Represents.givesSample (hgcm : fw.prim.GcmLaws) (h : Represents fw hash ram w m)
    {root : Key} (hroot : securityGetRootSecret fw = some root) {f : KeptFile} (hfile : m 0 = some f)
    (uartBuf : Mem) :
    ∃ nr proof p, p ∈ (mainStep fw ⟨.ok, listenMsg, []⟩ uartBuf).packets [] ram (w.askedFor nr proof) ∧
      p.IsFile := by
  obtain ⟨nr, hfresh⟩ := ram.exists_fresh (drawnNonce fun _ => 0) (ram.gNameTable 0).groupId receiveMsg
  let challenge := offeredChallenge ram ⟨0, nr⟩ 0 fun _ => 0
  let proof := signedProof fw root challenge
  have hoccupied : slotOccupied ram 0 = some 0 := by
    rw [h.slotOccupied_eq]
    show Option.filter (fun slot => (m slot).isSome) (some 0) = some 0
    rw [Option.filter_some, hfile]
    rfl
  let x : FileSession fw ram (w.askedFor nr proof) :=
    { request := ⟨0, nr⟩
      slot := 0
      draw := fun _ => 0
      proof := proof
      requested := rfl
      occupied := hoccupied
      drawn := rfl
      answered := rfl
      proved := rfl
      proves := ⟨rfl, rfl, rfl, rfl, root, hroot, rfl⟩
      fresh := hfresh }
  have hgives := x.gives (h.transferContents hgcm hfile) []
  have hstate : ((mainStep fw ⟨.ok, listenMsg, []⟩ uartBuf).exec [] ram (w.askedFor nr proof)).state =
      ((listen fw).exec [] ram (w.askedFor nr proof)).state := by
    rw [mainStep_exec (h := .listen) rfl rfl, handle]
    generalize (listen fw).exec [] ram (w.askedFor nr proof) = res
    cases res <;> rfl
  refine ⟨nr, proof, ⟨.transfer, receiveMsg,
    ReceiveResponse.codec.encode (fileResponse ram x.slot f.contents)⟩, ?_, rfl, rfl,
    ReceiveResponse.codec.length_encode _⟩
  rw [Dev.packets, hstate]
  exact hgives

/-- A new device boots and stores a file, and then one of another group over it. It gives this one
    to the host, and to a peer with a proof for its group. -/
theorem released_group_sample : ∃ uartBuf ram w w' p q,
    Run hsm (mainSystem .copying) SameFlash (StoresReachSlot .copying) .sample
      (.on (uartBuf, ram) w) ∧
    p ∈ (mainStep .copying sampleReadFrame uartBuf).packets [] ram w ∧
    (∃ slot groupId, ReadAllowed .copying ram w.flash (uartBuf.write 0 sampleReadFrame.body 6) slot p ∧
      (headerAt w.flash slot).groupMask = groupId.toUInt32 ∧
      validatePermission .copying groupId .permRead = true) ∧
    Run hsm (mainSystem .copying) SameFlash (StoresReachSlot .copying) .sample
      (.on (uartBuf, ram) w') ∧
    q ∈ (mainStep .copying ⟨.ok, listenMsg, []⟩ uartBuf).packets [] ram w' ∧
    ∃ x : FileSession .copying ram w', x.Sends q ∧
      (headerAt w'.flash x.slot).groupMask = x.proof.groupId.toUInt32 := by
  obtain ⟨hash, hhash⟩ := copying_provisionedHash
  have hknown : (Policy.ofBuild .copying hash).knows (ascii "a1b2c3") = true :=
    beq_iff_eq.mpr (provisionedHash_eq hhash).2
  obtain ⟨ram₀, w₀, hboots, hempty⟩ := sample_boots hhash
  obtain ⟨f, ram₁, w₁, hfirst, -, hrep₁⟩ := hempty.storesSample Firmware.copying_gcmLaws hknown
    (fun _ => 0) 2 (by decide) (by decide) (by decide) (by decide) (by decide) (by decide)
  obtain ⟨g, ram, w, hsecond, hgroup, hrep⟩ := hrep₁.storesSample Firmware.copying_gcmLaws hknown _ 1
    (by decide) (by decide) (by decide) (by decide) (by decide) (by decide)
  have hrun := (hboots.step hfirst).step hsecond
  have hfile : Function.update (Function.update FileMap.empty 0 (some f)) 0 (some g) 0 = some g :=
    Function.update_self _ _ _
  have hperm : validatePermission .copying g.groupId .permRead = true := by
    rw [hgroup]
    decide
  have hp := hrep.readsSample Firmware.copying_gcmLaws hknown hfile hperm
  obtain ⟨root, hroot⟩ := Policy.rootSecret hknown
  have hgives := hrep.givesSample Firmware.copying_gcmLaws hroot hfile
  generalize (Mem.write (fun _ => 0) 0 (sampleWriteFrame 2).body).write 0 (sampleWriteFrame 1).body =
    uartBuf at hrun
  obtain ⟨nr, proof, q, hq, hfileq⟩ := hgives uartBuf
  have hright : ∀ slot, EntryRight World.sample.flash slot (nameAt World.sample.flash slot) := by
    intro slot
    rw [nameAt_blank sample_blank]
    exact .erased _ slot
  have hrun' : Run hsm (mainSystem .copying) SameFlash (StoresReachSlot .copying) .sample
      (.on (uartBuf, ram) (w.askedFor nr proof)) := hrun.step (.changes _ rfl)
  exact ⟨uartBuf, ram, w, w.askedFor nr proof, _, q, hrun, hp uartBuf,
    (released_group .copying Firmware.copying_gcmLaws .sample hright uartBuf ram w hrun
      sampleReadFrame [] _ (hp uartBuf)).1 rfl rfl, hrun', hq,
    (released_group .copying Firmware.copying_gcmLaws .sample hright uartBuf ram _ hrun' _ [] q
      hq).2 hfileq⟩

end
