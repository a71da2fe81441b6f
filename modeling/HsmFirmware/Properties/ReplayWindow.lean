-- SUMMARY: The replay cache is an exact window of the last eight tuples accepted since it was cleared.
import HsmFirmware.Library.RingBuffer
import HsmFirmware.Specs.Listen
import HsmFirmware.Firmware.Release

/-!
# The replay cache

A run calls the two functions of the cache in any order, and keeps a list of the tuples accepted
since the cache was last cleared. The ring of `secure_design.c` shows this list, as far back as
it goes.
-/

/-- What a session is known by. -/
structure ReplayTuple where
  nr : UInt32
  nt : UInt32
  groupId : UInt16
  op : UInt8
  deriving DecidableEq

/-- `security_secure_uart_check_and_update_replay`, for a tuple. -/
def ReplayTuple.check (t : ReplayTuple) : Dev Bool :=
  securitySecureUartCheckAndUpdateReplay t.nr t.nt t.groupId t.op

/-- The tuple of a valid entry. -/
def ReplayEntry.tuple (e : ReplayEntry) : Option ReplayTuple :=
  if e.valid then some ⟨e.nr, e.nt, e.groupId, e.op⟩ else none

theorem ReplayEntry.isFor_iff (e : ReplayEntry) (t : ReplayTuple) :
    e.isFor t.nr t.nt t.groupId t.op = true ↔ e.tuple = some t := by
  obtain ⟨nr, nt, groupId, op, valid⟩ := e
  obtain ⟨nr', nt', groupId', op'⟩ := t
  cases valid <;> simp [isFor, tuple, and_assoc]

/-- The cache as a ring. -/
def Ram.replayRing (ram : Ram) : RingBuffer ReplayTuple 8 where
  cells i := (ram.gReplayCache i).tuple
  next := ram.gReplayNext

theorem Ram.replayed_iff (ram : Ram) (t : ReplayTuple) :
    ram.Replayed t.nr t.nt t.groupId t.op ↔ ram.replayRing.Has t :=
  exists_congr fun i => (ram.gReplayCache i).isFor_iff t

theorem Ram.replayRing_remember (ram : Ram) (t : ReplayTuple) :
    (ram.remember t.nr t.nt t.groupId t.op).replayRing = ram.replayRing.push t := by
  unfold remember replayRing RingBuffer.push
  congr
  funext i
  by_cases hi : i = ram.gReplayNext
  · subst hi
    simp [ReplayEntry.tuple]
  · simp [hi]

/-- Calls to the cache from reset on. The list has the tuples accepted since the cache was last
    cleared, the newest first. Between the calls, the firmware may change what else is in RAM. -/
inductive CacheRun : List ReplayTuple → Ram → Prop where
  | reset : CacheRun [] Ram.reset
  | elsewhere {l ram ram'} (before : CacheRun l ram)
      (hcache : ram'.gReplayCache = ram.gReplayCache) (hnext : ram'.gReplayNext = ram.gReplayNext) :
      CacheRun l ram'
  | clear {l ram ram' fs w w' L fs'} (before : CacheRun l ram)
      (hclear : securitySecureUartClearReplayCache.exec fs ram w = .done ((), ram') w' L fs') :
      CacheRun [] ram'
  | accepted {l ram ram' fs w w' L fs'} {t : ReplayTuple} (before : CacheRun l ram)
      (hcheck : t.check.exec fs ram w = .done (true, ram') w' L fs') : CacheRun (t :: l) ram'
  | rejected {l ram ram' fs w w' L fs'} {t : ReplayTuple} (before : CacheRun l ram)
      (hcheck : t.check.exec fs ram w = .done (false, ram') w' L fs') : CacheRun l ram'

/-- The ring shows the tuples accepted, and the last eight of them differ. -/
structure CacheHolds (l : List ReplayTuple) (ram : Ram) : Prop where
  shows : ram.replayRing.Shows l
  nodup : (l.take 8).Nodup

theorem CacheHolds.empty {ram : Ram} (h : ram.gReplayCache = fun _ => ⟨0, 0, 0, 0, false⟩) :
    CacheHolds [] ram where
  shows := by
    apply RingBuffer.shows_nil
    intro i
    unfold Ram.replayRing
    rw [h]
    rfl
  nodup := List.nodup_nil

/-- A call to the cache answers by the window, and the ring goes on to show what was accepted. -/
theorem CacheHolds.check {l : List ReplayTuple} {ram : Ram} (h : CacheHolds l ram)
    (t : ReplayTuple) (fs : Schedule) (w : World) :
    t ∈ l.take 8 ∧ t.check.exec fs ram w = .done (false, ram) w [] fs ∨
      t ∉ l.take 8 ∧ ∃ ram', t.check.exec fs ram w = .done (true, ram') w [] fs ∧
        CacheHolds (t :: l) ram' := by
  have hiff : ram.Replayed t.nr t.nt t.groupId t.op ↔ t ∈ l.take 8 :=
    (ram.replayed_iff t).trans h.shows.has_iff
  have hexec := exec_checkReplay t.nr t.nt t.groupId t.op fs ram w
  by_cases hmem : t ∈ l.take 8
  · rw [if_pos (hiff.mpr hmem)] at hexec
    exact .inl ⟨hmem, hexec⟩
  · rw [if_neg (mt hiff.mp hmem)] at hexec
    refine .inr ⟨hmem, _, hexec, ?_, RingBuffer.nodup_take_cons h.nodup hmem⟩
    rw [ram.replayRing_remember t]
    exact h.shows.push t

theorem CacheRun.holds {l : List ReplayTuple} {ram : Ram} (h : CacheRun l ram) :
    CacheHolds l ram := by
  induction h with
  | reset => exact CacheHolds.empty rfl
  | @elsewhere l ram ram' before hcache hnext ih =>
    have hring : ram'.replayRing = ram.replayRing := by
      unfold Ram.replayRing
      rw [hcache, hnext]
    exact ⟨hring ▸ ih.shows, ih.nodup⟩
  | clear before hclear ih =>
    cases hclear
    exact CacheHolds.empty rfl
  | @accepted l ram ram' fs w w' L fs' t before hcheck ih =>
    obtain ⟨-, hexec⟩ | ⟨-, ram'', hexec, h⟩ := ih.check t fs w
    · cases hexec.symm.trans hcheck
    · cases hexec.symm.trans hcheck
      exact h
  | @rejected l ram ram' fs w w' L fs' t before hcheck ih =>
    obtain ⟨-, hexec⟩ | ⟨-, ram'', hexec, h⟩ := ih.check t fs w
    · cases hexec.symm.trans hcheck
      exact ih
    · cases hexec.symm.trans hcheck

/-- A tuple is rejected exactly if it is among the last eight accepted, or all of them if they
    are fewer, since the last clear. Rejecting it changes nothing. No tuple is cached twice. -/
theorem replayCache_exactWindow {l : List ReplayTuple} {ram : Ram} (run : CacheRun l ram) :
    ram.replayRing.Distinct ∧
      ∀ t : ReplayTuple, ∀ fs w, ∃ fresh ram', t.check.exec fs ram w = .done (fresh, ram') w [] fs ∧
        (fresh = false ↔ t ∈ l.take (min 8 l.length)) ∧ (fresh = false → ram' = ram) := by
  have h := run.holds
  refine ⟨h.shows.distinct h.nodup, ?_⟩
  intro t fs w
  have hmin : l.take (min 8 l.length) = l.take 8 := by
    rw [← List.take_take, List.take_length]
  rw [hmin]
  obtain ⟨hmem, hexec⟩ | ⟨hmem, ram', hexec, -⟩ := h.check t fs w
  · exact ⟨false, ram, hexec, by simp [hmem], fun _ => rfl⟩
  · exact ⟨true, ram', hexec, by simp [hmem], fun hfalse => nomatch hfalse⟩

/-- Tuples that differ can all be accepted, one after the other. -/
theorem CacheRun.exists_accepting (l : List ReplayTuple) (hl : l.Nodup) : ∃ ram, CacheRun l ram := by
  induction l with
  | nil => exact ⟨_, .reset⟩
  | cons t l ih =>
    obtain ⟨hmem, hl⟩ := List.nodup_cons.mp hl
    obtain ⟨ram, run⟩ := ih hl
    obtain ⟨h, -⟩ | ⟨-, ram', hexec, -⟩ := run.holds.check t [] .sample
    · exact (hmem (List.mem_of_mem_take h)).elim
    · exact ⟨ram', .accepted run hexec⟩

/-- Nine sessions, the newest first. -/
def sampleSessions : List ReplayTuple := (List.range 9).map fun n => ⟨.ofNat n, 0, 1, 2⟩

/-- Nine sessions, so that the first one has left the window. -/
theorem replayCache_exactWindow_sample :
    ∃ ram, CacheRun sampleSessions ram ∧ ram.replayRing.Distinct ∧
      ∀ t : ReplayTuple, ∀ fs w, ∃ fresh ram', t.check.exec fs ram w = .done (fresh, ram') w [] fs ∧
        (fresh = false ↔ t ∈ sampleSessions.take (min 8 sampleSessions.length)) ∧
        (fresh = false → ram' = ram) := by
  obtain ⟨ram, run⟩ := CacheRun.exists_accepting sampleSessions (by decide)
  exact ⟨ram, run, replayCache_exactWindow run⟩
