-- SUMMARY: Two devices on a wire that delivers what is sent: their exchanges are runs of sessions.
import HsmFirmware.Specs.Dialogue
import HsmFirmware.Specs.Roles

/-!
# Honest wires

Without an attacker, every packet that is received has been sent before. When two devices have
each a run of its own, and the packets of one answer those of the other, their sessions can go
on side by side on such a wire.
-/

open Sessions (performed)

/-! ## One side -/

namespace Talks

variable {α : Type} {p : Prog Res α} {w w' : World} {es : List LinkEvent} {a : α}

/-- A program without packets runs through local operations. -/
theorem path_nil (h : Talks p w [] a w') :
    ∃ l : History, (∀ x ∈ l, x.1.Local) ∧ Prog.Path p l (.ret a) := by
  generalize hes : ([] : List LinkEvent) = es at h
  induction h with
  | ret a w =>
    refine ⟨[], ?_, .refl _⟩
    intro x hx
    cases hx
  | device ho _ ih =>
    obtain ⟨l, hl, hpath⟩ := ih hes
    exact ⟨_, List.forall_mem_cons.mpr ⟨ho, hl⟩, .step _ hpath⟩
  | sent | got => cases hes

/-- It comes to the packet it sends next. -/
theorem path_sent {type : MsgType} {payload : Bytes} (h : Talks p w (.sent type payload :: es) a w') :
    ∃ (l : History) (q : Prog Res α) (u : World), (∀ x ∈ l, x.1.Local) ∧
      Prog.Path p (l ++ [sentPacket type payload]) q ∧ Talks q u es a w' := by
  generalize hes : LinkEvent.sent type payload :: es = es' at h
  induction h with
  | ret => cases hes
  | device ho _ ih =>
    obtain ⟨l, q, u, hl, hpath, htalks⟩ := ih hes
    exact ⟨_, q, u, List.forall_mem_cons.mpr ⟨ho, hl⟩, .step _ hpath, htalks⟩
  | @sent _ _ k _ _ _ _ _ _ h =>
    cases hes
    refine ⟨[], k .ok, _, ?_, .step _ (.refl _), h⟩
    intro x hx
    cases hx
  | got => cases hes

/-- It comes to the packet it receives next. -/
theorem path_got {type : MsgType} {payload : Bytes} (h : Talks p w (.got type payload :: es) a w') :
    ∃ (l : History) (capacity : Nat) (q : Prog Res α) (u : World), (∀ x ∈ l, x.1.Local) ∧
      Prog.Path p (l ++ [gotPacket capacity type payload]) q ∧ Talks q u es a w' := by
  generalize hes : LinkEvent.got type payload :: es = es' at h
  induction h with
  | ret => cases hes
  | device ho _ ih =>
    obtain ⟨l, capacity, q, u, hl, hpath, htalks⟩ := ih hes
    exact ⟨_, capacity, q, u, List.forall_mem_cons.mpr ⟨ho, hl⟩, .step _ hpath, htalks⟩
  | sent => cases hes
  | @got _ _ capacity k _ _ _ _ _ _ h =>
    cases hes
    refine ⟨[], capacity, k _, _, ?_, .step _ (.refl _), h⟩
    intro x hx
    cases hx

end Talks

/-! ## The wire -/

section

variable {ι : Type}

/-- Every packet that is received has been sent before. -/
def HonestWire (t : List (DeviceEvent ι)) : Prop :=
  ∀ (k n capacity : Nat) (cmd : MsgType) (payload : Bytes),
    t[k]? = some (.answer n (gotPacket capacity cmd payload).1 (gotPacket capacity cmd payload).2) →
    ∃ j < k, ∃ n', t[j]? = some (.issue n' (.send .transfer cmd payload))

theorem HonestWire.nil : HonestWire ([] : List (DeviceEvent ι)) := by
  intro k n capacity cmd payload h
  cases h

/-- One more event. -/
theorem HonestWire.concat {t : List (DeviceEvent ι)} (h : HonestWire t) {e : DeviceEvent ι}
    (he : ∀ n capacity cmd payload,
      e = .answer n (gotPacket capacity cmd payload).1 (gotPacket capacity cmd payload).2 →
      ∃ n', .issue n' (.send .transfer cmd payload) ∈ t) : HonestWire (t ++ [e]) := by
  intro k n capacity cmd payload hk
  obtain hk | ⟨rfl, rfl⟩ := Sessions.getElem?_concat.mp hk
  · obtain ⟨j, hj, n', hissue⟩ := h k n capacity cmd payload hk
    exact ⟨j, hj, n', Sessions.getElem?_append_of hissue⟩
  · obtain ⟨n', hmem⟩ := he n capacity cmd payload rfl
    obtain ⟨j, hissue⟩ := List.mem_iff_getElem?.mp hmem
    exact ⟨j, Sessions.lt_length_of_getElem? hissue, n', Sessions.getElem?_append_of hissue⟩

theorem HonestWire.append {t t' : List (DeviceEvent ι)} (h : HonestWire t)
    (ht' : ∀ e ∈ t', ∀ n capacity cmd payload,
      e = .answer n (gotPacket capacity cmd payload).1 (gotPacket capacity cmd payload).2 →
      ∃ n', .issue n' (.send .transfer cmd payload) ∈ t) : HonestWire (t ++ t') := by
  induction t' generalizing t with
  | nil => rwa [List.append_nil]
  | cons e t' ih =>
    rw [← List.singleton_append, ← List.append_assoc]
    apply ih (h.concat (ht' e List.mem_cons_self))
    intro e' he' n capacity cmd payload heq
    obtain ⟨n', hmem⟩ := ht' e' (List.mem_cons_of_mem e he') n capacity cmd payload heq
    exact ⟨n', List.mem_append_left _ hmem⟩

/-- Local operations do not matter, nor do packets sent. -/
theorem HonestWire.performed {t : List (DeviceEvent ι)} (h : HonestWire t) {n : Nat} {l : History}
    (hl : ∀ x ∈ l, x.1.Local ∨ ∃ cmd payload, x = sentPacket cmd payload) :
    HonestWire (t ++ performed n l) := by
  apply h.append
  rintro e he m capacity cmd payload rfl
  obtain ⟨x, hx, heq | heq⟩ := Sessions.mem_performed.mp he
  · cases heq
  · obtain hlocal | ⟨cmd', payload', rfl⟩ := hl x hx
    · injection heq with hn ho
      rw [← ho] at hlocal
      cases hlocal
    · injection heq with hn ho
      cases ho

/-- The packets that a part of a trace sends and receives are those of a conversation. -/
structure Carries (t : List (DeviceEvent ι)) (es : List LinkEvent) : Prop where
  only : ∀ n cmd payload, .issue n (.send .transfer cmd payload) ∈ t →
    .sent cmd payload ∈ es ∨ .got cmd payload ∈ es
  all : ∀ cmd payload, .sent cmd payload ∈ es ∨ .got cmd payload ∈ es →
    ∃ n, .issue n (.send .transfer cmd payload) ∈ t

theorem Carries.append {t t' : List (DeviceEvent ι)} {es es' : List LinkEvent} (h : Carries t es)
    (h' : Carries t' es') : Carries (t ++ t') (es ++ es') where
  only n cmd payload hmem := by
    obtain hmem | hmem := List.mem_append.mp hmem
    · exact (h.only n cmd payload hmem).imp (List.mem_append_left _) (List.mem_append_left _)
    · exact (h'.only n cmd payload hmem).imp (List.mem_append_right _) (List.mem_append_right _)
  all cmd payload hmem := by
    simp only [List.mem_append] at hmem
    obtain (hmem | hmem) | (hmem | hmem) := hmem
    · exact (h.all cmd payload (.inl hmem)).imp fun n hn => List.mem_append_left _ hn
    · exact (h'.all cmd payload (.inl hmem)).imp fun n hn => List.mem_append_right _ hn
    · exact (h.all cmd payload (.inr hmem)).imp fun n hn => List.mem_append_left _ hn
    · exact (h'.all cmd payload (.inr hmem)).imp fun n hn => List.mem_append_right _ hn

/-- A packet is the same on both sides. -/
theorem Carries.dual {t : List (DeviceEvent ι)} {e : LinkEvent} (h : Carries t [e]) :
    Carries t [e.dual] := by
  have hiff : ∀ cmd payload, (LinkEvent.sent cmd payload ∈ [e.dual] ∨
      LinkEvent.got cmd payload ∈ [e.dual]) ↔
        (LinkEvent.sent cmd payload ∈ [e] ∨ LinkEvent.got cmd payload ∈ [e]) := by
    intro cmd payload
    cases e <;> simp [LinkEvent.dual]
  refine ⟨fun n cmd payload hmem => ?_, fun cmd payload hmem => ?_⟩
  · exact (hiff cmd payload).mpr (h.only n cmd payload hmem)
  · exact h.all cmd payload ((hiff cmd payload).mp hmem)

/-- What a session performs besides one packet does not send. -/
theorem issue_mem_performed {n m : Nat} {l : History} {cmd : MsgType} {payload : Bytes}
    (h : .issue m (.send .transfer cmd payload) ∈ (performed n l : List (DeviceEvent ι))) :
    n = m ∧ ∃ r, (⟨.send .transfer cmd payload, r⟩ : Prog.Act Res) ∈ l := by
  obtain ⟨⟨o, r⟩, hx, heq | heq⟩ := Sessions.mem_performed.mp h
  · injection heq with hm ho
    subst hm ho
    exact ⟨rfl, r, hx⟩
  · cases heq

theorem Carries.local {n : Nat} {l : History} (hl : ∀ x ∈ l, x.1.Local) :
    Carries (performed n l : List (DeviceEvent ι)) [] where
  only m cmd payload hmem := by
    obtain ⟨-, r, hr⟩ := issue_mem_performed hmem
    cases hl _ hr
  all cmd payload hmem := by
    obtain hmem | hmem := hmem <;> cases hmem

/-- No session starts in this part of a trace. -/
def Unstarted (t : List (DeviceEvent ι)) : Prop := ∀ i frame s, .start i frame s ∉ t

theorem Unstarted.append {t t' : List (DeviceEvent ι)} (h : Unstarted t) (h' : Unstarted t') :
    Unstarted (t ++ t') := by
  intro i frame s hmem
  obtain hmem | hmem := List.mem_append.mp hmem
  · exact h i frame s hmem
  · exact h' i frame s hmem

theorem unstarted_performed (n : Nat) (l : History) :
    Unstarted (performed n l : List (DeviceEvent ι)) :=
  fun _ _ _ => Sessions.start_not_mem_performed

variable [DecidableEq ι] {fw : ι → Firmware} {g : ι → Sessions.Agent (Mem × Ram) Res}
  {t : List (DeviceEvent ι)} {i j : ι} {n m : Nat} {p q : Prog Res (Mem × Ram)}

/-- One packet passes from one device to the other. -/
theorem pass_packet (run : Sessions.Run (deviceCode fw) ⟨g, t⟩) (hwire : HonestWire t)
    (hij : j ≠ i) (hi : g i = .ready n p) (hj : g j = .ready m q) {l l' : History}
    {capacity : Nat} {cmd : MsgType} {payload : Bytes} {p' q' : Prog Res (Mem × Ram)}
    (hl : ∀ x ∈ l, x.1.Local) (hl' : ∀ x ∈ l', x.1.Local)
    (hp : Prog.Path p (l ++ [sentPacket cmd payload]) p')
    (hq : Prog.Path q (l' ++ [gotPacket capacity cmd payload]) q') :
    ∃ T, Sessions.Run (deviceCode fw)
        ⟨Function.update (Function.update g i (.ready n p')) j (.ready m q'), t ++ T⟩ ∧
      HonestWire (t ++ T) ∧ Carries T [.sent cmd payload] ∧ Unstarted T := by
  have hrun := (run.perform hi hp).perform
    (by rw [Function.update_of_ne hij]; exact hj) hq
  refine ⟨performed n (l ++ [sentPacket cmd payload]) ++
    performed m (l' ++ [gotPacket capacity cmd payload]), ?_, ?_, ?_,
    (unstarted_performed _ _).append (unstarted_performed _ _)⟩
  · rwa [← List.append_assoc]
  · rw [← List.append_assoc]
    have hsent : HonestWire (t ++ performed n (l ++ [sentPacket cmd payload])) := by
      apply hwire.performed
      intro x hx
      obtain hx | hx := List.mem_append.mp hx
      · exact .inl (hl x hx)
      · exact .inr ⟨cmd, payload, List.mem_singleton.mp hx⟩
    apply hsent.append
    rintro e he n' capacity' cmd' payload' rfl
    refine ⟨n, List.mem_append_right _ (Sessions.mem_performed.mpr
      ⟨sentPacket cmd' payload', ?_, .inl rfl⟩)⟩
    obtain ⟨x, hx, heq | heq⟩ := Sessions.mem_performed.mp he
    · cases heq
    obtain hx | hx := List.mem_append.mp hx
    · injection heq with _ ho
      have hlocal := hl' x hx
      rw [← ho] at hlocal
      cases hlocal
    · cases List.mem_singleton.mp hx
      cases heq
      exact List.mem_append_right _ (List.mem_singleton_self _)
  · refine ⟨fun n' cmd' payload' hmem => ?_, fun cmd' payload' hmem => ?_⟩
    · left
      obtain hmem | hmem := List.mem_append.mp hmem
      · obtain ⟨-, r, hr⟩ := issue_mem_performed hmem
        obtain hr | hr := List.mem_append.mp hr
        · cases hl _ hr
        · cases List.mem_singleton.mp hr
          exact List.mem_singleton_self _
      · obtain ⟨-, r, hr⟩ := issue_mem_performed hmem
        obtain hr | hr := List.mem_append.mp hr
        · cases hl' _ hr
        · cases List.mem_singleton.mp hr
    · obtain hmem | hmem := hmem
      · cases List.mem_singleton.mp hmem
        exact ⟨n, List.mem_append_left _ (Sessions.mem_performed.mpr
          ⟨sentPacket cmd payload, List.mem_append_right _ (List.mem_singleton_self _), .inl rfl⟩)⟩
      · cases List.mem_singleton.mp hmem

/-- Two devices with runs that answer each other go through their conversation. -/
theorem Talks.exchange {es : List LinkEvent} {w w' v v' : World} {a b : Mem × Ram}
    (run : Sessions.Run (deviceCode fw) ⟨g, t⟩) (hwire : HonestWire t) (hij : i ≠ j)
    (hi : g i = .ready n p) (hj : g j = .ready m q) (hp : Talks p w es a w')
    (hq : Talks q v (es.map LinkEvent.dual) b v') :
    ∃ g' T, Sessions.Run (deviceCode fw) ⟨g', t ++ T⟩ ∧ HonestWire (t ++ T) ∧ Carries T es ∧
      Unstarted T := by
  induction es generalizing g t p q w v with
  | nil =>
    obtain ⟨l, hl, hpath⟩ := hp.path_nil
    obtain ⟨l', hl', hpath'⟩ := hq.path_nil
    have hrun := (run.perform hi hpath).perform
      (by rw [Function.update_of_ne hij.symm]; exact hj) hpath'
    rw [List.append_assoc] at hrun
    refine ⟨_, _, hrun, ?_, (Carries.local hl).append (.local hl'),
      (unstarted_performed _ _).append (unstarted_performed _ _)⟩
    rw [← List.append_assoc]
    exact (hwire.performed fun x hx => .inl (hl x hx)).performed fun x hx => .inl (hl' x hx)
  | cons e es ih =>
    have hrest : ∀ {p' q' u u' T},
        Sessions.Run (deviceCode fw)
          ⟨Function.update (Function.update g i (.ready n p')) j (.ready m q'), t ++ T⟩ →
        HonestWire (t ++ T) → Carries T [e] → Unstarted T → Talks p' u es a w' →
        Talks q' u' (es.map LinkEvent.dual) b v' →
        ∃ g' T, Sessions.Run (deviceCode fw) ⟨g', t ++ T⟩ ∧ HonestWire (t ++ T) ∧
          Carries T (e :: es) ∧ Unstarted T := by
      intro p' q' u u' T hrun hwire' hcarries hunstarted htalks htalks'
      obtain ⟨g', T', hrun', hwire'', hcarries', hunstarted'⟩ := ih hrun hwire'
        (by rw [Function.update_of_ne hij, Function.update_self]) (Function.update_self _ _ _)
        htalks htalks'
      rw [List.append_assoc] at hrun' hwire''
      exact ⟨g', T ++ T', hrun', hwire'', hcarries.append hcarries',
        hunstarted.append hunstarted'⟩
    cases e with
    | sent cmd payload =>
      obtain ⟨l, p', u, hl, hpath, htalks⟩ := hp.path_sent
      obtain ⟨l', capacity, q', u', hl', hpath', htalks'⟩ := Talks.path_got hq
      obtain ⟨T, hrun, hwire', hcarries, hunstarted⟩ :=
        pass_packet run hwire hij.symm hi hj hl hl' hpath hpath'
      exact hrest hrun hwire' hcarries hunstarted htalks htalks'
    | got cmd payload =>
      obtain ⟨l, capacity, p', u, hl, hpath, htalks⟩ := hp.path_got
      obtain ⟨l', q', u', hl', hpath', htalks'⟩ := Talks.path_sent hq
      obtain ⟨T, hrun, hwire', hcarries, hunstarted⟩ :=
        pass_packet run hwire hij hj hi hl' hl hpath' hpath
      rw [Function.update_comm hij.symm] at hrun
      exact hrest hrun hwire' hcarries.dual hunstarted htalks htalks'

/-- An iteration of the main loop talks as its handler does. -/
theorem mainStep_talks {fw : Firmware} {frame : HostFrame} {h : Handler} {uartBuf : Mem}
    {ram ram' : Ram} {w w' : World} {es : List LinkEvent} {rc : Int} (hstatus : frame.status = .ok)
    (hcmd : releaseHandler frame.cmd = some h)
    (hs : (handle fw h (UInt16.ofNat frame.body.length) (uartBuf.write 0 frame.body)).Says ram w es
      rc ram' w') :
    (mainStep fw frame uartBuf).Says ram w es (uartBuf.write 0 frame.body) ram' w' := by
  have hthen : ∀ {α β : Type} {k : Dev α} {a : α} (b : β), k.Says ram w es a ram' w' →
      (k >>= fun _ => pure b).Says ram w es b ram' w' := by
    intro α β k a b hk
    have hbind := Dev.Says.bind (f := fun _ => pure b) hk (.pure b ram' w')
    rwa [List.append_nil] at hbind
  rw [mainStep]
  apply hthen
  rw [dispatch, if_neg (not_not_intro hstatus), hcmd]
  exact hthen () hs

/-- Two idle devices whose hosts start handlers that answer each other. -/
theorem handlers_exchange {frame frame' : HostFrame} {h h' : Handler} {s s' : Mem × Ram}
    {ram ram' : Ram} {w w' v v' : World} {es : List LinkEvent} {rc rc' : Int}
    (run : Sessions.Run (deviceCode fw) ⟨g, t⟩) (hwire : HonestWire t) (hij : i ≠ j)
    (hi : g i = .idle s) (hj : g j = .idle s') (hstatus : frame.status = .ok)
    (hstatus' : frame'.status = .ok) (hcmd : releaseHandler frame.cmd = some h)
    (hcmd' : releaseHandler frame'.cmd = some h')
    (hs : (handle (fw i) h (UInt16.ofNat frame.body.length) (s.1.write 0 frame.body)).Says s.2 w es
      rc ram w')
    (hs' : (handle (fw j) h' (UInt16.ofNat frame'.body.length) (s'.1.write 0 frame'.body)).Says
      s'.2 v (es.map LinkEvent.dual) rc' ram' v') :
    ∃ g' T, Sessions.Run (deviceCode fw) ⟨g', t ++ T⟩ ∧ HonestWire (t ++ T) ∧ Carries T es ∧
      ∃ T', T = .start i frame s :: .start j frame' s' :: T' ∧ Unstarted T' := by
  have hstart := (run.step (.start i frame s hi)).step
    (.start j frame' s' (by rw [Function.update_of_ne hij.symm]; exact hj))
  have hquiet : HonestWire (t ++ [.start i frame s] ++ [.start j frame' s']) := by
    apply (hwire.concat _).concat
    · intro n capacity cmd payload heq
      cases heq
    · intro n capacity cmd payload heq
      cases heq
  obtain ⟨g', T, hrun, hwire', hcarries, hunstarted⟩ := Talks.exchange hstart hquiet hij
    (by rw [Function.update_of_ne hij, Function.update_self]; rfl) (Function.update_self _ _ _)
    (mainStep_talks hstatus hcmd hs) (mainStep_talks hstatus' hcmd' hs')
  have hstarts : Carries [.start i frame s, .start j frame' s'] [] := by
    constructor
    · intro n cmd payload hmem
      simp at hmem
    · intro cmd payload hmem
      simp at hmem
  simp only [List.append_assoc] at hrun hwire'
  exact ⟨g', _, hrun, hwire', hstarts.append hcarries, T, rfl, hunstarted⟩

end
