-- SUMMARY: When a requester recognises a denial: only a denial that answers its proof, not one that answers its request.
import HsmFirmware.Specs.Outcomes
import HsmFirmware.Specs.PartialRecord
import HsmFirmware.Properties.Exchange

/-!
# Denied transfers

Every error packet of `listen` has the same text, of 21 bytes. The first read of `receive` has
room for a challenge of 11 bytes, the second one for a file. A denial that answers the request is
too long for the first read: it is taken for a device that does not respond, and its text stays
on the link. A denial that answers the proof is recognised.
-/

section

variable {α β : Type} {ram ram' : Ram} {fs fs' : Faults} {w v : World}

/-! ## Recognition -/

/-- The two handlers come to where the left one waits for an answer and the right one sends it
    an error packet. -/
def AnswersWithError (h : Dev α) (ram : Ram) (fs : Faults) (w : World) (h' : Dev β) (ram' : Ram)
    (fs' : Faults) (v : World) : Prop :=
  ∃ es capacity k w₁ payload e v₁,
    h.Comes ram fs w es (.call (.recv .transfer capacity) k) w₁ ∧
    h'.Comes ram' fs' v (es.map LinkEvent.dual) (.call (.send .transfer errorMsg payload) e) v₁

/-- Both commands return, the left one with a denial as its last word to the host, and no byte
    of a packet for it is left on the link. -/
structure RecognisesDenial (n : LinkNet α β) : Prop where
  returns : ∀ u, LinkReaches n u → ∃ t, LinkReaches u t ∧ Returned t
  told : ∀ t, LinkReaches n t → Returned t →
    t.left.1.sent.getLast? = some (errorPacket "Could not import file\n")
  consumed : ∀ t, LinkReaches n t → Returned t → t.toLeft = .empty

theorem recognisesDenial_iff {n : LinkNet α β} {msg : String} {a : α} {b : β} {x y : Bytes}
    (h : LinkSettles n ⟨(w.answered (errorPacket msg), .ret a), (v, .ret b), ⟨[], x⟩, ⟨[], y⟩⟩) :
    RecognisesDenial n ↔ errorPacket msg = errorPacket "Could not import file\n" ∧ y = [] := by
  have hlast : (w.answered (errorPacket msg)).sent.getLast? = some (errorPacket msg) :=
    List.getLast?_concat
  constructor
  · intro hrec
    have htold := hrec.told _ h.reaches ⟨⟨_, a, rfl⟩, v, b, rfl⟩
    have hconsumed := hrec.consumed _ h.reaches ⟨⟨_, a, rfl⟩, v, b, rfl⟩
    exact ⟨Option.some.inj (hlast.symm.trans htold), congrArg Channel.arrived hconsumed⟩
  · rintro ⟨hmsg, rfl⟩
    refine ⟨fun u hu => ⟨_, h.completes hu, ⟨_, a, rfl⟩, v, b, rfl⟩, fun t ht hreturned => ?_,
      fun t ht hreturned => ?_⟩
    · rw [← hreturned.keeps_left (h.completes ht)]
      exact hlast.trans (congrArg some hmsg)
    · exact Channel.eq_empty_of_content (hreturned.keeps (h.completes ht)).2.symm

/-- What a program without UART1 comes to is without it. -/
theorem TalksTo.performs {p q : Prog Res α} {u : World} {es : List LinkEvent}
    (h : TalksTo p w es q u) (hp : p.Performs Op.Local) : q.Performs Op.Local := by
  induction h with
  | refl => exact hp
  | device _ _ ih => exact ih (hp.2 _)
  | sent | got => cases hp.1

/-- Two handlers that answer each other without an error packet until the left one has done
    with the link. -/
theorem not_answersWithError {h : Dev α} {h' : Dev β} {es : List LinkEvent}
    {p : Prog Res (α × Ram)} {q : Prog Res (β × Ram)} {w₁ v₁ : World}
    (hp : h.Comes ram fs w es p w₁) (hq : h'.Comes ram' fs' v (es.map LinkEvent.dual) q v₁)
    (hlocal : p.Performs Op.Local) (herr : ∀ payload, LinkEvent.got errorMsg payload ∉ es) :
    ¬ AnswersWithError h ram fs w h' ram' fs' v := by
  rintro ⟨es₂, capacity, k, w₂, payload, e, v₂, hp₂, hq₂⟩
  have hcases : (∃ rest, es₂ = es ++ rest) ∨ ∃ x rest, es = es₂ ++ x :: rest := by
    rcases TalksTo.comparable hp hq hp₂ hq₂ with ⟨rest, hrest⟩ | ⟨rest, hrest⟩
    · exact .inl ⟨rest, hrest.symm⟩
    · cases rest with
      | nil => exact .inl ⟨[], by simpa using hrest⟩
      | cons x rest => exact .inr ⟨x, rest, hrest.symm⟩
  obtain ⟨rest, rfl⟩ | ⟨x, rest, rfl⟩ := hcases
  · rcases TalksTo.compare hp hp₂ with hto | ⟨-, hto⟩
    · cases (hto.performs hlocal).1
    · cases hto with
      | refl => cases hlocal.1
      | device ho => cases ho
  · rw [List.map_append, List.map_cons] at hq
    obtain ⟨type, text, rfl, -⟩ := TalksTo.recv_next hp₂ hp
    obtain ⟨hx, -⟩ := TalksTo.send_next hq₂ hq
    obtain ⟨rfl, rfl⟩ := LinkEvent.sent.inj hx
    exact herr text (List.mem_append_right _ (List.mem_cons_self ..))

/-- The left device goes on without the link. -/
theorem TalksTo.meets_left {p q : Prog Res α} {u : World} {s : World × Link β}
    {c d : Channel UInt8} (h : TalksTo p w [] q u) :
    Meets ⟨(w, onLink p), s, c, d⟩ ⟨(u, onLink q), s, c, d⟩ :=
  Net.Reaches.swap (n := ⟨s, (w, onLink p), d, c⟩) h.meets_local

/-! ## Denials taken and missed -/

variable {k : Received → Dev Int} {capacity : Nat} {h' : Dev β} {msg : String}

theorem reject_comes (msg : String) (ram : Ram) (fs : Faults) (w : World) :
    (reject msg).Comes ram fs w [] (.ret (-1, ram)) (w.answered (errorPacket msg)) :=
  TalksTo.device (o := .send .control errorMsg (ascii msg)) trivial (.refl _ _)

/-- A denial that fits the buffer of the left device. -/
theorem denied_settles (hdenies : h'.Denies) (hcap : capacity < 65536) (hroom : 256 ≤ capacity)
    (hk : ∀ payload, k (.packet errorMsg payload) = reject msg) :
    ∃ v' b, LinkSettles (exchange (Dev.recv .transfer capacity >>= k) ram fs w h' ram' fs' v)
      ⟨(w.answered (errorPacket msg), .ret (-1, ram)), (v', .ret b), ⟨[], ackBytes ++ ackBytes⟩,
        ⟨[], []⟩⟩ := by
  obtain ⟨payload, e, rfl, hpos, hlen, he⟩ := hdenies
  obtain ⟨v', b, hright⟩ := (he .ok).meets_right (α := Int) ram' fs' v
  refine ⟨v', b, ?_⟩
  apply Net.Settles.of_reaches (meets_denied hpos hlen hcap (hlen.trans hroom))
  rw [hk]
  apply Net.Settles.of_reaches (hright _ _ _)
  exact .of_reaches (reject_comes msg ram fs w).meets_left (settles_returned _ _ _ _ _ _)

/-- A denial that does not fit it. -/
theorem denied_settles_badLen {text : String} (hcap : 0 < capacity)
    (hlong : capacity < (ascii text).length) (hlen : (ascii text).length ≤ 256)
    {e : MsgStatus → Dev β} (he : ∀ rc, (e rc).KeepsPinLocal)
    (hk : k (.failed .badLen) = reject msg) :
    ∃ v' b, LinkSettles (exchange (Dev.recv .transfer capacity >>= k) ram fs w
        (Dev.send .transfer errorMsg (ascii text) >>= e) ram' fs' v)
      ⟨(w.answered (errorPacket msg), .ret (-1, ram)), (v', .ret b), ⟨[], ackBytes⟩,
        ⟨[], ascii text⟩⟩ := by
  obtain ⟨v', b, hright⟩ := (he .ok).meets_right (α := Int) ram' fs' v
  refine ⟨v', b, ?_⟩
  apply Net.Settles.of_reaches (meets_denied_badLen hlen hcap.ne' (by omega) hlong)
  rw [hk]
  apply Net.Settles.of_reaches (hright _ _ _)
  exact .of_reaches (reject_comes msg ram fs w).meets_left (settles_returned _ _ _ _ _ _)

/-! ## Exchanges -/

theorem TalksTo.trans {p q r : Prog Res α} {u x : World} {es es' : List LinkEvent}
    (h : TalksTo p w es q u) (h' : TalksTo q u es' r x) : TalksTo p w (es ++ es') r x := by
  induction h with
  | refl => exact h'
  | device ho _ ih => exact .device ho (ih h')
  | sent hack hlen _ ih => exact .sent hack hlen (ih h')
  | got hcap hfits _ ih => exact .got hcap hfits (ih h')

/-- The packet on the way is taken. -/
theorem Dev.Comes.takesNext {h : Dev α} {k : Received → Dev α} {es : List LinkEvent} {capacity : Nat}
    {ram₁ : Ram} {fs₁ : Faults} {w₁ : World}
    (hl : h.Comes ram fs w es ((Dev.recv .transfer capacity >>= k).under ram₁ fs₁) w₁)
    (type : MsgType) (payload : Bytes) (hcap : capacity < 65536) (hfits : payload.length ≤ capacity) :
    h.Comes ram fs w (es ++ [.got type payload]) ((k (.packet type payload)).under ram₁ fs₁) w₁ :=
  TalksTo.trans hl (Dev.Comes.takes hcap hfits)

/-- Two handlers that start alike, and go on as two others do. -/
theorem Settled.of_comes {h g : Dev α} {h' g' : Dev β} {es : List LinkEvent} {ram₁ ram₁' : Ram}
    {fs₁ fs₁' : Faults} {w₁ v₁ : World} {t : LinkNet (α × Ram) (β × Ram)}
    (hl : h.Comes ram fs w es (g.under ram₁ fs₁) w₁)
    (hr : h'.Comes ram' fs' v (es.map LinkEvent.dual) (g'.under ram₁' fs₁') v₁)
    (ht : LinkSettles (exchange g ram₁ fs₁ w₁ g' ram₁' fs₁' v₁) t) :
    LinkSettles (exchange h ram fs w h' ram' fs' v) t :=
  .of_reaches (hl.meets hr) ht

end

section

variable {fw fw' : Firmware} {ram ram' ram₁ ram₁' : Ram} {fs fs' fs₁ fs₁' : Faults}
  {w v w₁ v₁ : World} {writeSlot : UInt8} {pin : Bytes} {h h' : Dev Int} {es : List LinkEvent}

/-- A denial where the requester waits for the file. -/
theorem response_recognises {g : Dev Int}
    (hl : h.Comes ram fs w es ((Dev.recv .transfer ReceiveResponse.codec.size >>=
      takeResponse fw writeSlot pin).under ram₁ fs₁) w₁)
    (hr : h'.Comes ram' fs' v (es.map LinkEvent.dual) (g.under ram₁' fs₁') v₁) (hg : g.Denies) :
    RecognisesDenial (exchange h ram fs w h' ram' fs' v) := by
  obtain ⟨v', b, hsettles⟩ := @denied_settles Int ram₁ ram₁' fs₁ fs₁' w₁ v₁
    (takeResponse fw writeSlot pin) ReceiveResponse.codec.size g "Could not import file\n" hg
    (by decide) (by decide) fun _ => rfl
  exact (recognisesDenial_iff (Settled.of_comes hl hr hsettles)).mpr ⟨rfl, rfl⟩

/-- A denial where the requester waits for the challenge. -/
theorem challenge_misses {request : ReceiveRequest} {e : MsgStatus → Dev Int}
    (hl : h.Comes ram fs w es ((Dev.recv .transfer ReceiveChallenge.codec.size >>=
      takeChallenge fw request writeSlot pin).under ram₁ fs₁) w₁)
    (hr : h'.Comes ram' fs' v (es.map LinkEvent.dual)
      ((Dev.send .transfer errorMsg (ascii "Could not import file") >>= e).under ram₁' fs₁') v₁)
    (he : ∀ rc, (e rc).KeepsPinLocal) :
    ¬ RecognisesDenial (exchange h ram fs w h' ram' fs' v) := by
  obtain ⟨v', b, hsettles⟩ := @denied_settles_badLen Int ram₁ ram₁' fs₁ fs₁' w₁ v₁
    (takeChallenge fw request writeSlot pin) ReceiveChallenge.codec.size
    "No response from target HSM\n" "Could not import file" (by decide) (by decide) (by decide)
    e he rfl
  intro hrec
  have hnil := ((recognisesDenial_iff (Settled.of_comes hl hr hsettles)).mp hrec).2
  revert hnil
  decide

/-- Behind the challenge every denial is recognised. -/
theorem challenge_recognises {request : ReceiveRequest} {challenge : ReceiveChallenge} {slot : Slot}
    (hslot : challenge.slot = request.slot) (hnonce : challenge.requesterNonce = request.requesterNonce)
    (hl : h.Comes ram fs w es ((takeChallenge fw request writeSlot pin (.packet receiveMsg
      (ReceiveChallenge.codec.encode challenge))).under ram₁ fs₁) w₁)
    (hr : h'.Comes ram' fs' v (es.map LinkEvent.dual) ((Dev.recv .transfer ReceiveProof.codec.size >>=
      takeReceiveProof fw' challenge slot).under ram₁' fs₁') v₁)
    (herr : ∀ payload, LinkEvent.got errorMsg payload ∉ es)
    (hanswers : AnswersWithError h ram fs w h' ram' fs' v) :
    RecognisesDenial (exchange h ram fs w h' ram' fs' v) := by
  have hsilent : ∀ {g : Dev Int}, g.KeepsPinLocal →
      ¬ h.Comes ram fs w es (g.under ram₁ fs₁) w₁ := fun hg hl =>
    not_answersWithError hl hr (Machine.performs_under (hg ram₁).performs fs₁) herr hanswers
  by_cases hperm : validatePermission fw challenge.groupId .permReceive = true
  swap
  · obtain ⟨msg, hmsg⟩ := @takeChallenge_refuses fw writeSlot pin request
      (.packet receiveMsg (ReceiveChallenge.codec.encode challenge)) fun other _ _ hp heq => by
      obtain rfl := Codec.encode_injective _ (Received.packet.inj heq).2
      exact hperm hp
    rw [hmsg] at hl
    exact (hsilent (reject_keeps _) hl).elim
  rw [takeChallenge_accepts hslot hnonce hperm] at hl
  cases hroot : securityGetRootSecret fw with
  | none =>
    rw [receiveProof, hroot] at hl
    exact (hsilent (reject_keeps _) hl).elim
  | some root =>
    have hl₂ := TalksTo.trans hl (receiveProof_sends hroot)
    generalize hproof : signedProof fw root challenge = proof at hl₂
    have hr₂ := Dev.Comes.takesNext hr receiveMsg (ReceiveProof.codec.encode proof) (by decide)
      (by simp)
    have hdenied : ∀ {g : Dev Int} {ram₂' : Ram}, g.Denies →
        TalksTo ((takeReceiveProof fw' challenge slot (.packet receiveMsg
          (ReceiveProof.codec.encode proof))).under ram₁' fs₁') v₁ [] (g.under ram₂' fs₁') v₁ →
        RecognisesDenial (exchange h ram fs w h' ram' fs' v) := fun hg hto =>
      response_recognises hl₂ (by simpa [LinkEvent.dual] using TalksTo.trans hr₂ hto) hg
    by_cases hproves : ProvesReceive fw' challenge proof
    swap
    · refine @hdenied (deny "Could not import file") ram₁' (deny_denies (by decide) (by decide)) ?_
      rw [takeReceiveProof_refuses fun other hp heq => hproves (by
        obtain rfl := Codec.encode_injective _ (Received.packet.inj heq).2
        exact hp)]
      exact .refl _ _
    rw [takeReceiveProof_accepts hproves] at hdenied hr₂
    by_cases hreplayed : ram₁'.Replayed challenge.requesterNonce challenge.targetNonce
        challenge.groupId receiveMsg
    · exact hdenied (deny_denies (by decide) (by decide)) (discloseFile_replayed hreplayed)
    have hfresh := @discloseFile_fresh fw' ram₁' fs₁' v₁ challenge slot hreplayed
    generalize ram₁'.remember challenge.requesterNonce challenge.targetNonce challenge.groupId
      receiveMsg = ram₂ at hfresh
    cases hread : recordContents fw' v₁.flash ram₂.gFat slot none
        (ram₂.gNameTable slot).groupId.toUInt32 with
    | none =>
      obtain ⟨ram₃, hunread⟩ := listenRelease_unreadable fs₁' hread
      exact hdenied (denyAndReject_denies _ (by decide) (by decide)) (hfresh.trans hunread)
    | some contents =>
      -- The file is sent, so that no error packet is.
      obtain ⟨ram₃, v₂, hsends⟩ := listenRelease_sendsFile fs₁' hread
      have hl₃ := Dev.Comes.takesNext hl₂ receiveMsg
        (ReceiveResponse.codec.encode (fileResponse ram₂ slot contents)) (by decide) (by simp)
      have hr₃ := TalksTo.trans hr₂ (hfresh.trans hsends)
      refine (not_answersWithError hl₃ (by simpa [LinkEvent.dual] using hr₃)
        (Machine.performs_under (takeResponse_keepsPin _ ram₁).performs fs₁) ?_ hanswers).elim
      intro payload hmem
      have hgot : LinkEvent.got errorMsg payload = .got receiveMsg
          (ReceiveResponse.codec.encode (fileResponse ram₂ slot contents)) := by
        simpa [herr] using hmem
      exact absurd (LinkEvent.got.inj hgot).1 (by decide)

/-- A listener whose record cannot be read accepts the proof, and denies the file. -/
theorem deniesUnreadable {request : ReceiveRequest} {slot : Slot} {draw : Nat → UInt8} {root : Key}
    (hasks : h.Comes ram fs w [.sent receiveMsg (ReceiveRequest.codec.encode request)]
      ((Dev.recv .transfer ReceiveChallenge.codec.size >>=
        takeChallenge fw request writeSlot pin).under ram₁ fs₁) w₁)
    (hslot : slotOccupied ram' request.slot = some slot) (hdraw : v.rng v.draws = some draw)
    (hperm : validatePermission fw (offeredChallenge ram' request slot draw).groupId .permReceive = true)
    (hroot : securityGetRootSecret fw = some root) (hroot' : securityGetRootSecret fw' = some root)
    (hprim : fw.prim = fw'.prim)
    (hfresh : ¬ ram'.Replayed request.requesterNonce (drawnNonce draw) (ram'.gNameTable slot).groupId
      receiveMsg)
    (hread : recordContents fw' v.flash ram'.gFat slot none
      (ram'.gNameTable slot).groupId.toUInt32 = none) :
    AnswersWithError h ram fs w (listen fw') ram' fs' v := by
  have htakes := @listen_takes fw' ram' fs' v receiveMsg (ReceiveRequest.codec.encode request)
    (by simp)
  rw [takeRequest_receive] at htakes
  have hoffers := TalksTo.trans htakes (listenReceive_offers hslot hdraw)
  have hchallenged := Dev.Comes.takesNext hasks receiveMsg (ReceiveChallenge.codec.encode
    (offeredChallenge ram' request slot draw)) (by decide) (by simp)
  rw [takeChallenge_accepts rfl rfl hperm] at hchallenged
  have hsent := TalksTo.trans hchallenged (receiveProof_sends hroot)
  have hproves : ProvesReceive fw' (offeredChallenge ram' request slot draw)
      (signedProof fw root (offeredChallenge ram' request slot draw)) := by
    refine ⟨rfl, rfl, rfl, rfl, root, hroot', ?_⟩
    rw [signedProof, hprim]
  have htold := Dev.Comes.takesNext hoffers receiveMsg (ReceiveProof.codec.encode
    (signedProof fw root (offeredChallenge ram' request slot draw))) (by decide) (by simp)
  rw [takeReceiveProof_accepts hproves] at htold
  obtain ⟨ram₂, hunread⟩ := @listenRelease_unreadable fw' (ram'.remember request.requesterNonce
    (drawnNonce draw) (ram'.gNameTable slot).groupId receiveMsg) v.drawn slot fs' hread
  have hdenied := TalksTo.trans htold ((discloseFile_fresh hfresh).trans hunread)
  exact ⟨_, _, _, _, _, _, _, hsent, hdenied⟩

/-- A denial is recognised just when there is a file in the requested slot and the listener draws
    its nonce: when it comes behind the challenge. -/
theorem receive_recognises_iff (fw fw' : Firmware) (pktLen : UInt16) (buf : Mem) (ram ram' : Ram)
    (fs fs' : Faults) (w v : World)
    (hanswers : AnswersWithError (receive fw pktLen buf) ram fs w (listen fw') ram' fs' v) :
    RecognisesDenial (exchange (receive fw pktLen buf) ram fs w (listen fw') ram' fs' v) ↔
      ∃ slot draw', slotOccupied ram' (buf 6) = some slot ∧ v.rng v.draws = some draw' := by
  by_cases hreq : ∃ draw, Requests fw 8 pktLen buf ram w draw
  swap
  · obtain ⟨g, ram₁, fs₁, w₁, hlocal, hcomes⟩ := noncedCommand_silent
      (askChallenge fw (buf 6) (buf 7) (buf.read 0 pinLength))
      (fun draw hd => hreq ⟨draw, hd⟩) fs
    rw [← receive_eq] at hcomes
    exact (not_answersWithError hcomes (.refl _ _)
      (Machine.performs_under (hlocal ram₁).performs fs₁) (fun _ => List.not_mem_nil) hanswers).elim
  obtain ⟨draw, hdraw⟩ := hreq
  obtain ⟨fs₁, w₁, hasks⟩ := receive_asks hdraw fs
  have htakes := @listen_takes fw' ram' fs' v receiveMsg
    (ReceiveRequest.codec.encode ⟨buf 6, drawnNonce draw⟩) (by simp)
  rw [takeRequest_receive] at htakes
  cases hslot : slotOccupied ram' (buf 6) with
  | none =>
    refine iff_of_false ?_ fun ⟨slot, _, h, _⟩ => Option.some_ne_none slot h.symm
    exact challenge_misses hasks (TalksTo.trans htakes (listenReceive_unoccupied hslot))
      fun _ => reject_keeps _
  | some slot =>
    cases hdraw' : v.rng v.draws with
    | none =>
      refine iff_of_false ?_ fun ⟨_, draw', _, h⟩ => Option.some_ne_none draw' h.symm
      exact challenge_misses hasks (TalksTo.trans htakes (listenReceive_undrawn hslot hdraw'))
        fun _ => .pure _
    | some draw' =>
      refine iff_of_true ?_ ⟨slot, draw', rfl, rfl⟩
      have hoffers := TalksTo.trans htakes (listenReceive_offers hslot hdraw')
      have hchallenged := Dev.Comes.takesNext hasks receiveMsg (ReceiveChallenge.codec.encode
        (offeredChallenge ram' ⟨buf 6, drawnNonce draw⟩ slot draw')) (by decide) (by simp)
      refine challenge_recognises rfl rfl hchallenged hoffers (fun payload hmem => ?_) hanswers
      have hgot : LinkEvent.got errorMsg payload = .got receiveMsg (ReceiveChallenge.codec.encode
          (offeredChallenge ram' ⟨buf 6, drawnNonce draw⟩ slot draw')) := by
        simpa using hmem
      exact absurd (LinkEvent.got.inj hgot).1 (by decide)

end

/-- The sample device asks for a file. -/
theorem sample_asks : ∃ fs₁ w₁, (receive .sample 8 (sampleReceive 0 1)).Comes .sample [] .sample
    [.sent receiveMsg (ReceiveRequest.codec.encode ⟨0, drawnNonce fun _ => 0⟩)]
    ((Dev.recv .transfer ReceiveChallenge.codec.size >>= takeChallenge .sample
      ⟨0, drawnNonce fun _ => 0⟩ 1 (ascii "a1b2c3")).under (Ram.sample.setFails 0) fs₁) w₁ := by
  have hpin : (sampleReceive 0 1).read 0 pinLength = ascii "a1b2c3" := by decide
  have hreq : Requests .sample 8 8 (sampleReceive 0 1) .sample .sample fun _ => 0 := by
    refine ⟨by decide, ?_, rfl⟩
    rw [hpin]
    exact Ram.sample_pinCorrect
  rw [← hpin]
  exact receive_asks hreq []

/-- A device without files denies it. -/
theorem sample_denies : (listen .sample).Comes .sample [] .sample
    [.got receiveMsg (ReceiveRequest.codec.encode ⟨0, drawnNonce fun _ => 0⟩)]
    ((denyAndReject "Could not import file" "File not found\n").under .sample []) .sample := by
  refine TalksTo.trans (listen_takes (by simp)) ?_
  rw [takeRequest_receive]
  exact listenReceive_unoccupied rfl

theorem sample_answersWithError : AnswersWithError (receive .sample 8 (sampleReceive 0 1)) .sample []
    .sample (listen .sample) .sample [] .sample := by
  obtain ⟨fs₁, w₁, hasks⟩ := sample_asks
  exact ⟨_, _, _, _, _, _, _, hasks, sample_denies⟩

/-- The sample device with its file, which lost power while the record was written again. -/
def World.sampleErased : World :=
  { World.sampleStored with
    flash := Machine.replay flashStep (eraseSlotOps 0) World.sampleStored.flash }

theorem sampleErased_unreadable (owner : Option Digest) (groupMask : UInt32) :
    recordContents .sample World.sampleErased.flash Ram.sampleStored.gFat 0 owner groupMask = none := by
  have herased : Mem.Erased World.sampleErased.flash (blobSlotBase 0) (blobSlotBase 0 + slotSize) :=
    erased_eraseSlotOps 0 _
  exact recordContents_erased (herased.mono (Nat.le_refl _) (by decide))

theorem sampleStored_slotOccupied : slotOccupied .sampleStored 0 = some 0 := by
  have hoccupied : Ram.sampleStored.occupied 0 = true := StoreCommand.occupied_storedRam _ _ _
  show Option.filter Ram.sampleStored.occupied (some 0) = some 0
  rw [Option.filter_some, hoccupied]
  rfl

/-- Behind the challenge that device denies the file. -/
theorem sampleErased_answersWithError : AnswersWithError (receive .sample 8 (sampleReceive 0 1))
    .sample [] .sample (listen .sample) .sampleStored [] .sampleErased := by
  obtain ⟨fs₁, w₁, hasks⟩ := sample_asks
  have hperm : validatePermission .sample
      (offeredChallenge .sampleStored ⟨0, drawnNonce fun _ => 0⟩ 0 fun _ => 0).groupId .permReceive =
        true := by decide
  exact deniesUnreadable hasks sampleStored_slotOccupied rfl hperm Firmware.sample_rootSecret
    Firmware.sample_rootSecret rfl (by rintro ⟨i, hi⟩; cases hi) (sampleErased_unreadable _ _)

/-- A denial behind the challenge. -/
theorem receive_recognises_iff_sample :
    RecognisesDenial (exchange (receive .sample 8 (sampleReceive 0 1)) .sample [] .sample
      (listen .sample) .sampleStored [] .sampleErased) :=
  (receive_recognises_iff .sample .sample 8 (sampleReceive 0 1) .sample .sampleStored [] [] .sample
    .sampleErased sampleErased_answersWithError).mpr ⟨0, fun _ => 0, sampleStored_slotOccupied, rfl⟩

/-- The denied request goes unrecognised: its answer is too long for the first read. -/
theorem receive_recognises_fails :
    AnswersWithError (receive .sample 8 (sampleReceive 0 1)) .sample [] .sample (listen .sample)
      .sample [] .sample ∧
    ¬ RecognisesDenial (exchange (receive .sample 8 (sampleReceive 0 1)) .sample [] .sample
      (listen .sample) .sample [] .sample) := by
  obtain ⟨fs₁, w₁, hasks⟩ := sample_asks
  exact ⟨sample_answersWithError, challenge_misses hasks sample_denies fun _ => reject_keeps _⟩
