-- SUMMARY: Devices and an attacker on UART1: a list is sent only for groups that permitted devices have proved.
import HsmFirmware.Properties.Agreement

/-!
# Agreement on lists

An interrogation ends with a list of files. Here, too, the attacker can do anything but make tags,
and the proofs for files and for lists share their keys.
-/

open Sessions (history)

section

variable {ι : Type} [DecidableEq ι] {fw : ι → Firmware} {P : Primitives} {root : Key}
  {a : Sessions.State ι HostFrame (Mem × Ram) Res}

/-- Who sends a list has been asked to, for each group of it, by a device that proves this
    challenge and may receive the group. -/
theorem sendsList_authorised (hdev : SameSecrets fw P root) (run : Sessions.Run (deviceCode fw) a)
    (hunforged : Unforged P root a.trace) (hdiffer : TagsDiffer fw P root a.trace) {k n : Nat}
    {i : ι} {challenge : InterrogateChallenge} {groups : List UInt16}
    (h : SendsList fw a.trace k n i challenge groups) {groupId : UInt16} (hg : groupId ∈ groups) :
    ∃ j < k, ∃ m i', ProvesList fw a.trace j m i' challenge ∧ (fw i').MayReceive groupId := by
  have haccepted : Accepted fw a.trace (.list challenge groupId) := ⟨k, n, i, groups, h, hg⟩
  obtain ⟨frame, s, proof, hstart, hdiscloses, rfl, hissue⟩ := h
  obtain ⟨entry, hentry, rfl⟩ := List.mem_map.mp hg
  obtain ⟨r, hr, hverified⟩ := hdiscloses.proves.verified
  have htag : entry.proof = (SignedMessage.list challenge entry.groupId).tag P root := by
    obtain rfl := hdev.root i r hr
    rw [hverified entry hentry, hdev.prim i]
    rfl
  have hgot : gotPacket InterrogateProof.codec.size interrogateMsg
      (InterrogateProof.codec.encode proof) ∈ History.onLink (history n (a.trace.take k)) := by
    rw [hdiscloses.before]
    simp
  have hmem : (SignedMessage.list challenge entry.groupId).tag P root ∈
      packetTags interrogateMsg (InterrogateProof.codec.encode proof) := by
    rw [packetTags_interrogate, ← htag]
    exact List.mem_map_of_mem hentry
  obtain ⟨j, hj, m, ⟨i', challenge', hproves, heq⟩ | ⟨i', challenge', groupId, hproves, hmay, heq⟩⟩ :=
    received_tag hdev run hunforged hgot hmem
  · have hbytes := hdiffer (.file challenge') (.list challenge entry.groupId) ⟨j, m, i', hproves⟩
      haccepted heq.symm
    cases SignedMessage.bytes_injective hbytes
  · have hbytes := hdiffer (.list challenge' groupId) (.list challenge entry.groupId)
      ⟨j, m, i', hproves, hmay⟩ haccepted heq.symm
    cases SignedMessage.bytes_injective hbytes
    exact ⟨j, hj, m, i', hproves, hmay⟩

omit [DecidableEq ι] in
/-- With the nonces of the requesters distinct, one session proves a challenge for a list. -/
theorem provesList_session (hnonces : NoncesDiffer a.trace interrogateMsg) {j j' m m' : Nat}
    {i i' : ι} {challenge : InterrogateChallenge} (h : ProvesList fw a.trace j m i challenge)
    (h' : ProvesList fw a.trace j' m' i' challenge) : i = i' := by
  have hdraws : ∀ {j m i}, ProvesList fw a.trace j m i challenge →
      ∃ k bytes, a.trace[k]? = some (.answer m (drewNonce bytes).1 (drewNonce bytes).2) ∧
        Draws a.trace interrogateMsg k challenge.requesterNonce ∧
        ∃ frame s, a.trace[m]? = some (.start i frame s) := by
    rintro j m i ⟨frame, s, r, hstart, hsigns, -⟩
    obtain ⟨bytes, hmem, hnonce⟩ := hsigns.drawn
    obtain ⟨k, -, hk⟩ := Sessions.mem_history_take hmem
    exact ⟨k, bytes, hk, ⟨m, i, frame, s, bytes, hstart, hsigns.command, hk, hnonce⟩,
      frame, s, hstart⟩
  obtain ⟨k, bytes, hk, hdraw, frame, s, hstart⟩ := hdraws h
  obtain ⟨k', bytes', hk', hdraw', frame', s', hstart'⟩ := hdraws h'
  obtain rfl := hnonces k k' _ hdraw hdraw'
  have hevent := Option.some.inj (hk.symm.trans hk')
  obtain rfl : m = m' := by
    injection hevent
  cases hstart.symm.trans hstart'
  rfl

/-- Whatever the attacker does, a device that answers an interrogation with a list lists files of
    groups that devices with the right to receive them have proved, for this challenge, at the
    request of hosts that knew the PIN. When the nonces of the requesters are distinct, all these
    groups are those of one device. -/
theorem list_agreement (hdev : SameSecrets fw P root) (run : Sessions.Run (deviceCode fw) a)
    (hunforged : Unforged P root a.trace) (hdiffer : TagsDiffer fw P root a.trace) {k n : Nat}
    {i : ι} {frame : HostFrame} {s : Mem × Ram} {payload : Bytes}
    (hstart : a.trace[n]? = some (.start i frame s)) (hcmd : frame.cmd = listenMsg)
    (hissue : a.trace[k]? = some (.issue n (.send .transfer interrogateMsg payload)))
    (hlen : payload.length ≠ InterrogateChallenge.codec.size) :
    ∃ challenge groups, SendsList fw a.trace k n i challenge groups ∧
      payload = listResponse (filteredFiles s.2 groups) ∧
      (∀ groupId ∈ groups, ∃ j < k, ∃ m i', ProvesList fw a.trace j m i' challenge ∧
        (fw i').MayReceive groupId) ∧
      (NoncesDiffer a.trace interrogateMsg → groups ≠ [] →
        ∃ j < k, ∃ m i', ProvesList fw a.trace j m i' challenge ∧
          ∀ groupId ∈ groups, (fw i').MayReceive groupId) := by
  have hsends : ∃ challenge groups, SendsList fw a.trace k n i challenge groups ∧
      payload = listResponse (filteredFiles s.2 groups) := by
    obtain ⟨i', frame', s', hstart', hrole⟩ := issue_role run hissue
    cases hstart.symm.trans hstart'
    rw [hcmd] at hrole
    cases hrole with
    | device hlocal => cases hlocal
    | requestList nonce hcmd' => cases hcmd'
    | challengeList challenge => simp at hlen
    | proveList hsigns => cases hsigns.command
    | @sendList challenge proof hdiscloses =>
      exact ⟨challenge, _, ⟨frame, s, proof, hstart, hcmd ▸ hdiscloses, rfl, hissue⟩, rfl⟩
  obtain ⟨challenge, groups, hsends, hpayload⟩ := hsends
  have hauthorised : ∀ groupId ∈ groups, ∃ j < k, ∃ m i',
      ProvesList fw a.trace j m i' challenge ∧ (fw i').MayReceive groupId :=
    fun groupId hg => sendsList_authorised hdev run hunforged hdiffer hsends hg
  refine ⟨challenge, groups, hsends, hpayload, hauthorised, fun hnonces hne => ?_⟩
  obtain ⟨groupId, hg⟩ := List.exists_mem_of_ne_nil groups hne
  obtain ⟨j, hj, m, i', hproves, -⟩ := hauthorised groupId hg
  refine ⟨j, hj, m, i', hproves, fun groupId' hg' => ?_⟩
  obtain ⟨j', -, m', i'', hproves', hmay⟩ := hauthorised groupId' hg'
  obtain rfl := provesList_session hnonces hproves hproves'
  exact hmay

end

/-- The frame of a host that asks for a list. -/
def sampleInterrogateFrame : HostFrame := ⟨.ok, interrogateMsg, ascii "a1b2c3"⟩

/-- The challenge of the target. -/
def sampleListChallenge : InterrogateChallenge := ⟨drawnNonce fun _ => 0, drawnNonce fun _ => 0⟩

/-- The proofs of the sample device for it. -/
def sampleGroupProofs : List InterrogateGroupProof :=
  interrogateGroupProofs .sample (toKey (Firmware.sample.globalSecrets.drop 97)) sampleListChallenge

/-- The packets of the interrogation. -/
def sampleInterrogation : List LinkEvent :=
  interrogateEvents sampleListChallenge (interrogateProof sampleListChallenge sampleGroupProofs)
    (listResponse (filteredFiles .sampleStored (sampleGroupProofs.map (·.groupId))))

theorem groups_sampleGroupProofs :
    (interrogateProof sampleListChallenge sampleGroupProofs).groups = sampleGroupProofs :=
  groups_interrogateProof _ (length_interrogateGroupProofs _ _ _)

/-- The sample device may receive files of group 1 alone. -/
theorem Firmware.sample_mayReceive {groupId : UInt16} (h : Firmware.sample.MayReceive groupId) :
    groupId = 1 := by
  obtain ⟨i, rfl, hreceive⟩ := h
  revert hreceive
  revert i
  decide

/-- Two sample devices, the second with a file, on an honest wire. -/
theorem sampleInterrogation_run : ∃ a : Sessions.State Bool HostFrame (Mem × Ram) Res,
    Sessions.Run (deviceCode fun _ => .sample) a ∧ HonestWire a.trace ∧
      Carries a.trace sampleInterrogation := by
  have hpin : (Mem.write (fun _ => 0) 0 sampleInterrogateFrame.body).read 0 pinLength =
      ascii "a1b2c3" := by decide
  have hask := @interrogate_talks .sample 6 (Mem.write (fun _ => 0) 0 sampleInterrogateFrame.body)
    .sample .sample _ _ sampleListChallenge
    (listResponse (filteredFiles .sampleStored (sampleGroupProofs.map (·.groupId)))) (by decide)
    (by rw [hpin]; exact Ram.sample_pinCorrect) rfl Firmware.sample_rootSecret rfl
    (length_listResponse_le _ _)
  have hlisten := @listen_lists_talks .sample .sampleStored .sampleStored _ sampleListChallenge
    (interrogateProof sampleListChallenge sampleGroupProofs) rfl rfl
    (provesGroups_interrogateProof Firmware.sample_rootSecret rfl _) (by
      rintro ⟨i, hi⟩
      cases hi)
  rw [groups_sampleGroupProofs] at hlisten
  obtain ⟨g, T, run, hwire, hcarries, -⟩ := @handlers_exchange Bool _ (fun _ => .sample) _ _ false true
    sampleInterrogateFrame sampleListenFrame .interrogate .listen (fun _ => 0, .sample)
    (fun _ => 0, .sampleStored) _ _ _ _ _ _ sampleInterrogation _ 0
    (.init fun i => (fun _ => 0, if i then .sampleStored else .sample)) .nil (by decide) rfl rfl rfl
    rfl rfl rfl hask hlisten
  exact ⟨_, run, hwire, hcarries⟩

theorem sampleInterrogation_tagsDiffer {a : Sessions.State Bool HostFrame (Mem × Ram) Res}
    (hwire : HonestWire a.trace) (hcarries : Carries a.trace sampleInterrogation) (P : Primitives)
    (root : Key) : TagsDiffer (fun _ => .sample) P root a.trace := by
  have hlist : ∀ n cmd payload, .issue n (.send .transfer cmd payload) ∈ a.trace →
      cmd = interrogateMsg := by
    intro n cmd payload hmem
    have h := hcarries.only n cmd payload hmem
    simp only [sampleInterrogation, interrogateEvents, List.mem_cons, LinkEvent.sent.injEq,
      LinkEvent.got.injEq, reduceCtorEq, List.not_mem_nil, false_or, or_false] at h
    obtain (⟨h, -⟩ | ⟨h, -⟩) | (⟨h, -⟩ | ⟨h, -⟩) := h <;> exact h
  have hproof : ∀ n (proof : InterrogateProof), .issue n (.send .transfer interrogateMsg
      (InterrogateProof.codec.encode proof)) ∈ a.trace →
        proof = interrogateProof sampleListChallenge sampleGroupProofs := by
    intro n proof hmem
    have h := hcarries.only n interrogateMsg _ hmem
    simp only [sampleInterrogation, interrogateEvents, List.mem_cons, LinkEvent.sent.injEq,
      LinkEvent.got.injEq, reduceCtorEq, List.not_mem_nil, true_and, false_or, or_false] at h
    obtain (h | h) | (h | h) := h
    · have hlen := congrArg List.length h
      simp [interrogateRequestCodec] at hlen
    · exact Codec.encode_injective _ h
    · have hlen := congrArg List.length h
      simp at hlen
    · have hlen := congrArg List.length h
      rw [length_listResponse, Codec.length_encode, InterrogateProof.codec_size] at hlen
      omega
  rintro m m' hsigned haccepted -
  have hm : m = .list sampleListChallenge 1 := by
    cases m with
    | file challenge =>
      obtain ⟨k, n, i, frame, s, r, -, -, hissue⟩ := hsigned
      cases hlist n _ _ (List.mem_of_getElem? hissue)
    | list challenge groupId =>
      obtain ⟨k, n, i, ⟨frame, s, r, -, -, hissue⟩, hmay⟩ := hsigned
      have heq := hproof n _ (List.mem_of_getElem? hissue)
      obtain ⟨nr, nt⟩ := challenge
      obtain rfl : nr = sampleListChallenge.requesterNonce :=
        congrArg InterrogateProof.requesterNonce heq
      obtain rfl : nt = sampleListChallenge.targetNonce :=
        congrArg InterrogateProof.targetNonce heq
      rw [Firmware.sample_mayReceive hmay]
  have hm' : m' = .list sampleListChallenge 1 := by
    cases m' with
    | file challenge =>
      obtain ⟨k, n, i, frame, s, proof, slot, contents, -, -, hissue⟩ := haccepted
      cases hlist n _ _ (List.mem_of_getElem? hissue)
    | list challenge groupId =>
      obtain ⟨k, n, i, groups, ⟨frame, s, proof, -, hdiscloses, rfl, -⟩, hg⟩ := haccepted
      have hgot : gotPacket InterrogateProof.codec.size interrogateMsg
          (InterrogateProof.codec.encode proof) ∈ History.onLink (history n (a.trace.take k)) := by
        rw [hdiscloses.before]
        simp
      obtain ⟨j, -, hj⟩ := Sessions.mem_history_take (List.mem_of_mem_filter hgot)
      obtain ⟨j', -, n', hissue⟩ := hwire j n _ _ _ hj
      have heq := hproof n' proof (List.mem_of_getElem? hissue)
      have hnr := hdiscloses.proves.requesterNonce
      have hnt := hdiscloses.proves.targetNonce
      rw [heq] at hnr hnt hg
      rw [groups_sampleGroupProofs] at hg
      obtain ⟨nr, nt⟩ := challenge
      cases hnr
      cases hnt
      rw [Firmware.sample_mayReceive (mem_groups_interrogateGroupProofs.mp hg)]
      rfl
  rw [hm, hm']

/-- A list is sent in such a run, and its requester has proved its groups. -/
theorem list_agreement_sample : ∃ (a : Sessions.State Bool HostFrame (Mem × Ram) Res) (k n : Nat)
    (i : Bool) (challenge : InterrogateChallenge) (groups : List UInt16),
    Sessions.Run (deviceCode fun _ => .sample) a ∧
    SendsList (fun _ => .sample) a.trace k n i challenge groups ∧
    ∀ groupId ∈ groups, ∃ j < k, ∃ m i',
      ProvesList (fun _ => .sample) a.trace j m i' challenge ∧
        Firmware.sample.MayReceive groupId := by
  obtain ⟨a, run, hwire, hcarries⟩ := sampleInterrogation_run
  let files := filteredFiles .sampleStored (sampleGroupProofs.map (·.groupId))
  have hfiles : files.length = 1 := by decide
  have hlen : (listResponse files).length = 39 := by rw [length_listResponse, hfiles]
  obtain ⟨n, hmem⟩ := hcarries.all interrogateMsg (listResponse files)
    (.inr (by simp [sampleInterrogation, interrogateEvents, files]))
  obtain ⟨k, hissue⟩ := List.mem_iff_getElem?.mp hmem
  obtain ⟨i, frame, s, hstart, hrole⟩ := issue_role run hissue
  have hcmd : frame.cmd = listenMsg := by
    generalize listResponse files = payload at hlen hrole
    cases hrole with
    | device hlocal => cases hlocal
    | requestList nonce h => simp [interrogateRequestCodec] at hlen
    | challengeList challenge h => exact h
    | proveList h => simp at hlen
    | sendList h => exact h.command
  obtain ⟨challenge, groups, hsends, -, hproved, -⟩ := list_agreement sample_sameSecrets run (hwire.unforged _ _)
    (sampleInterrogation_tagsDiffer hwire hcarries _ _) hstart hcmd hissue (by
      rw [hlen]
      decide)
  exact ⟨a, k, n, i, challenge, groups, run, hsends, hproved⟩
