-- SUMMARY: Devices and an attacker on UART1: a file is sent only for a challenge that a permitted device has signed, and once at most.
import HsmFirmware.Specs.HonestWire
import HsmFirmware.Properties.Exchange

/-!
# Agreement

Any number of devices run the main loop, each command of a host being a session. What a device
gets on UART1 is up to an attacker, who reads, drops, changes, reorders and makes packets, but
can make no tag under the secrets of the devices: a tag that a device accepts has been sent by a
device before. Resets of any device, failures of flash and any answers of the generator are
among the steps, too.
-/

open Sessions (history)

/-! ## Signed messages -/

/-- What devices sign with the key of a group: the challenge for a file, or the challenge for a
    list with the group behind it. -/
inductive SignedMessage where
  | file (challenge : ReceiveChallenge)
  | list (challenge : InterrogateChallenge) (groupId : UInt16)

namespace SignedMessage

def groupId : SignedMessage → UInt16
  | file challenge => challenge.groupId
  | list _ groupId => groupId

def bytes : SignedMessage → Bytes
  | file challenge => ReceiveChallenge.codec.encode challenge
  | list challenge groupId => interrogateProofMessage challenge groupId

theorem length_list (challenge : InterrogateChallenge) (groupId : UInt16) :
    (list challenge groupId).bytes.length = 10 := by
  rw [bytes, interrogateProofMessage, List.length_append, Codec.length_encode, Codec.length_encode]
  rfl

/-- The bytes tell the kind of a message and all it says: the two kinds differ in length. -/
theorem bytes_injective {m m' : SignedMessage} (h : m.bytes = m'.bytes) : m = m' := by
  have hlen := congrArg List.length h
  cases m with
  | file challenge =>
    cases m' with
    | file challenge' => exact congrArg file (Codec.encode_injective _ h)
    | list challenge' groupId' =>
      rw [length_list, bytes, Codec.length_encode] at hlen
      cases hlen
  | list challenge groupId =>
    cases m' with
    | file challenge' =>
      rw [length_list, bytes, Codec.length_encode] at hlen
      cases hlen
    | list challenge' groupId' =>
      obtain ⟨hchallenge, hgroup⟩ := List.append_inj h (by
        rw [Codec.length_encode, Codec.length_encode])
      rw [Codec.encode_injective _ hchallenge, Codec.encode_injective _ hgroup]

/-- The tag of a message. -/
def tag (P : Primitives) (root : Key) (m : SignedMessage) : Digest :=
  secureCryptoReceiveProofSign P root m.groupId m.bytes

end SignedMessage

/-! ## Tags on the wire -/

/-- The tags in a packet: those of a proof for a file, or of a proof for a list. -/
def packetTags (cmd : MsgType) (payload : Bytes) : List Digest :=
  if cmd = receiveMsg ∧ payload.length = ReceiveProof.codec.size then
    [(ReceiveProof.codec.decode payload).proof]
  else if cmd = interrogateMsg ∧ payload.length = InterrogateProof.codec.size then
    (InterrogateProof.codec.decode payload).groups.map (·.proof)
  else []

theorem packetTags_receive (proof : ReceiveProof) :
    packetTags receiveMsg (ReceiveProof.codec.encode proof) = [proof.proof] := by
  rw [packetTags, if_pos ⟨rfl, by simp⟩, Codec.decode_encode']

theorem packetTags_interrogate (proof : InterrogateProof) :
    packetTags interrogateMsg (InterrogateProof.codec.encode proof) =
      proof.groups.map (·.proof) := by
  rw [packetTags, if_neg (fun hc => absurd hc.1 (by decide)), if_pos ⟨rfl, by simp⟩,
    Codec.decode_encode']

theorem packetTags_receive_of_length {payload : Bytes}
    (h : payload.length ≠ ReceiveProof.codec.size) : packetTags receiveMsg payload = [] := by
  rw [packetTags, if_neg (fun hc => h hc.2), if_neg (fun hc => absurd hc.1 (by decide))]

theorem packetTags_interrogate_of_length {payload : Bytes}
    (h : payload.length ≠ InterrogateProof.codec.size) : packetTags interrogateMsg payload = [] := by
  rw [packetTags, if_neg (fun hc => absurd hc.1 (by decide)), if_neg (fun hc => h hc.2)]

theorem packetTags_error (payload : Bytes) : packetTags errorMsg payload = [] := by
  rw [packetTags, if_neg (fun hc => absurd hc.1 (by decide)),
    if_neg (fun hc => absurd hc.1 (by decide))]

/-- A list has no tags: it is longer or shorter than a proof. -/
theorem packetTags_list (files : List FileMetadata) :
    packetTags interrogateMsg (listResponse files) = [] := by
  apply packetTags_interrogate_of_length
  rw [length_listResponse, InterrogateProof.codec_size]
  omega

/-! ## Devices -/

section

variable {ι : Type}

/-- The devices have been built with one root secret, for the same cryptography. -/
structure SameSecrets (fw : ι → Firmware) (P : Primitives) (root : Key) : Prop where
  prim : ∀ i, (fw i).prim = P
  root : ∀ i r, securityGetRootSecret (fw i) = some r → r = root

variable (fw : ι → Firmware) (t : List (DeviceEvent ι)) (k n : Nat) (i : ι)

/-- In session `n`, device `i` sends a proof of this challenge for a file, as event `k`. -/
def ProvesFile (challenge : ReceiveChallenge) : Prop :=
  ∃ frame s root, t[n]? = some (.start i frame s) ∧
    SignsTransfer (fw i) frame.cmd (s.1.write 0 frame.body) s.2 (history n (t.take k)) root
      challenge ∧
    t[k]? = some (.issue n (.send .transfer receiveMsg
      (ReceiveProof.codec.encode (signedProof (fw i) root challenge))))

/-- In session `n`, device `i` sends the file of this challenge, as event `k`. -/
def SendsFile (challenge : ReceiveChallenge) : Prop :=
  ∃ frame s proof slot contents, t[n]? = some (.start i frame s) ∧
    ReleasesFile (fw i) frame.cmd s.2 (history n (t.take k)) challenge proof slot contents ∧
    t[k]? = some (.issue n (.send .transfer receiveMsg
      (ReceiveResponse.codec.encode (fileResponse s.2 slot contents))))

/-- In session `n`, device `i` sends proofs of this challenge for a list, as event `k`. -/
def ProvesList (challenge : InterrogateChallenge) : Prop :=
  ∃ frame s root, t[n]? = some (.start i frame s) ∧
    SignsGroups (fw i) frame.cmd (s.1.write 0 frame.body) s.2 (history n (t.take k)) root
      challenge ∧
    t[k]? = some (.issue n (.send .transfer interrogateMsg (InterrogateProof.codec.encode
      (interrogateProof challenge (interrogateGroupProofs (fw i) root challenge)))))

/-- In session `n`, device `i` sends the list of the files in these groups, as event `k`. -/
def SendsList (challenge : InterrogateChallenge) (groups : List UInt16) : Prop :=
  ∃ frame s proof, t[n]? = some (.start i frame s) ∧
    DisclosesList (fw i) frame.cmd (history n (t.take k)) challenge proof ∧
    groups = proof.groups.map (·.groupId) ∧
    t[k]? = some (.issue n (.send .transfer interrogateMsg
      (listResponse (filteredFiles s.2 groups))))

end

section

variable {ι : Type} (fw : ι → Firmware) (P : Primitives) (root : Key) (t : List (DeviceEvent ι))

/-- The tags that devices get come from devices. -/
def Unforged : Prop :=
  ∀ (k n : Nat) (capacity : Nat) (cmd : MsgType) (payload : Bytes),
    t[k]? = some (.answer n (.recv .transfer capacity) (Received.packet cmd payload)) →
    ∀ m : SignedMessage, m.tag P root ∈ packetTags cmd payload →
      ∃ j < k, ∃ n' cmd' payload', t[j]? = some (.issue n' (.send .transfer cmd' payload')) ∧
        m.tag P root ∈ packetTags cmd' payload'

/-- A message that a device signs. -/
def Signed : SignedMessage → Prop
  | .file challenge => ∃ k n i, ProvesFile fw t k n i challenge
  | .list challenge groupId => ∃ k n i, ProvesList fw t k n i challenge ∧
    (fw i).MayReceive groupId

/-- A message of which a device has accepted a proof. -/
def Accepted : SignedMessage → Prop
  | .file challenge => ∃ k n i, SendsFile fw t k n i challenge
  | .list challenge groupId => ∃ k n i groups, SendsList fw t k n i challenge groups ∧
    groupId ∈ groups

/-- The tags of what is signed and of what is accepted do not collide. -/
def TagsDiffer : Prop :=
  ∀ m m', Signed fw t m → Accepted fw t m' → m.tag P root = m'.tag P root → m.bytes = m'.bytes

/-- Event `k` is the draw of a nonce in a session for this command. -/
def Draws (command : MsgType) (k : Nat) (nonce : UInt32) : Prop :=
  ∃ n i frame s bytes, t[n]? = some (.start i frame s) ∧ frame.cmd = command ∧
    t[k]? = some (.answer n (drewNonce bytes).1 (drewNonce bytes).2) ∧
    Codec.u32.decode bytes = nonce

/-- The nonces drawn for a command differ. -/
def NoncesDiffer (command : MsgType) : Prop :=
  ∀ k k' nonce, Draws t command k nonce → Draws t command k' nonce → k = k'

/-- On an honest wire nothing is forged. -/
theorem HonestWire.unforged {t : List (DeviceEvent ι)} (h : HonestWire t) : Unforged P root t := by
  intro k n capacity cmd payload hk m hm
  obtain ⟨j, hj, n', hissue⟩ := h k n capacity cmd payload hk
  exact ⟨j, hj, n', cmd, payload, hissue, hm⟩

end

/-! ## What is sent on UART1 -/

section

variable {ι : Type} {fw : ι → Firmware} {P : Primitives} {root : Key}

/-- The tag of a proof for a file. -/
theorem SameSecrets.signedProof_tag (hdev : SameSecrets fw P root) {i : ι} {r : Key}
    (hr : securityGetRootSecret (fw i) = some r) (challenge : ReceiveChallenge) :
    (signedProof (fw i) r challenge).proof = (SignedMessage.file challenge).tag P root := by
  obtain rfl := hdev.root i r hr
  rw [← hdev.prim i]
  rfl

/-- The tags of proofs for a list. -/
theorem SameSecrets.mem_groupTags (hdev : SameSecrets fw P root) {i : ι} {r : Key}
    (hr : securityGetRootSecret (fw i) = some r) {challenge : InterrogateChallenge} {x : Digest}
    (hx : x ∈ (interrogateProof challenge (interrogateGroupProofs (fw i) r challenge)).groups.map
      (·.proof)) :
    ∃ groupId, (fw i).MayReceive groupId ∧ x = (SignedMessage.list challenge groupId).tag P root := by
  obtain rfl := hdev.root i r hr
  rw [groups_interrogateProof _ (length_interrogateGroupProofs _ _ _)] at hx
  obtain ⟨entry, hentry, rfl⟩ := List.mem_map.mp hx
  refine ⟨entry.groupId, mem_groups_interrogateGroupProofs.mp (List.mem_map_of_mem hentry), ?_⟩
  rw [← hdev.prim i]
  obtain ⟨row, -, rfl⟩ := List.mem_map.mp hentry
  rfl

variable [DecidableEq ι] {a : Sessions.State ι HostFrame (Mem × Ram) Res}

/-- What a device issues is a step of its role. -/
theorem issue_role (run : Sessions.Run (deviceCode fw) a) {k n : Nat} {o : Op}
    (h : a.trace[k]? = some (.issue n o)) :
    ∃ i frame s, a.trace[n]? = some (.start i frame s) ∧
      RoleStep (fw i) frame.cmd (s.1.write 0 frame.body) s.2 (history n (a.trace.take k)) o :=
  run.allowed (I := fun i frame s => RoleStep (fw i) frame.cmd (s.1.write 0 frame.body) s.2)
    (fun _ frame s => mainStep_follows frame s.1 s.2) h

/-- A tag that a device sends is that of a message it signs. -/
theorem sent_tag (hdev : SameSecrets fw P root) (run : Sessions.Run (deviceCode fw) a)
    {k n : Nat} {cmd : MsgType} {payload : Bytes} {x : Digest}
    (h : a.trace[k]? = some (.issue n (.send .transfer cmd payload)))
    (hx : x ∈ packetTags cmd payload) :
    (∃ i challenge, ProvesFile fw a.trace k n i challenge ∧
      x = (SignedMessage.file challenge).tag P root) ∨
    ∃ i challenge groupId, ProvesList fw a.trace k n i challenge ∧ (fw i).MayReceive groupId ∧
      x = (SignedMessage.list challenge groupId).tag P root := by
  obtain ⟨i, frame, s, hstart, hrole⟩ := issue_role run h
  cases hrole with
  | device hlocal => cases hlocal
  | deny =>
    rw [packetTags_error] at hx
    cases hx
  | requestFile request hcmd =>
    rw [packetTags_receive_of_length (by simp)] at hx
    cases hx
  | challengeFile challenge hcmd =>
    rw [packetTags_receive_of_length (by simp)] at hx
    cases hx
  | @proveFile r challenge hsigns =>
    left
    refine ⟨i, challenge, ⟨frame, s, r, hstart, hsigns, h⟩, ?_⟩
    rw [packetTags_receive, List.mem_singleton] at hx
    rw [hx, hdev.signedProof_tag hsigns.rootSecret]
  | sendFile hreleases =>
    rw [packetTags_receive_of_length (by simp)] at hx
    cases hx
  | requestList nonce hcmd =>
    rw [packetTags_interrogate_of_length (by simp [interrogateRequestCodec])] at hx
    cases hx
  | challengeList challenge hcmd =>
    rw [packetTags_interrogate_of_length (by simp)] at hx
    cases hx
  | @proveList r challenge hsigns =>
    right
    rw [packetTags_interrogate] at hx
    obtain ⟨groupId, hmay, rfl⟩ := hdev.mem_groupTags hsigns.rootSecret hx
    exact ⟨i, challenge, groupId, ⟨frame, s, r, hstart, hsigns, h⟩, hmay, rfl⟩
  | sendList hdiscloses =>
    rw [packetTags_list] at hx
    cases hx

/-- A tag that a device gets is that of a message signed before. -/
theorem received_tag (hdev : SameSecrets fw P root) (run : Sessions.Run (deviceCode fw) a)
    (hunforged : Unforged P root a.trace) {k n capacity : Nat} {cmd : MsgType} {payload : Bytes}
    (h : gotPacket capacity cmd payload ∈ History.onLink (history n (a.trace.take k)))
    {m : SignedMessage} (hm : m.tag P root ∈ packetTags cmd payload) :
    ∃ j < k, ∃ n', (∃ i challenge, ProvesFile fw a.trace j n' i challenge ∧
        m.tag P root = (SignedMessage.file challenge).tag P root) ∨
      ∃ i challenge groupId, ProvesList fw a.trace j n' i challenge ∧
        (fw i).MayReceive groupId ∧
        m.tag P root = (SignedMessage.list challenge groupId).tag P root := by
  obtain ⟨j, hj, hget⟩ := Sessions.mem_history_take (List.mem_of_mem_filter h)
  obtain ⟨j', hj', n', cmd', payload', hissue, htag⟩ :=
    hunforged j n capacity cmd payload hget m hm
  exact ⟨j', Nat.lt_trans hj' hj, n', sent_tag hdev run hissue htag⟩

/-- What a session has sent on UART1 is in its history at any later packet. -/
theorem sent_before (run : Sessions.Run (deviceCode fw) a) {k k' n : Nat} {cmd : MsgType}
    {payload : Bytes} {o : Op} (hlt : k < k')
    (h : a.trace[k]? = some (.issue n (.send .transfer cmd payload)))
    (h' : a.trace[k']? = some (.issue n o)) :
    ∃ r, (⟨.send .transfer cmd payload, r⟩ : Prog.Act Res) ∈
      History.onLink (history n (a.trace.take k')) := by
  obtain ⟨r, hr⟩ := (run.sound.issues k' n o h').answered k _ hlt h
  exact ⟨r, List.mem_filter.mpr ⟨hr, rfl⟩⟩

/-- A session with `listen` draws one nonce at most. -/
theorem draw_unique (run : Sessions.Run (deviceCode fw) a) {k k' n : Nat} {i : ι}
    {frame : HostFrame} {s : Mem × Ram} {bytes bytes' : Bytes}
    (hstart : a.trace[n]? = some (.start i frame s)) (hcmd : frame.cmd = listenMsg)
    (h : a.trace[k]? = some (.answer n (drewNonce bytes).1 (drewNonce bytes).2))
    (h' : a.trace[k']? = some (.answer n (drewNonce bytes').1 (drewNonce bytes').2)) : k = k' := by
  have honce : (deviceCode fw i frame s).Follows DrawsOnce (fun _ _ => True) [] :=
    mainStep_drawsOnce hcmd s.1 s.2
  exact run.answered_once honce hstart h trivial h' trivial

/-- So the nonces of a run with one such session differ. -/
theorem noncesDiffer_of_target (run : Sessions.Run (deviceCode fw) a) {target : Nat}
    (hone : ∀ n i frame s, a.trace[n]? = some (.start i frame s) → frame.cmd = listenMsg →
      n = target) : NoncesDiffer a.trace listenMsg := by
  rintro k k' nonce ⟨n, i, frame, s, bytes, hstart, hcmd, hk, -⟩
    ⟨n', i', frame', s', bytes', hstart', hcmd', hk', -⟩
  obtain rfl := hone n i frame s hstart hcmd
  obtain rfl := hone n' i' frame' s' hstart' hcmd'
  exact draw_unique run hstart hcmd hk hk'

/-! ## Files -/

/-- A packet as long as a response is the file of some challenge. -/
theorem sendsFile_of_issue (run : Sessions.Run (deviceCode fw) a) {k n : Nat} {payload : Bytes}
    (hissue : a.trace[k]? = some (.issue n (.send .transfer receiveMsg payload)))
    (hlen : payload.length = ReceiveResponse.codec.size) :
    ∃ i challenge, SendsFile fw a.trace k n i challenge := by
  obtain ⟨i, frame, s, hstart, hrole⟩ := issue_role run hissue
  cases hrole with
  | device hlocal => cases hlocal
  | requestFile request hcmd => simp at hlen
  | challengeFile challenge hcmd => simp at hlen
  | proveFile hsigns => simp at hlen
  | @sendFile challenge proof slot contents hreleases =>
    exact ⟨i, challenge, frame, s, proof, slot, contents, hstart, hreleases, hissue⟩

/-- Who sends a file has been asked to by a device that proves this challenge. -/
theorem sendsFile_authorised (hdev : SameSecrets fw P root) (run : Sessions.Run (deviceCode fw) a)
    (hunforged : Unforged P root a.trace) (hdiffer : TagsDiffer fw P root a.trace) {k n : Nat}
    {i : ι} {challenge : ReceiveChallenge} (h : SendsFile fw a.trace k n i challenge) :
    ∃ j < k, ∃ m i', ProvesFile fw a.trace j m i' challenge := by
  have haccepted : Accepted fw a.trace (.file challenge) := ⟨k, n, i, h⟩
  obtain ⟨frame, s, proof, slot, contents, hstart, hreleases, hissue⟩ := h
  obtain ⟨r, hr, hverified⟩ := hreleases.proves.verified
  have htag : proof.proof = (SignedMessage.file challenge).tag P root := by
    obtain rfl := hdev.root i r hr
    rw [hverified, hdev.prim i]
    rfl
  have hgot : gotPacket ReceiveProof.codec.size receiveMsg (ReceiveProof.codec.encode proof) ∈
      History.onLink (history n (a.trace.take k)) := by
    rw [hreleases.before]
    simp
  have hmem : (SignedMessage.file challenge).tag P root ∈
      packetTags receiveMsg (ReceiveProof.codec.encode proof) := by
    rw [packetTags_receive, htag]
    exact List.mem_singleton_self _
  obtain ⟨j, hj, m, ⟨i', challenge', hproves, heq⟩ | ⟨i', challenge', groupId, hproves, hmay, heq⟩⟩ :=
    received_tag hdev run hunforged hgot hmem
  · have hbytes := hdiffer (.file challenge') (.file challenge) ⟨j, m, i', hproves⟩ haccepted heq.symm
    cases SignedMessage.bytes_injective hbytes
    exact ⟨j, hj, m, i', hproves⟩
  · have hbytes := hdiffer (.list challenge' groupId) (.file challenge)
      ⟨j, m, i', hproves, hmay⟩ haccepted heq.symm
    cases SignedMessage.bytes_injective hbytes

/-- A proof tells its challenge. -/
theorem signedProof_injective {fw fw' : Firmware} {r r' : Key}
    {challenge challenge' : ReceiveChallenge}
    (h : signedProof fw r challenge = signedProof fw' r' challenge') : challenge = challenge' := by
  obtain ⟨slot, groupId, nr, nt⟩ := challenge
  obtain ⟨slot', groupId', nr', nt'⟩ := challenge'
  simp only [signedProof, ReceiveProof.mk.injEq] at h
  obtain ⟨rfl, rfl, rfl, rfl, -⟩ := h
  rfl

/-- A session proves one challenge for a file at most. -/
theorem provesFile_unique (run : Sessions.Run (deviceCode fw) a) {j j' m : Nat} {i i' : ι}
    {challenge challenge' : ReceiveChallenge} (h : ProvesFile fw a.trace j m i challenge)
    (h' : ProvesFile fw a.trace j' m i' challenge') : challenge = challenge' := by
  have honce : ∀ {j j' i i' challenge challenge'}, ProvesFile fw a.trace j m i challenge →
      ProvesFile fw a.trace j' m i' challenge' → ¬ j < j' := by
    rintro j j' i i' challenge challenge' ⟨frame, s, r, -, -, hissue⟩
      ⟨frame', s', r', -, hsigns', hissue'⟩ hlt
    obtain ⟨x, hx⟩ := sent_before run hlt hissue hissue'
    rw [hsigns'.before] at hx
    -- Before its proof, a session has sent a request only, which is shorter.
    obtain heq | heq := List.mem_pair.mp hx
    · have hpayload := congrArg (fun act : Prog.Act Res => act.1) heq
      obtain ⟨-, -, hpayload⟩ := Op.send.inj hpayload
      have hlen := congrArg List.length hpayload
      simp at hlen
    · cases congrArg (fun act : Prog.Act Res => act.1) heq
  obtain hlt | heq | hlt := Nat.lt_trichotomy j j'
  · exact (honce h h' hlt).elim
  · subst heq
    obtain ⟨frame, s, r, -, -, hissue⟩ := h
    obtain ⟨frame', s', r', -, -, hissue'⟩ := h'
    have hevent := Option.some.inj (hissue.symm.trans hissue')
    obtain ⟨-, hop⟩ := Sessions.Event.issue.inj hevent
    obtain ⟨-, -, hpayload⟩ := Op.send.inj hop
    exact signedProof_injective (Codec.encode_injective _ hpayload)
  · exact (honce h' h hlt).elim

/-- With the nonces of the targets distinct, a challenge is answered with a file once at most. -/
theorem sendsFile_unique (run : Sessions.Run (deviceCode fw) a)
    (hnonces : NoncesDiffer a.trace listenMsg) {k k' n n' : Nat} {i i' : ι}
    {challenge : ReceiveChallenge} (h : SendsFile fw a.trace k n i challenge)
    (h' : SendsFile fw a.trace k' n' i' challenge) : k = k' := by
  have hdraws : ∀ {k n i}, SendsFile fw a.trace k n i challenge →
      ∃ j bytes, a.trace[j]? = some (.answer n (drewNonce bytes).1 (drewNonce bytes).2) ∧
        Draws a.trace listenMsg j challenge.targetNonce := by
    rintro k n i ⟨frame, s, proof, slot, contents, hstart, hreleases, -⟩
    obtain ⟨bytes, hmem, hnonce⟩ := hreleases.drawn
    obtain ⟨j, -, hj⟩ := Sessions.mem_history_take hmem
    exact ⟨j, bytes, hj, n, i, frame, s, bytes, hstart, hreleases.command, hj, hnonce⟩
  have honce : ∀ {k k' i i'}, SendsFile fw a.trace k n i challenge →
      SendsFile fw a.trace k' n i' challenge → ¬ k < k' := by
    rintro k k' i i' ⟨frame, s, proof, slot, contents, -, -, hissue⟩
      ⟨frame', s', proof', slot', contents', -, hreleases', hissue'⟩ hlt
    obtain ⟨x, hx⟩ := sent_before run hlt hissue hissue'
    rw [hreleases'.before] at hx
    -- Before the file, a session has sent a challenge only, which is shorter.
    simp only [List.mem_cons, List.not_mem_nil, or_false] at hx
    obtain heq | heq | heq := hx
    · cases congrArg (fun act : Prog.Act Res => act.1) heq
    · have hpayload := congrArg (fun act : Prog.Act Res => act.1) heq
      obtain ⟨-, -, hpayload⟩ := Op.send.inj hpayload
      have hlen := congrArg List.length hpayload
      simp at hlen
    · cases congrArg (fun act : Prog.Act Res => act.1) heq
  obtain ⟨j, bytes, hj, hdraw⟩ := hdraws h
  obtain ⟨j', bytes', hj', hdraw'⟩ := hdraws h'
  obtain rfl := hnonces j j' _ hdraw hdraw'
  have hevent := Option.some.inj (hj.symm.trans hj')
  obtain rfl : n = n' := by
    injection hevent
  obtain hlt | heq | hlt := Nat.lt_trichotomy k k'
  · exact (honce h h' hlt).elim
  · exact heq
  · exact (honce h' h hlt).elim

/-- Session `m` authorises the release that is event `k`: it has proved the challenge before. -/
def Authorises (fw : ι → Firmware) (t : List (DeviceEvent ι)) (m k : Nat) : Prop :=
  ∃ challenge n i j d, SendsFile fw t k n i challenge ∧ j < k ∧ ProvesFile fw t j m d challenge

/-- Injective agreement of the handshake: each release of a listener is authorised by a session of
    `receive` that has signed its very challenge, and with the nonces of the targets distinct a
    session authorises one release at most. -/
theorem handshake_agreement (hdev : SameSecrets fw P root)
    (run : Sessions.Run (deviceCode fw) a) (hunforged : Unforged P root a.trace)
    (hdiffer : TagsDiffer fw P root a.trace) :
    (∀ k n i challenge, SendsFile fw a.trace k n i challenge →
      ∃ j < k, ∃ m d, ProvesFile fw a.trace j m d challenge ∧ Authorises fw a.trace m k) ∧
    (NoncesDiffer a.trace listenMsg → ∀ m k k', Authorises fw a.trace m k →
      Authorises fw a.trace m k' → k = k') := by
  constructor
  · intro k n i challenge hsends
    obtain ⟨j, hj, m, d, hproves⟩ := sendsFile_authorised hdev run hunforged hdiffer hsends
    exact ⟨j, hj, m, d, hproves, challenge, n, i, j, d, hsends, hj, hproves⟩
  · rintro hnonces m k k' ⟨challenge, n, i, j, d, hsends, -, hproves⟩
      ⟨challenge', n', i', j', d', hsends', -, hproves'⟩
    obtain rfl := provesFile_unique run hproves hproves'
    exact sendsFile_unique run hnonces hsends hsends'

/-- Whatever the attacker does, a packet with a file answers a challenge that some device has
    proved: at the request of its host, who knew the PIN, with a nonce it has drawn itself, and
    with the right to receive files of the group. When the nonces of the targets are distinct,
    one such session lets one file out at most. -/
theorem transfer_agreement (hdev : SameSecrets fw P root)
    (run : Sessions.Run (deviceCode fw) a) (hunforged : Unforged P root a.trace)
    (hdiffer : TagsDiffer fw P root a.trace) :
    (∀ k n payload, a.trace[k]? = some (.issue n (.send .transfer receiveMsg payload)) →
      payload.length = ReceiveResponse.codec.size →
      ∃ i challenge, SendsFile fw a.trace k n i challenge ∧
        ∃ j < k, ∃ m i', ProvesFile fw a.trace j m i' challenge) ∧
    (NoncesDiffer a.trace listenMsg →
      ∀ k k' n n' i i' challenge challenge' j j' m d d',
        SendsFile fw a.trace k n i challenge → SendsFile fw a.trace k' n' i' challenge' →
        ProvesFile fw a.trace j m d challenge → ProvesFile fw a.trace j' m d' challenge' →
        k = k') := by
  refine ⟨fun k n payload hissue hlen => ?_, ?_⟩
  · obtain ⟨i, challenge, hsends⟩ := sendsFile_of_issue run hissue hlen
    exact ⟨i, challenge, hsends, sendsFile_authorised hdev run hunforged hdiffer hsends⟩
  · intro hnonces k k' n n' i i' challenge challenge' j j' m d d' h h' hproves hproves'
    obtain rfl := provesFile_unique run hproves hproves'
    exact sendsFile_unique run hnonces h h'

end

/-- The frames of a host that asks for the file in slot 0, and of one that offers it. -/
def sampleReceiveFrame : HostFrame := ⟨.ok, receiveMsg, ascii "a1b2c3" ++ [0, 1]⟩
def sampleListenFrame : HostFrame := ⟨.ok, listenMsg, []⟩

/-- The challenge of the target. -/
def sampleChallenge : ReceiveChallenge := ⟨0, 1, drawnNonce fun _ => 0, drawnNonce fun _ => 0⟩

/-- The packets of the transfer. -/
def sampleTransfer : List LinkEvent :=
  receiveEvents sampleChallenge
    (signedProof .sample (toKey (Firmware.sample.globalSecrets.drop 97)) sampleChallenge)
    (fileResponse .sampleStored 0 sampleContents)

theorem sampleTransfer_requested : ∃ ram w,
    (receive .sample 8 (sampleReceive 0 1)).Says .sample .sample sampleTransfer 0 ram w := by
  have hpin : (sampleReceive 0 1).read 0 pinLength = ascii "a1b2c3" := by decide
  have hcontents := @take_contents_fileResponse .sampleStored 0 sampleContents sampleContents_fits
  obtain ⟨r, hsetup⟩ : ∃ r, (responseStore (fileResponse .sampleStored 0 sampleContents) 1
      (ascii "a1b2c3")).setup .sample 1 Ram.sample.gPinHash World.sample.drawn = some r := by
    refine ⟨sampleRecord 1 1, ?_⟩
    rw [StoreCommand.setup, responseStore, StoreCommand.request, hcontents]
    exact sampleRecord_setup 1 1 1
  have hfits : ¬ maxContentsSize < (UInt16.ofNat sampleContents.length).toNat := by
    rw [length_sampleContents]
    decide
  have htalks := @receive_talks .sample 8 (sampleReceive 0 1) .sample .sample _ _ sampleChallenge
    (fileResponse .sampleStored 0 sampleContents) 1 r Firmware.sample_gcmLaws (by decide)
    (by rw [hpin]; exact Ram.sample_pinCorrect) rfl Firmware.sample_rootSecret (by decide) rfl
    (by decide) ⟨hfits, by decide⟩ (by decide) (by rw [hpin]; exact hsetup)
  exact ⟨_, _, htalks⟩

theorem sampleTransfer_answered : ∃ ram w,
    (listen .sample).Says .sampleStored .sampleStored (sampleTransfer.map LinkEvent.dual) 0 ram
      w := by
  have hcontents := (blobReadAllGroupMask_reads World.sampleStored.flash .sampleStored 0 _ _ 0).gives.mp
    sampleStored_gives
  have hproves : ProvesReceive .sample sampleChallenge (signedProof .sample
      (toKey (Firmware.sample.globalSecrets.drop 97)) sampleChallenge) :=
    ⟨rfl, rfl, rfl, rfl, _, Firmware.sample_rootSecret, rfl⟩
  have hfresh : ¬ Ram.sampleStored.Replayed sampleChallenge.requesterNonce
      sampleChallenge.targetNonce sampleChallenge.groupId receiveMsg := by
    rintro ⟨i, hi⟩
    cases hi
  obtain ⟨ram, -, htalks⟩ := @listen_releases_talks .sample .sampleStored .sampleStored _
    sampleChallenge _ 0 sampleContents rfl (by decide) (by decide) rfl hproves hfresh hcontents
  exact ⟨ram, _, htalks⟩

/-- Two sample devices, the second with a file, on an honest wire. -/
theorem sampleTransfer_run : ∃ a : Sessions.State Bool HostFrame (Mem × Ram) Res,
    Sessions.Run (deviceCode fun _ => .sample) a ∧ HonestWire a.trace ∧
      Carries a.trace sampleTransfer ∧
      ∀ n i frame s, a.trace[n]? = some (.start i frame s) → frame.cmd = listenMsg → n = 1 := by
  obtain ⟨ram, w, hreceive⟩ := sampleTransfer_requested
  obtain ⟨ram', v, hlisten⟩ := sampleTransfer_answered
  obtain ⟨g, T, run, hwire, hcarries, T', hT, hunstarted⟩ := @handlers_exchange Bool _ (fun _ => .sample) _ _ false true
    sampleReceiveFrame sampleListenFrame .receive .listen (fun _ => 0, .sample)
    (fun _ => 0, .sampleStored) ram ram' _ w _ v _ 0 0
    (.init fun i => (fun _ => 0, if i then .sampleStored else .sample)) .nil (by decide) rfl rfl rfl
    rfl rfl rfl hreceive hlisten
  refine ⟨_, run, hwire, hcarries, ?_⟩
  intro n i frame s hn hcmd
  rw [List.nil_append, hT] at hn
  match n, hn with
  | 0, hn =>
    cases hn
    cases hcmd
  | 1, _ => rfl
  | n + 2, hn => exact (hunstarted i frame s (List.mem_of_getElem? hn)).elim

/-- The packets of this length in the transfer are its proof. -/
theorem sampleTransfer_proof {payload : Bytes} (hlen : payload.length = ReceiveProof.codec.size)
    (h : .sent receiveMsg payload ∈ sampleTransfer ∨ .got receiveMsg payload ∈ sampleTransfer) :
    payload = ReceiveProof.codec.encode (signedProof .sample
      (toKey (Firmware.sample.globalSecrets.drop 97)) sampleChallenge) := by
  simp only [sampleTransfer, receiveEvents, List.mem_cons, LinkEvent.sent.injEq, LinkEvent.got.injEq,
    reduceCtorEq, List.not_mem_nil, true_and, false_or, or_false] at h
  obtain (rfl | h) | (rfl | rfl) := h
  · simp at hlen
  · exact h
  · simp at hlen
  · simp at hlen

theorem sampleTransfer_tagsDiffer {a : Sessions.State Bool HostFrame (Mem × Ram) Res}
    (hwire : HonestWire a.trace) (hcarries : Carries a.trace sampleTransfer) (P : Primitives)
    (root : Key) : TagsDiffer (fun _ => .sample) P root a.trace := by
  have hfile : ∀ n cmd payload, .issue n (.send .transfer cmd payload) ∈ a.trace →
      cmd = receiveMsg := by
    intro n cmd payload hmem
    have h := hcarries.only n cmd payload hmem
    simp only [sampleTransfer, receiveEvents, List.mem_cons, LinkEvent.sent.injEq,
      LinkEvent.got.injEq, reduceCtorEq, List.not_mem_nil, false_or, or_false] at h
    obtain (⟨h, -⟩ | ⟨h, -⟩) | (⟨h, -⟩ | ⟨h, -⟩) := h <;> exact h
  have hproof : ∀ n (proof : ReceiveProof), .issue n (.send .transfer receiveMsg
      (ReceiveProof.codec.encode proof)) ∈ a.trace → proof = signedProof .sample
        (toKey (Firmware.sample.globalSecrets.drop 97)) sampleChallenge := by
    intro n proof hmem
    exact Codec.encode_injective _
      (sampleTransfer_proof (by simp) (hcarries.only n receiveMsg _ hmem))
  rintro m m' hsigned haccepted -
  have hm : m = .file sampleChallenge := by
    cases m with
    | file challenge =>
      obtain ⟨k, n, i, frame, s, r, -, -, hissue⟩ := hsigned
      rw [signedProof_injective (hproof n _ (List.mem_of_getElem? hissue))]
    | list challenge groupId =>
      obtain ⟨k, n, i, ⟨frame, s, r, -, -, hissue⟩, -⟩ := hsigned
      cases hfile n _ _ (List.mem_of_getElem? hissue)
  have hm' : m' = .file sampleChallenge := by
    cases m' with
    | file challenge =>
      obtain ⟨k, n, i, frame, s, proof, slot, contents, -, hreleases, -⟩ := haccepted
      -- The proof that was accepted has been on the wire before.
      have hgot : gotPacket ReceiveProof.codec.size receiveMsg (ReceiveProof.codec.encode proof) ∈
          History.onLink (history n (a.trace.take k)) := by
        rw [hreleases.before]
        simp
      obtain ⟨j, -, hj⟩ := Sessions.mem_history_take (List.mem_of_mem_filter hgot)
      obtain ⟨j', -, n', hissue⟩ := hwire j n _ _ _ hj
      have heq := hproof n' proof (List.mem_of_getElem? hissue)
      obtain ⟨slot', groupId', nr', nt'⟩ := challenge
      have hslot := hreleases.proves.slot
      have hgroup := hreleases.proves.groupId
      have hnr := hreleases.proves.requesterNonce
      have hnt := hreleases.proves.targetNonce
      rw [heq] at hslot hgroup hnr hnt
      cases hslot
      cases hgroup
      cases hnr
      cases hnt
      rfl
    | list challenge groupId =>
      obtain ⟨k, n, i, groups, ⟨frame, s, proof, -, -, -, hissue⟩, -⟩ := haccepted
      cases hfile n _ _ (List.mem_of_getElem? hissue)
  rw [hm, hm']

theorem sample_sameSecrets : SameSecrets (fun _ : Bool => .sample) Firmware.sample.prim
    (toKey (Firmware.sample.globalSecrets.drop 97)) :=
  ⟨fun _ => rfl, fun _ _ hr => Option.some.inj (hr.symm.trans Firmware.sample_rootSecret)⟩

/-- The target sends its file, as some event. -/
theorem sampleTransfer_issued {a : Sessions.State Bool HostFrame (Mem × Ram) Res}
    (hcarries : Carries a.trace sampleTransfer) : ∃ k n : Nat,
      a.trace[k]? = some (.issue n (.send .transfer receiveMsg
        (ReceiveResponse.codec.encode (fileResponse .sampleStored 0 sampleContents)))) := by
  obtain ⟨n, hmem⟩ := hcarries.all receiveMsg
    (ReceiveResponse.codec.encode (fileResponse .sampleStored 0 sampleContents))
    (.inr (by simp [sampleTransfer, receiveEvents]))
  obtain ⟨k, hissue⟩ := List.mem_iff_getElem?.mp hmem
  exact ⟨k, n, hissue⟩

/-- A file is sent in such a run, authorised by a session that authorises no other release. -/
theorem handshake_agreement_sample : ∃ a : Sessions.State Bool HostFrame (Mem × Ram) Res,
    Sessions.Run (deviceCode fun _ => .sample) a ∧
    ∃ k n i challenge, SendsFile (fun _ => .sample) a.trace k n i challenge ∧
      ∃ m, Authorises (fun _ => .sample) a.trace m k ∧
        ∀ k', Authorises (fun _ => .sample) a.trace m k' → k' = k := by
  obtain ⟨a, run, hwire, hcarries, hone⟩ := sampleTransfer_run
  obtain ⟨hauthorised, honce⟩ := handshake_agreement sample_sameSecrets run
    (hwire.unforged _ _) (sampleTransfer_tagsDiffer hwire hcarries _ _)
  obtain ⟨k, n, hissue⟩ := sampleTransfer_issued hcarries
  obtain ⟨i, challenge, hsends⟩ := sendsFile_of_issue run hissue (by simp)
  obtain ⟨j, hj, m, d, hproves, hauth⟩ := hauthorised k n i challenge hsends
  refine ⟨a, run, k, n, i, challenge, hsends, m, hauth, ?_⟩
  intro k' hauth'
  exact honce (noncesDiffer_of_target run hone) m k' k hauth' hauth

/-- A file is sent in such a run, and its requester has proved the challenge. It is the only file
    that is sent for it. -/
theorem transfer_agreement_sample : ∃ a : Sessions.State Bool HostFrame (Mem × Ram) Res,
    Sessions.Run (deviceCode fun _ => .sample) a ∧
    ∃ k n i challenge, SendsFile (fun _ => .sample) a.trace k n i challenge ∧
      (∃ j < k, ∃ m i', ProvesFile (fun _ => .sample) a.trace j m i' challenge) ∧
      ∀ k' n' i', SendsFile (fun _ => .sample) a.trace k' n' i' challenge → k' = k := by
  obtain ⟨a, run, hwire, hcarries, hone⟩ := sampleTransfer_run
  obtain ⟨hauthorised, honce⟩ := transfer_agreement sample_sameSecrets run
    (hwire.unforged _ _) (sampleTransfer_tagsDiffer hwire hcarries _ _)
  obtain ⟨k, n, hissue⟩ := sampleTransfer_issued hcarries
  obtain ⟨i, challenge, hsends, j, hj, m, i', hproves⟩ := hauthorised k n _ hissue (by simp)
  refine ⟨a, run, k, n, i, challenge, hsends, ⟨j, hj, m, i', hproves⟩, ?_⟩
  intro k' n' d hsends'
  exact honce (noncesDiffer_of_target run hone) k' k n' n d i challenge challenge j j m i' i' hsends'
    hsends hproves hproves
