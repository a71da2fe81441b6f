-- SUMMARY: The permissions of a device against the string it was built with: the first entry of a group decides, but every row is proved to a peer.
import HsmFirmware.Firmware.Release
import HsmFirmware.Firmware.Secrets
import HsmFirmware.Specs.Exchange
import HsmFirmware.Specs.Listen

/-!
# Permissions

A permission string may name a group more than once. `validate_permission` looks at the first row
of the group, and `interrogate` signs a proof for every row. The two agree with each other, and
with the string, exactly if the first entry of each group grants whatever a later one does.
-/

/-- The permission a row gives. -/
def GroupPermission.grants (row : GroupPermission) : PermissionEnum → Bool
  | .permRead => row.read
  | .permWrite => row.write
  | .permReceive => row.receive

/-- The permission an entry gives. -/
def PermissionEntry.grants (e : PermissionEntry) : PermissionEnum → Bool
  | .permRead => e.read
  | .permWrite => e.write
  | .permReceive => e.receive

theorem PermissionEntry.grants_row (e : PermissionEntry) (perm : PermissionEnum) :
    e.permission.row.grants perm = e.grants perm := by
  cases perm <;> rfl

/-- The firmware built with a table. -/
def Firmware.withPermissions (fw : Firmware) (table : Fin 8 → GroupPermission) : Firmware :=
  { fw with globalPermissions := table }

/-- Asked by its host, `interrogate` answers this challenge of a peer with the proof. -/
def InterrogateSends (fw : Firmware) (challenge : InterrogateChallenge) (proof : InterrogateProof) :
    Prop :=
  ∀ pktLen buf ram w draw list, ¬ pktLen < 6 → PinCorrect fw ram (buf.read 0 pinLength) →
    w.rng w.draws = some draw → challenge.requesterNonce = drawnNonce draw →
    list.length ≤ listResponseSize →
      (interrogate fw pktLen buf).Says ram w (interrogateEvents challenge proof list)
        (w.acks.headD .ok).toInt (ram.setFails 0)
        ((w.after (gateOps ram)).drawn.answered ⟨.control, interrogateMsg, list⟩)

/-- The proof has an entry for the group, whose tag verifies for the challenge. -/
def SignedFor (fw : Firmware) (root : Key) (challenge : InterrogateChallenge) (groupId : UInt16)
    (proof : InterrogateProof) : Prop :=
  ∃ entry ∈ proof.groups, entry.groupId = groupId ∧
    secureCryptoReceiveProofVerify fw.prim root groupId (interrogateProofMessage challenge groupId)
      entry.proof = true

/-- The table says what the string says, to `validate_permission` as to a peer. -/
structure PermissionsMean (fw : Firmware) (entries : List PermissionEntry) : Prop where
  /-- A group has the permissions its entries grant. -/
  granted : ∀ groupId perm, validatePermission fw groupId perm = true ↔
    ∃ e ∈ entries, e.groupId = groupId ∧ e.grants perm = true
  /-- What `interrogate` answers with is signed for the groups that may receive. -/
  signed : ∀ root challenge, securityGetRootSecret fw = some root → ∃ proof,
    InterrogateSends fw challenge proof ∧ ∀ groupId,
      SignedFor fw root challenge groupId proof ↔ validatePermission fw groupId .permReceive = true
  /-- Rows behind those of the entries grant nothing. -/
  unused : ∀ i : Fin 8, entries.length ≤ i → ∀ perm, (fw.globalPermissions i).grants perm = false

/-- The first entry of a group grants whatever an entry of the group grants. -/
def FirstGrantsAll (entries : List PermissionEntry) : Prop :=
  ∀ e ∈ entries, ∀ perm, e.grants perm = true →
    (entries.find? fun first => first.groupId == e.groupId).any fun first => first.grants perm

/-! ## Rows -/

/-- The row of the table, and zero behind them. -/
def tableOf (entries : List PermissionEntry) : Fin 8 → GroupPermission :=
  fun i => (entries.map fun e => e.permission.row).getD i ⟨0, false, false, false⟩

theorem map_tableOf {entries : List PermissionEntry} (hlen : entries.length ≤ 8) :
    (List.finRange 8).map (tableOf entries) =
      (entries.map fun e => e.permission.row) ++
        List.replicate (8 - entries.length) ⟨0, false, false, false⟩ := by
  apply List.ext_getElem
  · simp
    omega
  · intro i h₁ h₂
    rw [List.getElem_map]
    unfold tableOf
    by_cases hi : i < entries.length
    · rw [List.getElem_append_left (by simpa using hi), List.getD_eq_getElem _ _ (by simpa using hi)]
      simp
    · rw [List.getElem_append_right (by simpa using hi), List.getD_eq_default _ _ (by simpa using hi),
        List.getElem_replicate]

/-- The first row of the group, if it grants the permission. -/
theorem validatePermission_eq (fw : Firmware) (groupId : UInt16) (perm : PermissionEnum) :
    validatePermission fw groupId perm =
      (((List.finRange 8).map fw.globalPermissions).find? fun row => row.groupId == groupId).any
        fun row => row.grants perm := by
  unfold validatePermission
  rw [List.find?_map]
  show _ = Option.any _ (((List.finRange 8).find? fun i =>
    (fw.globalPermissions i).groupId == groupId).map fw.globalPermissions)
  cases (List.finRange 8).find? fun i => (fw.globalPermissions i).groupId == groupId with
  | none => rfl
  | some i => cases perm <;> rfl

/-- The first entry of the group, if it grants the permission: the zero rows make no difference. -/
theorem validatePermission_tableOf (fw : Firmware) {entries : List PermissionEntry}
    (hlen : entries.length ≤ 8) (groupId : UInt16) (perm : PermissionEnum) :
    validatePermission (fw.withPermissions (tableOf entries)) groupId perm =
      (entries.find? fun e => e.groupId == groupId).any fun e => e.grants perm := by
  have hzero : ((List.replicate (8 - entries.length) ⟨0, false, false, false⟩).find?
      fun row : GroupPermission => row.groupId == groupId).any (fun row => row.grants perm) = false := by
    cases hfind : (List.replicate (8 - entries.length) ⟨0, false, false, false⟩).find?
      fun row : GroupPermission => row.groupId == groupId with
    | none => rfl
    | some row =>
      rw [(List.mem_replicate.mp (List.mem_of_find?_eq_some hfind)).2]
      cases perm <;> rfl
  rw [validatePermission_eq]
  show Option.any _ (List.find? _ ((List.finRange 8).map (tableOf entries))) = _
  rw [map_tableOf hlen, List.find?_append, List.find?_map]
  show Option.any _ (((entries.find? fun e => e.groupId == groupId).map
    fun e => e.permission.row).or _) = _
  cases entries.find? fun e => e.groupId == groupId with
  | none => exact hzero
  | some e => exact e.grants_row perm

theorem interrogateSends (fw : Firmware) {root : Key} (hroot : securityGetRootSecret fw = some root)
    (challenge : InterrogateChallenge) : InterrogateSends fw challenge
      (interrogateProof challenge (interrogateGroupProofs fw root challenge)) := by
  intro pktLen buf ram w draw list hlen hpin hdraw hnonce hlist
  exact interrogate_talks hlen hpin hdraw hroot hnonce hlist

/-- The groups that are proved: those of any entry that grants receiving. -/
theorem signedFor_tableOf (fw : Firmware) {entries : List PermissionEntry}
    (hlen : entries.length ≤ 8) (root : Key) (challenge : InterrogateChallenge) (groupId : UInt16) :
    SignedFor (fw.withPermissions (tableOf entries)) root challenge groupId
        (interrogateProof challenge (interrogateGroupProofs
          (fw.withPermissions (tableOf entries)) root challenge)) ↔
      ∃ e ∈ entries, e.groupId = groupId ∧ e.grants .permReceive = true := by
  have hrows : ∀ row, row ∈ (List.finRange 8).map (tableOf entries) ∧ row.receive = true ↔
      ∃ e ∈ entries, e.permission.row = row ∧ e.receive = true := by
    intro row
    rw [map_tableOf hlen, List.mem_append, List.mem_map]
    constructor
    · rintro ⟨⟨e, he, rfl⟩ | hrow, hreceive⟩
      · exact ⟨e, he, rfl, hreceive⟩
      · rw [(List.mem_replicate.mp hrow).2] at hreceive
        cases hreceive
    · rintro ⟨e, he, rfl, hreceive⟩
      exact ⟨.inl ⟨e, he, rfl⟩, hreceive⟩
  rw [SignedFor, groups_interrogateProof _ (length_interrogateGroupProofs _ _ _)]
  constructor
  · rintro ⟨entry, hproof, rfl, -⟩
    obtain ⟨i, hi, rfl⟩ := List.mem_map.mp hproof
    obtain ⟨e, he, hrow, hreceive⟩ := (hrows (tableOf entries i)).mp
      ⟨List.mem_map_of_mem (List.mem_finRange i), (List.mem_filter.mp hi).2⟩
    exact ⟨e, he, congrArg GroupPermission.groupId hrow, hreceive⟩
  · rintro ⟨e, he, rfl, hreceive⟩
    obtain ⟨hmem, hrow⟩ := (hrows e.permission.row).mpr ⟨e, he, rfl, hreceive⟩
    obtain ⟨i, -, hi⟩ := List.mem_map.mp hmem
    have hgroup : (tableOf entries i).groupId = e.groupId := by
      rw [hi]
      rfl
    refine ⟨_, List.mem_map_of_mem (List.mem_filter.mpr ⟨List.mem_finRange i, ?_⟩), hgroup, ?_⟩
    · show (tableOf entries i).receive = true
      rw [hi]
      exact hrow
    · rw [← hgroup]
      exact secureCryptoReceiveProofVerify_iff.mpr rfl

/-! ## What the string means -/

/-- The table of a string means what the string says if and only if the first entry of each group
    grants whatever a later one grants. -/
theorem permissionsMean_iff (fw : Firmware) (entries : List PermissionEntry)
    (hpos : 0 < entries.length) (hlen : entries.length ≤ 8) :
    ∃ table, buildPermissions (permissionString entries) = some table ∧
      (PermissionsMean (fw.withPermissions table) entries ↔ FirstGrantsAll entries) := by
  refine ⟨tableOf entries, buildPermissions_eq (List.ne_nil_of_length_pos hpos) hlen, ?_⟩
  constructor
  · intro hmean e he perm hgrants
    rw [← validatePermission_tableOf fw hlen]
    exact (hmean.granted e.groupId perm).mpr ⟨e, he, rfl, hgrants⟩
  · intro hfirst
    have hgranted : ∀ groupId perm,
        validatePermission (fw.withPermissions (tableOf entries)) groupId perm = true ↔
          ∃ e ∈ entries, e.groupId = groupId ∧ e.grants perm = true := by
      intro groupId perm
      rw [validatePermission_tableOf fw hlen]
      constructor
      · intro h
        obtain ⟨e, hfind, hgrants⟩ := (Option.any_eq_true _ _).mp h
        have hgroup := List.find?_some (p := fun e : PermissionEntry => e.groupId == groupId) hfind
        exact ⟨e, List.mem_of_find?_eq_some hfind, beq_iff_eq.mp hgroup, hgrants⟩
      · rintro ⟨e, he, rfl, hgrants⟩
        exact hfirst e he perm hgrants
    refine ⟨hgranted, fun root challenge hroot => ?_, fun i hi perm => ?_⟩
    · refine ⟨_, interrogateSends _ hroot challenge, fun groupId => ?_⟩
      rw [hgranted, signedFor_tableOf fw hlen]
    · show (tableOf entries i).grants perm = false
      unfold tableOf
      rw [List.getD_eq_default _ _ (by simpa using hi)]
      cases perm <;> rfl

/-- Some permissions for group 0x1234. -/
def sampleEntry (read write receive : Bool) : PermissionEntry :=
  ⟨#v['1', '2', '3', '4'], List.all_eq_true.mp (by decide), read, write, receive⟩

/-- The group is read by one entry, received by another. -/
def splitEntries : List PermissionEntry :=
  [sampleEntry true false false, sampleEntry false false true]

/-- Read and received by one entry, only read by the next. -/
def nestedEntries : List PermissionEntry :=
  [sampleEntry true false true, sampleEntry true false false]

/-- The string `1234=R--:1234=--C` grants receiving, which `validate_permission` does not see, but
    for which a proof is signed. -/
theorem permissionsMean_fails : ∃ table root proof,
    buildPermissions "1234=R--:1234=--C".toList = some table ∧
    validatePermission (Firmware.sample.withPermissions table) 0x1234 .permReceive = false ∧
    (∃ e ∈ splitEntries, e.groupId = 0x1234 ∧ e.grants .permReceive = true) ∧
    InterrogateSends (Firmware.sample.withPermissions table) ⟨0, 0⟩ proof ∧
    SignedFor (Firmware.sample.withPermissions table) root ⟨0, 0⟩ 0x1234 proof := by
  have hstring : "1234=R--:1234=--C".toList = permissionString splitEntries := by decide
  have hroot : ∀ table, securityGetRootSecret (Firmware.sample.withPermissions table) =
      some (toKey (Firmware.sample.globalSecrets.drop 97)) := fun _ => Firmware.sample_rootSecret
  generalize toKey (Firmware.sample.globalSecrets.drop 97) = root at hroot
  refine ⟨tableOf splitEntries, root, _, ?_, ?_, ?_, interrogateSends _ (hroot _) ⟨0, 0⟩, ?_⟩
  · rw [hstring]
    exact buildPermissions_eq nofun (by decide)
  · rw [validatePermission_tableOf _ (by decide)]
    decide
  · exact ⟨splitEntries[1], List.getElem_mem _, by decide, by decide⟩
  · apply (signedFor_tableOf Firmware.sample (by decide) _ _ _).mpr
    exact ⟨splitEntries[1], List.getElem_mem _, by decide, by decide⟩

/-- The string of these permissions and one that names the group twice in the other order. -/
theorem permissionsMean_iff_sample :
    (∃ table, buildPermissions (permissionString splitEntries) = some table ∧
      (PermissionsMean (Firmware.sample.withPermissions table) splitEntries ↔
        FirstGrantsAll splitEntries)) ∧
    ∃ table, buildPermissions (permissionString nestedEntries) = some table ∧
      (PermissionsMean (Firmware.sample.withPermissions table) nestedEntries ↔
        FirstGrantsAll nestedEntries) :=
  ⟨permissionsMean_iff Firmware.sample splitEntries (by decide) (by decide),
    permissionsMean_iff Firmware.sample nestedEntries (by decide) (by decide)⟩
