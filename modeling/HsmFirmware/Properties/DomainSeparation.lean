-- SUMMARY: No two different derivations of the key hierarchy give the same value, unless the MAC collides on what they compute.
import HsmFirmware.Firmware.Release

/-!
# Domain separation

Every key, flag, tag and signature is one MAC under a key that is the root secret, a salt, or
another derived value. If the MACs that two derivations compute do not collide, and give neither
the root secret nor a salt, the two values differ. Collisions are taken on the padded key, where
the salt of group 0 is the default salt.
-/

/-- The labels of the keys of a group. -/
inductive GroupLabel where
  | fileEnc
  | xferRoot
  | writerSeed
  | recvSeed
  deriving DecidableEq

def GroupLabel.text : GroupLabel → String
  | .fileEnc => "file_enc_v1"
  | .xferRoot => "xfer_root_v1"
  | .writerSeed => "writer_sign_seed_v1"
  | .recvSeed => "recv_sign_seed_v1"

/-- The two parties that sign. -/
inductive Signer where
  | writer
  | receiver
  deriving DecidableEq

def Signer.label : Signer → GroupLabel
  | .writer => .writerSeed
  | .receiver => .recvSeed

theorem GroupLabel.text_injective {label label' : GroupLabel}
    (h : ascii label.text = ascii label'.text) : label = label' := by
  revert h
  cases label <;> cases label' <;> decide

theorem Signer.label_injective {signer signer' : Signer} (h : signer.label = signer'.label) :
    signer = signer' := by
  revert h
  cases signer <;> cases signer' <;> decide

/-- What is derived from the root secret, with the intermediate keys. -/
inductive KeyDerivation where
  | groupPrk (groupId : UInt16)
  | groupKey (groupId : UInt16)
  | labelPrk (groupId : UInt16)
  | groupSubkey (label : GroupLabel) (groupId : UInt16)
  | pinMacKey
  | bootFlag
  | pinHash (pin : Bytes)
  | chunkKey (groupId : UInt16) (chunkIdx : UInt32)
  | blobTag (groupId : UInt16) (tags : Bytes)
  | signature (signer : Signer) (groupId : UInt16) (message : Bytes)
  deriving DecidableEq

namespace KeyDerivation

section Values

variable (P : Primitives) (root : Key)

/-- The values, as the firmware computes them. -/
def value : KeyDerivation → Digest
  | groupPrk groupId => hkdfExtractSha256 P (some (Codec.u16.encode groupId)) root.toList
  | groupKey groupId => deriveGroupKey P root groupId
  | labelPrk groupId => hkdfExtractSha256 P none (deriveGroupKey P root groupId).toList
  | groupSubkey .fileEnc groupId => secureCryptoDeriveFileEncKey P root groupId
  | groupSubkey .xferRoot groupId => secureCryptoDeriveXferRootKey P root groupId
  | groupSubkey .writerSeed groupId => secureCryptoDeriveWriterSeed P root groupId
  | groupSubkey .recvSeed groupId => secureCryptoDeriveRecvSeed P root groupId
  | pinMacKey => secureCryptoDerivePinMacKey P root
  | bootFlag => P.hmac root.toList (ascii "ectf_boot_flag_v1")
  | pinHash pin => P.hmac (secureCryptoDerivePinMacKey P root).toList pin
  | chunkKey groupId chunkIdx =>
    secureCryptoDeriveChunkKey P (secureCryptoDeriveFileEncKey P root groupId) chunkIdx
  | blobTag groupId tags =>
    P.hmac (secureCryptoDeriveFileEncKey P root groupId).toList (P.sha256 tags).toList
  | signature .writer groupId message => secureCryptoWriterSign P root groupId message
  | signature .receiver groupId message => secureCryptoReceiveProofSign P root groupId message

/-- What is told apart of a derivation: of a message that is hashed first, its digest. -/
def hashed : KeyDerivation → KeyDerivation
  | blobTag groupId tags => blobTag groupId (P.sha256 tags).toList
  | signature signer groupId message => signature signer groupId (P.sha256 message).toList
  | d => d

end Values

/-! ## Last MACs -/

/-- The key of the last MAC. -/
inductive Source where
  | master
  | salt (groupId : UInt16)
  | noSalt
  | derived (d : KeyDerivation)

def source : KeyDerivation → Source
  | groupPrk groupId => .salt groupId
  | groupKey groupId => .derived (groupPrk groupId)
  | labelPrk _ => .noSalt
  | groupSubkey _ groupId => .derived (labelPrk groupId)
  | pinMacKey | bootFlag => .master
  | pinHash _ => .derived pinMacKey
  | chunkKey groupId _ | blobTag groupId _ => .derived (groupSubkey .fileEnc groupId)
  | signature signer groupId _ => .derived (groupSubkey signer.label groupId)

/-- A key, filled with zeros to a block. -/
def pad64 (key : Bytes) : Bytes := key ++ List.replicate (64 - key.length) 0

section Macs

variable (P : Primitives) (root : Key)

def Source.bytes : Source → Bytes
  | .master => root.toList
  | .salt groupId => Codec.u16.encode groupId
  | .noSalt => List.replicate 32 0
  | .derived d => (d.value P root).toList

/-- The message of the last MAC. -/
def message : KeyDerivation → Bytes
  | groupPrk _ => root.toList
  | groupKey _ => ascii "group_root" ++ [1]
  | labelPrk groupId => (value P root (groupKey groupId)).toList
  | groupSubkey label _ => ascii label.text ++ [1]
  | pinMacKey => ascii "pin_mac_v1"
  | bootFlag => ascii "ectf_boot_flag_v1"
  | pinHash pin => pin
  | chunkKey _ chunkIdx => chunkInfo chunkIdx ++ [1]
  | blobTag _ tags => (P.sha256 tags).toList
  | signature _ _ message => (P.sha256 message).toList

/-- An expansion to one key is one MAC. -/
theorem toKey_hkdfExpandSha256 (prk info : Bytes) :
    toKey (hkdfExpandSha256 P prk info 32) = P.hmac prk (info ++ [1]) := by
  rw [hkdfExpandSha256_32]
  exact (Codec.bytes 32).decode_encode' _

theorem deriveGroupSubkey_eq (groupId : UInt16) (label : String) :
    deriveGroupSubkey P root groupId label =
      P.hmac (hkdfExtractSha256 P none (deriveGroupKey P root groupId).toList).toList
        (ascii label ++ [1]) := by
  unfold deriveGroupSubkey deriveKey
  exact toKey_hkdfExpandSha256 P _ _

theorem value_eq (d : KeyDerivation) :
    d.value P root = P.hmac (d.source.bytes P root) (d.message P root) := by
  cases d with
  | groupPrk groupId => rfl
  | groupKey groupId => exact toKey_hkdfExpandSha256 P _ _
  | labelPrk groupId => rfl
  | groupSubkey label groupId => cases label <;> exact deriveGroupSubkey_eq P root groupId _
  | pinMacKey => rfl
  | bootFlag => rfl
  | pinHash pin => rfl
  | chunkKey groupId chunkIdx => exact toKey_hkdfExpandSha256 P _ _
  | blobTag groupId tags => rfl
  | signature signer groupId message => cases signer <;> rfl

end Macs

/-! ## Collisions -/

/-- The derivation that another one starts from. -/
def parent : KeyDerivation → Option KeyDerivation
  | groupPrk _ | pinMacKey | bootFlag => none
  | groupKey groupId => some (groupPrk groupId)
  | labelPrk groupId => some (groupKey groupId)
  | groupSubkey _ groupId => some (labelPrk groupId)
  | pinHash _ => some pinMacKey
  | chunkKey groupId _ | blobTag groupId _ => some (groupSubkey .fileEnc groupId)
  | signature signer groupId _ => some (groupSubkey signer.label groupId)

/-- How many derivations come before. -/
def rank : KeyDerivation → Nat
  | groupPrk _ | pinMacKey | bootFlag => 0
  | groupKey _ | pinHash _ => 1
  | labelPrk _ => 2
  | groupSubkey _ _ => 3
  | chunkKey _ _ | blobTag _ _ | signature _ _ _ => 4

theorem rank_parent_lt {d p : KeyDerivation} (h : d.parent = some p) : p.rank < d.rank := by
  cases d <;> cases h <;> simp [rank]

/-- The MACs that are computed for a value, the last one first. -/
def macs (d : KeyDerivation) : List KeyDerivation :=
  match _ : d.parent with
  | none => [d]
  | some p => d :: macs p
termination_by d.rank
decreasing_by exact rank_parent_lt ‹_›

theorem macs_of_parent {d p : KeyDerivation} (h : d.parent = some p) : d.macs = d :: p.macs := by
  rw [macs]
  split
  · rename_i hnone
    rw [h] at hnone
    cases hnone
  · rename_i q hq
    rw [h] at hq
    cases hq
    rfl

theorem mem_macs_self (d : KeyDerivation) : d ∈ d.macs := by
  cases h : d.parent with
  | none =>
    rw [macs]
    split
    · exact List.mem_singleton_self d
    · exact List.mem_cons_self
  | some p =>
    rw [macs_of_parent h]
    exact List.mem_cons_self

theorem parent_mem_macs {d u p : KeyDerivation} (hd : d ∈ u.macs) (hp : d.parent = some p) :
    p ∈ u.macs := by
  induction hn : u.rank using Nat.strong_induction_on generalizing u with
  | _ n ih =>
    cases hu : u.parent with
    | none =>
      have hself : u.macs = [u] := by
        rw [macs]
        split
        · rfl
        · rename_i q hq
          rw [hu] at hq
          cases hq
      rw [hself] at hd
      rw [List.mem_singleton.mp hd, hu] at hp
      cases hp
    | some q =>
      rw [macs_of_parent hu] at hd ⊢
      rcases List.mem_cons.mp hd with rfl | hd
      · rw [hu] at hp
        cases hp
        exact List.mem_cons_of_mem _ (mem_macs_self p)
      · exact List.mem_cons_of_mem _ (ih q.rank (hn ▸ rank_parent_lt hu) hd rfl)

/-- The MACs of these derivations do not collide, on padded keys, and none is the root secret or a
    padded salt. -/
structure CollisionFree (P : Primitives) (root : Key) (D : List KeyDerivation) : Prop where
  inj : ∀ a ∈ D, ∀ b ∈ D, a.value P root = b.value P root →
    pad64 (a.source.bytes P root) = pad64 (b.source.bytes P root) ∧
      a.message P root = b.message P root
  master : ∀ a ∈ D, a.value P root ≠ root
  salt : ∀ a ∈ D, ∀ groupId, pad64 (a.value P root).toList ≠ pad64 (Codec.u16.encode groupId)

theorem pad64_inj {key key' : Bytes} (hlen : key.length = key'.length) (h : pad64 key = pad64 key') :
    key = key' :=
  (List.append_inj h hlen).1

/-- The salt of group 0 is no salt, once it is padded. -/
theorem pad64_zeros : pad64 (List.replicate 32 0) = pad64 (Codec.u16.encode 0) := by decide

/-! ## Separation -/

/-- Derivations with a common key and message are the same. -/
theorem hashed_eq_of_source {P : Primitives} {root : Key} {a b d : KeyDerivation}
    (ha : a.source = .derived d) (hb : b.source = .derived d)
    (hmsg : a.message P root = b.message P root) : a.hashed P = b.hashed P := by
  cases a with
  | groupPrk | labelPrk | pinMacKey | bootFlag => cases ha
  | groupKey groupId =>
    cases ha
    cases b <;> cases hb
    rfl
  | groupSubkey label groupId =>
    cases ha
    cases b with
    | groupSubkey label' groupId' =>
      cases hb
      rw [GroupLabel.text_injective (List.append_cancel_right hmsg)]
    | _ => cases hb
  | pinHash pin =>
    cases ha
    cases b with
    | pinHash pin' =>
      have hpin : pin = pin' := hmsg
      rw [hpin]
    | _ => cases hb
  | chunkKey groupId chunkIdx =>
    cases ha
    cases b with
    | chunkKey groupId' chunkIdx' =>
      cases hb
      rw [chunkInfo_injective (List.append_cancel_right hmsg)]
    | blobTag groupId' tags' =>
      -- A tag is over a digest of 32 bytes, an info string with its counter has 18.
      have hlen := congrArg List.length hmsg
      simp [message, length_chunkInfo] at hlen
    | signature signer groupId' message' => cases signer <;> cases hb
    | _ => cases hb
  | blobTag groupId tags =>
    cases ha
    cases b with
    | chunkKey groupId' chunkIdx' =>
      have hlen := congrArg List.length hmsg
      simp [message, length_chunkInfo] at hlen
    | blobTag groupId' tags' =>
      cases hb
      have htags : (P.sha256 tags).toList = (P.sha256 tags').toList := hmsg
      simp only [hashed, htags]
    | signature signer groupId' message' => cases signer <;> cases hb
    | _ => cases hb
  | signature signer groupId text =>
    cases ha
    cases b with
    | signature signer' groupId' text' =>
      obtain ⟨hlabel, hgroup⟩ := groupSubkey.inj (Source.derived.inj hb)
      have htext : (P.sha256 text).toList = (P.sha256 text').toList := hmsg
      simp only [hashed, htext, Signer.label_injective hlabel, hgroup]
    | chunkKey | blobTag => cases signer <;> cases hb
    | _ => cases hb

section

variable {P : Primitives} {root : Key} {D : List KeyDerivation}

/-- A derived key is no root secret and no salt. -/
theorem CollisionFree.derived (h : CollisionFree P root D) {d : KeyDerivation} (hd : d ∈ D)
    {s : Source} (hs : pad64 (d.value P root).toList = pad64 (s.bytes P root)) :
    ∃ d', s = .derived d' ∧ d.value P root = d'.value P root := by
  cases s with
  | master =>
    have hroot := pad64_inj (by simp [Source.bytes]) hs
    exact (h.master d hd (Vector.toList_inj.mp hroot)).elim
  | salt groupId => exact (h.salt d hd groupId hs).elim
  | noSalt => exact (h.salt d hd 0 (hs.trans pad64_zeros)).elim
  | derived d' =>
    exact ⟨d', rfl, Vector.toList_inj.mp (pad64_inj (by simp) hs)⟩

/-- What is derived from is not hashed. -/
theorem hashed_source {a d : KeyDerivation} (h : a.source = .derived d) : d.hashed P = d := by
  cases a <;> cases h <;> rfl

theorem parent_of_source {a d : KeyDerivation} (h : a.source = .derived d) : a.parent = some d := by
  cases a <;> cases h <;> rfl

/-- The last MACs under the root secret or a salt: they differ in the salt or in the message. -/
theorem hashed_eq_of_base (h : CollisionFree P root D) {a b : KeyDerivation}
    (hpad : pad64 (a.source.bytes P root) = pad64 (b.source.bytes P root))
    (hmsg : a.message P root = b.message P root) (ha : ∀ d, a.source ≠ .derived d)
    (hb : ∀ d, b.source ≠ .derived d)
    (hparent : ∀ p q, a.parent = some p → b.parent = some q → p.value P root = q.value P root →
      p.hashed P = q.hashed P)
    (hD : ∀ p, a.parent = some p ∨ b.parent = some p → p ∈ D) : a.hashed P = b.hashed P := by
  have hlen := congrArg List.length hmsg
  cases a with
  | groupPrk groupId =>
    cases b with
    | groupPrk groupId' =>
      have hsalt : Codec.u16.encode groupId = Codec.u16.encode groupId' :=
        pad64_inj ((Codec.u16.length_encode _).trans (Codec.u16.length_encode _).symm) hpad
      rw [Codec.u16.encode_injective hsalt]
    | labelPrk groupId' =>
      have hroot : root = value P root (groupKey groupId') := Vector.toList_inj.mp hmsg
      exact (h.master _ (hD _ (.inr rfl)) hroot.symm).elim
    | pinMacKey | bootFlag =>
      simp only [message, Vector.length_toList] at hlen
      exact absurd hlen (by decide)
    | _ => exact (hb _ rfl).elim
  | labelPrk groupId =>
    cases b with
    | groupPrk groupId' =>
      have hroot : value P root (groupKey groupId) = root := Vector.toList_inj.mp hmsg
      exact (h.master _ (hD _ (.inl rfl)) hroot).elim
    | labelPrk groupId' =>
      have hkey : value P root (groupKey groupId) = value P root (groupKey groupId') :=
        Vector.toList_inj.mp hmsg
      have hgroup := hparent _ _ rfl rfl hkey
      cases hgroup
      rfl
    | pinMacKey | bootFlag =>
      simp only [message, Vector.length_toList] at hlen
      exact absurd hlen (by decide)
    | _ => exact (hb _ rfl).elim
  | pinMacKey =>
    cases b with
    | groupPrk | labelPrk | bootFlag =>
      simp only [message, Vector.length_toList] at hlen
      exact absurd hlen (by decide)
    | pinMacKey => rfl
    | _ => exact (hb _ rfl).elim
  | bootFlag =>
    cases b with
    | groupPrk | labelPrk | pinMacKey =>
      simp only [message, Vector.length_toList] at hlen
      exact absurd hlen (by decide)
    | bootFlag => rfl
    | _ => exact (hb _ rfl).elim
  | _ => exact (ha _ rfl).elim

/-- On MACs that do not collide, derivations of one value are the same. -/
theorem hashed_eq_of_value (h : CollisionFree P root D)
    (hclosed : ∀ d ∈ D, ∀ p, d.parent = some p → p ∈ D) {a b : KeyDerivation} (ha : a ∈ D)
    (hb : b ∈ D)
    (hvalue : a.value P root = b.value P root) : a.hashed P = b.hashed P := by
  induction hn : a.rank using Nat.strong_induction_on generalizing a b with
  | _ n ih =>
    obtain ⟨hpad, hmsg⟩ := h.inj a ha b hb hvalue
    have hrank : ∀ p, a.parent = some p → p.rank < n := fun p hp => hn ▸ rank_parent_lt hp
    by_cases hsa : ∃ d, a.source = .derived d
    · obtain ⟨d, hd⟩ := hsa
      have hdD := hclosed a ha d (parent_of_source hd)
      rw [hd] at hpad
      obtain ⟨d', hd', hdd'⟩ := h.derived hdD hpad
      have hsame := ih d.rank (hrank d (parent_of_source hd)) hdD
        (hclosed b hb d' (parent_of_source hd')) hdd' rfl
      rw [hashed_source hd, hashed_source hd'] at hsame
      exact hashed_eq_of_source hd (hsame ▸ hd') hmsg
    · by_cases hsb : ∃ d, b.source = .derived d
      · obtain ⟨d, hd⟩ := hsb
        rw [hd] at hpad
        obtain ⟨d', hd', -⟩ := h.derived (hclosed b hb d (parent_of_source hd)) hpad.symm
        exact (hsa ⟨d', hd'⟩).elim
      · apply hashed_eq_of_base h hpad hmsg (fun d hd => hsa ⟨d, hd⟩) (fun d hd => hsb ⟨d, hd⟩)
        · intro p q hp hq hpq
          exact ih p.rank (hrank p hp) (hclosed a ha p hp) (hclosed b hb q hq) hpq rfl
        · rintro p (hp | hp)
          · exact hclosed a ha p hp
          · exact hclosed b hb p hp

end

end KeyDerivation

/-- The salts of different groups differ as padded keys. -/
theorem salt_injective {groupId groupId' : UInt16}
    (h : KeyDerivation.pad64 (Codec.u16.encode groupId) =
      KeyDerivation.pad64 (Codec.u16.encode groupId')) :
    groupId = groupId' :=
  Codec.u16.encode_injective (KeyDerivation.pad64_inj
    ((Codec.u16.length_encode _).trans (Codec.u16.length_encode _).symm) h)

theorem KeyDerivation.value_ne {P : Primitives} {root : Key} {u v : KeyDerivation}
    (h : CollisionFree P root (u.macs ++ v.macs)) (huv : u.hashed P ≠ v.hashed P) :
    u.value P root ≠ v.value P root := by
  intro hvalue
  apply huv
  apply hashed_eq_of_value h _ _ _ hvalue
  · intro d hd p hp
    exact List.mem_append.mpr ((List.mem_append.mp hd).imp
      (fun hd => parent_mem_macs hd hp) (fun hd => parent_mem_macs hd hp))
  · exact List.mem_append_left _ (mem_macs_self u)
  · exact List.mem_append_right _ (mem_macs_self v)

/-- If the MACs of two derivations do not collide, the derivations have different values, unless
    they are the same up to messages with one digest. A blob tag is never over the info string of a
    chunk, padding keeps the salts of groups apart, and what group 0 derives with its salt is not
    what is derived with no salt. -/
theorem derivations_separated (P : Primitives) (root : Key) :
    (∀ u v : KeyDerivation, KeyDerivation.CollisionFree P root (u.macs ++ v.macs) →
      u.hashed P ≠ v.hashed P → u.value P root ≠ v.value P root) ∧
    (∀ groupId chunkIdx tags, (KeyDerivation.chunkKey groupId chunkIdx).message P root ≠
      (KeyDerivation.blobTag groupId tags).message P root) ∧
    (∀ groupId groupId', KeyDerivation.pad64 (Codec.u16.encode groupId) =
      KeyDerivation.pad64 (Codec.u16.encode groupId') → groupId = groupId') ∧
    ∀ groupId, KeyDerivation.CollisionFree P root
        ((KeyDerivation.groupPrk 0).macs ++ (KeyDerivation.labelPrk groupId).macs) →
      (KeyDerivation.groupPrk 0).value P root ≠ (KeyDerivation.labelPrk groupId).value P root := by
  refine ⟨fun u v h huv => KeyDerivation.value_ne h huv, ?_, fun _ _ h => salt_injective h, ?_⟩
  · intro groupId chunkIdx tags h
    have hlen := congrArg List.length h
    simp [KeyDerivation.message, length_chunkInfo] at hlen
  · intro groupId h
    exact KeyDerivation.value_ne h nofun

/-- A byte that depends on all bytes of a string. -/
def checksum (bs : Bytes) : UInt8 := bs.foldl (fun sum b => sum * 31 + b) 7

/-- The primitives with a MAC of checksums, a mark and the message itself. -/
def Primitives.checking : Primitives :=
  { Primitives.copying with
    hmac := fun key msg => (Codec.bytes 32).decode (checksum key :: checksum msg :: 0xFF :: msg) }

/-- The root secret of the witness. -/
def sampleRoot : Key := .replicate 32 1

namespace KeyDerivation

theorem checking_marked (d : KeyDerivation) (root : Key) : (d.value .checking root)[2] = 0xFF := by
  rw [value_eq]
  simp [Primitives.checking, Codec.bytes]

theorem CollisionFree.mono {P : Primitives} {root : Key} {D D' : List KeyDerivation}
    (h : CollisionFree P root D') (hsub : D ⊆ D') : CollisionFree P root D where
  inj a ha b hb := h.inj a (hsub ha) b (hsub hb)
  master a ha := h.master a (hsub ha)
  salt a ha := h.salt a (hsub ha)

theorem macs_groupPrk (groupId : UInt16) : (groupPrk groupId).macs = [groupPrk groupId] := by
  rw [macs]
  rfl

theorem macs_labelPrk (groupId : UInt16) :
    (labelPrk groupId).macs = [labelPrk groupId, groupKey groupId, groupPrk groupId] := by
  rw [macs_of_parent (d := labelPrk groupId) rfl, macs_of_parent (d := groupKey groupId) rfl,
    macs_groupPrk]

theorem macs_chunkKey (groupId : UInt16) (chunkIdx : UInt32) :
    (chunkKey groupId chunkIdx).macs =
      chunkKey groupId chunkIdx :: groupSubkey .fileEnc groupId :: (labelPrk groupId).macs := by
  rw [macs_of_parent (d := chunkKey groupId chunkIdx) rfl,
    macs_of_parent (d := groupSubkey .fileEnc groupId) rfl]

/-- The MACs of the first chunk keys of two groups, and of what group 0 derives first. -/
def sampleMacs : List KeyDerivation :=
  [groupPrk 0, chunkKey 1 0, groupSubkey .fileEnc 1, labelPrk 1, groupKey 1, groupPrk 1,
    chunkKey 2 0, groupSubkey .fileEnc 2, labelPrk 2, groupKey 2, groupPrk 2]

theorem sampleMacs_values_nodup : (sampleMacs.map (value .checking sampleRoot)).Nodup := by
  simp only [sampleMacs, List.map, value_eq, source, Source.bytes, message]
  decide +kernel

theorem sampleMacs_collisionFree : CollisionFree .checking sampleRoot sampleMacs where
  inj a ha b hb h := by
    obtain rfl := List.inj_on_of_nodup_map sampleMacs_values_nodup ha hb h
    exact ⟨rfl, rfl⟩
  master a _ h := by
    have hmark := checking_marked a sampleRoot
    rw [h] at hmark
    exact absurd hmark (by decide)
  salt a _ groupId h := by
    have hthird : (pad64 (a.value .checking sampleRoot).toList)[2]? = some 0xFF := by
      rw [pad64, List.getElem?_append_left (by simp)]
      simp [checking_marked]
    rw [h] at hthird
    exact absurd hthird (by simp [pad64])

end KeyDerivation

/-- The keys of two groups differ, and what group 0 derives is not what is derived with no salt. -/
theorem derivations_separated_sample :
    (KeyDerivation.chunkKey 1 0).value .checking sampleRoot ≠
        (KeyDerivation.chunkKey 2 0).value .checking sampleRoot ∧
      (KeyDerivation.groupPrk 0).value .checking sampleRoot ≠
        (KeyDerivation.labelPrk 1).value .checking sampleRoot := by
  obtain ⟨hvalue, -, -, hzero⟩ := derivations_separated .checking sampleRoot
  constructor
  · refine hvalue _ _ (KeyDerivation.sampleMacs_collisionFree.mono ?_) (by decide)
    rw [KeyDerivation.macs_chunkKey, KeyDerivation.macs_chunkKey, KeyDerivation.macs_labelPrk,
      KeyDerivation.macs_labelPrk]
    decide
  · refine hzero 1 (KeyDerivation.sampleMacs_collisionFree.mono ?_)
    rw [KeyDerivation.macs_groupPrk, KeyDerivation.macs_labelPrk]
    decide
