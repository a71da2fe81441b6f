-- SUMMARY: secrets_to_c_header.py: from the permission string of a build to the rows of its permission table.
import HsmFirmware.Firmware.SecureDesign

/-!
# Permission strings

The permissions of a device are given as a string. A script reads it and writes the initialiser of
a C array of `MAX_PERMS` rows. The rows that the initialiser leaves out are zero.
-/

/-! ## Hexadecimal numbers -/

def hexDigitValue (c : Char) : Option Nat :=
  if '0' ≤ c ∧ c ≤ '9' then some (c.toNat - '0'.toNat)
  else if 'a' ≤ c ∧ c ≤ 'f' then some (c.toNat - 'a'.toNat + 10)
  else if 'A' ≤ c ∧ c ≤ 'F' then some (c.toNat - 'A'.toNat + 10)
  else none

/-- The number that digits stand for. `int(s, 16)` of Python gives it too, which also takes signs,
    blanks, underscores and a `0x` that permission strings do not have. -/
def hexNumber : List Char → Option Nat
  | [] => none
  | c :: cs => (c :: cs).foldlM (fun acc c => (hexDigitValue c).map (16 * acc + ·)) 0

/-! ## Reading the string -/

/-- `Permission`. -/
structure Permission where
  groupId : Nat
  read : Bool
  write : Bool
  receive : Bool

/-- `Permission.deserialize`: `none` for an exception. -/
def Permission.deserialize (perms : List Char) : Option Permission :=
  match perms.splitOn '=' with
  | [groupId, permString] => do
    let groupId ← hexNumber groupId
    let read ← permString[0]?
    let write ← permString[1]?
    let receive ← permString[2]?
    some ⟨groupId, read == 'R', write == 'W', receive == 'C'⟩
  | _ => none

/-- `PermissionList.deserialize`. -/
def PermissionList.deserialize (perms : List Char) : Option (List Permission) :=
  (perms.splitOn ':').mapM Permission.deserialize

/-! ## The initialiser -/

/-- The four expressions of a row of `GLOBAL_PERMISSIONS_INIT`. -/
structure InitRow where
  groupId : List Char
  read : List Char
  write : List Char
  receive : List Char

/-- `str(b).lower()` -/
def boolLiteral (b : Bool) : List Char := if b then "true".toList else "false".toList

/-- The rows that `secrets_to_c_header` writes, with the group as `hex` gives it. -/
def secretsToCHeader (permissions : List Permission) : List InitRow :=
  permissions.map fun perm =>
    ⟨'0' :: 'x' :: Nat.toDigits 16 perm.groupId, boolLiteral perm.read, boolLiteral perm.write,
      boolLiteral perm.receive⟩

/-- What a compiler makes of a hexadecimal constant for a `uint16_t`. -/
def cUint16 : List Char → Option UInt16
  | '0' :: 'x' :: digits => (hexNumber digits).map UInt16.ofNat
  | _ => none

/-- `true` and `false` of `stdbool.h`. -/
def cBool (expr : List Char) : Option Bool :=
  if expr = "true".toList then some true else if expr = "false".toList then some false else none

def InitRow.value (row : InitRow) : Option GroupPermission := do
  some ⟨← cUint16 row.groupId, ← cBool row.read, ← cBool row.write, ← cBool row.receive⟩

/-- An array of `MAX_PERMS` rows with an initialiser, which must not have more. -/
def initGlobalPermissions (rows : List InitRow) : Option (Fin 8 → GroupPermission) := do
  let rows ← rows.mapM InitRow.value
  if 8 < rows.length then none else some fun i => rows.getD i ⟨0, false, false, false⟩

/-- The permission table of a build. -/
def buildPermissions (perms : List Char) : Option (Fin 8 → GroupPermission) := do
  initGlobalPermissions (secretsToCHeader (← PermissionList.deserialize perms))

/-! ## The documented form -/

/-- An entry as it is documented: four hexadecimal digits and three permissions. -/
structure PermissionEntry where
  digits : Vector Char 4
  isHex : ∀ c ∈ digits.toList, (hexDigitValue c).isSome
  read : Bool
  write : Bool
  receive : Bool

/-- `<group_id>=<permission>` -/
def PermissionEntry.text (e : PermissionEntry) : List Char :=
  e.digits.toList ++ ['=', if e.read then 'R' else '-', if e.write then 'W' else '-',
    if e.receive then 'C' else '-']

def PermissionEntry.groupId (e : PermissionEntry) : UInt16 :=
  UInt16.ofNat ((hexNumber e.digits.toList).getD 0)

/-- `<perm1>:<perm2>:<perm3>` -/
def permissionString (entries : List PermissionEntry) : List Char :=
  [':'].intercalate (entries.map PermissionEntry.text)

/-! ## From the string to the table -/

theorem hexDigitValue_digitChar {d : Nat} (h : d < 16) : hexDigitValue d.digitChar = some d := by
  revert d
  decide

/-- Digits behind one another. -/
theorem foldlM_toDigits (n : Nat) :
    (Nat.toDigits 16 n).foldlM (fun acc c => (hexDigitValue c).map (16 * acc + ·)) 0 = some n := by
  induction n using Nat.strong_induction_on with
  | _ n ih =>
    rw [Nat.toDigits_eq_if (by decide)]
    split
    · rename_i hlt
      simp [hexDigitValue_digitChar hlt]
    · rename_i hge
      rw [List.foldlM_append, ih (n / 16) (by omega)]
      simp only [Option.bind_eq_bind, Option.bind_some, List.foldlM_cons, List.foldlM_nil,
        hexDigitValue_digitChar (Nat.mod_lt n (by decide : 16 > 0)), Option.map_some]
      exact congrArg some (Nat.div_add_mod n 16)

theorem hexNumber_toDigits (n : Nat) : hexNumber (Nat.toDigits 16 n) = some n := by
  have hne := @Nat.toDigits_ne_nil n 16
  have h := foldlM_toDigits n
  cases hdigits : Nat.toDigits 16 n with
  | nil => exact (hne hdigits).elim
  | cons c cs =>
    rw [hdigits] at h
    exact h

theorem cBool_boolLiteral (b : Bool) : cBool (boolLiteral b) = some b := by
  cases b <;> decide

/-- The row of an entry. -/
def Permission.row (perm : Permission) : GroupPermission :=
  ⟨UInt16.ofNat perm.groupId, perm.read, perm.write, perm.receive⟩

theorem value_secretsToCHeader (perms : List Permission) :
    (secretsToCHeader perms).mapM InitRow.value = some (perms.map Permission.row) := by
  induction perms with
  | nil => rfl
  | cons perm perms ih =>
    unfold secretsToCHeader at ih ⊢
    rw [List.map_cons, List.mapM_cons, ih]
    simp [InitRow.value, cUint16, hexNumber_toDigits, cBool_boolLiteral, Permission.row]

/-- Digits have a value. -/
theorem exists_hexNumber {cs : List Char} (hne : cs ≠ []) (h : ∀ c ∈ cs, (hexDigitValue c).isSome) :
    ∃ k, hexNumber cs = some k := by
  have hfold : ∀ acc, ∃ k,
      cs.foldlM (fun acc c => (hexDigitValue c).map (16 * acc + ·)) acc = some k := by
    clear hne
    induction cs with
    | nil => exact fun acc => ⟨acc, rfl⟩
    | cons c cs ih =>
      intro acc
      obtain ⟨d, hd⟩ := Option.isSome_iff_exists.mp (h c List.mem_cons_self)
      obtain ⟨k, hk⟩ := ih (fun c' hc' => h c' (List.mem_cons_of_mem c hc')) (16 * acc + d)
      refine ⟨k, ?_⟩
      rw [List.foldlM_cons, hd]
      exact hk
  cases cs with
  | nil => exact (hne rfl).elim
  | cons c cs => exact hfold 0

namespace PermissionEntry

/-- What the script makes of an entry. -/
def permission (e : PermissionEntry) : Permission :=
  ⟨(hexNumber e.digits.toList).getD 0, e.read, e.write, e.receive⟩

theorem hexNumber_digits (e : PermissionEntry) : ∃ k, hexNumber e.digits.toList = some k := by
  apply exists_hexNumber _ e.isHex
  intro h
  have hlen := e.digits.length_toList
  rw [h] at hlen
  cases hlen

theorem digit_ne (e : PermissionEntry) {c : Char} (hc : hexDigitValue c = none) :
    c ∉ e.digits.toList := by
  intro hmem
  have h := e.isHex c hmem
  rw [hc] at h
  cases h

theorem deserialize_text (e : PermissionEntry) :
    Permission.deserialize e.text = some e.permission := by
  have hsplit : e.text.splitOn '=' = [e.digits.toList, [if e.read then 'R' else '-',
      if e.write then 'W' else '-', if e.receive then 'C' else '-']] := by
    unfold text
    rw [List.splitOn_append_cons_self_of_not_mem (e.digit_ne rfl), List.splitOn_eq_singleton]
    cases e.read <;> cases e.write <;> cases e.receive <;> decide
  obtain ⟨k, hk⟩ := e.hexNumber_digits
  unfold Permission.deserialize permission
  rw [hsplit, hk]
  simp only [hk]
  cases e.read <;> cases e.write <;> cases e.receive <;> rfl

theorem colon_notMem_text (e : PermissionEntry) : ':' ∉ e.text := by
  unfold text
  rw [List.mem_append, not_or]
  refine ⟨e.digit_ne rfl, ?_⟩
  cases e.read <;> cases e.write <;> cases e.receive <;> decide

end PermissionEntry

theorem deserialize_permissionString {entries : List PermissionEntry} (hne : entries ≠ []) :
    PermissionList.deserialize (permissionString entries) =
      some (entries.map PermissionEntry.permission) := by
  unfold PermissionList.deserialize permissionString
  rw [List.splitOn_intercalate _ _ (by simpa using hne)]
  · clear hne
    induction entries with
    | nil => rfl
    | cons e entries ih =>
      rw [List.map_cons, List.mapM_cons, ih, PermissionEntry.deserialize_text]
      rfl
  · intro l hl
    obtain ⟨e, -, rfl⟩ := List.mem_map.mp hl
    exact e.colon_notMem_text

/-- The rows of the entries, then zeros. -/
theorem buildPermissions_eq {entries : List PermissionEntry} (hne : entries ≠ [])
    (hlen : entries.length ≤ 8) :
    buildPermissions (permissionString entries) =
      some fun i : Fin 8 =>
        (entries.map fun e => e.permission.row).getD i ⟨0, false, false, false⟩ := by
  unfold buildPermissions initGlobalPermissions
  rw [deserialize_permissionString hne]
  simp only [Option.bind_eq_bind, Option.bind_some]
  rw [value_secretsToCHeader, Option.bind_some, if_neg (by simpa using hlen), List.map_map]
  rfl
