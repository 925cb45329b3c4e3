import NevelCore.Foundations.AesGcm
import NevelCore.Foundations.JsonForms
import NevelCore.Wallet.Keys
import NevelCore.Wallet.Pbkdf2

/-!
# Encrypted wallet files

`SaveEncryptedWithSeed` and `LoadEncrypted` of `wallet/store.go`. The key of the cipher is derived
from the passphrase, and the file has the rest of what is needed to derive it again. AES-GCM
(`Gcm`) and JSON (`WalletJson`) are those of the standard library, with what they promise; `aesGcm`
and `walletJson` keep these promises.

A file has the private key as a number without leading zeros, whatever bytes the wallet was made
from. The number is all that counts (`fromHexPrivateKey_privateKeyHex`), and save and load come to
the same key of the cipher (`loadKey_encryptedFile`), so that a saved wallet is restored
(`loadEncrypted_encryptedFile`).
-/

set_option autoImplicit false
set_option relaxedAutoImplicit false

namespace NevelCore.Wallet

open Foundations

/-! ### Files -/

structure EncryptedFile where
  version : Int64
  address : List UInt8
  addressPrefix : List UInt8
  kdf : List UInt8
  kdfSalt : List UInt8
  kdfIter : Int64
  nonce : List UInt8
  ciphertext : List UInt8
deriving DecidableEq

structure WalletPlaintext where
  privateKeyHex : List UInt8
  seedPhrase : List UInt8
deriving DecidableEq

def currentVersion : Int64 := 2

def pbkdf2Iter : Int64 := 100_000

inductive StoreError where
  | passphraseRequired
  | unsupportedVersion
  | wrongPassphrase
  | addressMismatch
  | keySize (length : ℕ)
  | random (message : String)
  | file (message : String)
  | json (message : String)
  | wallet (cause : WalletError)
deriving DecidableEq

/-- The text of an error. -/
def StoreError.message : StoreError → String
  | .passphraseRequired => "passphrase required"
  | .unsupportedVersion => "unsupported wallet version"
  | .wrongPassphrase => "wrong passphrase or corrupt wallet"
  | .addressMismatch => "wallet address mismatch"
  | .keySize length => "crypto/aes: invalid key size " ++ toString length
  | .random message => message
  | .file message => message
  | .json message => message
  | .wallet cause => cause.message

/-- How a call ends without a result: it returns an error, it panics, or it still derives a key. -/
inductive StoreStop where
  | error (e : StoreError)
  | panic
  | running
deriving DecidableEq

def StoreStop.ofStop : Stop → StoreStop
  | .error e => .error (.wallet e)
  | .panic => .panic

def StoreStop.ofUnreturned : Pbkdf2.Unreturned → StoreStop
  | .running => .running
  | .panicked => .panic

/-! ### The standard library -/

/-- `Seal` and `Open` of AES-GCM, for a key and a nonce. -/
structure Gcm where
  sealed : (key nonce plain data : List UInt8) → List UInt8
  opened : (key nonce ciphertext data : List UInt8) → Option (List UInt8)
  opened_sealed : ∀ key nonce plain data, key.length = 32 → nonce.length = 12 →
    opened key nonce (sealed key nonce plain data) data = some plain

/-- `encoding/json` on the values of a wallet file. Texts that are valid UTF-8 are kept. -/
structure WalletJson where
  marshal : WalletPlaintext → List UInt8
  unmarshal : List UInt8 → Except String WalletPlaintext
  marshalIndent : EncryptedFile → List UInt8
  unmarshalFile : List UInt8 → Except String EncryptedFile
  unmarshal_marshal : ∀ plain, ValidUTF8 plain.privateKeyHex → ValidUTF8 plain.seedPhrase →
    unmarshal (marshal plain) = .ok plain

/-- `encoding/json` reads files with the address and the prefix of a wallet back, if their other
texts are valid UTF-8. -/
def WalletJson.Keeps (json : WalletJson) (w : Wallet) : Prop :=
  ∀ file : EncryptedFile, file.address = w.address → file.addressPrefix = w.addressPrefix →
    ValidUTF8 file.kdf → ValidUTF8 file.kdfSalt → ValidUTF8 file.nonce →
    ValidUTF8 file.ciphertext → json.unmarshalFile (json.marshalIndent file) = .ok file

/-- AES-GCM with the sizes of the standard library. -/
def aesGcm : Gcm where
  sealed := Aes.sealGcm
  opened := Aes.openGcm
  opened_sealed key nonce plain data _ _ := Aes.openGcm_sealGcm key nonce plain data

def WalletPlaintext.form : JsonText.Form WalletPlaintext :=
  ((JsonText.Fields.field "privateKeyHex" .text <| .fieldOmitEmpty "seedPhrase" .text .empty).form
      (by decide +kernel)).map
    (fun x ↦ ⟨x.1, x.2.1⟩) (fun plain ↦ (plain.privateKeyHex, plain.seedPhrase, ())) fun _ ↦ rfl

def EncryptedFile.form : JsonText.Form EncryptedFile :=
  ((JsonText.Fields.field "version" .int64 <| .field "address" .text <| .field "prefix" .text <|
    .field "kdf" .text <| .fieldOmitEmpty "kdfSalt" .text <| .fieldOmitEmpty "kdfIter" .int64 <|
    .field "nonce" .text <| .field "ciphertext" .text .empty).form (by decide +kernel)).map
    (fun x ↦ ⟨x.1, x.2.1, x.2.2.1, x.2.2.2.1, x.2.2.2.2.1, x.2.2.2.2.2.1, x.2.2.2.2.2.2.1,
      x.2.2.2.2.2.2.2.1⟩)
    (fun file ↦ (file.version, file.address, file.addressPrefix, file.kdf, file.kdfSalt,
      file.kdfIter, file.nonce, file.ciphertext, ()))
    fun _ ↦ rfl

/-- The values of a wallet file as the texts of `encoding/json`. -/
def walletJson : WalletJson where
  marshal := WalletPlaintext.form.marshal
  unmarshal := WalletPlaintext.form.unmarshalOrError
  marshalIndent := EncryptedFile.form.marshalIndent
  unmarshalFile := EncryptedFile.form.unmarshalOrError
  unmarshal_marshal plain _ _ := WalletPlaintext.form.unmarshalOrError_marshal plain

theorem keeps_walletJson (w : Wallet) : walletJson.Keeps w := fun file _ _ _ _ _ _ ↦
  EncryptedFile.form.unmarshalOrError_marshalIndent file

/-- The files, or why they cannot be read. -/
abbrev Disk := List UInt8 → Except String (List UInt8)

/-- How `os.WriteFile` ends. If it fails, something else may be left in place of the file. -/
inductive WriteResult where
  | written
  | failed (message : String) (left : Except String (List UInt8))

/-- `os.WriteFile`. -/
def writeFile (disk : Disk) (path data : List UInt8) : WriteResult → Except StoreStop Unit × Disk
  | .written => (.ok (), Function.update disk path (.ok data))
  | .failed message left => (.error (.error (.file message)), Function.update disk path left)

/-- `aes.NewCipher`, which takes keys of three lengths. -/
def newCipher (key : List UInt8) : Except StoreStop (List UInt8) :=
  if key.length = 16 ∨ key.length = 24 ∨ key.length = 32 then .ok key
  else .error (.error (.keySize key.length))

/-! ### Saving and loading -/

/-- `PrivateKeyHex`. -/
def privateKeyHex (priv : PrivateKey) : List UInt8 := encodeHex (intBytes priv.D)

/-- `deriveKey`. -/
def deriveKey (passphrase salt : List UInt8) (steps : ℕ) :
    Except Pbkdf2.Unreturned (List UInt8) :=
  pbkdf2SHA256 hmacSHA256 passphrase salt pbkdf2Iter 32 steps

section Code

variable (maps : CaseMaps) (gcm : Gcm) (json : WalletJson) (steps : ℕ)

/-- The file of a wallet. -/
def encryptedFile (w : Wallet) (seedPhrase key salt nonce : List UInt8) : EncryptedFile :=
  let plain := json.marshal
    { privateKeyHex := privateKeyHex w.privateKey, seedPhrase := seedPhrase }
  { version := currentVersion
    address := w.address
    addressPrefix := w.addressPrefix
    kdf := "pbkdf2-sha256".toUTF8.toList
    kdfSalt := encodeHex salt
    kdfIter := pbkdf2Iter
    nonce := encodeHex nonce
    ciphertext := encodeHex (gcm.sealed key nonce plain w.address) }

/-- `SaveEncryptedWithSeed` up to the writing of the file. -/
def encryptedData (w : Wallet) (seedPhrase passphrase : List UInt8)
    (salt : Except String (Vector UInt8 32)) (nonce : Except String (Vector UInt8 12)) :
    Except StoreStop (List UInt8) := do
  if passphrase = [] then .error (.error .passphraseRequired)
  else do
    let salt ← salt.mapError fun message ↦ .error (.random message)
    let key ← (deriveKey passphrase salt.toList steps).mapError .ofUnreturned
    let key ← newCipher key
    let nonce ← nonce.mapError fun message ↦ .error (.random message)
    pure (json.marshalIndent (encryptedFile gcm json w seedPhrase key salt.toList nonce.toList))

/-- `SaveEncryptedWithSeed`. -/
def saveEncryptedWithSeed (disk : Disk) (path : List UInt8) (w : Wallet)
    (seedPhrase passphrase : List UInt8) (salt : Except String (Vector UInt8 32))
    (nonce : Except String (Vector UInt8 12)) (result : WriteResult) :
    Except StoreStop Unit × Disk :=
  match encryptedData gcm json steps w seedPhrase passphrase salt nonce with
  | .error e => (.error e, disk)
  | .ok data => writeFile disk path data result

/-- The key of the cipher in `LoadEncrypted`. Files of the first version have no salt. -/
def loadKey (file : EncryptedFile) (passphrase : List UInt8) : Except StoreStop (List UInt8) :=
  if file.version = 1 then .ok (sha256 passphrase).toList
  else if file.version = 2 then do
    let salt ← (decodeHex file.kdfSalt).mapError fun e ↦ .error (.wallet e)
    let iters := if file.kdfIter ≤ 0 then pbkdf2Iter else file.kdfIter
    (pbkdf2SHA256 hmacSHA256 passphrase salt iters 32 steps).mapError .ofUnreturned
  else .error (.error .unsupportedVersion)

/-- `gcm.Open` in `LoadEncrypted`, which panics if the nonce does not have the right size. -/
def openFile (key nonce ciphertext address : List UInt8) : Except StoreStop (List UInt8) :=
  if nonce.length ≠ 12 then .error .panic
  else
    match gcm.opened key nonce ciphertext address with
    | none => .error (.error .wrongPassphrase)
    | some plain => .ok plain

/-- `LoadEncrypted`. -/
def loadEncrypted (disk : Disk) (path passphrase : List UInt8) :
    Except StoreStop (Wallet × List UInt8) := do
  let data ← (disk path).mapError fun message ↦ .error (.file message)
  let file ← (json.unmarshalFile data).mapError fun message ↦ .error (.json message)
  let key ← loadKey steps file passphrase
  let key ← newCipher key
  let nonce ← (decodeHex file.nonce).mapError fun e ↦ .error (.wallet e)
  let ciphertext ← (decodeHex file.ciphertext).mapError fun e ↦ .error (.wallet e)
  let plain ← openFile gcm key nonce ciphertext file.address
  let decoded ← (json.unmarshal plain).mapError fun message ↦ .error (.json message)
  let w ← (fromHexPrivateKey maps decoded.privateKeyHex file.addressPrefix).mapError .ofStop
  if w.address ≠ file.address then .error (.error .addressMismatch)
  else pure (w, decoded.seedPhrase)

/-- `NewFromSeedPhrase`. -/
def newFromSeedPhrase (seed hrp : List UInt8) : Except StoreStop Wallet := do
  let key ← (pbkdf2SHA256 hmacSHA256 seed "nevel-seed".toUTF8.toList pbkdf2Iter 32 steps).mapError
    .ofUnreturned
  (fromHexPrivateKey maps (encodeHex key) hrp).mapError .ofStop

end Code

/-! ### Results -/

section Results

variable {α β ε δ : Type}

theorem exists_of_bind_eq_ok {x : Except ε α} {next : α → Except ε β} {b : β}
    (h : (x >>= next) = .ok b) : ∃ a, x = .ok a ∧ next a = .ok b := by
  cases x with
  | error e => cases h
  | ok a => exact ⟨a, rfl, h⟩

theorem eq_ok_of_mapError {x : Except ε α} {f : ε → δ} {a : α} (h : x.mapError f = .ok a) :
    x = .ok a := by
  cases x with
  | error e => cases h
  | ok b =>
    cases h
    rfl

theorem mapError_bind_of_ok {x : Except ε α} {f : ε → δ} {a : α} (h : x = .ok a)
    (next : α → Except δ β) : (x.mapError f >>= next) = next a := by
  rw [h]
  rfl

theorem ok_bind (a : α) (next : α → Except ε β) : (Except.ok a >>= next) = next a := rfl

end Results

/-! ### Hexadecimal texts -/

theorem hexDigit_hexCharacter {digit : UInt8} (h : digit.toNat < 16) :
    hexDigit (hexCharacter digit) = some digit :=
  of_table digit h (by decide)

theorem halves_eq (byte : UInt8) : (byte >>> 4) <<< 4 ||| (byte &&& 0x0f) = byte :=
  of_table byte byte.toNat_lt (by decide +kernel)

theorem decodeHex_encodeHex (bytes : List UInt8) : decodeHex (encodeHex bytes) = .ok bytes := by
  induction bytes with
  | nil => rfl
  | cons byte bytes ih =>
    rw [encodeHex_cons, decodeHex, hexDigit_hexCharacter (toNat_high_lt byte),
      hexDigit_hexCharacter (toNat_low_lt byte), ih]
    exact congrArg (fun first ↦ Except.ok (first :: bytes)) (halves_eq byte)

/-! ### The wallet -/

/-- A wallet from `FromHexPrivateKey` or `NewFromSeedPhrase`. -/
def Obtained (maps : CaseMaps) (w : Wallet) : Prop :=
  (∃ h hrp, fromHexPrivateKey maps h hrp = .ok w) ∨
    ∃ steps seed hrp, newFromSeedPhrase maps steps seed hrp = .ok w

section Wallet

variable {maps : CaseMaps} {w : Wallet}

theorem of_fromPrivateKey {priv : PrivateKey} {hrp : List UInt8}
    (h : fromPrivateKey maps priv hrp = .ok w) : w.privateKey = priv ∧ w.addressPrefix = hrp := by
  rw [fromPrivateKey] at h
  cases hpub : marshalCompressed priv.pub with
  | none =>
    rw [hpub] at h
    cases h
  | some pub =>
    rw [hpub, orPanic_some_bind] at h
    cases haddress : addressFromPublicKey maps pub hrp with
    | error e =>
      rw [haddress] at h
      cases h
    | ok address =>
      rw [haddress, orError_ok_bind] at h
      cases h
      exact ⟨rfl, rfl⟩

/-- The bytes of a private key count as a number only: without the leading zeros they give the same
wallet. -/
theorem fromHexPrivateKey_privateKeyHex {h hrp : List UInt8}
    (hw : fromHexPrivateKey maps h hrp = .ok w) :
    fromHexPrivateKey maps (privateKeyHex w.privateKey) w.addressPrefix = .ok w := by
  cases hbytes : decodeHex h with
  | error e =>
    rw [fromHexPrivateKey_of_error hbytes] at hw
    cases hw
  | ok b =>
    rw [fromHexPrivateKey_of_ok hbytes] at hw
    obtain ⟨hpriv, hhrp⟩ := of_fromPrivateKey hw
    rw [hpriv, hhrp, privateKeyHex, fromHexPrivateKey_of_ok (decodeHex_encodeHex _),
      beValue_intBytes, hw]

theorem Obtained.restored (hw : Obtained maps w) :
    fromHexPrivateKey maps (privateKeyHex w.privateKey) w.addressPrefix = .ok w := by
  rcases hw with ⟨h, hrp, hw⟩ | ⟨steps, seed, hrp, hw⟩
  · exact fromHexPrivateKey_privateKeyHex hw
  · obtain ⟨key, -, hw⟩ := exists_of_bind_eq_ok hw
    exact fromHexPrivateKey_privateKeyHex (eq_ok_of_mapError hw)

end Wallet

/-! ### Restoring -/

section Restore

variable {maps : CaseMaps} {gcm : Gcm} {json : WalletJson} {steps : ℕ} {w : Wallet}
  {seedPhrase passphrase key : List UInt8}

theorem one_le_pbkdf2Iter : 1 ≤ pbkdf2Iter := by decide

theorem keyLength_cipher : Pbkdf2.KeyLength 32 := ⟨by decide, by decide⟩

theorem length_deriveKey {salt : List UInt8} (h : deriveKey passphrase salt steps = .ok key) :
    key.length = 32 := by
  rw [eq_of_pbkdf2SHA256 one_le_pbkdf2Iter keyLength_cipher h, Pbkdf2.length_derivedKey]
  rfl

theorem newCipher_of_length (h : key.length = 32) : newCipher key = .ok key :=
  if_pos (.inr (.inr h))

/-- The file leads to the key that it was encrypted with. -/
theorem loadKey_encryptedFile {salt : List UInt8} (nonce : List UInt8)
    (h : deriveKey passphrase salt steps = .ok key) :
    loadKey steps (encryptedFile gcm json w seedPhrase key salt nonce) passphrase = .ok key := by
  have hversion : (encryptedFile gcm json w seedPhrase key salt nonce).version = 2 := rfl
  have hsalt : decodeHex (encryptedFile gcm json w seedPhrase key salt nonce).kdfSalt = .ok salt :=
    decodeHex_encodeHex salt
  have hiter : (encryptedFile gcm json w seedPhrase key salt nonce).kdfIter = pbkdf2Iter := rfl
  rw [loadKey, hversion, if_neg (by decide), if_pos rfl, mapError_bind_of_ok hsalt]
  dsimp only
  rw [hiter, if_neg (by decide), ← deriveKey, h]
  rfl

/-- The file of a wallet restores it. -/
theorem loadEncrypted_encryptedFile (hw : Obtained maps w) (hkeeps : json.Keeps w)
    (hseed : ValidUTF8 seedPhrase) {salt nonce : List UInt8} (hnonce : nonce.length = 12)
    (hkey : deriveKey passphrase salt steps = .ok key) {disk : Disk} {path : List UInt8}
    (hdisk : disk path =
      .ok (json.marshalIndent (encryptedFile gcm json w seedPhrase key salt nonce))) :
    loadEncrypted maps gcm json steps disk path passphrase = .ok (w, seedPhrase) := by
  have hlength := length_deriveKey hkey
  have hopen : openFile gcm key nonce (gcm.sealed key nonce
      (json.marshal ⟨privateKeyHex w.privateKey, seedPhrase⟩) w.address) w.address =
        .ok (json.marshal ⟨privateKeyHex w.privateKey, seedPhrase⟩) := by
    rw [openFile, if_neg (not_not.mpr hnonce), gcm.opened_sealed _ _ _ _ hlength hnonce]
  have hplain := json.unmarshal_marshal ⟨privateKeyHex w.privateKey, seedPhrase⟩
    (validUTF8_encodeHex _) hseed
  have hnonceHex : decodeHex (encryptedFile gcm json w seedPhrase key salt nonce).nonce =
      .ok nonce := decodeHex_encodeHex nonce
  have hciphertext : decodeHex (encryptedFile gcm json w seedPhrase key salt nonce).ciphertext =
      .ok (gcm.sealed key nonce
        (json.marshal ⟨privateKeyHex w.privateKey, seedPhrase⟩) w.address) :=
    decodeHex_encodeHex _
  have haddress : (encryptedFile gcm json w seedPhrase key salt nonce).address = w.address := rfl
  have hprefix : (encryptedFile gcm json w seedPhrase key salt nonce).addressPrefix =
      w.addressPrefix := rfl
  have hascii : ∀ byte ∈ "pbkdf2-sha256".toUTF8.toList, byte.toNat < 128 := by decide +kernel
  have hkdf : ValidUTF8 (encryptedFile gcm json w seedPhrase key salt nonce).kdf :=
    validUTF8_of_ascii hascii
  have hfile := hkeeps (encryptedFile gcm json w seedPhrase key salt nonce) rfl rfl hkdf
    (validUTF8_encodeHex _) (validUTF8_encodeHex _) (validUTF8_encodeHex _)
  rw [loadEncrypted, mapError_bind_of_ok hdisk, mapError_bind_of_ok hfile,
    loadKey_encryptedFile nonce hkey, ok_bind, newCipher_of_length hlength, ok_bind,
    mapError_bind_of_ok hnonceHex, mapError_bind_of_ok hciphertext, haddress, hprefix, hopen,
    ok_bind, mapError_bind_of_ok hplain, mapError_bind_of_ok hw.restored, if_neg (not_not.mpr rfl)]
  rfl

/-- What is written when nothing fails. -/
theorem of_encryptedData {salt : Except String (Vector UInt8 32)}
    {nonce : Except String (Vector UInt8 12)} {data : List UInt8}
    (h : encryptedData gcm json steps w seedPhrase passphrase salt nonce = .ok data) :
    ∃ key salt' nonce', nonce'.length = 12 ∧ deriveKey passphrase salt' steps = .ok key ∧
      data = json.marshalIndent (encryptedFile gcm json w seedPhrase key salt' nonce') := by
  rw [encryptedData] at h
  split at h
  · cases h
  · obtain ⟨salt', -, h⟩ := exists_of_bind_eq_ok h
    obtain ⟨key, hkey, h⟩ := exists_of_bind_eq_ok h
    obtain ⟨key', hcipher, h⟩ := exists_of_bind_eq_ok h
    obtain ⟨nonce', -, h⟩ := exists_of_bind_eq_ok h
    have hkey := eq_ok_of_mapError hkey
    rw [newCipher_of_length (length_deriveKey hkey)] at hcipher
    cases hcipher
    cases h
    exact ⟨key, salt'.toList, nonce'.toList, Vector.length_toList, hkey, rfl⟩

theorem deriveKey_of_le {salt : List UInt8} {later : ℕ}
    (h : deriveKey passphrase salt steps = .ok key) (hle : steps ≤ later) :
    deriveKey passphrase salt later = .ok key :=
  pbkdf2SHA256_of_le one_le_pbkdf2Iter keyLength_cipher h hle

theorem exists_encryptedData (gcm : Gcm) (json : WalletJson) (w : Wallet) (seedPhrase : List UInt8)
    (hpass : passphrase ≠ []) (salt : Vector UInt8 32) (nonce : Vector UInt8 12) :
    ∃ first, ∀ steps ≥ first, ∃ data,
      encryptedData gcm json steps w seedPhrase passphrase (.ok salt) (.ok nonce) = .ok data := by
  obtain ⟨first, hfirst⟩ := exists_pbkdf2SHA256 hmacSHA256 passphrase salt.toList
    one_le_pbkdf2Iter (by decide) keyLength_cipher
  refine ⟨first, fun steps hsteps ↦ ?_⟩
  obtain ⟨key, hkey⟩ : ∃ key, deriveKey passphrase salt.toList steps = .ok key :=
    ⟨_, hfirst steps hsteps⟩
  refine ⟨json.marshalIndent (encryptedFile gcm json w seedPhrase key salt.toList nonce.toList), ?_⟩
  rw [encryptedData, if_neg hpass, mapError_bind_of_ok rfl, mapError_bind_of_ok hkey,
    newCipher_of_length (length_deriveKey hkey), ok_bind, mapError_bind_of_ok rfl]
  rfl

/-- A wallet that is saved is loaded with the same passphrase, with its seed phrase, by any call
that runs at least as long. Saving succeeds unless the random source or the disk fails. -/
theorem encryptedWallet_restored (maps : CaseMaps) (gcm : Gcm) {json : WalletJson} {w : Wallet}
    (hw : Obtained maps w) (hkeeps : json.Keeps w) {seedPhrase passphrase : List UInt8}
    (hseed : ValidUTF8 seedPhrase) (hpass : passphrase ≠ []) (path : List UInt8) :
    (∀ steps disk salt nonce result disk',
      saveEncryptedWithSeed gcm json steps disk path w seedPhrase passphrase salt nonce result =
        (.ok (), disk') →
      ∀ later ≥ steps,
        loadEncrypted maps gcm json later disk' path passphrase = .ok (w, seedPhrase)) ∧
    ∀ salt nonce, ∃ first, ∀ steps ≥ first, ∀ disk, ∃ disk',
      saveEncryptedWithSeed gcm json steps disk path w seedPhrase passphrase (.ok salt) (.ok nonce)
        .written = (.ok (), disk') := by
  constructor
  · intro steps disk salt nonce result disk' hsave later hlater
    rw [saveEncryptedWithSeed] at hsave
    split at hsave
    · cases hsave
    · next data hdata =>
      obtain ⟨key, salt', nonce', hnonce, hkey, rfl⟩ := of_encryptedData hdata
      cases result with
      | written =>
        cases hsave
        exact loadEncrypted_encryptedFile hw hkeeps hseed hnonce (deriveKey_of_le hkey hlater)
          (Function.update_self _ _ _)
      | failed message left => cases hsave
  · intro salt nonce
    obtain ⟨first, hfirst⟩ := exists_encryptedData gcm json w seedPhrase hpass salt nonce
    refine ⟨first, fun steps hsteps disk ↦ ?_⟩
    obtain ⟨data, hdata⟩ := hfirst steps hsteps
    refine ⟨Function.update disk path (.ok data), ?_⟩
    rw [saveEncryptedWithSeed, hdata]
    rfl

end Restore

/-- A wallet whose key has a leading zero byte is restored. -/
theorem encryptedWallet_restored_sample :
    ∃ w, fromHexPrivateKey Sample.asciiMaps [0x30, 0x30, 0x30, 0x31] Sample.nevel = .ok w ∧
      ∃ steps disk, saveEncryptedWithSeed aesGcm walletJson steps
          (fun _ ↦ .error "no such file") [0x77] w [0x61] [0x70] (.ok (.replicate 32 0))
          (.ok (.replicate 12 0)) .written = (.ok (), disk) ∧
        loadEncrypted Sample.asciiMaps aesGcm walletJson steps disk [0x77] [0x70] =
          .ok (w, [0x61]) := by
  have hbytes : decodeHex [0x30, 0x30, 0x30, 0x31] = .ok [0, 1] := by decide
  have hdvd : ¬ secp256k1.N ∣ beValue [0, 1] := fun hdvd ↦
    absurd (Nat.le_of_dvd (by decide) hdvd) (by decide)
  obtain ⟨w, hw, -⟩ := exists_keyTaken Sample.asciiMaps Sample.lowerPrintable_nevel hbytes hdvd
  have hseed : ValidUTF8 [0x61] := validUTF8_of_ascii (List.forall_mem_singleton.mpr (by decide))
  have hrestored := encryptedWallet_restored Sample.asciiMaps aesGcm (.inl ⟨_, _, hw⟩)
    (keeps_walletJson w) hseed (List.cons_ne_nil 0x70 []) [0x77]
  obtain ⟨first, hfirst⟩ := hrestored.2 (.replicate 32 0) (.replicate 12 0)
  obtain ⟨disk, hsave⟩ := hfirst first (le_refl _) fun _ ↦ .error "no such file"
  exact ⟨w, hw, first, disk, hsave, hrestored.1 _ _ _ _ _ _ hsave first (le_refl _)⟩

end NevelCore.Wallet
