import Mathlib.Data.List.Lex
import Mathlib.Data.Finset.Sort
import NevelCore.Blockchain.Json
import NevelCore.Storage.Calls
import NevelCore.Storage.KeyText

/-!
# The store in files

`internal/pebble`: the store is a directory with one file for each key, and a batch is written file
by file. The functions of `storage/storage.go` are given here once more, over the files, with the
texts of the keys and with the values as they are encoded. Only `encoding/json` is a parameter
(`RecordJson`): what it makes of records, it reads back, as with the texts that Go has for them
(`recordJson`).

The files represent the typed store (`Represents`) if each key is read as its value is encoded and
no other file is there. Every write keeps this (`Represents.commit`), so no sequence of calls to a
store that starts in an empty directory can tell it from the typed one (`fileReplies_eq`): what the
development proves of the typed store holds of the files. `ListUTXOs` walks the directory and meets
the record of each unspent output once, in the order of the names (`listUTXOs_of_represents`).
-/

set_option autoImplicit false
set_option relaxedAutoImplicit false

namespace NevelCore

open Foundations SlashPath

/-- The files of a file system: their contents, under their paths. -/
abbrev Files := Finmap fun _ : List UInt8 ↦ List UInt8

/-! ### Files under keys -/

namespace Pebble

/-- `file`. -/
def file (dir key : List UInt8) : List UInt8 := join dir (clean key)

def set (dir key value : List UInt8) (files : Files) : Files := files.insert (file dir key) value

/-- `Get`. The error is `ErrNotFound`. -/
def get (dir key : List UInt8) (files : Files) : Option (List UInt8) := files.lookup (file dir key)

/-- `Delete`. It is no error if there is no such file. -/
def delete (dir key : List UInt8) (files : Files) : Files := files.erase (file dir key)

/-- A write of a batch. -/
inductive Op where
  | set (key value : List UInt8)
  | delete (key : List UInt8)

/-- `Commit`. -/
def commit (dir : List UInt8) (ops : List Op) (files : Files) : Files :=
  ops.foldl (fun files op ↦ match op with
    | .set key value => set dir key value files
    | .delete key => delete dir key files) files

/-- The order of names in a directory, which is that of their bytes. -/
def NameLE (name name' : List UInt8) : Prop := name.map UInt8.toNat ≤ name'.map UInt8.toNat

instance : DecidableRel NameLE := fun name name' ↦
  inferInstanceAs (Decidable (name.map UInt8.toNat ≤ name'.map UInt8.toNat))

instance : IsTrans (List UInt8) NameLE := ⟨fun _ _ _ ↦ le_trans⟩

instance : Std.Antisymm NameLE := ⟨fun _ _ h h' ↦
  List.map_injective_iff.mpr (fun _ _ ↦ UInt8.toNat_inj.mp) (le_antisymm h h')⟩

instance : Std.Total NameLE := ⟨fun _ _ ↦ le_total _ _⟩

/-- The names of the files in a directory, in the order in which `WalkDir` meets them. Directories
in it are not modelled: no key has a slash. -/
def entryNames (dir : List UInt8) (files : Files) : List (List UInt8) :=
  let leading := (scan dir).leading
  ((files.keys.image fun path ↦ path.drop leading.length).filter fun name ↦
    slash ∉ name ∧ leading ++ name ∈ files).sort NameLE

/-- The names and contents that `WalkPrefix` calls its function with, one after the other. -/
def walkPrefix (dir start : List UInt8) (files : Files) : List (List UInt8 × List UInt8) :=
  ((entryNames dir files).filter fun name ↦ (file dir start).isPrefixOf (join dir name)).filterMap
    fun name ↦ (files.lookup (join dir name)).map fun value ↦ (name, value)

end Pebble

/-! ### Values -/

/-- `encoding/json` on records of unspent outputs. -/
structure RecordJson where
  marshal : UTXO → List UInt8
  unmarshal : List UInt8 → Except String UTXO
  marshalAll : List UTXO → List UInt8
  unmarshalAll : List UInt8 → Except String (List UTXO)
  unmarshal_marshal : ∀ u, unmarshal (marshal u) = .ok u
  unmarshalAll_marshalAll : ∀ undo, unmarshalAll (marshalAll undo) = .ok undo

/-- The JSON of a record, whose type has no tags. -/
def UTXO.form : JsonText.Form UTXO :=
  ((JsonText.Fields.field "TxHash" .bytes32 <| .field "OutputIdx" .uint32 <|
    .field "Amount" .uint64 <| .field "Script" bytesForm <| .field "Height" .uint64 <|
    .field "Coinbase" .bool .empty).form (by decide +kernel)).map
    (fun x ↦ ⟨x.1, x.2.1, x.2.2.1, x.2.2.2.1, x.2.2.2.2.1, x.2.2.2.2.2.1⟩)
    (fun u ↦ (u.txHash, u.outputIdx, u.amount, u.script, u.height, u.coinbase, ())) fun _ ↦ rfl

/-- Records as the texts of `encoding/json`. -/
def recordJson : RecordJson where
  marshal := UTXO.form.marshal
  unmarshal := UTXO.form.unmarshalOrError
  marshalAll := (JsonText.Form.list UTXO.form).marshal
  unmarshalAll := (JsonText.Form.list UTXO.form).unmarshalOrError
  unmarshal_marshal := UTXO.form.unmarshalOrError_marshal
  unmarshalAll_marshalAll := (JsonText.Form.list UTXO.form).unmarshalOrError_marshal

/-- `copy(h[:], v)` into an array of zeros. -/
def copyHash (v : List UInt8) : Hash := .padded v

theorem copyHash_toList (hash : Hash) : copyHash hash.toList = hash := hash.padded_toList

/-- The value under a key, as it is written to the file. -/
def Key.encode (json : RecordJson) : (key : Key) → key.Val → List UInt8
  | .blockHeight _, hash => hash.toList
  | .blockHash _, data => data
  | .tx _, data => data
  | .utxo _, record => json.marshal record.val
  | .spent _, _ => [1]
  | .tip, hash => hash.toList
  | .totalWork _, work => decimal work
  | .undo _, log => json.marshalAll log

/-- A write, with the key as a text and the value encoded. -/
def encodeOp (json : RecordJson) : StoreOp → Pebble.Op
  | .set key value => .set key.text (key.encode json value)
  | .delete key => .delete key.text

/-- The errors of the store in files. -/
inductive FileErr where
  | store (e : Err)
  | corruptTotalWork
  | json (message : String)
deriving DecidableEq

def FileErr.message : FileErr → String
  | .store e => e.message
  | .corruptTotalWork => "corrupt total work"
  | .json message => message

/-! ### The calls -/

namespace FileDB

section Calls

variable (json : RecordJson) (dir : List UInt8) (files : Files)

def read (key : Key) : Except FileErr (List UInt8) :=
  (found (Pebble.get dir key.text files)).mapError .store

def totalWork (hash : Hash) : Except FileErr ℤ := do
  let v ← read dir files (.totalWork hash)
  match readInteger v with
  | some work => .ok work
  | none => .error .corruptTotalWork

def getBlock (hash : Hash) : Except FileErr Block := do
  let v ← read dir files (.blockHash hash)
  (deserializeBlock v).mapError .store

def blockHashByHeight (height : UInt64) : Except FileErr Hash := do
  let v ← read dir files (.blockHeight height)
  .ok (copyHash v)

def tip : Except FileErr Hash := do
  let v ← read dir files .tip
  .ok (copyHash v)

def get (hash : Hash) (idx : UInt32) : Except FileErr UTXO := do
  let v ← read dir files (.utxo ⟨hash, idx⟩)
  (json.unmarshal v).mapError .json

def getTx (hash : Hash) : Except FileErr Transaction := do
  let v ← read dir files (.tx hash)
  (deserializeTransaction v).mapError .store

def height : Except FileErr UInt64 := do
  let hash ← tip dir files
  let b ← getBlock dir files hash
  .ok b.header.height

def undo (hash : Hash) : Except FileErr (List UTXO) := do
  let v ← read dir files (.undo hash)
  (json.unmarshalAll v).mapError .json

def listUTXOs : Except FileErr (List UTXO) :=
  (Pebble.walkPrefix dir (bytesOf "utxo:") files).mapM fun (_, value) ↦
    (json.unmarshal value).mapError .json

/-- The writes of a batch, to the files. -/
def commit (ops : List StoreOp) : Files := Pebble.commit dir (ops.map (encodeOp json)) files

/-- The undo log of a block, as `ApplyBlock` reads it. -/
def undoLog (b : Block) : List UTXO :=
  b.transactions.toList.flatMap fun t ↦
    if t.isCoinbase then []
    else t.inputs.toList.filterMap fun input ↦
      (get json dir files input.prevTxHash input.outputIdx).toOption

def applyBlock (b : Block) : Files :=
  commit json dir files (DB.applyOpsWith (undoLog json dir files b) b)

/-- The block at the tip and its undo log, as `DisconnectTip` reads them. -/
def readTip : Except FileErr (Block × List UTXO) := do
  let hash ← tip dir files
  let b ← getBlock dir files hash
  let log ← undo json dir files hash
  .ok (b, log)

def disconnectTip : Except FileErr Block × Files :=
  match readTip json dir files with
  | .ok (b, log) => (.ok b, commit json dir files (DB.disconnectOps b log))
  | .error e => (.error e, files)

end Calls

end FileDB

/-- The calls of the store, except `ListUTXOs` and what is built on it. -/
inductive StoreCall where
  | totalWork (hash : Hash)
  | getBlock (hash : Hash)
  | blockHashByHeight (height : UInt64)
  | tip
  | get (hash : Hash) (idx : UInt32)
  | getTx (hash : Hash)
  | height
  | undo (hash : Hash)
  | putTotalWork (hash : Hash) (work : ℕ)
  | setTip (hash : Hash)
  | putBlock (b : Block)
  | putUndo (hash : Hash) (log : List UTXO)
  | putUTXO (u : UTXO)
  | spendUTXO (hash : Hash) (idx : UInt32)
  | applyBlock (b : Block)
  | disconnectTip

/-- What a call returns. -/
inductive StoreReply where
  | done
  | work (result : Except FileErr ℤ)
  | block (result : Except FileErr Block)
  | hash (result : Except FileErr Hash)
  | record (result : Except FileErr UTXO)
  | transaction (result : Except FileErr Transaction)
  | height (result : Except FileErr UInt64)
  | log (result : Except FileErr (List UTXO))

/-- A call to the store in files. -/
def FileDB.answer (json : RecordJson) (dir : List UInt8) (files : Files) :
    StoreCall → StoreReply × Files
  | .totalWork hash => (.work (totalWork dir files hash), files)
  | .getBlock hash => (.block (getBlock dir files hash), files)
  | .blockHashByHeight height => (.hash (blockHashByHeight dir files height), files)
  | .tip => (.hash (tip dir files), files)
  | .get hash idx => (.record (get json dir files hash idx), files)
  | .getTx hash => (.transaction (getTx dir files hash), files)
  | .height => (.height (height dir files), files)
  | .undo hash => (.log (undo json dir files hash), files)
  | .putTotalWork hash work =>
    (.done, Pebble.set dir (Key.totalWork hash).text (decimal work) files)
  | .setTip hash => (.done, Pebble.set dir Key.tip.text hash.toList files)
  | .putBlock b => (.done, commit json dir files (DB.putBlockOps b))
  | .putUndo hash log => (.done, Pebble.set dir (Key.undo hash).text (json.marshalAll log) files)
  | .putUTXO u => (.done, Pebble.set dir (Key.utxo u.outpoint).text (json.marshal u) files)
  | .spendUTXO hash idx => (.done, commit json dir files (DB.spendUTXOOps hash idx))
  | .applyBlock b => (.done, applyBlock json dir files b)
  | .disconnectTip => ((disconnectTip json dir files).map .block id)

/-- A call to the typed store. -/
def DB.answer (d : Store) : StoreCall → StoreReply × Store
  | .totalWork hash => (.work (((totalWork d hash).map Int.ofNat).mapError .store), d)
  | .getBlock hash => (.block ((getBlock d hash).mapError .store), d)
  | .blockHashByHeight height => (.hash ((blockHashByHeight d height).mapError .store), d)
  | .tip => (.hash ((tip d).mapError .store), d)
  | .get hash idx => (.record ((get d hash idx).mapError .store), d)
  | .getTx hash => (.transaction ((getTx d hash).mapError .store), d)
  | .height => (.height ((height d).mapError .store), d)
  | .undo hash => (.log ((undo d hash).mapError .store), d)
  | .putTotalWork hash work => (.done, putTotalWork d hash work)
  | .setTip hash => (.done, setTip d hash)
  | .putBlock b => (.done, putBlock d b)
  | .putUndo hash log => (.done, putUndo d hash log)
  | .putUTXO u => (.done, putUTXO d u)
  | .spendUTXO hash idx => (.done, spendUTXO d hash idx)
  | .applyBlock b => (.done, applyBlock d b)
  | .disconnectTip => ((disconnectTip d).map (fun result ↦ .block (result.mapError .store)) id)

/-- What a sequence of calls returns, and the state it ends in. -/
def answers {σ : Type} (answer : σ → StoreCall → StoreReply × σ) :
    List StoreCall → σ → List StoreReply × σ
  | [], s => ([], s)
  | call :: calls, s =>
    let (reply, s') := answer s call
    let (replies, s'') := answers answer calls s'
    (reply :: replies, s'')

/-! ### The files represent the store -/

section Represents

variable {json : RecordJson} {dir : List UInt8} {files : Files} {d : Store}

/-- The file of a key is its text, in the directory. -/
theorem file_text (hdir : dir ≠ []) (key : Key) :
    Pebble.file dir key.text = (scan dir).leading ++ key.text := by
  rw [Pebble.file, clean_eq_of_isName key.isName_text, join_eq_of_isName hdir key.isName_text]

theorem file_text_inj (hdir : dir ≠ []) {key key' : Key}
    (h : Pebble.file dir key.text = Pebble.file dir key'.text) : key = key' := by
  rw [file_text hdir, file_text hdir] at h
  exact Key.text_injective (List.append_cancel_left h)

/-- Each key is read as its value is encoded, and there is no other file. -/
structure Represents (json : RecordJson) (dir : List UInt8) (files : Files) (d : Store) : Prop where
  get : ∀ key : Key, Pebble.get dir key.text files = (d.lookup key).map (key.encode json)
  only : ∀ path ∈ files, ∃ key ∈ d, path = Pebble.file dir key.text

theorem represents_empty (json : RecordJson) (dir : List UInt8) : Represents json dir ∅ ∅ where
  get key := by rw [Pebble.get, Finmap.lookup_empty, Finmap.lookup_empty]; rfl
  only path h := absurd h Finmap.notMem_empty

theorem Represents.set (hdir : dir ≠ []) (h : Represents json dir files d) (key : Key)
    (value : key.Val) :
    Represents json dir (Pebble.set dir key.text (key.encode json value) files)
      (d.insert key value) where
  get key' := by
    rw [Pebble.get, Pebble.set]
    rcases eq_or_ne key' key with rfl | hne
    · rw [Finmap.lookup_insert, Finmap.lookup_insert]
      rfl
    · rw [Finmap.lookup_insert_of_ne _ hne,
        Finmap.lookup_insert_of_ne _ fun heq ↦ hne (file_text_inj hdir heq)]
      exact h.get key'
  only path hpath := by
    rcases Finmap.mem_insert.mp hpath with rfl | hpath
    · exact ⟨key, Finmap.mem_insert.mpr (.inl rfl), rfl⟩
    · obtain ⟨key', hkey', hpath⟩ := h.only path hpath
      exact ⟨key', Finmap.mem_insert.mpr (.inr hkey'), hpath⟩

theorem Represents.delete (hdir : dir ≠ []) (h : Represents json dir files d) (key : Key) :
    Represents json dir (Pebble.delete dir key.text files) (d.erase key) where
  get key' := by
    rw [Pebble.get, Pebble.delete]
    rcases eq_or_ne key' key with rfl | hne
    · rw [Finmap.lookup_erase, Finmap.lookup_erase]
      rfl
    · rw [Finmap.lookup_erase_ne hne,
        Finmap.lookup_erase_ne fun heq ↦ hne (file_text_inj hdir heq)]
      exact h.get key'
  only path hpath := by
    obtain ⟨hne, hpath⟩ := Finmap.mem_erase.mp hpath
    obtain ⟨key', hkey', rfl⟩ := h.only path hpath
    exact ⟨key', Finmap.mem_erase.mpr ⟨fun heq ↦ hne (heq ▸ rfl), hkey'⟩, rfl⟩

/-- A batch on the files is that batch on the store. -/
theorem Represents.commit (hdir : dir ≠ []) (h : Represents json dir files d)
    (ops : List StoreOp) :
    Represents json dir (FileDB.commit json dir files ops) (Foundations.commit ops d) := by
  induction ops generalizing files d with
  | nil => exact h
  | cons op ops ih =>
    cases op with
    | set key value => exact ih (h.set hdir key value)
    | delete key => exact ih (h.delete hdir key)

/-! ### What is read -/

theorem Represents.read (h : Represents json dir files d) (key : Key) :
    FileDB.read dir files key = ((found (d.lookup key)).map (key.encode json)).mapError .store := by
  rw [FileDB.read, h.get]
  cases d.lookup key <;> rfl

theorem Represents.totalWork (h : Represents json dir files d) (hash : Hash) :
    FileDB.totalWork dir files hash = ((DB.totalWork d hash).map Int.ofNat).mapError .store := by
  rw [FileDB.totalWork, h.read, DB.totalWork]
  cases d.lookup (Key.totalWork hash) with
  | none => rfl
  | some work =>
    change (match readInteger (decimal work) with
      | some work => Except.ok work
      | none => Except.error FileErr.corruptTotalWork) = _
    rw [readInteger_decimal]
    rfl

theorem Represents.getBlock (h : Represents json dir files d) (hash : Hash) :
    FileDB.getBlock dir files hash = (DB.getBlock d hash).mapError .store := by
  rw [FileDB.getBlock, h.read, DB.getBlock]
  cases d.lookup (Key.blockHash hash) <;> rfl

theorem Represents.getTx (h : Represents json dir files d) (hash : Hash) :
    FileDB.getTx dir files hash = (DB.getTx d hash).mapError .store := by
  rw [FileDB.getTx, h.read, DB.getTx]
  cases d.lookup (Key.tx hash) <;> rfl

theorem Represents.blockHashByHeight (h : Represents json dir files d) (height : UInt64) :
    FileDB.blockHashByHeight dir files height =
      (DB.blockHashByHeight d height).mapError .store := by
  rw [FileDB.blockHashByHeight, h.read, DB.blockHashByHeight]
  cases d.lookup (Key.blockHeight height) with
  | none => rfl
  | some hash => exact congrArg Except.ok (copyHash_toList hash)

theorem Represents.tip (h : Represents json dir files d) :
    FileDB.tip dir files = (DB.tip d).mapError .store := by
  rw [FileDB.tip, h.read, DB.tip]
  cases d.lookup Key.tip with
  | none => rfl
  | some hash => exact congrArg Except.ok (copyHash_toList hash)

theorem Represents.get_eq (h : Represents json dir files d) (hash : Hash) (idx : UInt32) :
    FileDB.get json dir files hash idx = (DB.get d hash idx).mapError .store := by
  rw [FileDB.get, h.read, DB.get]
  cases d.lookup (Key.utxo ⟨hash, idx⟩) with
  | none => rfl
  | some record =>
    change (json.unmarshal (json.marshal record.val)).mapError _ = _
    rw [json.unmarshal_marshal]
    rfl

theorem Represents.undo (h : Represents json dir files d) (hash : Hash) :
    FileDB.undo json dir files hash = (DB.undo d hash).mapError .store := by
  rw [FileDB.undo, h.read, DB.undo]
  cases d.lookup (Key.undo hash) with
  | none => rfl
  | some log =>
    change (json.unmarshalAll (json.marshalAll log)).mapError _ = _
    rw [json.unmarshalAll_marshalAll]
    rfl

theorem Represents.height (h : Represents json dir files d) :
    FileDB.height dir files = (DB.height d).mapError .store := by
  rw [FileDB.height, h.tip, DB.height]
  cases DB.tip d with
  | error e => rfl
  | ok hash =>
    change (FileDB.getBlock dir files hash >>= fun b ↦ .ok b.header.height) =
      (DB.getBlock d hash >>= fun b ↦ .ok b.header.height).mapError .store
    rw [h.getBlock]
    cases DB.getBlock d hash <;> rfl

theorem Represents.undoLog (h : Represents json dir files d) (b : Block) :
    FileDB.undoLog json dir files b = DB.undoLog d b := by
  have hget (input : Input) :
      (FileDB.get json dir files input.prevTxHash input.outputIdx).toOption =
        (DB.get d input.prevTxHash input.outputIdx).toOption := by
    rw [h.get_eq]
    cases DB.get d input.prevTxHash input.outputIdx <;> rfl
  simp only [FileDB.undoLog, DB.undoLog, hget]

theorem Represents.readTip (h : Represents json dir files d) :
    FileDB.readTip json dir files = (DB.readTip d).mapError .store := by
  rw [FileDB.readTip, h.tip, DB.readTip]
  cases DB.tip d with
  | error e => rfl
  | ok hash =>
    change (FileDB.getBlock dir files hash >>= fun b ↦
        FileDB.undo json dir files hash >>= fun log ↦ .ok (b, log)) =
      (DB.getBlock d hash >>= fun b ↦ DB.undo d hash >>= fun log ↦ .ok (b, log)).mapError .store
    rw [h.getBlock, h.undo]
    cases DB.getBlock d hash with
    | error e => rfl
    | ok b => cases DB.undo d hash <;> rfl

theorem Represents.disconnectTip (hdir : dir ≠ []) (h : Represents json dir files d) :
    (FileDB.disconnectTip json dir files).1 = (DB.disconnectTip d).1.mapError .store ∧
      Represents json dir (FileDB.disconnectTip json dir files).2 (DB.disconnectTip d).2 := by
  rw [FileDB.disconnectTip, h.readTip]
  cases hread : DB.readTip d with
  | error e =>
    rw [DB.disconnectTip_of_readTip_error hread]
    exact ⟨rfl, h⟩
  | ok found =>
    obtain ⟨b, log⟩ := found
    rw [DB.disconnectTip_of_readTip hread]
    exact ⟨rfl, h.commit hdir _⟩

/-- A call to the files and the same call to the store give the same reply, and what they leave
corresponds again. -/
theorem Represents.answer (hdir : dir ≠ []) (h : Represents json dir files d) (call : StoreCall) :
    (FileDB.answer json dir files call).1 = (DB.answer d call).1 ∧
      Represents json dir (FileDB.answer json dir files call).2 (DB.answer d call).2 := by
  cases call with
  | totalWork hash => exact ⟨congrArg StoreReply.work (h.totalWork hash), h⟩
  | getBlock hash => exact ⟨congrArg StoreReply.block (h.getBlock hash), h⟩
  | blockHashByHeight height => exact ⟨congrArg StoreReply.hash (h.blockHashByHeight height), h⟩
  | tip => exact ⟨congrArg StoreReply.hash h.tip, h⟩
  | get hash idx => exact ⟨congrArg StoreReply.record (h.get_eq hash idx), h⟩
  | getTx hash => exact ⟨congrArg StoreReply.transaction (h.getTx hash), h⟩
  | height => exact ⟨congrArg StoreReply.height h.height, h⟩
  | undo hash => exact ⟨congrArg StoreReply.log (h.undo hash), h⟩
  | putTotalWork hash work => exact ⟨rfl, h.set hdir (.totalWork hash) work⟩
  | setTip hash => exact ⟨rfl, h.set hdir .tip hash⟩
  | putBlock b => exact ⟨rfl, h.commit hdir (DB.putBlockOps b)⟩
  | putUndo hash log => exact ⟨rfl, h.set hdir (.undo hash) log⟩
  | putUTXO u => exact ⟨rfl, h.set hdir (.utxo u.outpoint) u.record⟩
  | spendUTXO hash idx => exact ⟨rfl, h.commit hdir (DB.spendUTXOOps hash idx)⟩
  | applyBlock b =>
    refine ⟨rfl, ?_⟩
    change Represents json dir (FileDB.commit json dir files
      (DB.applyOpsWith (FileDB.undoLog json dir files b) b)) _
    rw [h.undoLog]
    exact h.commit hdir (DB.applyOps d b)
  | disconnectTip =>
    obtain ⟨hreply, hleft⟩ := h.disconnectTip hdir
    exact ⟨congrArg StoreReply.block hreply, hleft⟩

theorem Represents.answers (hdir : dir ≠ []) (h : Represents json dir files d)
    (calls : List StoreCall) :
    (NevelCore.answers (FileDB.answer json dir) calls files).1 =
        (NevelCore.answers DB.answer calls d).1 ∧
      Represents json dir (NevelCore.answers (FileDB.answer json dir) calls files).2
        (NevelCore.answers DB.answer calls d).2 := by
  induction calls generalizing files d with
  | nil => exact ⟨rfl, h⟩
  | cons call calls ih =>
    obtain ⟨hreply, hleft⟩ := h.answer hdir call
    obtain ⟨hreplies, hlast⟩ := ih hleft
    exact ⟨congrArg₂ List.cons hreply hreplies, hlast⟩

end Represents

/-- `Open`: the directory of the store. -/
def openDir (path : List UInt8) : List UInt8 := clean path

/-- No sequence of calls tells the store in files from the typed one: opened in an empty directory,
it gives the same replies, call by call, and the files it leaves represent the typed store. -/
theorem fileReplies_eq (json : RecordJson) (path : List UInt8) (calls : List StoreCall) :
    (answers (FileDB.answer json (openDir path)) calls ∅).1 = (answers DB.answer calls ∅).1 ∧
      Represents json (openDir path) (answers (FileDB.answer json (openDir path)) calls ∅).2
        (answers DB.answer calls ∅).2 :=
  (represents_empty json (openDir path)).answers (clean_ne_nil path) calls

/-! ### The unspent outputs -/

section Listing

variable {json : RecordJson} {dir : List UInt8} {files : Files} {d : Store}

theorem Represents.mem_files_iff (h : Represents json dir files d) (key : Key) :
    Pebble.file dir key.text ∈ files ↔ key ∈ d := by
  rw [← Finmap.lookup_isSome, ← Finmap.lookup_isSome]
  change (Pebble.get dir key.text files).isSome = true ↔ _
  rw [h.get, Option.isSome_map]

theorem Represents.mem_entryNames_iff (hdir : dir ≠ []) (h : Represents json dir files d)
    {name : List UInt8} :
    name ∈ Pebble.entryNames dir files ↔ ∃ key ∈ d, name = key.text := by
  rw [Pebble.entryNames, Finset.mem_sort, Finset.mem_filter, Finset.mem_image]
  constructor
  · rintro ⟨-, -, hmem⟩
    obtain ⟨key, hkey, hpath⟩ := h.only _ hmem
    rw [file_text hdir] at hpath
    exact ⟨key, hkey, List.append_cancel_left hpath⟩
  · rintro ⟨key, hkey, rfl⟩
    have hmem := (h.mem_files_iff key).mpr hkey
    rw [file_text hdir] at hmem
    exact ⟨⟨_, Finmap.mem_keys.mpr hmem, List.drop_left⟩, key.isName_text.slash_notMem, hmem⟩

/-- The label of the records of unspent outputs is the start of their keys only. -/
theorem isPrefixOf_text_iff (hdir : dir ≠ []) (key : Key) :
    (Pebble.file dir (bytesOf "utxo:")).isPrefixOf (join dir key.text) ↔
      ∃ outpoint, key = .utxo outpoint := by
  have hbytes : bytesOf "utxo:" = [0x75, 0x74, 0x78, 0x6f, 0x3a] := by decide +kernel
  have hlabel : IsName (bytesOf "utxo:") := by
    rw [hbytes]
    exact ⟨by decide, by decide, by decide, by decide⟩
  rw [Pebble.file, clean_eq_of_isName hlabel, join_eq_of_isName hdir hlabel,
    join_eq_of_isName hdir key.isName_text, List.isPrefixOf_iff_prefix,
    List.prefix_append_right_inj]
  constructor
  · rintro ⟨rest, hrest⟩
    have hkind : key.label = "utxo:" := by
      rw [← key.labelOf_text, ← hrest, hbytes]
      rfl
    cases key <;> simp only [Key.label, String.reduceEq] at hkind
    exact ⟨_, rfl⟩
  · rintro ⟨outpoint, rfl⟩
    exact List.prefix_append _ _

theorem nodup_listing (d : Store) : (DB.utxos d).listing.Nodup := by
  have hkeys : ((DB.utxos d).listing.map UTXO.outpoint).Nodup := by
    rw [Ledger.listing, Multiset.map_map]
    refine (Multiset.map_congr rfl fun entry _ ↦ ?_) ▸
      Multiset.nodup_keys.mpr (DB.utxos d).nodupKeys
    exact entry.2.property.symm
  exact hkeys.of_map

theorem mem_listing_iff {d : Store} {u : UTXO} :
    u ∈ (DB.utxos d).listing ↔ d.lookup (Key.utxo u.outpoint) = some u.record := by
  rw [Ledger.listing, Multiset.mem_map, ← DB.lookup_utxos, Finmap.lookup_eq_some_iff]
  constructor
  · rintro ⟨⟨outpoint, u, rfl⟩, hmem, rfl⟩
    exact hmem
  · exact fun hmem ↦ ⟨⟨u.outpoint, u.record⟩, hmem, rfl⟩

/-- The contents of the files of unspent outputs are read back as their records. -/
theorem Represents.exists_listed (h : Represents json dir files d)
    {names : List (List UInt8)} (hnames : ∀ name ∈ names, ∃ u : UTXO,
      name = (Key.utxo u.outpoint).text ∧ d.lookup (Key.utxo u.outpoint) = some u.record) :
    ∃ listed : List UTXO, listed.map (fun u ↦ (Key.utxo u.outpoint).text) = names ∧
      (∀ u ∈ listed, d.lookup (Key.utxo u.outpoint) = some u.record) ∧
      ((names.filterMap fun name ↦ (files.lookup (join dir name)).map fun value ↦
        (name, value)).mapM fun (_, value) ↦ (json.unmarshal value).mapError FileErr.json) =
        .ok listed := by
  induction names with
  | nil => exact ⟨[], rfl, fun _ hu ↦ absurd hu List.not_mem_nil, rfl⟩
  | cons name names ih =>
    obtain ⟨listed, hmap, hstored, hread⟩ := ih fun name hname ↦
      hnames name (List.mem_cons_of_mem _ hname)
    obtain ⟨u, rfl, hu⟩ := hnames name List.mem_cons_self
    have hfile : files.lookup (join dir (Key.utxo u.outpoint).text) = some (json.marshal u) := by
      have hget := h.get (Key.utxo u.outpoint)
      rwa [Pebble.get, Pebble.file, clean_eq_of_isName (Key.isName_text _), hu] at hget
    refine ⟨u :: listed, congrArg _ hmap, List.forall_mem_cons.mpr ⟨hu, hstored⟩, ?_⟩
    rw [List.filterMap_cons, hfile]
    dsimp only [Option.map_some]
    rw [List.mapM_cons, json.unmarshal_marshal, hread]
    rfl

/-- `ListUTXOs` gives the record of each unspent output once, in the order of the keys. -/
theorem listUTXOs_of_represents (hdir : dir ≠ []) (h : Represents json dir files d) :
    ∃ listed, FileDB.listUTXOs json dir files = .ok listed ∧ DB.ListsUTXOs d listed ∧
      (listed.map fun u ↦ (Key.utxo u.outpoint).text).Pairwise Pebble.NameLE := by
  have hmem (name : List UInt8) : name ∈ (Pebble.entryNames dir files).filter (fun name ↦
      (Pebble.file dir (bytesOf "utxo:")).isPrefixOf (join dir name)) ↔
      ∃ u : UTXO, name = (Key.utxo u.outpoint).text ∧
        d.lookup (Key.utxo u.outpoint) = some u.record := by
    rw [List.mem_filter, h.mem_entryNames_iff hdir]
    constructor
    · rintro ⟨⟨key, hkey, rfl⟩, hprefix⟩
      obtain ⟨outpoint, rfl⟩ := (isPrefixOf_text_iff hdir key).mp hprefix
      obtain ⟨⟨u, rfl⟩, hu⟩ := Finmap.mem_iff.mp hkey
      exact ⟨u, rfl, hu⟩
    · rintro ⟨u, rfl, hu⟩
      exact ⟨⟨_, Finmap.mem_iff.mpr ⟨_, hu⟩, rfl⟩, (isPrefixOf_text_iff hdir _).mpr ⟨_, rfl⟩⟩
  obtain ⟨listed, hmap, hstored, hread⟩ := h.exists_listed fun name ↦ (hmem name).mp
  have hsorted : (listed.map fun u ↦ (Key.utxo u.outpoint).text).Pairwise Pebble.NameLE := by
    rw [hmap]
    exact (Finset.pairwise_sort _ _).filter _
  have hnodup : listed.Nodup := by
    refine List.Nodup.of_map (fun u ↦ (Key.utxo u.outpoint).text) ?_
    rw [hmap]
    exact (Finset.sort_nodup _ _).filter _
  refine ⟨listed, hread, ?_, hsorted⟩
  refine (Multiset.Nodup.ext (Multiset.coe_nodup.mpr hnodup) (nodup_listing d)).mpr fun u ↦ ?_
  rw [Multiset.mem_coe, mem_listing_iff]
  refine ⟨hstored u, fun hu ↦ ?_⟩
  -- the name of the record is walked, and no other record has it
  have hname := (hmem _).mpr ⟨u, rfl, hu⟩
  rw [← hmap, List.mem_map] at hname
  obtain ⟨u', hu', htext⟩ := hname
  have hkey : Key.utxo u'.outpoint = Key.utxo u.outpoint := Key.text_injective htext
  injection hkey with houtpoint
  have hsame : (d.lookup (Key.utxo u'.outpoint)).map Subtype.val =
      (d.lookup (Key.utxo u.outpoint)).map Subtype.val :=
    congrArg (fun outpoint ↦ (d.lookup (Key.utxo outpoint)).map Subtype.val) houtpoint
  rw [hstored u' hu', hu] at hsame
  have heq : u' = u := Option.some.inj hsame
  exact heq ▸ hu'

end Listing

/-- After any calls, `ListUTXOs` walks the files without an error and gives the record of each
unspent output once, in the order of the texts of the keys. -/
theorem listUTXOs_exact (json : RecordJson) (path : List UInt8) (calls : List StoreCall) :
    ∃ listed, FileDB.listUTXOs json (openDir path)
        (answers (FileDB.answer json (openDir path)) calls ∅).2 = .ok listed ∧
      DB.ListsUTXOs (answers DB.answer calls ∅).2 listed ∧
      (listed.map fun u ↦ (Key.utxo u.outpoint).text).Pairwise Pebble.NameLE := by
  have hdir : openDir path ≠ [] := clean_ne_nil path
  exact listUTXOs_of_represents hdir ((represents_empty json (openDir path)).answers hdir calls).2

end NevelCore
