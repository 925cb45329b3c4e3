import NevelCore.Storage.DB

/-!
# The ledger of unspent outputs

What the store is for: the ledger, a finite map from outpoints to records. A block acts on it by
the deletions and creations of its transactions, and `replay` applies a whole chain to the empty
ledger. `DB.utxos` is the ledger that a store holds, and `DB.utxos_applyBlock` and
`DB.utxos_disconnect` say that the batches of `ApplyBlock` and `DisconnectTip` act on it as the
ledger's own operations do. The rest of the store after these batches is described key by key.

`Ledger.disconnect_apply` is the rule of the undo log: disconnecting a block brings the ledger
back if every outpoint that the block creates was absent or is spent by the block itself.
-/

set_option autoImplicit false
set_option relaxedAutoImplicit false

namespace NevelCore

open Foundations

abbrev Ledger := Finmap RecordAt

abbrev LedgerOp := BatchOp RecordAt

namespace Ledger

/-- The outpoints that a transaction spends. A coinbase spends none. -/
def spends (t : Transaction) : List Outpoint :=
  if t.isCoinbase then [] else t.inputs.toList.map Input.outpoint

/-- The records that a transaction creates in a block of some height. -/
def records (t : Transaction) (height : UInt64) (coinbase : Bool) : List UTXO :=
  t.outputs.toList.mapIdx (DB.newRecord t height coinbase)

/-- The write of a record under its own outpoint. -/
def setRecord (u : UTXO) : LedgerOp := .set u.outpoint u.record

def transactionOps (height : UInt64) (ti : ℕ) (t : Transaction) : List LedgerOp :=
  (spends t).map .delete ++ (records t height (ti == 0)).map setRecord

/-- What a block does to the ledger: each transaction spends and then creates. -/
def blockOps (b : Block) : List LedgerOp :=
  (b.transactions.toList.mapIdx (transactionOps b.header.height)).flatten

def apply (l : Ledger) (b : Block) : Ledger := commit (blockOps b) l

/-- The ledger of a chain, given newest block first. -/
def replay : List Block → Ledger
  | [] => ∅
  | b :: rest => apply (replay rest) b

/-- The amount of a record. -/
def amount (outpoint : Outpoint) (record : RecordAt outpoint) : ℕ := record.val.amount.toNat

/-- The amounts of all unspent outputs, added up in the natural numbers. -/
def supply (l : Ledger) : ℕ := total amount l

/-- All records of a ledger. -/
def listing (l : Ledger) : Multiset UTXO := l.entries.map fun entry ↦ entry.2.val

/-- The amount under an outpoint, none if there is no record. -/
def amountAt (l : Ledger) (outpoint : Outpoint) : ℕ := weightAt amount l outpoint

/-- The records of a ledger as a view of the unspent outputs. -/
def view (l : Ledger) : View := fun outpoint ↦ (l.lookup outpoint).map Subtype.val

/-- The outpoints that a block creates. -/
def created (b : Block) : List Outpoint := b.transactions.toList.flatMap DB.outpoints

/-- The outpoints that a block spends. -/
def spent (b : Block) : List Outpoint := b.transactions.toList.flatMap spends

/-- The records of the ledger that a block spends. -/
def undoLog (l : Ledger) (b : Block) : List UTXO :=
  (spent b).filterMap fun outpoint ↦ (l.lookup outpoint).map Subtype.val

/-- Takes a block back, with its undo log. -/
def disconnect (l : Ledger) (b : Block) (log : List UTXO) : Ledger :=
  commit ((created b).map .delete ++ log.map setRecord) l

/-- Every outpoint that a block creates is absent before it, or spent by the block itself. -/
def CreatesNew (l : Ledger) (b : Block) : Prop :=
  ∀ outpoint ∈ created b, l.lookup outpoint = none ∨ outpoint ∈ spent b

theorem spends_of_noCoinbase {t : Transaction} (h : t.isCoinbase = false) :
    spends t = t.spent := by
  rw [spends, h, if_neg Bool.false_ne_true, Transaction.spent]

theorem amountAt_view (l : Ledger) : l.view.amountAt = l.amountAt := by
  funext outpoint
  rw [View.amountAt, view, amountAt, weightAt]
  cases l.lookup outpoint <;> rfl

theorem deleted_setRecord (l : List UTXO) : deleted (l.map setRecord) = [] := by
  induction l with
  | nil => rfl
  | cons u l ih => exact ih

theorem deleted_transactionOps (height : UInt64) (ti : ℕ) (t : Transaction) :
    deleted (transactionOps height ti t) = spends t := by
  have hdelete (l : List Outpoint) :
      deleted (l.map fun outpoint ↦ (.delete outpoint : LedgerOp)) = l := by
    induction l with
    | nil => rfl
    | cons outpoint l ih => exact congrArg (outpoint :: ·) ih
  rw [transactionOps, deleted_append, hdelete, deleted_setRecord, List.append_nil]

theorem written_setRecord (l : List UTXO) : written (l.map setRecord) = l.map UTXO.outpoint := by
  induction l with
  | nil => rfl
  | cons u l ih => exact congrArg (u.outpoint :: ·) ih

theorem outpoint_records (t : Transaction) (height : UInt64) (coinbase : Bool) :
    (records t height coinbase).map UTXO.outpoint = DB.outpoints t := by
  rw [records, DB.outpoints, List.mapIdx_eq_zipIdx_map, List.mapIdx_eq_zipIdx_map, List.map_map]
  rfl

theorem written_transactionOps (height : UInt64) (ti : ℕ) (t : Transaction) :
    written (transactionOps height ti t) = DB.outpoints t := by
  have hdelete (l : List Outpoint) :
      written (l.map fun outpoint ↦ (.delete outpoint : LedgerOp)) = [] := by
    induction l with
    | nil => rfl
    | cons outpoint l ih => exact ih
  rw [transactionOps, written_append, hdelete, written_setRecord, outpoint_records, List.nil_append]

theorem map_mapIdx_eq {α β γ : Type} (l : List α) (f : ℕ → α → β) (g : β → γ) {h : α → γ}
    (hfg : ∀ i a, g (f i a) = h a) : (l.mapIdx f).map g = l.map h := by
  rw [List.mapIdx_eq_zipIdx_map, List.map_map]
  calc l.zipIdx.map (g ∘ fun p ↦ f p.2 p.1) = l.zipIdx.map (h ∘ Prod.fst) := by
        congr 1
        funext p
        exact hfg p.2 p.1
    _ = l.map h := by rw [← List.map_map, List.zipIdx_map_fst]

/-- A block deletes what it spends. -/
theorem deleted_blockOps (b : Block) : deleted (blockOps b) = spent b := by
  rw [blockOps, deleted_flatten,
    map_mapIdx_eq _ _ _ fun i t ↦ deleted_transactionOps b.header.height i t]
  rfl

/-- A block sets what it creates. -/
theorem written_blockOps (b : Block) : written (blockOps b) = created b := by
  rw [blockOps, written_flatten,
    map_mapIdx_eq _ _ _ fun i t ↦ written_transactionOps b.header.height i t]
  rfl

theorem mem_undoLog {l : Ledger} {b : Block} {u : UTXO} :
    u ∈ undoLog l b ↔ u.outpoint ∈ spent b ∧ l.lookup u.outpoint = some ⟨u, rfl⟩ := by
  rw [undoLog, List.mem_filterMap]
  constructor
  · rintro ⟨outpoint, hspent, h⟩
    rw [Option.map_eq_some_iff] at h
    obtain ⟨⟨_, rfl⟩, hlookup, rfl⟩ := h
    exact ⟨hspent, hlookup⟩
  · rintro ⟨hspent, hlookup⟩
    exact ⟨u.outpoint, hspent, by rw [hlookup]; rfl⟩

/-- Disconnecting a block that creates only new outpoints brings the ledger back. -/
theorem disconnect_apply {l : Ledger} {b : Block} (h : l.CreatesNew b) :
    (l.apply b).disconnect b (l.undoLog b) = l := by
  let log : List (Sigma RecordAt) := (l.undoLog b).map fun u ↦ ⟨u.outpoint, u, rfl⟩
  have hlogged : ∀ outpoint ∈ spent b, outpoint ∈ log.map Sigma.fst ∨ l.lookup outpoint = none := by
    intro outpoint hspent
    cases hlookup : l.lookup outpoint with
    | none => exact .inr rfl
    | some record =>
      obtain ⟨u, rfl⟩ := record
      refine .inl (List.mem_map.mpr ⟨⟨u.outpoint, u, rfl⟩, List.mem_map.mpr ⟨u, ?_, rfl⟩, rfl⟩)
      exact mem_undoLog.mpr ⟨hspent, hlookup⟩
  have hset : (l.undoLog b).map setRecord = log.map fun entry ↦ .set entry.1 entry.2 := by
    rw [List.map_map]
    rfl
  rw [disconnect, hset]
  refine commit_undo (fun entry hentry ↦ ?_) (fun outpoint hcreated ↦ ?_) fun outpoint hkey ↦ ?_
  · obtain ⟨u, hu, rfl⟩ := List.mem_map.mp hentry
    exact (mem_undoLog.mp hu).2
  · exact (h outpoint hcreated).elim .inr (hlogged outpoint)
  · rw [mem_keys_iff, deleted_blockOps, written_blockOps] at hkey
    by_cases hcreated : outpoint ∈ created b
    · exact .inr (.inl hcreated)
    · refine (hlogged outpoint (hkey.resolve_right hcreated)).imp_right fun hnone ↦ .inr ⟨hnone, ?_⟩
      exact lookup_commit_of_none (written_blockOps b ▸ hcreated) hnone

end Ledger

/-! ### The ledger of a store -/

namespace DB

/-- The record an entry of the store holds, if it is one of an unspent output. -/
def recordEntry : (Σ key : Key, key.Val) → Option (Σ outpoint : Outpoint, RecordAt outpoint)
  | ⟨.utxo outpoint, record⟩ => some ⟨outpoint, record⟩
  | _ => none

theorem recordEntry_eq_some {entry : Σ key : Key, key.Val} {outpoint : Outpoint}
    {record : RecordAt outpoint} :
    recordEntry entry = some ⟨outpoint, record⟩ ↔ entry = ⟨.utxo outpoint, record⟩ := by
  constructor
  · intro h
    obtain ⟨key, value⟩ := entry
    cases key <;> cases h
    rfl
  · rintro rfl
    rfl

theorem nodupKeys_recordEntry (d : Store) : (d.entries.filterMap recordEntry).NodupKeys := by
  rw [← Multiset.nodup_keys]
  have hkeys : (d.entries.filterMap recordEntry).keys =
      d.entries.keys.filterMap fun key ↦ match key with
        | .utxo outpoint => some outpoint
        | _ => none := by
    rw [Multiset.keys, Multiset.keys, Multiset.map_filterMap, Multiset.filterMap_map]
    congr 1
    funext entry
    obtain ⟨key, value⟩ := entry
    cases key <;> rfl
  rw [hkeys]
  refine (Multiset.nodup_keys.mpr d.nodupKeys).filterMap _ fun key key' outpoint h h' ↦ ?_
  cases key <;> cases h
  cases key' <;> cases h'
  rfl

/-- The ledger that a store holds. -/
def utxos (d : Store) : Ledger := ⟨d.entries.filterMap recordEntry, nodupKeys_recordEntry d⟩

theorem lookup_utxos (d : Store) (outpoint : Outpoint) :
    (utxos d).lookup outpoint = d.lookup (Key.utxo outpoint) := by
  refine Option.ext fun record ↦ ?_
  rw [Finmap.lookup_eq_some_iff, Finmap.lookup_eq_some_iff]
  change _ ∈ d.entries.filterMap recordEntry ↔ _
  rw [Multiset.mem_filterMap]
  constructor
  · rintro ⟨entry, hentry, h⟩
    rw [recordEntry_eq_some] at h
    exact h ▸ hentry
  · exact fun h ↦ ⟨_, h, recordEntry_eq_some.mpr rfl⟩

theorem get_eq_ok {d : Store} {hash : Hash} {idx : UInt32} {u : UTXO} :
    get d hash idx = .ok u ↔ ∃ h, (utxos d).lookup ⟨hash, idx⟩ = some ⟨u, h⟩ := by
  rw [get, found_eq_ok, lookup_utxos, Option.map_eq_some_iff]
  constructor
  · rintro ⟨⟨u, h⟩, hlookup, rfl⟩
    exact ⟨h, hlookup⟩
  · rintro ⟨h, hlookup⟩
    exact ⟨⟨u, h⟩, hlookup, rfl⟩

/-- `ListUTXOs`: the walk over the files of the store meets every record once. The order is that of
the directory, and it is left open. -/
def ListsUTXOs (d : Store) (listed : List UTXO) : Prop :=
  (listed : Multiset UTXO) = (utxos d).listing

/-- A listed record is the one under its outpoint. -/
theorem ListsUTXOs.view_eq {d : Store} {listed : List UTXO} (h : ListsUTXOs d listed) {u : UTXO}
    (hu : u ∈ listed) : (utxos d).view u.outpoint = some u := by
  rw [← Multiset.mem_coe, h, Ledger.listing, Multiset.mem_map] at hu
  obtain ⟨⟨outpoint, record⟩, hmem, rfl⟩ := hu
  have hlookup : (utxos d).lookup outpoint = some record := Finmap.lookup_eq_some_iff.mpr hmem
  obtain ⟨u, rfl⟩ := record
  rw [Ledger.view, hlookup]
  rfl

/-- No two listed records have one outpoint. -/
theorem ListsUTXOs.nodup {d : Store} {listed : List UTXO} (h : ListsUTXOs d listed) :
    (listed.map UTXO.outpoint).Nodup := by
  have hkeys : ((utxos d).listing.map UTXO.outpoint).Nodup := by
    rw [Ledger.listing, Multiset.map_map]
    refine (Multiset.map_congr rfl fun entry _ ↦ ?_) ▸ Multiset.nodup_keys.mpr (utxos d).nodupKeys
    exact entry.2.property.symm
  rw [← h] at hkeys
  exact hkeys

/-- `BalanceByScript`, from the records that `ListUTXOs` lists. -/
def balanceByScript (listed : List UTXO) (script : Bytes) : Except Err UInt64 :=
  sumAmounts 0 ((listed.filter fun u ↦ u.script = script).map UTXO.amount)

/-- The write to the ledger that a write to the store is, if it is one. -/
def ledgerOp : StoreOp → Option LedgerOp
  | .set (.utxo outpoint) record => some (.set outpoint record)
  | .delete (.utxo outpoint) => some (.delete outpoint)
  | _ => none

theorem utxos_apply (op : StoreOp) (d : Store) :
    utxos (op.apply d) = match ledgerOp op with
      | some op' => op'.apply (utxos d)
      | none => utxos d := by
  have hother : (∀ outpoint, Key.utxo outpoint ≠ op.key) → utxos (op.apply d) = utxos d :=
    fun hne ↦ Finmap.ext_lookup fun outpoint ↦ by
      rw [lookup_utxos, lookup_utxos, BatchOp.lookup_apply_of_ne (hne outpoint)]
  cases op with
  | set key value =>
    cases key with
    | utxo outpoint =>
      refine Finmap.ext_lookup fun outpoint' ↦ ?_
      change (utxos (d.insert _ _)).lookup outpoint' = ((utxos d).insert _ _).lookup outpoint'
      rw [lookup_utxos]
      by_cases h : outpoint' = outpoint
      · rw [h, Finmap.lookup_insert, Finmap.lookup_insert]
      · rw [Finmap.lookup_insert_of_ne _ h, lookup_utxos]
        exact Finmap.lookup_insert_of_ne d fun he ↦ h (Key.utxo.inj he)
    | _ => exact hother fun _ h ↦ nomatch h
  | delete key =>
    cases key with
    | utxo outpoint =>
      refine Finmap.ext_lookup fun outpoint' ↦ ?_
      change (utxos (d.erase _)).lookup outpoint' = ((utxos d).erase _).lookup outpoint'
      rw [lookup_utxos]
      by_cases h : outpoint' = outpoint
      · rw [h, Finmap.lookup_erase, Finmap.lookup_erase]
      · rw [Finmap.lookup_erase_ne h, lookup_utxos]
        exact Finmap.lookup_erase_ne fun he ↦ h (Key.utxo.inj he)
    | _ => exact hother fun _ h ↦ nomatch h

/-- A batch acts on the ledger of the store by its writes to the ledger. -/
theorem utxos_commit (ops : List StoreOp) (d : Store) :
    utxos (commit ops d) = commit (ops.filterMap ledgerOp) (utxos d) := by
  induction ops generalizing d with
  | nil => rfl
  | cons op ops ih =>
    rw [commit_cons, ih, utxos_apply]
    cases h : ledgerOp op with
    | none => rw [List.filterMap_cons_none h]
    | some op' => rw [List.filterMap_cons_some h, commit_cons]

theorem filterMap_spendOps (t : Transaction) :
    (spendOps t).filterMap ledgerOp = (Ledger.spends t).map .delete := by
  unfold spendOps Ledger.spends
  split
  · rfl
  · induction t.inputs.toList with
    | nil => rfl
    | cons input inputs ih =>
      rw [List.flatMap_cons, List.filterMap_append, ih]
      rfl

theorem filterMap_setRecord (records : List UTXO) :
    (records.map setRecord).filterMap ledgerOp = records.map Ledger.setRecord := by
  rw [List.filterMap_map, ← List.filterMap_eq_map]
  rfl

theorem filterMap_transactionOps (height : UInt64) (ti : ℕ) (t : Transaction) :
    (transactionOps height ti t).filterMap ledgerOp = Ledger.transactionOps height ti t := by
  rw [transactionOps, List.filterMap_append, filterMap_spendOps, createOps, filterMap_setRecord]
  rfl

theorem filterMap_applyOps (d : Store) (b : Block) :
    (applyOps d b).filterMap ledgerOp = Ledger.blockOps b := by
  have htx : (b.transactions.toList.map fun t ↦
      (.set (.tx t.hash) (serializeTransaction t) : StoreOp)).filterMap ledgerOp = [] := by
    rw [List.filterMap_map, List.filterMap_eq_nil_iff]
    exact fun _ _ ↦ rfl
  have hblock : (b.transactions.toList.mapIdx (transactionOps b.header.height)).flatten.filterMap
      ledgerOp = Ledger.blockOps b := by
    rw [List.filterMap_flatten, Ledger.blockOps, List.mapIdx_eq_zipIdx_map,
      List.mapIdx_eq_zipIdx_map, List.map_map]
    simp only [Function.comp_def, filterMap_transactionOps]
  simp only [applyOps, applyOpsWith, List.filterMap_append, htx, hblock]
  exact List.append_nil _

/-- `ApplyBlock` acts on the ledger as the block does. -/
theorem utxos_applyBlock (d : Store) (b : Block) :
    utxos (applyBlock d b) = (utxos d).apply b := by
  rw [applyBlock, utxos_commit, filterMap_applyOps]
  rfl

/-- `DisconnectTip` acts on the ledger as taking the block back does. -/
theorem utxos_disconnect (d : Store) (b : Block) (log : List UTXO) :
    utxos (commit (disconnectOps b log) d) = (utxos d).disconnect b log := by
  have hdelete : (((b.transactions.toList.flatMap outpoints).map fun outpoint ↦
      (.delete (.utxo outpoint) : StoreOp)).filterMap ledgerOp) =
        (Ledger.created b).map .delete := by
    rw [List.filterMap_map, ← List.filterMap_eq_map]
    rfl
  have htip : ledgerOp (if b.header.height = 0 then .delete .tip else .set .tip b.header.prevHash)
      = none := by
    split <;> rfl
  rw [utxos_commit, disconnectOps, List.filterMap_append, List.filterMap_append, hdelete,
    filterMap_setRecord, List.filterMap_cons_none htip]
  exact congrArg (commit · (utxos d)) (List.append_nil _)

/-- The undo log of a block is read from the ledger. -/
theorem undoLog_eq (d : Store) (b : Block) : undoLog d b = (utxos d).undoLog b := by
  rw [undoLog, Ledger.undoLog, Ledger.spent, List.filterMap_flatMap]
  congr 1
  funext t
  unfold Ledger.spends
  split
  · rfl
  · rw [List.filterMap_map]
    congr 1
    funext input
    rw [Function.comp_apply, lookup_utxos, get]
    cases h : d.lookup (Key.utxo ⟨input.prevTxHash, input.outputIdx⟩) with
    | none =>
      rw [Input.outpoint, h]
      rfl
    | some record =>
      rw [Input.outpoint, h]
      rfl

/-! ### The rest of the store -/

theorem key_of_mem_transactionOps {height : UInt64} {ti : ℕ} {t : Transaction} {op : StoreOp}
    (h : op ∈ transactionOps height ti t) :
    ∃ outpoint, op.key = .utxo outpoint ∨ op.key = .spent outpoint := by
  rw [transactionOps, List.mem_append] at h
  rcases h with h | h
  · unfold spendOps at h
    split at h
    · cases h
    · simp only [List.mem_flatMap, List.mem_cons, List.not_mem_nil, or_false] at h
      obtain ⟨input, -, rfl | rfl⟩ := h
      · exact ⟨input.outpoint, .inl rfl⟩
      · exact ⟨input.outpoint, .inr rfl⟩
  · obtain ⟨u, -, rfl⟩ := List.mem_map.mp h
    exact ⟨u.outpoint, .inl rfl⟩

/-- What `ApplyBlock` does to the keys of the chain. -/
theorem lookup_applyBlock {k : Key} (hk : k.OfChain) (d : Store) (b : Block) :
    (applyBlock d b).lookup k = ((((d.insert (.undo b.hash) (undoLog d b)).insert
      (.blockHash b.hash) (serializeBlock b)).insert (.blockHeight b.header.height) b.hash).insert
        .tip b.hash).lookup k := by
  have htx : k ∉ (b.transactions.toList.map fun t ↦
      (.set (.tx t.hash) (serializeTransaction t) : StoreOp)).map BatchOp.key := by
    rw [List.map_map, List.mem_map]
    rintro ⟨t, -, rfl⟩
    exact hk
  have hops : k ∉ ((b.transactions.toList.mapIdx (transactionOps b.header.height)).flatten).map
      BatchOp.key := by
    rw [List.mem_map]
    rintro ⟨op, hop, rfl⟩
    obtain ⟨ops, hops, hop⟩ := List.mem_flatten.mp hop
    obtain ⟨i, hi, rfl⟩ := List.mem_mapIdx.mp hops
    obtain ⟨outpoint, h | h⟩ := key_of_mem_transactionOps hop <;> rw [h] at hk <;> exact hk
  simp only [applyBlock, applyOps, applyOpsWith, commit_append, commit_cons, commit_nil,
    BatchOp.apply]
  by_cases htip : k = .tip
  · rw [htip, Finmap.lookup_insert, Finmap.lookup_insert]
  · rw [Finmap.lookup_insert_of_ne _ htip, Finmap.lookup_insert_of_ne _ htip,
      lookup_commit_of_notMem hops, lookup_commit_of_notMem htx]

@[simp] theorem tip_applyBlock (d : Store) (b : Block) : tip (applyBlock d b) = .ok b.hash := by
  rw [tip, lookup_applyBlock (by trivial), Finmap.lookup_insert]
  rfl

theorem lookup_blockHash_applyBlock (d : Store) (b : Block) (hash : Hash) :
    (applyBlock d b).lookup (Key.blockHash hash) =
      if hash = b.hash then some (serializeBlock b) else d.lookup (Key.blockHash hash) := by
  rw [lookup_applyBlock (by trivial), Finmap.lookup_insert_of_ne _ (by simp),
    Finmap.lookup_insert_of_ne _ (by simp)]
  split
  · next h => rw [h, Finmap.lookup_insert]
  · next h =>
    rw [Finmap.lookup_insert_of_ne _ (by simpa using h), Finmap.lookup_insert_of_ne _ (by simp)]

@[simp] theorem getBlock_applyBlock_self (d : Store) (b : Block) :
    getBlock (applyBlock d b) b.hash = deserializeBlock (serializeBlock b) := by
  rw [getBlock, lookup_blockHash_applyBlock, if_pos rfl]
  rfl

theorem getBlock_applyBlock_of_ne {d : Store} {b : Block} {hash : Hash} (h : hash ≠ b.hash) :
    getBlock (applyBlock d b) hash = getBlock d hash := by
  rw [getBlock, lookup_blockHash_applyBlock, if_neg h, getBlock]

theorem blockHashByHeight_applyBlock (d : Store) (b : Block) (height : UInt64) :
    blockHashByHeight (applyBlock d b) height =
      if height = b.header.height then .ok b.hash else blockHashByHeight d height := by
  rw [blockHashByHeight, lookup_applyBlock (by trivial), Finmap.lookup_insert_of_ne _ (by simp)]
  split
  · next h =>
    rw [h, Finmap.lookup_insert]
    rfl
  · next h =>
    rw [Finmap.lookup_insert_of_ne _ (by simpa using h), Finmap.lookup_insert_of_ne _ (by simp),
      Finmap.lookup_insert_of_ne _ (by simp), blockHashByHeight]

@[simp] theorem totalWork_applyBlock (d : Store) (b : Block) (hash : Hash) :
    totalWork (applyBlock d b) hash = totalWork d hash := by
  rw [totalWork, lookup_applyBlock (by trivial), Finmap.lookup_insert_of_ne _ (by simp),
    Finmap.lookup_insert_of_ne _ (by simp), Finmap.lookup_insert_of_ne _ (by simp),
    Finmap.lookup_insert_of_ne _ (by simp), totalWork]

theorem undo_applyBlock (d : Store) (b : Block) (hash : Hash) :
    undo (applyBlock d b) hash =
      if hash = b.hash then .ok ((utxos d).undoLog b) else undo d hash := by
  rw [undo, lookup_applyBlock (by trivial), Finmap.lookup_insert_of_ne _ (by simp),
    Finmap.lookup_insert_of_ne _ (by simp), Finmap.lookup_insert_of_ne _ (by simp)]
  split
  · next h =>
    rw [h, Finmap.lookup_insert, undoLog_eq]
    rfl
  · next h => rw [Finmap.lookup_insert_of_ne _ (by simpa using h), undo]

/-! ### Recording work -/

theorem lookup_putTotalWork {k : Key} {hash : Hash} (h : k ≠ .totalWork hash) (d : Store)
    (work : ℕ) : (putTotalWork d hash work).lookup k = d.lookup k :=
  Finmap.lookup_insert_of_ne d h

@[simp] theorem utxos_putTotalWork (d : Store) (hash : Hash) (work : ℕ) :
    utxos (putTotalWork d hash work) = utxos d :=
  utxos_apply (.set (.totalWork hash) work) d

@[simp] theorem tip_putTotalWork (d : Store) (hash : Hash) (work : ℕ) :
    tip (putTotalWork d hash work) = tip d := by
  rw [tip, lookup_putTotalWork (by simp), tip]

@[simp] theorem getBlock_putTotalWork (d : Store) (hash hash' : Hash) (work : ℕ) :
    getBlock (putTotalWork d hash work) hash' = getBlock d hash' := by
  rw [getBlock, lookup_putTotalWork (by simp), getBlock]

@[simp] theorem blockHashByHeight_putTotalWork (d : Store) (hash : Hash) (height : UInt64)
    (work : ℕ) :
    blockHashByHeight (putTotalWork d hash work) height = blockHashByHeight d height := by
  rw [blockHashByHeight, lookup_putTotalWork (by simp), blockHashByHeight]

@[simp] theorem undo_putTotalWork (d : Store) (hash hash' : Hash) (work : ℕ) :
    undo (putTotalWork d hash work) hash' = undo d hash' := by
  rw [undo, lookup_putTotalWork (by simp), undo]

theorem totalWork_putTotalWork (d : Store) (hash hash' : Hash) (work : ℕ) :
    totalWork (putTotalWork d hash work) hash' =
      if hash' = hash then .ok work else totalWork d hash' := by
  rw [totalWork]
  split
  · next h =>
    rw [h, putTotalWork, Finmap.lookup_insert]
    rfl
  · next h => rw [lookup_putTotalWork (by simpa using h), totalWork]

/-! ### Disconnecting -/

theorem disconnectTip_eq {d : Store} {hash : Hash} {b : Block} {log : List UTXO}
    (htip : tip d = .ok hash) (hget : getBlock d hash = .ok b) (hundo : undo d hash = .ok log) :
    disconnectTip d = (.ok b, commit (disconnectOps b log) d) := by
  simp only [disconnectTip, htip, hget, hundo, bind, Except.bind]

theorem lookup_disconnect {k : Key} (hk : k.OfChain) (htip : k ≠ .tip) (d : Store) (b : Block)
    (log : List UTXO) : (commit (disconnectOps b log) d).lookup k = d.lookup k := by
  refine lookup_commit_of_notMem ?_ d
  rw [List.mem_map]
  rintro ⟨op, hop, rfl⟩
  rw [disconnectOps, List.mem_append, List.mem_append] at hop
  rcases hop with (hop | hop) | hop
  · obtain ⟨outpoint, -, rfl⟩ := List.mem_map.mp hop
    exact hk
  · obtain ⟨u, -, rfl⟩ := List.mem_map.mp hop
    exact hk
  · rw [List.mem_singleton] at hop
    subst hop
    split at htip <;> exact htip rfl

theorem tip_disconnect {b : Block} (h : b.header.height ≠ 0) (d : Store) (log : List UTXO) :
    tip (commit (disconnectOps b log) d) = .ok b.header.prevHash := by
  rw [tip, disconnectOps, if_neg h, commit_append, commit_cons, commit_nil]
  exact congrArg found (Finmap.lookup_insert _)

end DB

end NevelCore
