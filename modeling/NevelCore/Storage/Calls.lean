import NevelCore.Storage.Failure

/-!
# The other calls of the store

The functions of `storage/storage.go` that write one thing at a time, and those that read a
transaction or the height of the tip. `ApplyBlock` writes in one batch what the plain calls write
one after the other: the undo log, the block, and for each transaction its inputs as spent and its
outputs as unspent (`applyBlock_eq_applyPlainly`). The batch writes the tip last and `PutBlock`
writes it before the outputs, which makes no difference once all writes are done.
-/

set_option autoImplicit false
set_option relaxedAutoImplicit false

namespace NevelCore

open Foundations

namespace DB

/-! ### Reading -/

def getTx (d : Store) (hash : Hash) : Except Err Transaction := do
  let data ← found (d.lookup (Key.tx hash))
  deserializeTransaction data

def height (d : Store) : Except Err UInt64 := do
  let hash ← tip d
  let b ← getBlock d hash
  .ok b.header.height

/-! ### Writing -/

def setTip (d : Store) (hash : Hash) : Store := d.insert .tip hash

/-- The batch of `PutBlock`. -/
def putBlockOps (b : Block) : List StoreOp :=
  let hash := b.hash
  [.set (.blockHash hash) (serializeBlock b), .set (.blockHeight b.header.height) hash] ++
  b.transactions.toList.map (fun t ↦ .set (.tx t.hash) (serializeTransaction t)) ++
  [.set .tip hash]

def putBlock (d : Store) (b : Block) : Store := commit (putBlockOps b) d

def putUndo (d : Store) (hash : Hash) (undo : List UTXO) : Store := d.insert (.undo hash) undo

def putUTXO (d : Store) (u : UTXO) : Store := d.insert (.utxo u.outpoint) u.record

/-- The batch of `SpendUTXO`. -/
def spendUTXOOps (hash : Hash) (idx : UInt32) : List StoreOp :=
  [.delete (.utxo ⟨hash, idx⟩), .set (.spent ⟨hash, idx⟩) ()]

def spendUTXO (d : Store) (hash : Hash) (idx : UInt32) : Store := commit (spendUTXOOps hash idx) d

/-! ### A block, one call at a time -/

/-- The calls for transaction number `ti` of a block: `SpendUTXO` for its inputs, unless it is a
coinbase, and `PutUTXO` for its outputs. -/
def applyTransactionPlainly (height : UInt64) (d : Store) (t : Transaction) (ti : ℕ) : Store :=
  let spent :=
    if t.isCoinbase then d
    else t.inputs.toList.foldl (fun d input ↦ spendUTXO d input.prevTxHash input.outputIdx) d
  (t.outputs.toList.mapIdx (newRecord t height (ti == 0))).foldl putUTXO spent

/-- A block is stored with the calls that write one thing at a time: `PutUndo`, `PutBlock`, and for
each transaction `SpendUTXO` and `PutUTXO`. -/
def applyPlainly (d : Store) (b : Block) : Store :=
  b.transactions.toList.zipIdx.foldl
    (fun d (t, ti) ↦ applyTransactionPlainly b.header.height d t ti)
    (putBlock (putUndo d b.hash (undoLog d b)) b)

theorem commit_spendOps (t : Transaction) (d : Store) :
    commit (spendOps t) d =
      if t.isCoinbase then d
      else t.inputs.toList.foldl
        (fun d input ↦ spendUTXO d input.prevTxHash input.outputIdx) d := by
  rw [spendOps]
  split
  · rfl
  · exact commit_flatMap (fun input : Input ↦ spendUTXOOps input.prevTxHash input.outputIdx) _ d

theorem commit_setRecord (records : List UTXO) (d : Store) :
    commit (records.map setRecord) d = records.foldl putUTXO d := by
  induction records generalizing d with
  | nil => rfl
  | cons u records ih =>
    rw [List.map_cons, commit_cons, ih]
    rfl

theorem commit_transactionOps (height : UInt64) (ti : ℕ) (t : Transaction) (d : Store) :
    commit (transactionOps height ti t) d = applyTransactionPlainly height d t ti := by
  rw [transactionOps, commit_append, commit_spendOps, createOps, commit_setRecord]
  rfl

theorem tip_notMem_transactionOps (height : UInt64) (transactions : List Transaction) :
    Key.tip ∉ (transactions.mapIdx (transactionOps height)).flatten.map BatchOp.key := by
  intro hmem
  obtain ⟨op, hop, hkey⟩ := List.mem_map.mp hmem
  obtain ⟨ops, hops, hop⟩ := List.mem_flatten.mp hop
  obtain ⟨ti, hti, rfl⟩ := List.mem_mapIdx.mp hops
  obtain ⟨outpoint, h | h⟩ := key_of_mem_transactionOps hop <;> rw [h] at hkey <;> cases hkey

theorem applyBlock_eq_applyPlainly (d : Store) (b : Block) : applyBlock d b = applyPlainly d b := by
  have hplain (d : Store) :
      commit (b.transactions.toList.mapIdx (transactionOps b.header.height)).flatten d =
        b.transactions.toList.zipIdx.foldl
          (fun d (t, ti) ↦ applyTransactionPlainly b.header.height d t ti) d := by
    rw [List.mapIdx_eq_zipIdx_map, ← List.flatMap_def, commit_flatMap]
    simp only [commit_transactionOps]
  rw [applyBlock, applyOps, applyOpsWith, applyPlainly, ← hplain, putBlock, putBlockOps]
  simp only [commit_append]
  -- the tip is written after the outputs here, and before them there
  exact (commit_insert (tip_notMem_transactionOps _ _) b.hash _).symm

end DB

end NevelCore
