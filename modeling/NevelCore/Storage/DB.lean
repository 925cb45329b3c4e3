import NevelCore.Consensus.Passing
import NevelCore.Foundations.KeyValueBatch

/-!
# The store

`storage.DB` as a finite map. The key texts of the source are injective, and a constructor stands
for each of them. The values are typed: a record of an unspent output stands under its own
outpoint, and JSON is not modelled. The functions are those of `storage/storage.go` that the chain
calls; each is one atomic step on the map, and the ones that write do so in one batch.
-/

set_option autoImplicit false
set_option relaxedAutoImplicit false

namespace NevelCore

open Foundations

/-- The keys of the store. -/
inductive Key where
  | blockHeight (height : UInt64)
  | blockHash (hash : Hash)
  | tx (hash : Hash)
  | utxo (outpoint : Outpoint)
  | spent (outpoint : Outpoint)
  | tip
  | totalWork (hash : Hash)
  | undo (hash : Hash)
deriving DecidableEq

/-- The keys of the chain itself, not of a transaction or an output. -/
def Key.OfChain : Key → Prop
  | .tx _ | .utxo _ | .spent _ => False
  | _ => True

/-- A record of the unspent output that an outpoint names. -/
abbrev RecordAt (outpoint : Outpoint) := { u : UTXO // u.outpoint = outpoint }

/-- A record at its own outpoint. -/
abbrev UTXO.record (u : UTXO) : RecordAt u.outpoint := ⟨u, rfl⟩

/-- The values under the keys of the store. -/
@[reducible] def Key.Val : Key → Type
  | .blockHeight _ => Hash
  | .blockHash _ => List UInt8
  | .tx _ => List UInt8
  | .utxo outpoint => RecordAt outpoint
  | .spent _ => Unit
  | .tip => Hash
  | .totalWork _ => ℕ
  | .undo _ => List UTXO

abbrev Store := Finmap Key.Val

abbrev StoreOp := BatchOp Key.Val

/-- `ErrNotFound` for a missing value. -/
def found {α : Type} : Option α → Except Err α
  | some a => .ok a
  | none => .error .notFound

@[simp] theorem found_some {α : Type} (a : α) : found (some a) = .ok a := rfl

@[simp] theorem found_none {α : Type} : found (none : Option α) = .error .notFound := rfl

theorem found_eq_ok {α : Type} {o : Option α} {a : α} : found o = .ok a ↔ o = some a := by
  cases o <;> simp [found]

namespace DB

/-! ### Reading -/

def totalWork (d : Store) (hash : Hash) : Except Err ℕ := found (d.lookup (Key.totalWork hash))

def getBlock (d : Store) (hash : Hash) : Except Err Block := do
  let data ← found (d.lookup (Key.blockHash hash))
  deserializeBlock data

def blockHashByHeight (d : Store) (height : UInt64) : Except Err Hash :=
  found (d.lookup (Key.blockHeight height))

def tip (d : Store) : Except Err Hash := found (d.lookup Key.tip)

/-- `Get`. -/
def get (d : Store) (hash : Hash) (idx : UInt32) : Except Err UTXO :=
  found ((d.lookup (Key.utxo ⟨hash, idx⟩)).map Subtype.val)

def undo (d : Store) (hash : Hash) : Except Err (List UTXO) := found (d.lookup (Key.undo hash))

/-! ### Writing -/

def putTotalWork (d : Store) (hash : Hash) (work : ℕ) : Store := d.insert (.totalWork hash) work

/-- The undo log of a block: the records, as the store has them before the block, of the outputs
that its transactions spend. An output that the store does not have is left out. -/
def undoLog (d : Store) (b : Block) : List UTXO :=
  b.transactions.toList.flatMap fun t ↦
    if t.isCoinbase then []
    else t.inputs.toList.filterMap fun input ↦
      (get d input.prevTxHash input.outputIdx).toOption

/-- The writes that spend the inputs of a transaction. -/
def spendOps (t : Transaction) : List StoreOp :=
  if t.isCoinbase then []
  else t.inputs.toList.flatMap fun input ↦
    [.delete (.utxo input.outpoint), .set (.spent input.outpoint) ()]

/-- The record of output number `i` of a transaction, in a block of some height. -/
def newRecord (t : Transaction) (height : UInt64) (coinbase : Bool) (i : ℕ) (output : Output) :
    UTXO where
  txHash := t.hash
  outputIdx := UInt32.ofNat i
  amount := output.amount
  script := output.lockingScript
  height := height
  coinbase := coinbase

/-- The write of a record under its own outpoint. -/
def setRecord (u : UTXO) : StoreOp := .set (.utxo u.outpoint) ⟨u, rfl⟩

/-- The writes that create the outputs of a transaction. -/
def createOps (t : Transaction) (height : UInt64) (coinbase : Bool) : List StoreOp :=
  (t.outputs.toList.mapIdx (newRecord t height coinbase)).map setRecord

/-- The writes to the unspent outputs for transaction number `ti` of a block. -/
def transactionOps (height : UInt64) (ti : ℕ) (t : Transaction) : List StoreOp :=
  spendOps t ++ createOps t height (ti == 0)

/-- The batch of `ApplyBlock`, for the undo log that was read. -/
def applyOpsWith (undo : List UTXO) (b : Block) : List StoreOp :=
  let hash := b.hash
  [.set (.undo hash) undo, .set (.blockHash hash) (serializeBlock b),
    .set (.blockHeight b.header.height) hash] ++
  b.transactions.toList.map (fun t ↦ .set (.tx t.hash) (serializeTransaction t)) ++
  (b.transactions.toList.mapIdx (transactionOps b.header.height)).flatten ++
  [.set .tip hash]

/-- The batch of `ApplyBlock`. -/
def applyOps (d : Store) (b : Block) : List StoreOp := applyOpsWith (undoLog d b) b

/-- `ApplyBlock`. -/
def applyBlock (d : Store) (b : Block) : Store := commit (applyOps d b) d

/-- The outpoints of the outputs of a transaction. -/
def outpoints (t : Transaction) : List Outpoint :=
  t.outputs.toList.mapIdx fun i _ ↦ ⟨t.hash, UInt32.ofNat i⟩

/-- The batch of `DisconnectTip`, for the block at the tip and its undo log. -/
def disconnectOps (b : Block) (undo : List UTXO) : List StoreOp :=
  (b.transactions.toList.flatMap outpoints).map (fun outpoint ↦ .delete (.utxo outpoint)) ++
  undo.map setRecord ++
  [if b.header.height = 0 then .delete .tip else .set .tip b.header.prevHash]

/-- `DisconnectTip`. -/
def disconnectTip (d : Store) : Except Err Block × Store :=
  match (do
    let hash ← tip d
    let b ← getBlock d hash
    let log ← undo d hash
    .ok (b, log) : Except Err (Block × List UTXO)) with
  | .ok (b, log) => (.ok b, commit (disconnectOps b log) d)
  | .error e => (.error e, d)

end DB

end NevelCore
