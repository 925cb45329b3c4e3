import NevelCore.Mempool.Mempool
import NevelCore.Storage.DB

/-!
# The chain manager

The methods of `chain.Manager` as programs over the calls it makes on the store and the memory
pool, one call being one atomic step. The loops of `reorg`, `RollbackToHeight` and `Mine` take a
bound on their rounds: a program that reaches the bound ends with `outOfFuel`, and for `Mine` the
bound is the number of rounds before the context is done. The clock is an argument.
-/

set_option autoImplicit false
set_option relaxedAutoImplicit false

namespace NevelCore

open Foundations

/-! ### The calls -/

inductive Call where
  | tip
  | getBlock (hash : Hash)
  | blockHashByHeight (height : UInt64)
  | get (hash : Hash) (idx : UInt32)
  | totalWork (hash : Hash)
  | putTotalWork (hash : Hash) (work : ℕ)
  | applyBlock (b : Block)
  | disconnectTip
  | removeMinedBlock (b : Block)

/-- The results of the calls. -/
@[reducible] def Call.Answer : Call → Type
  | .tip => Except Err Hash
  | .getBlock _ => Except Err Block
  | .blockHashByHeight _ => Except Err Hash
  | .get _ _ => Except Err UTXO
  | .totalWork _ => Except Err ℕ
  | .putTotalWork _ _ => Except Err Unit
  | .applyBlock _ => Except Err Unit
  | .disconnectTip => Except Err Block
  | .removeMinedBlock _ => Unit

@[reducible] def calls : Signature where
  Call := Call
  Answer := Call.Answer

/-- A program of the manager. -/
abbrev Routine (α : Type) := Prog calls Halt α

namespace Store

abbrev tip : Routine (Except Err Hash) := Prog.perform (S := calls) Call.tip

abbrev getBlock (hash : Hash) : Routine (Except Err Block) :=
  Prog.perform (S := calls) (Call.getBlock hash)

abbrev blockHashByHeight (height : UInt64) : Routine (Except Err Hash) :=
  Prog.perform (S := calls) (Call.blockHashByHeight height)

/-- The store as a `UTXOReader`. -/
abbrev get : UTXOReader calls := fun hash idx ↦ Prog.perform (S := calls) (Call.get hash idx)

abbrev totalWork (hash : Hash) : Routine (Except Err ℕ) :=
  Prog.perform (S := calls) (Call.totalWork hash)

abbrev putTotalWork (hash : Hash) (work : ℕ) : Routine (Except Err Unit) :=
  Prog.perform (S := calls) (Call.putTotalWork hash work)

abbrev applyBlock (b : Block) : Routine (Except Err Unit) :=
  Prog.perform (S := calls) (Call.applyBlock b)

abbrev disconnectTip : Routine (Except Err Block) := Prog.perform (S := calls) Call.disconnectTip

end Store

/-- `RemoveMinedBlock` on the memory pool, if there is one. -/
abbrev Mempool.removeMined (b : Block) : Routine Unit :=
  Prog.perform (S := calls) (Call.removeMinedBlock b)

/-- What the calls work on. A manager without a memory pool has none. -/
structure Node where
  store : Store
  mempool : Option Mempool

/-- How the calls are answered. Writing to the store does not fail. -/
def exec : Machine calls Node
  | .tip, n => (DB.tip n.store, n)
  | .getBlock hash, n => (DB.getBlock n.store hash, n)
  | .blockHashByHeight height, n => (DB.blockHashByHeight n.store height, n)
  | .get hash idx, n => (DB.get n.store hash idx, n)
  | .totalWork hash, n => (DB.totalWork n.store hash, n)
  | .putTotalWork hash work, n => (.ok (), { n with store := DB.putTotalWork n.store hash work })
  | .applyBlock b, n => (.ok (), { n with store := DB.applyBlock n.store b })
  | .disconnectTip, n =>
    ((DB.disconnectTip n.store).1, { n with store := (DB.disconnectTip n.store).2 })
  | .removeMinedBlock b, n => ((), { n with mempool := n.mempool.map (·.removeMinedBlock b) })

section Run

variable {α : Type} (n : Node)

@[simp] theorem run_tip_bind (next : Except Err Hash → Routine α) :
    (Store.tip >>= next).run exec n = (next (DB.tip n.store)).run exec n := rfl

@[simp] theorem run_getBlock_bind (hash : Hash) (next : Except Err Block → Routine α) :
    (Store.getBlock hash >>= next).run exec n = (next (DB.getBlock n.store hash)).run exec n := rfl

@[simp] theorem run_blockHashByHeight_bind (height : UInt64) (next : Except Err Hash → Routine α) :
    (Store.blockHashByHeight height >>= next).run exec n =
      (next (DB.blockHashByHeight n.store height)).run exec n := rfl

@[simp] theorem run_get_bind (hash : Hash) (idx : UInt32) (next : Except Err UTXO → Routine α) :
    (Store.get hash idx >>= next).run exec n = (next (DB.get n.store hash idx)).run exec n := rfl

@[simp] theorem run_totalWork_bind (hash : Hash) (next : Except Err ℕ → Routine α) :
    (Store.totalWork hash >>= next).run exec n =
      (next (DB.totalWork n.store hash)).run exec n := rfl

@[simp] theorem run_putTotalWork_bind (hash : Hash) (work : ℕ)
    (next : Except Err Unit → Routine α) :
    (Store.putTotalWork hash work >>= next).run exec n =
      (next (.ok ())).run exec { n with store := DB.putTotalWork n.store hash work } := rfl

@[simp] theorem run_applyBlock_bind (b : Block) (next : Except Err Unit → Routine α) :
    (Store.applyBlock b >>= next).run exec n =
      (next (.ok ())).run exec { n with store := DB.applyBlock n.store b } := rfl

@[simp] theorem run_disconnectTip_bind (next : Except Err Block → Routine α) :
    (Store.disconnectTip >>= next).run exec n =
      (next (DB.disconnectTip n.store).1).run exec
        { n with store := (DB.disconnectTip n.store).2 } := rfl

@[simp] theorem run_removeMined_bind (b : Block) (next : Unit → Routine α) :
    (Mempool.removeMined b >>= next).run exec n =
      (next ()).run exec { n with mempool := n.mempool.map (·.removeMinedBlock b) } := rfl

@[simp] theorem run_removeMined (b : Block) :
    (Mempool.removeMined b).run exec n =
      (.ok (), { n with mempool := n.mempool.map (·.removeMinedBlock b) }) := rfl

@[simp] theorem run_raise (e : Err) :
    (raise e : Routine α).run exec n = (.error (.error e), n) := rfl

@[simp] theorem raise_bind {β : Type} (e : Err) (next : α → Routine β) :
    (raise e >>= next) = raise e := rfl

end Run

/-- The fields of `chain.Manager` that do not change. -/
structure Manager where
  network : Network
  verifier : Option SignatureVerifier

namespace Manager

/-! ### Reading the chain -/

/-- `TipBlock`. -/
def tipBlock : Routine Block := do
  match ← Store.tip with
  | .error _ => raise .chainUninitialized
  | .ok hash => attempt (← Store.getBlock hash)

/-- `HeaderByHeight`. -/
def headerByHeight (height : UInt64) : Routine BlockHeader := do
  let hash ← attempt (← Store.blockHashByHeight height)
  let b ← attempt (← Store.getBlock hash)
  pure b.header

variable (m : Manager)

/-- `NextBits`. -/
def nextBits (prev : BlockHeader) : Routine UInt32 := expectedBits prev m.network headerByHeight

/-! ### Rolling back and switching branches -/

/-- `RollbackToHeight`. -/
def rollbackToHeight : ℕ → UInt64 → Routine Unit
  | 0, _ => .fail .outOfFuel
  | fuel + 1, height => do
    let tip ← tipBlock
    if tip.header.height ≤ height then pure ()
    else do
      let _ ← attempt (← Store.disconnectTip)
      rollbackToHeight fuel height

/-- The first loop of `reorg`: collects the side chain, newest block first, from its block `cur`
back to the main chain. Returns it and its oldest block. -/
def collectSideChain : ℕ → Block → List Block → Routine (List Block × Block)
  | 0, _, _ => .fail .outOfFuel
  | fuel + 1, cur, sideChain =>
    if cur.header.height = 0 then pure (sideChain, cur)
    else do
      match ← Store.blockHashByHeight (cur.header.height - 1) with
      | .error e => raise (.reorgMissingHeight (cur.header.height - 1) e)
      | .ok mainHash =>
        if mainHash = cur.header.prevHash then pure (sideChain, cur)
        else do
          match ← Store.getBlock cur.header.prevHash with
          | .error e => raise (.reorgMissingSideBlock cur.header.prevHash e)
          | .ok parentBlock => collectSideChain fuel parentBlock (sideChain ++ [parentBlock])

/-- The work of a block on top of what is recorded for its parent, none if nothing is. -/
def accumulatedWork (b : Block) : Routine ℕ := do
  let work := workForBits b.header.bits
  if b.header.height > 0 then do
    match ← Store.totalWork b.header.prevHash with
    | .ok prevWork => pure (work + prevWork)
    | .error _ => pure work
  else pure work

/-- The second loop of `reorg`: applies blocks, oldest first. -/
def applySideChain : List Block → Routine Unit
  | [] => pure ()
  | b :: blocks => do
    match ← Store.applyBlock b with
    | .error e => raise (.reorgApply e)
    | .ok () => do
      let work ← accumulatedWork b
      attempt (← Store.putTotalWork b.hash work)
      applySideChain blocks

/-- The third loop of `reorg`. -/
def removeMinedBlocks : List Block → Routine Unit
  | [] => pure ()
  | b :: blocks => do
    Mempool.removeMined b
    removeMinedBlocks blocks

/-- `reorg`. -/
def reorg (fuel : ℕ) (newTip : Block) : Routine Unit := do
  let (sideChain, cur) ← collectSideChain fuel newTip [newTip]
  let forkHeight := if cur.header.height = 0 then 0 else cur.header.height - 1
  (rollbackToHeight fuel forkHeight).mapError (Halt.map .reorgRollback)
  applySideChain sideChain.reverse
  removeMinedBlocks sideChain

/-! ### Accepting a block -/

/-- The header of the block that a block builds on, looked up unless its height is 0. -/
def previousHeader (b : Block) : Routine (Option BlockHeader) :=
  if b.header.height > 0 then do
    match ← Store.getBlock b.header.prevHash with
    | .error e => raise (.previousBlockNotFound e)
    | .ok prev => pure (some prev.header)
  else pure none

/-- The checks of `ValidateAndApplyBlock` before the block's work is looked at, at a clock
reading. -/
def checkBlock (now : ℤ) (b : Block) : Routine Unit := do
  match ← Store.getBlock b.hash with
  | .ok _ => raise .blockAlreadyKnown
  | .error _ => do
    let prevHeader ← previousHeader b
    validateBlockHeaderWithDifficulty now b prevHeader m.network headerByHeight
    validateBlockTransactions b Store.get m.verifier

/-- What `ValidateAndApplyBlock` does with a block that has passed its checks. -/
def connectBlock (fuel : ℕ) (b : Block) : Routine Unit := do
  let incomingWork ← accumulatedWork b
  match ← Store.tip with
  | .error _ => do
    attempt (← Store.applyBlock b)
    attempt (← Store.putTotalWork b.hash incomingWork)
  | .ok currentTipHash => do
    let currentWork ← Store.totalWork currentTipHash
    let currentWork := currentWork.toOption.getD 0
    if b.header.prevHash = currentTipHash then do
      attempt (← Store.applyBlock b)
      attempt (← Store.putTotalWork b.hash incomingWork)
      Mempool.removeMined b
    else if incomingWork ≤ currentWork then
      attempt (← Store.putTotalWork b.hash incomingWork)
    else reorg fuel b

/-- `ValidateAndApplyBlock`. -/
def validateAndApplyBlock (now : ℤ) (fuel : ℕ) (b : Block) : Routine Unit := do
  m.checkBlock now b
  connectBlock fuel b

/-! ### Mining -/

end Manager

def Block.withNonce (b : Block) (nonce : UInt64) : Block :=
  { b with header := { b.header with nonce := nonce } }

/-- `Mine`: raises the nonce until the hash is below the target. Gives up after `polls` rounds, when
the context is done. -/
def mine : ℕ → Block → ℤ → Option Block
  | 0, _, _ => none
  | polls + 1, b, target =>
    if (hashValue b.header.hash : ℤ) < target then some b
    else mine polls (b.withNonce (b.header.nonce + 1)) target

namespace Manager

variable (m : Manager)

/-- `InitGenesis`. -/
def initGenesis (polls : ℕ) : Routine Block := do
  match ← Store.tip with
  | .ok hash => attempt (← Store.getBlock hash)
  | .error _ =>
    match mine polls (createGenesisBlock m.network) m.network.powLimit with
    | none => raise .contextDone
    | some g => do
      attempt (← Store.applyBlock g)
      let _ ← Store.putTotalWork g.hash (workForBits g.header.bits)
      pure g

/-- The text in the coinbase of `BuildTemplate`. -/
def minedAt (now : Int64) : String := "NEVEL mined at " ++ toString now.toInt

/-- The block of `BuildTemplate`, for the transactions that `Snapshot` lists. The clock is read
once for the coinbase and once for the header. -/
def buildTemplate (coinbaseNow headerNow : Int64) (snapshot : List Transaction)
    (minerScript : Bytes) : Routine Block := do
  let prev ← tipBlock
  let height := prev.header.height + 1
  let bits ← m.nextBits prev.header
  let coinbase := newCoinbase (minedAt coinbaseNow) (blockReward height) minerScript
  pure (newBlock headerNow prev.hash height bits (.ofList (coinbase :: snapshot)))

/-- One round of `MineBlocksStreaming`: builds a block, mines it and submits it. Returns it. -/
def mineBlock (coinbaseNow headerNow : Int64) (now : ℤ) (fuel polls : ℕ)
    (snapshot : List Transaction) (minerScript : Bytes) : Routine Block := do
  let template ← m.buildTemplate coinbaseNow headerNow snapshot minerScript
  match mine polls template (compactToBig template.header.bits) with
  | none => raise .contextDone
  | some b => do
    m.validateAndApplyBlock now fuel b
    pure b

end Manager

end NevelCore
