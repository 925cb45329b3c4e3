import NevelCore.Blockchain.Block

/-!
# The rules of consensus

The functions of `consensus/consensus.go`. What reads the store is a program over the calls of a
reader: `HeaderByHeight` and the method `Get` of `UTXOReader` are arguments. The clock is an
argument of the header rules, and so is the signature verifier of the transaction rules, `none`
standing for `nil`.
-/

set_option autoImplicit false
set_option relaxedAutoImplicit false

namespace NevelCore

open Foundations

/-- The name of an output: the hash of its transaction and its place there. `OutpointKey` and the
keys of the store are injective texts of it. -/
structure Outpoint where
  hash : Hash
  index : UInt32
deriving DecidableEq

structure UTXO where
  txHash : Hash
  outputIdx : UInt32
  amount : UInt64
  script : Bytes
  height : UInt64
  coinbase : Bool
deriving DecidableEq

def UTXO.outpoint (u : UTXO) : Outpoint := ⟨u.txHash, u.outputIdx⟩

def Input.outpoint (input : Input) : Outpoint := ⟨input.prevTxHash, input.outputIdx⟩

/-- `VerifyTransactionInput` of a `SignatureVerifier`. -/
abbrev SignatureVerifier := Transaction → ℕ → Bytes → Bool

/-! ### Amounts -/

/-- `BlockReward`. -/
def blockReward (height : UInt64) : UInt64 :=
  let halvings := height / halvingInterval
  if halvings ≥ 64 then 0 else initialReward >>> halvings

/-- The guarded addition of amounts, `ErrInflation` where `uint64` would overflow. -/
def addAmount (total amount : UInt64) : Except Err UInt64 :=
  if 0xffffffffffffffff - total < amount then .error .inflation else .ok (total + amount)

/-- The guarded sum of amounts. -/
def sumAmounts : UInt64 → List UInt64 → Except Err UInt64
  | total, [] => .ok total
  | total, amount :: rest => do
    let total ← addAmount total amount
    sumAmounts total rest

/-- `MinFee`. -/
def minFee (t : Transaction) : UInt64 :=
  UInt64.ofNat (serializeTransaction t).length * minRelayFeePerByte

/-! ### Proof of work -/

/-- `Retarget`. -/
def retarget (oldTarget : ℤ) (actualTime expectedTime : Int64) : ℤ :=
  let lower := expectedTime / 4
  let upper := expectedTime * 4
  let actualTime := if actualTime < lower then lower else actualTime
  let actualTime := if actualTime > upper then upper else actualTime
  oldTarget * actualTime.toInt / expectedTime.toInt

/-- `WorkForBits`. -/
def workForBits (bits : UInt32) : ℕ :=
  let target := compactToBig bits
  if target ≤ 0 then 0 else 2 ^ 256 / (target.toNat + 1)

/-- A hash as a big-endian number. -/
def hashValue (hash : Hash) : ℕ := beValue hash.toList

/-- `CheckProofOfWork`. -/
def checkProofOfWork (h : BlockHeader) (powLimit : ℤ) : Except Err Unit :=
  let target := compactToBig h.bits
  if target ≤ 0 ∨ target > powLimit then .error .invalidProofOfWork
  else if (hashValue h.hash : ℤ) > target then .error .invalidProofOfWork
  else .ok ()

section Programs

variable {S : Signature}

/-- `ExpectedBits`. -/
def expectedBits (prev : BlockHeader) (net : Network)
    (headerByHeight : UInt64 → Prog S Halt BlockHeader) : Prog S Halt UInt32 :=
  let nextHeight := prev.height + 1
  if nextHeight % difficultyWindow ≠ 0 ∨ nextHeight = 0 then pure prev.bits
  else do
    let first ← headerByHeight (nextHeight - difficultyWindow)
    let actual := prev.timestamp - first.timestamp
    let retargeted := retarget (compactToBig prev.bits) actual expectedRetargetSec
    let retargeted := if retargeted > net.powLimit then net.powLimit else retargeted
    pure (bigToCompact retargeted)

/-! ### Headers -/

/-- `ValidateBlockHeader`, at a clock reading in seconds. -/
def validateBlockHeader (now : ℤ) (b : Block) (prev : Option BlockHeader) (net : Network) :
    Except Err Unit :=
  if b.header.merkleRoot ≠ buildMerkleRoot b.transactions.toList then .error .invalidMerkleRoot
  else do
    checkProofOfWork b.header net.powLimit
    if b.header.timestamp.toInt > now + 2 * 60 * 60 then .error .badTimestamp
    else match prev with
      | none => .ok ()
      | some prev =>
        if b.header.height ≠ prev.height + 1 then .error .badHeight
        else if b.header.prevHash ≠ prev.hash then .error .badPreviousHash
        else .ok ()

/-- `ValidateBlockHeaderWithDifficulty`. -/
def validateBlockHeaderWithDifficulty (now : ℤ) (b : Block) (prev : Option BlockHeader)
    (net : Network) (headerByHeight : UInt64 → Prog S Halt BlockHeader) : Prog S Halt Unit := do
  attempt (validateBlockHeader now b prev net)
  match prev with
  | none => pure ()
  | some prev => do
    let expected ← expectedBits prev net headerByHeight
    if b.header.bits ≠ expected then raise .badDifficulty else pure ()

/-! ### Transactions -/

/-- `Get` of a `UTXOReader`. -/
abbrev UTXOReader (S : Signature) := Hash → UInt32 → Prog S Halt (Except Err UTXO)

/-- The loop of `ValidateTransactionAt` over the inputs from number `i` on. Returns the total of
the inputs and the outpoints spent so far. -/
def validateInputs (t : Transaction) (utxos : UTXOReader S) (verifier : Option SignatureVerifier)
    (spendHeight : UInt64) :
    ℕ → List Input → UInt64 → List Outpoint → Prog S Halt (UInt64 × List Outpoint)
  | _, [], inputTotal, pendingSpent => pure (inputTotal, pendingSpent)
  | i, input :: inputs, inputTotal, pendingSpent =>
    if input.outpoint ∈ pendingSpent then raise .doubleSpend
    else do
      match ← utxos input.prevTxHash input.outputIdx with
      | .error _ => raise .missingUTXO
      | .ok u =>
        if u.coinbase ∧ spendHeight ≠ 0xffffffffffffffff ∧
            spendHeight < u.height + coinbaseMaturity then raise .immatureCoinbase
        else if verifier.any (fun verify ↦ !verify t i u.script) then raise .invalidSignature
        else do
          let inputTotal ← attempt (addAmount inputTotal u.amount)
          validateInputs t utxos verifier spendHeight (i + 1) inputs inputTotal
            (input.outpoint :: pendingSpent)

/-- The loop of `ValidateTransactionAt` over the outputs. -/
def sumOutputs : UInt64 → List Output → Except Err UInt64
  | outputTotal, [] => .ok outputTotal
  | outputTotal, output :: outputs =>
    if output.amount = 0 then .error .dustOutput
    else do
      let outputTotal ← addAmount outputTotal output.amount
      sumOutputs outputTotal outputs

/-- `ValidateTransactionAt`. Returns the fee and the outpoints spent so far. -/
def validateTransactionAt (t : Transaction) (utxos : UTXOReader S)
    (verifier : Option SignatureVerifier) (pendingSpent : List Outpoint) (spendHeight : UInt64) :
    Prog S Halt (UInt64 × List Outpoint) :=
  if t.isCoinbase then raise .invalidCoinbase
  else do
    let (inputTotal, pendingSpent) ←
      validateInputs t utxos verifier spendHeight 0 t.inputs.toList 0 pendingSpent
    let outputTotal ← attempt (sumOutputs 0 t.outputs.toList)
    if outputTotal > inputTotal then raise .inflation
    else
      let fee := inputTotal - outputTotal
      if fee < minFee t then raise .feeTooLow else pure (fee, pendingSpent)

/-- `ValidateTransaction`: at the greatest height, at which every coinbase output is mature. -/
def validateTransaction (t : Transaction) (utxos : UTXOReader S)
    (verifier : Option SignatureVerifier) (pendingSpent : List Outpoint) :
    Prog S Halt (UInt64 × List Outpoint) :=
  validateTransactionAt t utxos verifier pendingSpent 0xffffffffffffffff

/-- The loop of `ValidateBlockTransactionsAt` over the transactions behind the coinbase. Returns
the sum of their fees. -/
def validateFees (utxos : UTXOReader S) (verifier : Option SignatureVerifier)
    (spendHeight : UInt64) : List Transaction → UInt64 → List Outpoint → Prog S Halt UInt64
  | [], fees, _ => pure fees
  | t :: txs, fees, spent => do
    let (fee, spent) ← validateTransactionAt t utxos verifier spent spendHeight
    let fees ← attempt (addAmount fees fee)
    validateFees utxos verifier spendHeight txs fees spent

/-- `ValidateBlockTransactionsAt`. -/
def validateBlockTransactionsAt (b : Block) (utxos : UTXOReader S)
    (verifier : Option SignatureVerifier) (spendHeight : UInt64) : Prog S Halt Unit :=
  match b.transactions.toList with
  | [] => raise .invalidCoinbase
  | coinbase :: txs =>
    if !coinbase.isCoinbase then raise .invalidCoinbase
    else do
      let reward := blockReward b.header.height
      let fees ← validateFees utxos verifier spendHeight txs 0 []
      let coinbaseOut ← attempt (sumAmounts 0 (coinbase.outputs.toList.map Output.amount))
      if coinbaseOut > reward + fees then raise .invalidCoinbase else pure ()

/-- `ValidateBlockTransactions`. -/
def validateBlockTransactions (b : Block) (utxos : UTXOReader S)
    (verifier : Option SignatureVerifier) : Prog S Halt Unit :=
  validateBlockTransactionsAt b utxos verifier b.header.height

end Programs

end NevelCore
