import NevelCore.Foundations.AtomicProgram
import NevelCore.Foundations.ByteReader

/-!
# Errors

The errors of the packages `tx`, `consensus`, `storage` and `chain`, with their texts. An error
that wraps another holds it. A program ends early with such an error, or because the bound on the
rounds of its loops is reached, which is not an outcome of the code.
-/

set_option autoImplicit false
set_option relaxedAutoImplicit false

namespace NevelCore

open Foundations

/-- `[32]byte`, the type of hashes. -/
abbrev Hash := Bytes32

/-- `[]byte`. -/
abbrev Bytes := Slice UInt8

/-- The lower-case hexadecimal form of some bytes. -/
def hexString (bytes : List UInt8) : String :=
  String.ofList (bytes.flatMap fun byte ↦
    [Nat.digitChar (byte.toNat / 16), Nat.digitChar (byte.toNat % 16)])

inductive Err where
  | dustOutput
  | inflation
  | feeTooLow
  | invalidProofOfWork
  | invalidMerkleRoot
  | invalidCoinbase
  | invalidSignature
  | missingUTXO
  | doubleSpend
  | badTimestamp
  | immatureCoinbase
  | badDifficulty
  | badHeight
  | badPreviousHash
  | notFound
  | decode (cause : ReadError)
  | chainUninitialized
  | contextDone
  | blockAlreadyKnown
  | previousBlockNotFound (cause : Err)
  | reorgMissingHeight (height : UInt64) (cause : Err)
  | reorgMissingSideBlock (hash : Hash) (cause : Err)
  | reorgRollback (cause : Err)
  | reorgApply (cause : Err)
deriving DecidableEq

/-- The text of an error. -/
def Err.message : Err → String
  | .dustOutput => "dust output"
  | .inflation => "outputs exceed inputs"
  | .feeTooLow => "fee too low"
  | .invalidProofOfWork => "invalid proof of work"
  | .invalidMerkleRoot => "invalid merkle root"
  | .invalidCoinbase => "invalid coinbase"
  | .invalidSignature => "invalid signature"
  | .missingUTXO => "missing utxo"
  | .doubleSpend => "double spend"
  | .badTimestamp => "bad timestamp"
  | .immatureCoinbase => "coinbase output is not mature"
  | .badDifficulty => "bad difficulty target"
  | .badHeight => "bad height"
  | .badPreviousHash => "bad previous hash"
  | .notFound => "not found"
  | .decode cause => cause.message
  | .chainUninitialized => "chain is not initialized"
  | .contextDone => "context canceled"
  | .blockAlreadyKnown => "block already known"
  | .previousBlockNotFound cause => "previous block not found: " ++ cause.message
  | .reorgMissingHeight height cause =>
    "reorg: missing height " ++ toString height.toNat ++ ": " ++ cause.message
  | .reorgMissingSideBlock hash cause =>
    "reorg: missing side block " ++ hexString hash.toList ++ ": " ++ cause.message
  | .reorgRollback cause => "reorg rollback: " ++ cause.message
  | .reorgApply cause => "reorg apply: " ++ cause.message

/-- Why a program ends without a result. -/
inductive Halt where
  | error (e : Err)
  | outOfFuel
deriving DecidableEq

/-- Wraps the error of the code. -/
def Halt.map (f : Err → Err) : Halt → Halt
  | .error e => .error (f e)
  | .outOfFuel => .outOfFuel

/-- The code has returned, with an error. -/
def Halt.Raised : Halt → Prop
  | .error _ => True
  | .outOfFuel => False

variable {S : Signature} {α : Type}

/-- Returns an error of the code. -/
def raise (e : Err) : Prog S Halt α := .fail (.error e)

/-- Goes on with a result, or returns its error. -/
def attempt : Except Err α → Prog S Halt α
  | .ok a => pure a
  | .error e => raise e

@[simp] theorem attempt_ok (a : α) : (attempt (.ok a) : Prog S Halt α) = pure a := rfl

@[simp] theorem attempt_error (e : Err) : (attempt (.error e) : Prog S Halt α) = raise e := rfl

end NevelCore
