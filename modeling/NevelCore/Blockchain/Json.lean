import NevelCore.Blockchain.Block
import NevelCore.Foundations.JsonForms

/-!
# Blocks and transactions as JSON

What `encoding/json` makes of transactions and blocks, whose types have no tags: the fields go by
their names, a hash is an array of numbers, and bytes are texts in base64.
-/

set_option autoImplicit false
set_option relaxedAutoImplicit false

namespace NevelCore

open Foundations Foundations.JsonText

def bytesForm : Form Bytes := .slice .bytes rfl

def Input.form : Form Input :=
  ((Fields.field "PrevTxHash" .bytes32 <| .field "OutputIdx" .uint32 <|
    .field "Signature" bytesForm <| .field "PublicKey" bytesForm .empty).form
      (by decide +kernel)).map
    (fun x ↦ ⟨x.1, x.2.1, x.2.2.1, x.2.2.2.1⟩)
    (fun i ↦ (i.prevTxHash, i.outputIdx, i.signature, i.publicKey, ())) fun _ ↦ rfl

def Output.form : Form Output :=
  ((Fields.field "Amount" .uint64 <| .field "LockingScript" bytesForm .empty).form
      (by decide +kernel)).map
    (fun x ↦ ⟨x.1, x.2.1⟩) (fun o ↦ (o.amount, o.lockingScript, ())) fun _ ↦ rfl

def Transaction.form : Form Transaction :=
  ((Fields.field "Version" .uint32 <| .field "Inputs" (.slice (.list Input.form) rfl) <|
    .field "Outputs" (.slice (.list Output.form) rfl) <| .field "LockTime" .uint64 .empty).form
      (by decide +kernel)).map
    (fun x ↦ ⟨x.1, x.2.1, x.2.2.1, x.2.2.2.1⟩)
    (fun t ↦ (t.version, t.inputs, t.outputs, t.lockTime, ())) fun _ ↦ rfl

def BlockHeader.form : Form BlockHeader :=
  ((Fields.field "Version" .uint32 <| .field "PrevHash" .bytes32 <| .field "MerkleRoot" .bytes32 <|
    .field "Timestamp" .int64 <| .field "Bits" .uint32 <| .field "Nonce" .uint64 <|
    .field "Height" .uint64 .empty).form (by decide +kernel)).map
    (fun x ↦ ⟨x.1, x.2.1, x.2.2.1, x.2.2.2.1, x.2.2.2.2.1, x.2.2.2.2.2.1, x.2.2.2.2.2.2.1⟩)
    (fun h ↦ (h.version, h.prevHash, h.merkleRoot, h.timestamp, h.bits, h.nonce, h.height, ()))
    fun _ ↦ rfl

def Block.form : Form Block :=
  ((Fields.field "Header" BlockHeader.form <|
    .field "Transactions" (.slice (.list Transaction.form) rfl) .empty).form
      (by decide +kernel)).map
    (fun x ↦ ⟨x.1, x.2.1⟩) (fun b ↦ (b.header, b.transactions, ())) fun _ ↦ rfl

/-- The JSON of an output whose script is the byte 0x51. -/
example : Output.form.marshal ⟨7, ⟨[0x51], by decide⟩⟩ =
    "\x7b\"Amount\":7,\"LockingScript\":\"UQ==\"\x7d".toUTF8.toList := by
  decide +kernel

end NevelCore
