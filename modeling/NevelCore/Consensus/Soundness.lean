import NevelCore.Consensus.Passing
import Mathlib.Algebra.BigOperators.Group.List.Basic

/-!
# Soundness of the transaction rules for any view

What a block whose transactions pass says in the natural numbers, whatever the view of the unspent
outputs holds. `SoundBlock` lists it, and `validateBlockTransactions_sound` is the result. The sums
of the rules are guarded, but for that of the reward and the fees, which can only come out too small
(`toNat_add_le`), and the length of a transaction always fits `uint64`
(`length_serializeTransaction_lt`), so that the minimum fee is this length.
-/

set_option autoImplicit false
set_option relaxedAutoImplicit false

namespace NevelCore

open Foundations

/-! ### The minimum fee -/

theorem length_writeBytes (bytes : Bytes) :
    (writeBytes bytes).length = 8 + bytes.toList.length := by
  rw [writeBytes, List.length_append, writeUInt64, length_leBytes]

theorem length_writeInput_lt (input : Input) : (writeInput input).length ≤ 2 ^ 32 + 50 := by
  have hsignature := input.signature.length_lt
  have hkey := input.publicKey.length_lt
  simp only [writeInput, List.length_append, length_writeBytes, writeUInt32, length_leBytes,
    input.prevTxHash.length_eq]
  omega

theorem length_writeOutput_lt (output : Output) : (writeOutput output).length ≤ 2 ^ 31 + 15 := by
  have hscript := output.lockingScript.length_lt
  simp only [writeOutput, List.length_append, length_writeBytes, writeUInt64, length_leBytes]
  omega

theorem length_flatMap_le {α : Type} {write : α → List UInt8} {bound : ℕ}
    (hwrite : ∀ a, (write a).length ≤ bound) (items : List α) :
    (items.flatMap write).length ≤ items.length * bound := by
  induction items with
  | nil => exact Nat.zero_le _
  | cons item items ih =>
    have hitem := hwrite item
    rw [List.flatMap_cons, List.length_append, List.length_cons, Nat.succ_mul]
    omega

/-- The length of the wire form of every transaction fits `uint64`. -/
theorem length_serializeTransaction_lt (t : Transaction) :
    (serializeTransaction t).length < 2 ^ 64 := by
  have hinputs := t.inputs.length_lt
  have houtputs := t.outputs.length_lt
  have hin := length_flatMap_le length_writeInput_lt t.inputs.toList
  have hout := length_flatMap_le length_writeOutput_lt t.outputs.toList
  simp only [serializeTransaction, List.length_append, writeUInt32, writeVarBytesList, writeUInt64,
    length_leBytes]
  omega

theorem toNat_minFee (t : Transaction) : (minFee t).toNat = (serializeTransaction t).length := by
  rw [minFee, minRelayFeePerByte, UInt64.mul_one,
    UInt64.toNat_ofNat_of_lt' (length_serializeTransaction_lt t)]

/-! ### Blocks -/

/-- A sum in `uint64` is never above the sum. -/
theorem toNat_add_le (first second : UInt64) :
    (first + second).toNat ≤ first.toNat + second.toNat := by
  rw [UInt64.toNat_add]
  exact Nat.mod_le _ _

/-- What holds of a transaction behind the coinbase, in a view and at a height. -/
structure SoundTransaction (view : View) (verify : SignatureVerifier) (height : UInt64)
    (t : Transaction) : Prop where
  noCoinbase : t.isCoinbase = false
  hasInput : t.inputs.toList ≠ []
  /-- Every input spends an output of the view, verifies under its script, and finds it mature. -/
  spends : ∀ p ∈ t.inputs.toList.zipIdx, ∃ u, view p.1.outpoint = some u ∧
    verify t p.2 u.script = true ∧
    (u.coinbase = true → height.toNat < 2 ^ 64 - 1 → u.height.toNat + 100 ≤ height.toNat)
  noDust : ∀ output ∈ t.outputs.toList, output.amount ≠ 0
  /-- The inputs are the outputs and a fee of at least one unit for each byte. -/
  balanced : ∃ fee, view.inputTotal t = outputTotal t + fee ∧
    (serializeTransaction t).length ≤ fee

/-- What holds of the transactions of a block, in a view. -/
structure SoundBlock (view : View) (verify : SignatureVerifier) (b : Block)
    (coinbase : Transaction) (txs : List Transaction) : Prop where
  transactions : b.transactions.toList = coinbase :: txs
  isCoinbase : coinbase.isCoinbase = true
  sound : ∀ t ∈ txs, SoundTransaction view verify b.header.height t
  nodup : (txs.flatMap Transaction.spent).Nodup
  /-- The block creates at most the reward. -/
  created_le : outputTotal coinbase + (txs.map outputTotal).sum ≤
    (blockReward b.header.height).toNat + (txs.map view.inputTotal).sum

section

variable {S : Signature} {σ : Type} {exec : Machine S σ} {s s' : σ} {utxos : UTXOReader S}
  {verify : SignatureVerifier} {view : View}

/-- A coinbase output that is not immature has its maturity behind it, unless its height is next to
the greatest or the height is the one without maturity. -/
theorem UTXO.mature_of_not_immature {u : UTXO} {spendHeight : UInt64}
    (hmature : ¬ u.Immature spendHeight) (hcoinbase : u.coinbase = true)
    (hheight : u.height.toNat < 2 ^ 64 - 100) (hspend : spendHeight.toNat < 2 ^ 64 - 1) :
    u.height.toNat + 100 ≤ spendHeight.toNat := by
  have hne : spendHeight ≠ 0xffffffffffffffff := by
    rintro rfl
    exact absurd hspend (by decide)
  have hle : u.height + coinbaseMaturity ≤ spendHeight := by
    by_contra hlt
    exact hmature ⟨hcoinbase, hne, UInt64.not_le.mp hlt⟩
  rw [UInt64.le_iff_toNat_le, UInt64.toNat_add] at hle
  change (u.height.toNat + 100) % 2 ^ 64 ≤ _ at hle
  rwa [Nat.mod_eq_of_lt (by omega)] at hle

/-- A transaction that may be spent has an input: its fee is positive. -/
theorem Spendable.sound {verifier : SignatureVerifier} {spendHeight : UInt64} {t : Transaction}
    (h : Spendable view (some verifier) spendHeight t)
    (hheights : ∀ outpoint u, view outpoint = some u → u.height.toNat < 2 ^ 64 - 100) :
    SoundTransaction view verifier spendHeight t := by
  have hfee := h.minFee_le
  rw [toNat_minFee] at hfee
  refine ⟨h.noCoinbase, fun hnone ↦ ?_, fun p hp ↦ ?_, h.noDust, view.fee t, ?_, hfee⟩
  · have htotal : view.inputTotal t = 0 := by rw [View.inputTotal, Transaction.spent, hnone]; rfl
    rw [View.fee, htotal, serializeTransaction, List.length_append, writeUInt32,
      length_leBytes] at hfee
    omega
  · obtain ⟨u, hu, hmature, haccepts⟩ := h.inputs p hp
    refine ⟨u, hu, ?_, fun hcoinbase ↦ u.mature_of_not_immature hmature hcoinbase (hheights _ u hu)⟩
    simpa [Refuses] using haccepts
  · rw [View.fee, Nat.add_sub_of_le h.covered]

theorem sum_fee_add {verifier : Option SignatureVerifier} {spendHeight : UInt64}
    {txs : List Transaction} (h : ∀ t ∈ txs, Spendable view verifier spendHeight t) :
    (txs.map view.fee).sum + (txs.map outputTotal).sum = (txs.map view.inputTotal).sum := by
  rw [← List.sum_map_add]
  congr 1
  refine List.map_congr_left fun t ht ↦ ?_
  rw [View.fee, Nat.sub_add_cancel (h t ht).covered]

/-- A block whose transactions pass is sound for the view it was checked against. -/
theorem validateBlockTransactions_sound (b : Block) (hview : ReadsView exec s utxos view)
    (hheights : ∀ outpoint u, view outpoint = some u → u.height.toNat < 2 ^ 64 - 100)
    (h : (validateBlockTransactions b utxos (some verify)).run exec s = (.ok (), s')) :
    ∃ coinbase txs, SoundBlock view verify b coinbase txs := by
  obtain ⟨-, coinbase, txs, htxs, hcoinbase, hall, hnodup, fees, hfees, hle⟩ :=
    (validateBlockTransactionsAt_eq_ok_iff hview).mp h
  refine ⟨coinbase, txs, htxs, hcoinbase, fun t ht ↦ (hall t ht).sound hheights, hnodup, ?_⟩
  have hsum := sum_fee_add hall
  have hreward := le_trans hle (toNat_add_le _ _)
  omega

end

namespace Sample

/-- An output under the zero hash. -/
def record : UTXO where
  txHash := Bytes32.zero
  outputIdx := 0
  amount := 2000
  script := .ofList []
  height := 1
  coinbase := true

def view : View := fun outpoint ↦ if outpoint = record.outpoint then some record else none

/-- The reader that knows this output. -/
def reader : UTXOReader ⟨Empty, fun _ ↦ Unit⟩ := fun hash idx ↦
  pure (if (⟨hash, idx⟩ : Outpoint) = record.outpoint then .ok record else .error .notFound)

def matureSpend : Transaction where
  version := 1
  inputs := .ofList [⟨Bytes32.zero, 0, .ofList [], .ofList []⟩]
  outputs := .ofList [⟨1800, .ofList []⟩]
  lockTime := 0

/-- A block that spends the output when it has just become mature. -/
def block : Block where
  header := ⟨1, Bytes32.zero, Bytes32.zero, 0, 0, 0, 101⟩
  transactions := .ofList [newCoinbase "" 50_000_000_200 (.ofList []), matureSpend]

end Sample

theorem validateBlockTransactions_sound_sample :
    ∃ coinbase txs, SoundBlock Sample.view (fun _ _ _ ↦ true) Sample.block coinbase txs := by
  have hview : ReadsView noCalls () Sample.reader Sample.view := by
    intro hash idx
    refine ⟨_, rfl, ?_⟩
    dsimp only [Sample.view]
    split_ifs <;> rfl
  have hheights : ∀ outpoint u, Sample.view outpoint = some u → u.height.toNat < 2 ^ 64 - 100 := by
    intro outpoint u hu
    rw [Sample.view] at hu
    split_ifs at hu
    cases hu
    decide
  have hrun : (validateBlockTransactions Sample.block Sample.reader (some fun _ _ _ ↦ true)).run
      noCalls () = (.ok (), ()) := rfl
  exact validateBlockTransactions_sound Sample.block hview hheights hrun

end NevelCore
