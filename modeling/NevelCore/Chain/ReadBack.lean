import NevelCore.Chain.Runs

/-!
# Reading an accepted block back

`ValidateAndApplyBlock` does not look at the limits that the decoder has. A block that it makes the
tip can be read back exactly if it is within these limits (`getBlock_newTip_iff`).
-/

set_option autoImplicit false
set_option relaxedAutoImplicit false

namespace NevelCore

open Foundations

section ReadBack

variable {m : Manager} {now : ℤ} {fuel : ℕ} {b : Block} {n n' : Node}

/-- A store after a side chain has the wire form of its newest block. -/
theorem lookup_blockHash_foldl_extend (blocks : List Block) (d : Store) :
    ((blocks ++ [b]).foldl DB.extend d).lookup (Key.blockHash b.hash) =
      some (serializeBlock b) := by
  rw [List.foldl_append, List.foldl_cons, List.foldl_nil, DB.lookup_blockHash_extend, if_pos rfl]

/-- A block that becomes the tip is stored in its wire form. -/
theorem lookup_blockHash_newTip
    (h : (m.validateAndApplyBlock now fuel b).run exec n = (.ok (), n'))
    (hbefore : DB.tip n.store ≠ .ok b.hash) (hafter : DB.tip n'.store = .ok b.hash) :
    n'.store.lookup (Key.blockHash b.hash) = some (serializeBlock b) := by
  rcases validateAndApplyBlock_cases h with ⟨e, -, hr, -⟩ | ⟨-, hconnect⟩
  · cases hr
  rw [run_connectBlock] at hconnect
  split at hconnect
  · cases hconnect
    rw [DB.lookup_blockHash_extend, if_pos rfl]
  split at hconnect
  · cases hconnect
    rw [Node.mined_store, DB.lookup_blockHash_extend, if_pos rfl]
  split at hconnect
  · cases hconnect
    rw [DB.tip_putTotalWork] at hafter
    exact absurd hafter hbefore
  · obtain ⟨sideChain, cur, mid, hcollect, -, hstore⟩ := Manager.reorg_ok hconnect
    obtain ⟨more, hmore, -⟩ := Manager.collectSideChain_ok hcollect
    dsimp only at hmore
    rw [hstore, hmore, List.reverse_append]
    exact lookup_blockHash_foldl_extend more.reverse mid.store

/-- What is read of a block that becomes the tip is its wire form. -/
theorem getBlock_newTip
    (h : (m.validateAndApplyBlock now fuel b).run exec n = (.ok (), n'))
    (hbefore : DB.tip n.store ≠ .ok b.hash) (hafter : DB.tip n'.store = .ok b.hash) :
    DB.getBlock n'.store b.hash = deserializeBlock (serializeBlock b) := by
  rw [DB.getBlock, lookup_blockHash_newTip h hbefore hafter]
  rfl

/-- A block that becomes the tip can be read back, and the node can go on from it, exactly if the
block is within the limits of the decoder. -/
theorem getBlock_newTip_iff
    (h : (m.validateAndApplyBlock now fuel b).run exec n = (.ok (), n'))
    (hbefore : DB.tip n.store ≠ .ok b.hash) (hafter : DB.tip n'.store = .ok b.hash) :
    (DB.getBlock n'.store b.hash = .ok b ∧ Manager.tipBlock.run exec n' = (.ok b, n')) ↔
      b.InLimits := by
  have hget := getBlock_newTip h hbefore hafter
  constructor
  · rintro ⟨hread, -⟩
    rw [hget] at hread
    exact (eq_of_deserializeBlock_serializeBlock hread).2
  · intro hlimits
    rw [deserializeBlock_serializeBlock hlimits] at hget
    exact ⟨hget, run_tipBlock hafter hget⟩

theorem getBlock_newTip_regtest :
    DB.getBlock Regtest.afterA.store Regtest.blockA.hash =
      .ok Regtest.blockA := by
  exact ((getBlock_newTip_iff Regtest.blockA_returns Regtest.tip_ne_blockA
    Regtest.tip_afterA).mpr Regtest.blockA_inLimits).1

end ReadBack

/-! ### A block that cannot be read back -/

namespace Regtest

/-- A coinbase with one output more than the decoder accepts. -/
def manyOutputs : Transaction where
  version := 1
  inputs := .ofList [{
    prevTxHash := Bytes32.zero
    outputIdx := 0xffffffff
    signature := .ofList ("NEVEL".toUTF8.toList ++ List.replicate 51 0)
    publicKey := .ofList [] }]
  outputs := .ofList (List.replicate 10001 { amount := 0, lockingScript := .ofList [] })
  lockTime := 0

def manyOutputsHash : Hash :=
  ⟨[0x40, 0xe9, 0x93, 0xa9, 0x3c, 0x73, 0x8f, 0x2d, 0x41, 0x20, 0x75, 0xa0, 0x45, 0x8b, 0x9f, 0xaa,
    0x59, 0xdc, 0x73, 0x08, 0x54, 0xde, 0xe1, 0xe0, 0x4e, 0xa7, 0xc0, 0x18, 0x40, 0xc5, 0x17, 0xdf],
    rfl⟩

/-- A block of height 1 with this coinbase. -/
def manyOutputsBlock : Block where
  header := {
    version := 1
    prevHash := genesis.hash
    merkleRoot := manyOutputsHash
    timestamp := 1790000000
    bits := regtestPowBits
    nonce := 0
    height := 1 }
  transactions := .ofList [manyOutputs]

theorem toList_manyOutputs : manyOutputs.outputs.toList =
    List.replicate 10001 { amount := 0, lockingScript := .ofList [] } :=
  Slice.toList_ofList (by rw [List.length_replicate]; decide)

theorem flatMap_writeOutput_zero (count : ℕ) :
    (List.replicate count { amount := 0, lockingScript := .ofList [] }).flatMap writeOutput =
      List.replicate (16 * count) 0 := by
  have hone : writeOutput { amount := 0, lockingScript := .ofList [] } = List.replicate 16 0 := by
    decide +kernel
  induction count with
  | zero => rfl
  | succ count ih =>
    rw [List.replicate_succ, List.flatMap_cons, ih, hone, List.replicate_append_replicate]
    congr 1
    omega

/-- The bytes in front of the outputs: two blocks of the hash function. -/
def manyOutputsFront : List UInt8 :=
  writeUInt32 1 ++ (writeVarBytesList 1 ++
    (manyOutputs.inputs.toList.flatMap writeInput ++ writeVarBytesList 10001))

/-- The outputs and the lock time are zero bytes. -/
theorem serializeTransaction_manyOutputs : serializeTransaction manyOutputs =
    manyOutputsFront ++ List.replicate (64 * 2500) 0 ++ List.replicate 24 0 := by
  have hlock : writeUInt64 manyOutputs.lockTime = List.replicate 8 0 := by decide +kernel
  rw [serializeTransaction, toList_manyOutputs, flatMap_writeOutput_zero, hlock,
    List.length_replicate, List.append_assoc, List.replicate_append_replicate,
    List.replicate_append_replicate, manyOutputsFront]
  simp only [List.append_assoc]
  rfl

open Sha256

theorem absorb_manyOutputsFront : (blocks 2 manyOutputsFront).foldl compress initial =
    unpack 0x6ed4eae3dcc3fb92deeb772af4b56b816d99cf2cf0ded911c1eecbe51e1c3b56 := by
  decide +kernel

theorem packedZeroRun_manyOutputs : packedZeroRun 2500
    0x6ed4eae3dcc3fb92deeb772af4b56b816d99cf2cf0ded911c1eecbe51e1c3b56 =
      0x920a3ef51d8b3465dc9027b673fae3acafc8478546e461211f0f3efde6599590 := by
  decide +kernel

theorem manyOutputs_hash : manyOutputs.hash = manyOutputsHash := by
  have hlength : manyOutputsFront.length = 64 * 2 := by decide +kernel
  have hfirst : sha256 (serializeTransaction manyOutputs) =
      digest ((blocks 1 (List.replicate 24 0 ++ padding 160152)).foldl compress
        (unpack 0x920a3ef51d8b3465dc9027b673fae3acafc8478546e461211f0f3efde6599590)) := by
    rw [serializeTransaction_manyOutputs, sha256, absorb_zeroRun hlength, absorb_manyOutputsFront,
      iterate_compressZero, packedZeroRun_manyOutputs, List.length_replicate]
  rw [Transaction.hash, doubleSha256, hfirst]
  decide +kernel

theorem not_inLimits_manyOutputsBlock : ¬ manyOutputsBlock.InLimits := by
  rintro ⟨-, h⟩
  have houtputs := (h manyOutputs List.mem_cons_self).2.1
  rw [toList_manyOutputs, List.length_replicate] at houtputs
  omega

theorem manyOutputsBlock_hash : manyOutputsBlock.hash =
    hash 0x0a219169500a080c09f2301b10f3159d88873eac861aaf961d232c839507aad1 := by
  have hheader : manyOutputsBlock.header =
      { manyOutputsBlock.header with prevHash := genesisHash } := by
    rw [← genesis_hash]
    rfl
  rw [Block.hash, hheader]
  exact doubleSha256_eq (by decide +kernel)

theorem manyOutputsBlock_hash_ne : manyOutputsBlock.hash ≠ genesis.hash := by
  rw [manyOutputsBlock_hash, genesis_hash]
  decide

/-- The block passes every check on top of genesis. -/
theorem manyOutputsBlock_passes :
    Passes manager 1790000000 manyOutputsBlock genesis afterGenesis where
  unknown := by
    refine ⟨.notFound, ?_⟩
    rw [DB.getBlock, afterGenesis, DB.lookup_blockHash_extend, if_neg manyOutputsBlock_hash_ne]
    rfl
  previous := getBlock_genesis
  header := by
    refine validateBlockHeader_ok_iff.mpr
      ⟨?_, checkProofOfWork_ok_iff.mpr ⟨by decide, by decide, ?_⟩, by decide, ?_⟩
    · change manyOutputsHash = merkleLoop 1 [manyOutputs.hash]
      rw [manyOutputs_hash]
      rfl
    · change (hashValue manyOutputsBlock.hash : ℤ) ≤ _
      rw [manyOutputsBlock_hash, hashValue_hash (by decide)]
      decide
    · rintro _ ⟨⟩
      exact ⟨rfl, rfl⟩
  bits := rfl
  transactions := by
    refine run_validateBlockTransactions_of_coinbase rfl rfl ?_
    rw [outputTotal, toList_manyOutputs, List.map_replicate, List.sum_replicate_nat]
    exact Nat.zero_le _

/-- The block becomes the tip, and then it cannot be read. -/
theorem manyOutputsBlock_unreadable :
    ∃ n', (manager.validateAndApplyBlock 1790000000 1 manyOutputsBlock).run exec afterGenesis =
        (.ok (), n') ∧
      DB.tip afterGenesis.store ≠ .ok manyOutputsBlock.hash ∧
      DB.tip n'.store = .ok manyOutputsBlock.hash ∧
      ∀ b, DB.getBlock n'.store manyOutputsBlock.hash ≠ .ok b := by
  have hcheck := (checkBlock_ok_iff (by decide)).mpr ⟨genesis, manyOutputsBlock_passes⟩
  have hbefore : DB.tip afterGenesis.store ≠ .ok manyOutputsBlock.hash := by
    rw [tip_afterGenesis]
    exact fun heq ↦ manyOutputsBlock_hash_ne (Except.ok.inj heq).symm
  obtain ⟨n', hrun, hstore, -⟩ := run_validateAndApplyBlock_of_tip 1 hcheck tip_afterGenesis
  have hafter : DB.tip n'.store = .ok manyOutputsBlock.hash := by rw [hstore, DB.tip_extend]
  refine ⟨n', hrun, hbefore, hafter, fun b hget ↦ ?_⟩
  rw [getBlock_newTip hrun hbefore hafter] at hget
  exact not_inLimits_manyOutputsBlock (eq_of_deserializeBlock_serializeBlock hget).2

end Regtest

end NevelCore
