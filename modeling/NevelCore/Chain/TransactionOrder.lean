import NevelCore.Chain.PoolRuns

/-!
# The order of transactions

Behind the coinbase, the transactions of a block can stand in any order. They are checked against
the ledger before the block, so none of them can spend what another one creates, and what they may
not do together, to spend an output twice or to have too much in fees, does not depend on the order.
The memory pool can therefore hand its entries to `BuildTemplate` in any order.

The ledger after the block is the same too, if the block creates distinct outputs that are not there
before: then no two of its writes are to one key.
-/

set_option autoImplicit false
set_option relaxedAutoImplicit false

namespace NevelCore

open Foundations

/-- Two blocks of one height with one coinbase and the same transactions behind it. -/
structure Reordered (b b' : Block) : Prop where
  height_eq : b'.header.height = b.header.height
  transactions : ∃ coinbase txs txs', b.transactions.toList = coinbase :: txs ∧
    b'.transactions.toList = coinbase :: txs' ∧ txs.Perm txs'

namespace Reordered

variable {b b' : Block}

theorem symm (h : Reordered b b') : Reordered b' b := by
  obtain ⟨hheight, coinbase, txs, txs', htxs, htxs', hperm⟩ := h
  exact ⟨hheight.symm, coinbase, txs', txs, htxs', htxs, hperm.symm⟩

/-- A block passes the transaction rules if the other one does. -/
theorem passes (h : Reordered b b') {n : Node} {verifier : Option SignatureVerifier}
    (hpasses : (validateBlockTransactions b Store.get verifier).run exec n = (.ok (), n)) :
    (validateBlockTransactions b' Store.get verifier).run exec n = (.ok (), n) := by
  obtain ⟨hheight, coinbase, txs, txs', htxs, htxs', hperm⟩ := h
  obtain ⟨-, coinbase', txs'', hsame, hcoinbase, hall, hnodup, fees, hfees, hle⟩ :=
    (validateBlockTransactionsAt_eq_ok_iff (readsView_get n)).mp hpasses
  obtain ⟨rfl, rfl⟩ := List.cons.inj (htxs.symm.trans hsame)
  refine (validateBlockTransactionsAt_eq_ok_iff (readsView_get n)).mpr ⟨rfl, coinbase, txs', htxs',
    hcoinbase, fun t ht ↦ ?_, ?_, fees, ?_, ?_⟩
  · rw [hheight]
    exact hall t (hperm.mem_iff.mpr ht)
  · exact (hperm.flatMap_right _).nodup hnodup
  · rw [hfees, (hperm.map _).sum_eq]
  · rwa [hheight]

end Reordered

namespace Ledger

/-- The writes of a block: those of the coinbase, and then those of the others. -/
theorem blockOps_eq {b : Block} {coinbase : Transaction} {txs : List Transaction}
    (htxs : b.transactions.toList = coinbase :: txs) :
    blockOps b = transactionOps b.header.height 0 coinbase ++
      txs.flatMap (transactionOps b.header.height 1) := by
  have hothers := map_mapIdx_eq txs (fun i ↦ transactionOps b.header.height (i + 1)) id
    fun i t ↦ (rfl : _ = transactionOps b.header.height 1 t)
  rw [List.map_id] at hothers
  rw [blockOps, htxs, List.mapIdx_cons, List.flatten_cons, hothers, List.flatMap_def]

/-- The writes of a block are to different keys. -/
theorem nodup_keys_blockOps {l : Ledger} {b : Block} (hvalid : TransactionsValid l b)
    (hnodup : (created b).Nodup) (habsent : ∀ outpoint ∈ created b, l.lookup outpoint = none) :
    ((blockOps b).map BatchOp.key).Nodup := by
  refine (keys_perm _).symm.nodup ?_
  rw [deleted_blockOps, written_blockOps, List.nodup_append]
  refine ⟨hvalid.nodup, hnodup, ?_⟩
  rintro outpoint hspent _ hcreated rfl
  exact hvalid.there outpoint hspent (habsent outpoint hcreated)

theorem apply_reordered {l : Ledger} {b b' : Block} (h : Reordered b b')
    (hvalid : TransactionsValid l b) (hnodup : (created b).Nodup)
    (habsent : ∀ outpoint ∈ created b, l.lookup outpoint = none) : l.apply b' = l.apply b := by
  have hkeys := nodup_keys_blockOps hvalid hnodup habsent
  obtain ⟨hheight, coinbase, txs, txs', htxs, htxs', hperm⟩ := h
  have hops : (blockOps b).Perm (blockOps b') := by
    rw [blockOps_eq htxs, blockOps_eq htxs', hheight]
    exact (hperm.flatMap_right _).append_left _
  exact (commit_perm hops hkeys l).symm

end Ledger

/-- The transactions behind the coinbase can stand in any order: the block passes the transaction
rules or not, and if its outputs are new `ApplyBlock` leaves the same ledger. -/
theorem transactions_any_order {b b' : Block} (h : Reordered b b') (n : Node)
    (verifier : Option SignatureVerifier) :
    ((validateBlockTransactions b Store.get verifier).run exec n = (.ok (), n) ↔
      (validateBlockTransactions b' Store.get verifier).run exec n = (.ok (), n)) ∧
    ((validateBlockTransactions b Store.get verifier).run exec n = (.ok (), n) →
      (Ledger.created b).Nodup →
      (∀ outpoint ∈ Ledger.created b, (DB.utxos n.store).lookup outpoint = none) →
      DB.utxos (DB.applyBlock n.store b') = DB.utxos (DB.applyBlock n.store b)) := by
  refine ⟨⟨h.passes, h.symm.passes⟩, fun hpasses hnodup habsent ↦ ?_⟩
  rw [DB.utxos_applyBlock, DB.utxos_applyBlock]
  exact Ledger.apply_reordered h (validateBlockTransactions_ok hpasses) hnodup habsent

namespace Regtest

/-- Two spends of the output of genesis behind the coinbase, in one order. -/
def twoSpends (first second : UInt64) : Block :=
  { blockA with
    transactions := .ofList
      [newCoinbase (Manager.minedAt 1790000000) initialReward (script 0x11), spendGenesis first,
        spendGenesis second] }

end Regtest

/-- Two transactions that spend one output are refused in either order. -/
theorem transactions_any_order_regtest :
    (validateBlockTransactions (Regtest.twoSpends 1 2) Store.get none).run exec
        Regtest.afterGenesis ≠ (.ok (), Regtest.afterGenesis) ∧
      (validateBlockTransactions (Regtest.twoSpends 2 1) Store.get none).run exec
        Regtest.afterGenesis ≠ (.ok (), Regtest.afterGenesis) := by
  have hreordered : Reordered (Regtest.twoSpends 1 2) (Regtest.twoSpends 2 1) :=
    ⟨rfl, _, _, _, rfl, rfl, .swap _ _ _⟩
  have hrefused : (validateBlockTransactions (Regtest.twoSpends 1 2) Store.get none).run exec
      Regtest.afterGenesis ≠ (.ok (), Regtest.afterGenesis) := by
    intro hpasses
    obtain ⟨-, coinbase, txs, htxs, -, -, hnodup, -⟩ :=
      (validateBlockTransactionsAt_eq_ok_iff (readsView_get Regtest.afterGenesis)).mp hpasses
    obtain ⟨-, rfl⟩ := List.cons.inj htxs
    exact (List.nodup_cons.mp hnodup).1 List.mem_cons_self
  exact ⟨hrefused, mt (transactions_any_order hreordered Regtest.afterGenesis none).1.mpr hrefused⟩

end NevelCore
