import NevelCore.Chain.Conservation

/-!
# Balances

What a block does to the balance of one script. The weight of a record is its amount if it has the
script and nothing otherwise, and with this weight the account of a batch is the account of a
script: a block whose outputs are fresh adds what its outputs pay to the script and takes what its
inputs spend from it (`Ledger.balanceOf_apply`). `BalanceByScript` adds up the same records in
`uint64` without an overflow, so before and after a new tip it returns balances that differ by
exactly this (`newTip_balances`).
-/

set_option autoImplicit false
set_option relaxedAutoImplicit false

namespace NevelCore

open Foundations

namespace Ledger

/-- The amount of a record for a script. -/
def amountFor (script : Bytes) (outpoint : Outpoint) (record : RecordAt outpoint) : ℕ :=
  if record.val.script = script then record.val.amount.toNat else 0

/-- The balance of a script, added up in the natural numbers. -/
def balanceOf (l : Ledger) (script : Bytes) : ℕ := total (amountFor script) l

/-- What the outputs of a transaction pay to a script. -/
def paidTo (script : Bytes) (t : Transaction) : ℕ :=
  ((t.outputs.toList.filter fun output ↦ output.lockingScript = script).map
    fun output ↦ output.amount.toNat).sum

/-- What the inputs of a transaction spend from a script. -/
def takenFrom (l : Ledger) (script : Bytes) (t : Transaction) : ℕ :=
  ((spends t).map (weightAt (amountFor script) l)).sum

theorem sum_ite_eq_sum_filter {α : Type} (items : List α) (p : α → Prop) [DecidablePred p]
    (weight : α → ℕ) :
    (items.map fun item ↦ if p item then weight item else 0).sum =
      ((items.filter p).map weight).sum := by
  rw [List.sum_map_ite, List.map_const', List.sum_replicate, nsmul_zero, Nat.add_zero]

theorem gained_amountFor_transactionOps (script : Bytes) (height : UInt64) (ti : ℕ)
    (t : Transaction) :
    gained (amountFor script) (transactionOps height ti t) = paidTo script t := by
  have hdelete (l : List Outpoint) :
      gained (amountFor script) (l.map fun outpoint ↦ (.delete outpoint : LedgerOp)) = 0 := by
    rw [gained, List.map_map]
    exact List.sum_eq_zero fun x hx ↦ by
      obtain ⟨outpoint, -, rfl⟩ := List.mem_map.mp hx
      rfl
  have hset (records : List UTXO) : gained (amountFor script) (records.map setRecord) =
      (records.map fun u ↦ if u.script = script then u.amount.toNat else 0).sum := by
    rw [gained, List.map_map]
    rfl
  have hpaid := sum_ite_eq_sum_filter t.outputs.toList
    (fun output ↦ output.lockingScript = script) fun output ↦ output.amount.toNat
  rw [transactionOps, gained_append, hdelete, hset, Nat.zero_add, paidTo, ← hpaid, records,
    map_mapIdx_eq]
  exact fun _ _ ↦ rfl

theorem gained_amountFor_blockOps (script : Bytes) (b : Block) :
    gained (amountFor script) (blockOps b) = (b.transactions.toList.map (paidTo script)).sum := by
  rw [blockOps, gained_flatten, map_mapIdx_eq]
  exact gained_amountFor_transactionOps script b.header.height

theorem sum_takenFrom (l : Ledger) (script : Bytes) (b : Block) :
    (b.transactions.toList.map (takenFrom l script)).sum =
      ((spent b).map (weightAt (amountFor script) l)).sum := by
  rw [spent]
  induction b.transactions.toList with
  | nil => rfl
  | cons t txs ih =>
    rw [List.map_cons, List.sum_cons, ih, List.flatMap_cons, List.map_append, List.sum_append,
      takenFrom]

/-- A block adds to the balance of a script what its outputs pay to it, and takes what its inputs
spend from it. -/
theorem balanceOf_apply {l : Ledger} {b : Block} (h : TransactionsValid l b)
    (hfresh : l.CreatesFresh b) (script : Bytes) :
    (l.apply b).balanceOf script + (b.transactions.toList.map (takenFrom l script)).sum =
      l.balanceOf script + (b.transactions.toList.map (paidTo script)).sum := by
  have hdeleted := deleted_blockOps b
  have hlost : lost (amountFor script) (blockOps b) l =
      ((spent b).map (weightAt (amountFor script) l)).sum := by
    rw [lost_eq_of_fresh ((fresh_blockOps_iff h).mpr hfresh) (by rw [hdeleted]; exact h.nodup)
      (by rw [hdeleted]; exact h.there), hdeleted]
  rw [sum_takenFrom, ← hlost, ← gained_amountFor_blockOps]
  exact total_commit (blockOps b) l

end Ledger

/-- A listing of the store adds up to the balances of its ledger. -/
theorem sum_listed_eq_balanceOf {d : Store} {listed : List UTXO} (h : DB.ListsUTXOs d listed)
    (script : Bytes) :
    ((listed.filter fun u ↦ u.script = script).map fun u ↦ u.amount.toNat).sum =
      (DB.utxos d).balanceOf script := by
  rw [← Ledger.sum_ite_eq_sum_filter listed (fun u ↦ u.script = script)]
  have hsum := congrArg (fun s : Multiset UTXO ↦
    (s.map fun u ↦ if u.script = script then u.amount.toNat else 0).sum) h
  rw [Ledger.listing, Multiset.map_map] at hsum
  exact hsum

/-- In every state of a run, `BalanceByScript` returns the balance of the ledger. -/
theorem Run.balanceByScript {m : Manager} {allowed : Node → ℤ → Block → Prop} {g : Block}
    {tips : List Block} {n : Node} (h : Run m allowed g tips n)
    (hallowed : ∀ n now b, allowed n now b → 0 < b.header.height) {listed : List UTXO}
    (hlisted : DB.ListsUTXOs n.store listed) (script : Bytes) :
    ∃ balance, DB.balanceByScript listed script = .ok balance ∧
      balance.toNat = (DB.utxos n.store).balanceOf script := by
  obtain ⟨hchain, hholds⟩ := h.holds hallowed
  have hsupply : (DB.utxos n.store).supply < 2 ^ 64 := by
    obtain ⟨b, rest, rfl⟩ := hchain.exists_cons
    rw [hholds.ledger]
    refine lt_of_le_of_lt ((supply_replay_le hchain h.genesis).trans (rewardsUpTo_le _)) ?_
    decide
  rw [← sum_listed_eq_balanceOf hlisted]
  exact balanceByScript_eq_ok hsupply hlisted script

theorem utxos_newTip {m : Manager} {now : ℤ} {fuel : ℕ} {b : Block} {n n' : Node}
    (h : (m.validateAndApplyBlock now fuel b).run exec n = (.ok (), n'))
    (hlink : DB.tip n.store = .ok b.header.prevHash) :
    TransactionsValid (DB.utxos n.store) b ∧ DB.utxos n'.store = (DB.utxos n.store).apply b := by
  obtain ⟨hcheck, rfl⟩ := validateAndApplyBlock_ok_of_tip h hlink
  exact ⟨validateBlockTransactions_ok (checkBlock_ok hcheck).2.transactions, DB.utxos_extend _ _⟩

/-- In a run of blocks of positive height, when a block on top of the tip whose outputs are fresh is
accepted, what `BalanceByScript` returns for a script changes by exactly what the outputs of the
block pay to the script and its inputs spend from it. Neither call fails, and nothing is lost in
`uint64`. -/
theorem newTip_balances {m : Manager} {g b : Block} {tips : List Block} {n n' : Node} {now : ℤ}
    {fuel : ℕ} (hrun : Run m PositiveHeight g tips n) (hheight : 0 < b.header.height)
    (hcall : (m.validateAndApplyBlock now fuel b).run exec n = (.ok (), n'))
    (hlink : DB.tip n.store = .ok b.header.prevHash)
    (hfresh : (DB.utxos n.store).CreatesFresh b) {listed listed' : List UTXO}
    (hlisted : DB.ListsUTXOs n.store listed) (hlisted' : DB.ListsUTXOs n'.store listed')
    (script : Bytes) :
    ∃ old new, DB.balanceByScript listed script = .ok old ∧
      DB.balanceByScript listed' script = .ok new ∧
      new.toNat + (b.transactions.toList.map ((DB.utxos n.store).takenFrom script)).sum =
        old.toNat + (b.transactions.toList.map (Ledger.paidTo script)).sum := by
  have hallowed : ∀ n now b, PositiveHeight n now b → 0 < b.header.height := fun _ _ _ h ↦ h
  have hrun' : Run m PositiveHeight g (tipsAfter n n' b tips) n' := .call hrun hheight hcall nofun
  obtain ⟨hvalid, hledger⟩ := utxos_newTip hcall hlink
  obtain ⟨old, hold, holdValue⟩ := hrun.balanceByScript hallowed hlisted script
  obtain ⟨new, hnew, hnewValue⟩ := hrun'.balanceByScript hallowed hlisted' script
  refine ⟨old, new, hold, hnew, ?_⟩
  rw [holdValue, hnewValue, hledger]
  exact Ledger.balanceOf_apply hvalid hfresh script

/-- The balance of the miner of the first block after the genesis block. -/
theorem newTip_balances_regtest :
    ∃ old new, DB.balanceByScript (DB.utxos Regtest.afterGenesis.store).listing.toList
        (Regtest.script 0x11) = .ok old ∧
      DB.balanceByScript (DB.utxos Regtest.afterA.store).listing.toList (Regtest.script 0x11) =
        .ok new ∧
      new.toNat + (Regtest.blockA.transactions.toList.map
          ((DB.utxos Regtest.afterGenesis.store).takenFrom (Regtest.script 0x11))).sum =
        old.toNat + (Regtest.blockA.transactions.toList.map
          (Ledger.paidTo (Regtest.script 0x11))).sum := by
  have hlink : DB.tip Regtest.afterGenesis.store = .ok Regtest.blockA.header.prevHash := by
    rw [Regtest.tip_afterGenesis, Regtest.validOn_blockA.link]
  exact newTip_balances (.start Regtest.starts) Regtest.validOn_blockA.height
    Regtest.blockA_returns hlink Regtest.blockA_fresh (Multiset.coe_toList _)
    (Multiset.coe_toList _) _

end NevelCore
