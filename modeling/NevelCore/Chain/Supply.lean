import NevelCore.Chain.Runs
import Mathlib.Algebra.Order.Ring.GeomSum
import Mathlib.Algebra.Order.BigOperators.Group.Finset

/-!
# The supply

The sum of all unspent amounts grows with a block by at most its reward (`supply_apply_le`): what
the block spends is lost, what it creates behind the coinbase is at most that, and the fees make up
the difference. So a chain has at most the rewards of its heights, which `rewardsUpTo_le` bounds by
the maximal supply. `supply_bound` is the result for runs: no sum of amounts that the code takes
over distinct unspent outputs overflows.
-/

set_option autoImplicit false
set_option relaxedAutoImplicit false

namespace NevelCore

open Foundations

/-! ### Rewards -/

/-- The rewards of all heights up to one. -/
def rewardsUpTo (height : UInt64) : ℕ :=
  ∑ h ∈ Finset.range (height.toNat + 1), (blockReward (UInt64.ofNat h)).toNat

/-- The reward is the initial one, halved once in an interval. -/
theorem toNat_blockReward (height : UInt64) :
    (blockReward height).toNat = initialReward.toNat / 2 ^ (height.toNat / 2_102_400) := by
  have hhalvings : (height / halvingInterval).toNat = height.toNat / 2_102_400 :=
    UInt64.toNat_div _ _
  unfold blockReward
  dsimp only
  split
  · next hge =>
    rw [ge_iff_le, UInt64.le_iff_toNat_le, hhalvings] at hge
    have hpow : 2 ^ 64 ≤ 2 ^ (height.toNat / 2_102_400) := Nat.pow_le_pow_right (by decide) hge
    exact (Nat.div_eq_of_lt (initialReward.toNat_lt.trans_le hpow)).symm
  · next hlt =>
    rw [ge_iff_le, UInt64.le_iff_toNat_le, not_le, hhalvings] at hlt
    change _ < 64 at hlt
    rw [UInt64.toNat_shiftRight, hhalvings, Nat.mod_eq_of_lt hlt, Nat.shiftRight_eq_div_pow]

/-- A sum over whole intervals of a function of the number of the interval. -/
theorem sum_range_div (f : ℕ → ℕ) (size count : ℕ) (hsize : 0 < size) :
    ∑ h ∈ Finset.range (size * count), f (h / size) = size * ∑ k ∈ Finset.range count, f k := by
  induction count with
  | zero => rfl
  | succ count ih =>
    have hinterval : ∀ j ∈ Finset.range size, f ((size * count + j) / size) = f count := by
      intro j hj
      rw [Nat.mul_add_div hsize, Nat.div_eq_of_lt (Finset.mem_range.mp hj), Nat.add_zero]
    rw [Nat.mul_succ, Finset.sum_range_add, ih, Finset.sum_congr rfl hinterval, Finset.sum_const,
      Finset.card_range, Finset.sum_range_succ, Nat.mul_add]
    rfl

/-- All rewards together are within the maximal supply. -/
theorem rewardsUpTo_le (height : UInt64) : rewardsUpTo height ≤ maxSupply.toNat := by
  let halved (k : ℕ) : ℕ := initialReward.toNat / 2 ^ k
  have hlt := height.toNat_lt
  calc rewardsUpTo height
      ≤ ∑ h ∈ Finset.range (height.toNat + 1), halved (h / 2_102_400) := by
        refine Finset.sum_le_sum fun h hh ↦ ?_
        rw [Finset.mem_range] at hh
        have hreward := toNat_blockReward (UInt64.ofNat h)
        rw [UInt64.toNat_ofNat_of_lt' (by change h < 2 ^ 64; omega)] at hreward
        exact hreward.le
    _ ≤ ∑ h ∈ Finset.range (2_102_400 * (height.toNat / 2_102_400 + 1)),
        halved (h / 2_102_400) := by
        refine Finset.sum_le_sum_of_subset (Finset.range_subset_range.mpr ?_)
        exact Nat.succ_le_of_lt (Nat.lt_mul_div_succ _ (by decide))
    _ = 2_102_400 * ∑ k ∈ Finset.range (height.toNat / 2_102_400 + 1), halved k :=
        sum_range_div halved _ _ (by decide)
    _ ≤ 2_102_400 * (initialReward.toNat * 2 / (2 - 1)) :=
        Nat.mul_le_mul_left _ (Nat.geom_sum_le (by decide) _ _)
    _ ≤ maxSupply.toNat := by decide

theorem rewardsUpTo_succ {height next : UInt64} (h : next.toNat = height.toNat + 1) :
    rewardsUpTo next = rewardsUpTo height + (blockReward next).toNat := by
  rw [rewardsUpTo, Finset.sum_range_succ, h, ← h, UInt64.ofNat_toNat]
  rw [rewardsUpTo, h]

/-! ### Blocks -/

theorem gained_transactionOps (height : UInt64) (ti : ℕ) (t : Transaction) :
    gained Ledger.amount (Ledger.transactionOps height ti t) = outputTotal t := by
  have hdelete (l : List Outpoint) :
      gained Ledger.amount (l.map fun outpoint ↦ (.delete outpoint : LedgerOp)) = 0 := by
    induction l with
    | nil => rfl
    | cons outpoint l ih => exact (Nat.zero_add _).trans ih
  have hset (l : List UTXO) :
      gained Ledger.amount (l.map Ledger.setRecord) = (l.map fun u ↦ u.amount.toNat).sum := by
    rw [gained, List.map_map]
    rfl
  rw [Ledger.transactionOps, gained_append, hdelete, hset, Nat.zero_add, outputTotal,
    Ledger.records, Ledger.map_mapIdx_eq]
  exact fun _ _ ↦ rfl

/-- A block creates the outputs of its transactions. -/
theorem gained_blockOps (b : Block) :
    gained Ledger.amount (Ledger.blockOps b) = (b.transactions.toList.map outputTotal).sum := by
  rw [Ledger.blockOps, gained_flatten, Ledger.map_mapIdx_eq]
  exact gained_transactionOps b.header.height

/-- The exact account of a block. -/
theorem supply_apply (l : Ledger) (b : Block) :
    (l.apply b).supply + lost Ledger.amount (Ledger.blockOps b) l =
      l.supply + (b.transactions.toList.map outputTotal).sum := by
  rw [← gained_blockOps]
  exact total_commit _ l

/-- Distinct unspent outputs have at most the supply. -/
theorem sum_amountAt_le {outpoints : List Outpoint} (h : outpoints.Nodup) (l : Ledger) :
    (outpoints.map l.amountAt).sum ≤ l.supply :=
  sum_weightAt_le_total h l

/-- A block that passes the transaction rules adds at most its reward. -/
theorem supply_apply_le {l : Ledger} {b : Block} (h : TransactionsValid l b) :
    (l.apply b).supply ≤ l.supply + (blockReward b.header.height).toNat := by
  obtain ⟨coinbase, txs, htxs, -, -⟩ := h.coinbase
  obtain ⟨fees, hbalance, hcoinbase⟩ := h.balance
  rw [htxs] at hbalance hcoinbase
  have haccount := supply_apply l b
  have hlost : ((Ledger.spent b).map l.amountAt).sum ≤
      lost Ledger.amount (Ledger.blockOps b) l := by
    refine sum_weightAt_le_lost h.nodup (fun k hk ↦ ?_) l
    rw [mem_keys_iff, Ledger.deleted_blockOps]
    exact .inl hk
  -- if the addition of reward and fees overflowed, the coinbase would only have less
  have hsum : (blockReward b.header.height + fees).toNat ≤
      (blockReward b.header.height).toNat + fees.toNat := by
    rw [UInt64.toNat_add]
    exact Nat.mod_le _ _
  rw [htxs, List.map_cons, List.sum_cons] at haccount
  simp only [List.tail_cons, List.head?_cons, Option.elim_some] at hbalance hcoinbase
  omega

/-- A chain has at most the rewards of its heights. -/
theorem supply_replay_le {m : Manager} {g b : Block} {rest : List Block}
    (h : Chain m g (b :: rest)) (hg : IsGenesis m.network g) :
    (Ledger.replay (b :: rest)).supply ≤ rewardsUpTo b.header.height := by
  generalize hlist : b :: rest = list at h
  induction h generalizing b rest with
  | genesis =>
    cases hlist
    have haccount := supply_apply ∅ g
    have houtputs : (g.transactions.toList.map outputTotal).sum = rewardsUpTo g.header.height := by
      rw [hg.height, hg.transactions]
      decide
    change (Ledger.apply ∅ g).supply ≤ _
    change _ = 0 + _ at haccount
    omega
  | @extend _ p below chain step ih =>
    obtain ⟨rfl, rfl⟩ := List.cons.inj hlist
    have hstep := supply_apply_le step.transactions
    rw [rewardsUpTo_succ step.height]
    exact hstep.trans (Nat.add_le_add_right (ih rfl) _)

/-! ### Runs -/

/-- Every part of the unspent outputs fits into `uint64`, with any reward on top. -/
theorem reward_add_lt {l : Ledger} (h : l.supply ≤ maxSupply.toNat) {amounts : ℕ}
    (hamounts : amounts ≤ l.supply) (height : UInt64) :
    (blockReward height).toNat + amounts < 2 ^ 64 := by
  have hreward : (blockReward height).toNat ≤ initialReward.toNat :=
    (toNat_blockReward _).le.trans (Nat.div_le_self _ _)
  have hinitial : initialReward.toNat = 50000000000 := rfl
  have hmax : maxSupply.toNat = 2100000000000000000 := rfl
  omega

/-- A listing of the unspent outputs has a balance for every script. -/
theorem balanceByScript_eq_ok {d : Store} (h : (DB.utxos d).supply < 2 ^ 64) {listed : List UTXO}
    (hlisted : DB.ListsUTXOs d listed) (script : Bytes) :
    ∃ balance, DB.balanceByScript listed script = .ok balance ∧ balance.toNat =
      ((listed.filter fun u ↦ u.script = script).map fun u ↦ u.amount.toNat).sum := by
  have hsupply : (listed.map fun u ↦ u.amount.toNat).sum = (DB.utxos d).supply := by
    have hsum := congrArg (fun s : Multiset UTXO ↦ (s.map fun u ↦ u.amount.toNat).sum) hlisted
    rw [Ledger.listing, Multiset.map_map] at hsum
    exact hsum
  have hle : ((listed.filter fun u ↦ u.script = script).map fun u ↦ u.amount.toNat).sum ≤
      (listed.map fun u ↦ u.amount.toNat).sum :=
    (List.filter_sublist.map _).sum_le_sum fun _ _ ↦ Nat.zero_le _
  have hfits : (0 : UInt64).toNat + (((listed.filter fun u ↦ u.script = script).map
      UTXO.amount).map UInt64.toNat).sum < 2 ^ 64 := by
    rw [List.map_map, UInt64.toNat_zero, Nat.zero_add]
    exact lt_of_le_of_lt (hle.trans (Nat.le_of_eq hsupply)) h
  obtain ⟨balance, hbalance⟩ := exists_toNat_eq hfits
  refine ⟨balance, sumAmounts_eq_ok_iff.mpr hbalance, ?_⟩
  rw [hbalance, List.map_map, UInt64.toNat_zero, Nat.zero_add]
  rfl

/-- In every state of a run of blocks of positive height, the unspent amounts are at most the
rewards up to the height of the tip, and these at most the maximal supply. So balances can be taken,
distinct outputs with a reward on top do not overflow, and neither do the fees of a block with the
reward. -/
theorem supply_bound {m : Manager} {g : Block} {tips : List Block} {n : Node}
    (h : Run m PositiveHeight g tips n) :
    ∃ tip : Block, DB.tip n.store = .ok tip.hash ∧
      n.store.lookup (Key.blockHash tip.hash) = some (serializeBlock tip) ∧
      (DB.utxos n.store).supply ≤ rewardsUpTo tip.header.height ∧
      rewardsUpTo tip.header.height ≤ maxSupply.toNat ∧
      (∀ listed, DB.ListsUTXOs n.store listed → ∀ script, ∃ balance,
        DB.balanceByScript listed script = .ok balance ∧ balance.toNat =
          ((listed.filter fun u ↦ u.script = script).map fun u ↦ u.amount.toNat).sum) ∧
      (∀ outpoints : List Outpoint, outpoints.Nodup → ∀ height, (blockReward height).toNat +
        (outpoints.map (DB.utxos n.store).amountAt).sum < 2 ^ 64) ∧
      ∀ txs verifier spendHeight fees,
        ((validateFees Store.get verifier spendHeight txs 0 []).run exec n).1 = .ok fees →
          ∀ height, (blockReward height + fees).toNat =
            (blockReward height).toNat + fees.toNat := by
  obtain ⟨hchain, hholds⟩ := h.holds fun _ _ _ hpositive ↦ hpositive
  obtain ⟨tip, below, rfl⟩ := hchain.exists_cons
  have hsupply := supply_replay_le hchain h.genesis
  rw [← hholds.ledger] at hsupply
  have hmax := hsupply.trans (rewardsUpTo_le tip.header.height)
  refine ⟨tip, hholds.tip rfl, hholds.stored tip List.mem_cons_self, hsupply, rewardsUpTo_le _,
    fun listed hlisted script ↦ ?_, fun outpoints hnodup height ↦ ?_,
    fun txs verifier spendHeight fees hfees height ↦ ?_⟩
  · exact balanceByScript_eq_ok (lt_of_le_of_lt hmax (by decide)) hlisted script
  · exact reward_add_lt hmax (sum_amountAt_le hnodup _) height
  · obtain ⟨-, -, hbalance, hnodup⟩ := validateFees_ok (Prod.ext hfees rfl)
    rw [List.append_nil] at hnodup
    have hspent := sum_amountAt_le (hnodup List.nodup_nil) (DB.utxos n.store)
    have hfeesLe : fees.toNat ≤ (DB.utxos n.store).supply := by
      rw [UInt64.toNat_zero] at hbalance
      omega
    rw [UInt64.toNat_add, Nat.mod_eq_of_lt (reward_add_lt hmax hfeesLe height)]

theorem supply_bound_regtest :
    (DB.utxos Regtest.afterA.store).supply ≤
      maxSupply.toNat := by
  have hheight : 0 < Regtest.blockA.header.height := by decide
  have hrun : Run Regtest.manager PositiveHeight _ _ _ := Regtest.runA hheight
  obtain ⟨tip, -, -, hsupply, hmax, -⟩ := supply_bound hrun
  exact hsupply.trans hmax

end NevelCore
