import NevelCore.Chain.PoolRuns
import NevelCore.Chain.Supply
import NevelCore.Consensus.Difficulty

/-!
# Mined templates

A miner takes the block of `BuildTemplate`, raises its nonce until the hash is below the target, and
submits it. `BuildTemplate` and `ValidateAndApplyBlock` are written apart from each other, and this
module compares them. The bits are those that the parent asks for, and as long as `Mine` ends their
target is positive; that it is within the limit of the network is `Chain.bits_le`. The transactions
are those of the pool, which spend nothing twice, and their fees are part of the supply, so that no
addition overflows (`template_transactions`).

`mined_template_accepted` is the result: the block is accepted, becomes the tip, and takes all
transactions out of the pool.
-/

set_option autoImplicit false
set_option relaxedAutoImplicit false

namespace NevelCore

open Foundations

/-! ### The target -/

/-- What `Mine` returns has its hash below the target. -/
theorem hashValue_lt_of_mine {polls : ℕ} {b b' : Block} {target : ℤ}
    (h : mine polls b target = some b') : (hashValue b'.hash : ℤ) < target := by
  induction polls generalizing b with
  | zero => cases h
  | succ polls ih =>
    rw [mine] at h
    split_ifs at h with hlt
    · cases h
      exact hlt
    · exact ih h

section Target

variable {m : Manager} {g tip : Block} {rest : List Block}

/-- The target of the newest block of a chain is in the range of the network. -/
theorem Chain.target_mem (h : Chain m g (tip :: rest)) (hg : IsGenesis m.network g)
    (hnet : ∃ name, m.network = networkByName name) :
    0 < compactToBig tip.header.bits ∧ compactToBig tip.header.bits ≤ m.network.powLimit := by
  cases h with
  | genesis =>
    obtain ⟨nonce, rfl⟩ := hg
    obtain ⟨name, hname⟩ := hnet
    change 0 < compactToBig m.network.genesisBits ∧
      compactToBig m.network.genesisBits ≤ m.network.powLimit
    rw [hname, compactToBig_genesisBits]
    exact ⟨networkByName_powLimit_pos name, le_rfl⟩
  | extend _ step =>
    obtain ⟨hpos, hle, -⟩ := checkProofOfWork_ok_iff.mp step.proofOfWork
    exact ⟨hpos, hle⟩

/-- The bits that are asked for on top of a chain have a target within the limit. -/
theorem Chain.bits_le (h : Chain m g (tip :: rest)) (hg : IsGenesis m.network g)
    (hnet : ∃ name, m.network = networkByName name) {bits : UInt32} {n n' : Node}
    {headerByHeight : UInt64 → Routine BlockHeader}
    (hbits : (expectedBits tip.header m.network headerByHeight).run exec n = (.ok bits, n')) :
    compactToBig bits ≤ m.network.powLimit := by
  obtain ⟨hpos, hle⟩ := h.target_mem hg hnet
  obtain ⟨name, hname⟩ := hnet
  exact expectedBits_le hbits hpos.le hle (hname ▸ networkByName_powLimit_le name)

/-- On top of a readable tip there are bits to ask for. -/
theorem Stores.exists_expectedBits {n : Node} (hstores : Stores (tip :: rest) n.store)
    (h : Chain m g (tip :: rest)) (hg : g.header.height = 0) (hlimits : tip.InLimits) :
    ∃ bits, (expectedBits tip.header m.network Manager.headerByHeight).run exec n =
      (.ok bits, n) := by
  rw [hstores.run_expectedBits h hg (List.suffix_refl _) hlimits, expectedBits]
  split_ifs with hretarget
  · exact ⟨_, rfl⟩
  · obtain ⟨x, -, -, -, hancestor⟩ := h.exists_ancestor hg hlimits (retarget_height_le hretarget)
    rw [hancestor]
    exact ⟨_, rfl⟩

end Target

/-! ### The block -/

section Template

variable {m : Manager} {tip : Block} {n : Node} {bits : UInt32} {snapshot : List Transaction}
  {minerScript : Bytes} {coinbaseNow headerNow : Int64} {nonce : UInt64}

theorem transactions_templateOn (hlength : snapshot.length + 1 < 2 ^ 31) :
    ((templateOn tip bits coinbaseNow headerNow snapshot minerScript).withNonce
        nonce).transactions.toList =
      newCoinbase (Manager.minedAt coinbaseNow) (blockReward (tip.header.height + 1)) minerScript ::
        snapshot :=
  Slice.toList_ofList hlength

/-- A mined template passes the header rules. -/
theorem template_header {now : ℤ} {block : Block}
    (hblock : block = (templateOn tip bits coinbaseNow headerNow snapshot minerScript).withNonce
      nonce)
    (hlt : (hashValue block.hash : ℤ) < compactToBig bits)
    (hle : compactToBig bits ≤ m.network.powLimit)
    (htime : headerNow.toInt ≤ now + 2 * 60 * 60) {prev : Option BlockHeader}
    (hprev : ∀ p, prev = some p → p = tip.header) :
    validateBlockHeader now block prev m.network = .ok () := by
  subst hblock
  refine validateBlockHeader_ok_iff.mpr ⟨rfl, checkProofOfWork_ok_iff.mpr ⟨?_, hle, hlt.le⟩, htime,
    fun p hp ↦ ?_⟩
  · exact lt_of_le_of_lt (Int.natCast_nonneg _) hlt
  · rw [hprev p hp]
    exact ⟨rfl, rfl⟩

/-- A template of transactions that can be spent together passes the transaction rules: its fees are
part of the supply, so that neither their sum nor that with the reward overflows. -/
theorem template_transactions (hsupply : (DB.utxos n.store).supply ≤ maxSupply.toNat)
    (hall : ∀ t ∈ snapshot,
      Spendable (DB.utxos n.store).view m.verifier (tip.header.height + 1) t)
    (hnodup : (snapshot.flatMap Transaction.spent).Nodup) (hlength : snapshot.length + 1 < 2 ^ 31) :
    (validateBlockTransactions ((templateOn tip bits coinbaseNow headerNow snapshot
      minerScript).withNonce nonce) Store.get m.verifier).run exec n = (.ok (), n) := by
  have hspent := sum_amountAt_le hnodup (DB.utxos n.store)
  rw [← flatMap_spends_of_spendable hall, sum_amountAt_of_spendable hall] at hspent
  have hle : (snapshot.map (DB.utxos n.store).view.fee).sum ≤ (DB.utxos n.store).supply :=
    (Nat.le_add_left _ _).trans hspent
  have hfits := reward_add_lt hsupply hle (tip.header.height + 1)
  obtain ⟨fees, hfees⟩ := exists_toNat_eq (lt_of_le_of_lt (Nat.le_add_left _ _) hfits)
  refine (validateBlockTransactionsAt_eq_ok_iff (readsView_get n)).mpr ⟨rfl, _, snapshot,
    transactions_templateOn hlength, rfl, hall, hnodup, fees, hfees, ?_⟩
  change _ ≤ (blockReward (tip.header.height + 1) + fees).toNat
  have hreward : outputTotal (newCoinbase (Manager.minedAt coinbaseNow)
      (blockReward (tip.header.height + 1)) minerScript) =
        (blockReward (tip.header.height + 1)).toNat := List.sum_singleton
  rw [hreward, UInt64.toNat_add, hfees, Nat.mod_eq_of_lt hfits]
  exact Nat.le_add_right _ _

/-- A block whose header and transactions are in order, on top of the tip, passes the checks. A
height that has wrapped around to 0 is not compared with the parent. -/
theorem checkBlock_of_tip {now : ℤ} {b : Block} (hread : DB.getBlock n.store tip.hash = .ok tip)
    (hlink : b.header.prevHash = tip.hash)
    (hunknown : ∃ e, DB.getBlock n.store b.hash = .error e)
    (hheader : ∀ prev, (∀ p, prev = some p → p = tip.header) →
      validateBlockHeader now b prev m.network = .ok ())
    (hbits : (expectedBits tip.header m.network Manager.headerByHeight).run exec n =
      (.ok b.header.bits, n))
    (htransactions : (validateBlockTransactions b Store.get m.verifier).run exec n = (.ok (), n)) :
    (m.checkBlock now b).run exec n = (.ok (), n) := by
  by_cases hheight : 0 < b.header.height
  · refine (checkBlock_ok_iff hheight).mpr ⟨tip, hunknown, hlink ▸ hread, hheader _ ?_, hbits,
      htransactions⟩
    rintro p ⟨⟩
    rfl
  · have hzero : b.header.height = 0 := by
      rw [← UInt64.toNat_inj]
      exact Nat.eq_zero_of_not_pos fun hpos ↦ hheight (UInt64.lt_iff_toNat_lt.mpr hpos)
    obtain ⟨e, he⟩ := hunknown
    exact checkBlock_of_height_zero hzero he (hheader none nofun) htransactions

end Template

/-! ### Mining on a pool -/

/-- In every state of a run of blocks of positive height with a readable tip, with every pool whose
transactions can each be spent at the next height: `BuildTemplate` returns a block, and as soon as
that is mined it is accepted, becomes the tip and leaves an empty pool. -/
theorem mined_template_accepted {m : Manager} {g tip : Block} {rest : List Block} {n : Node}
    {pool : Mempool} {maxBytes : Int64} {snapshot : List Transaction}
    (h : Run m PositiveHeight g (tip :: rest) n) (hnet : ∃ name, m.network = networkByName name)
    (hlimits : tip.InLimits)
    (hpool : Relation.ReflTransGen Mempool.PoolCall (Mempool.new maxBytes) pool)
    (hentries : ∀ hash e, pool.txs.lookup hash = some e → ∃ r,
      (validateTransactionAt e.tx Store.get m.verifier [] (tip.header.height + 1)).run exec n =
        (.ok r, n))
    (hsnapshot : pool.IsSnapshot snapshot) (hlength : snapshot.length + 1 < 2 ^ 31)
    (coinbaseNow headerNow : Int64) (minerScript : Bytes) :
    ∃ template, (m.buildTemplate coinbaseNow headerNow snapshot minerScript).run exec
        ⟨n.store, some pool⟩ = (.ok template, ⟨n.store, some pool⟩) ∧
      ∀ polls block now fuel,
        mine polls template (compactToBig template.header.bits) = some block →
        (∃ e, DB.getBlock n.store block.hash = .error e) →
        headerNow.toInt ≤ now + 2 * 60 * 60 →
        ∃ n' pool', (m.validateAndApplyBlock now fuel block).run exec ⟨n.store, some pool⟩ =
            (.ok (), n') ∧
          DB.tip n'.store = .ok block.hash ∧ n'.mempool = some pool' ∧ pool'.txs = ∅ ∧
          pool'.spends = ∅ ∧ pool'.bytes = 0 := by
  obtain ⟨hchain, hholds⟩ := h.holds fun _ _ _ hpositive ↦ hpositive
  have hg := h.genesis
  have hstores : Stores (tip :: rest) (Node.mk n.store (some pool)).store := hholds.toStores
  have htip := hstores.tip rfl
  have hread := hstores.getBlock_of_mem List.mem_cons_self hlimits
  obtain ⟨bits, hbits⟩ := hstores.exists_expectedBits hchain hg.height hlimits
  refine ⟨_, run_buildTemplate htip hread hbits coinbaseNow headerNow snapshot minerScript, ?_⟩
  intro polls block now fuel hmine hunknown htime
  obtain ⟨nonce, hblock⟩ := mine_eq_some hmine
  have hconsistent := Mempool.consistent_of_calls hpool
  have hspendable : ∀ t ∈ snapshot,
      Spendable (DB.utxos n.store).view m.verifier (tip.header.height + 1) t := by
    intro t ht
    obtain ⟨hash, e, he, rfl⟩ := (Mempool.mem_snapshot hsnapshot).mp ht
    obtain ⟨r, hr⟩ := hentries hash e he
    exact ((validateTransactionAt_eq_ok_iff (readsView_get n)).mp hr).2.1
  have hsupply : (DB.utxos n.store).supply ≤ maxSupply.toNat := by
    rw [hholds.ledger]
    exact (supply_replay_le hchain hg).trans (rewardsUpTo_le _)
  have hcheck : (m.checkBlock now block).run exec ⟨n.store, some pool⟩ =
      (.ok (), ⟨n.store, some pool⟩) := by
    refine checkBlock_of_tip hread (by rw [hblock]; rfl) hunknown (fun prev hprev ↦ ?_)
      (by rw [hblock]; exact hbits) ?_
    · exact template_header hblock (hashValue_lt_of_mine hmine) (hchain.bits_le hg hnet hbits) htime
        hprev
    · rw [hblock]
      exact template_transactions hsupply hspendable (hconsistent.nodup_snapshot hsnapshot) hlength
  have hlink : DB.tip (Node.mk n.store (some pool)).store = .ok block.header.prevHash := by
    rw [htip, hblock]
    rfl
  obtain ⟨n', hcall, hstore, hmempool⟩ := run_validateAndApplyBlock_of_tip fuel hcheck hlink
  refine ⟨n', pool.removeMinedBlock block, hcall, ?_, hmempool, ?_⟩
  · rw [hstore, DB.tip_extend]
  · refine hconsistent.removeMinedBlock_all fun hash e he ↦ ?_
    have hmem := (Mempool.mem_snapshot hsnapshot).mpr ⟨hash, e, he, rfl⟩
    refine ⟨?_, (hspendable e.tx hmem).noCoinbase⟩
    rw [hblock, transactions_templateOn hlength]
    exact List.mem_cons_of_mem _ hmem

namespace Regtest

def minedRoot : ℕ := 0x25262f33bccea04da101f674dedc90b3c26b6a478252b1775ffe06ecefe6a81a

/-- The template on top of the idle blocks. -/
def blockM : Block :=
  blockOn idleTip minedRoot 100 0
    [newCoinbase (Manager.minedAt 1790000000) initialReward (script 0x11), spendGenesis 1]

theorem buildMerkleRoot_blockM : buildMerkleRoot
    [newCoinbase (Manager.minedAt 1790000000) initialReward (script 0x11), spendGenesis 1] =
      hash minedRoot :=
  buildMerkleRoot_pair hash_coinbaseA hash_spendGenesis_one (by decide +kernel)

theorem hashValue_blockM : hashValue blockM.hash = minedValue := by
  have hvalue : headerValue idleTip minedRoot 100 0 = minedValue := by decide +kernel
  rw [blockM, hash_blockOn (by decide) (by decide), hvalue]
  exact hashValue_hash (by decide)

theorem mine_blockM : mine 1 blockM (compactToBig blockM.header.bits) = some blockM := by
  have hlt : (hashValue blockM.header.hash : ℤ) < compactToBig blockM.header.bits := by
    change (hashValue blockM.hash : ℤ) < compactToBig regtestPowBits
    rw [hashValue_blockM]
    decide
  rw [mine, if_pos hlt]

theorem Matured.templateOn_eq {p : Block} {rest : List Block} {n : Node} (h : Matured p rest n) :
    templateOn p regtestPowBits 1790000000 1790000000 [spendGenesis 1] (script 0x11) = blockM := by
  have hnext : p.header.height + 1 = 100 := by
    rw [h.height_eq]
    rfl
  have hreward : blockReward 100 = initialReward := by decide
  have hhash : p.hash = hash idleTip := by rw [← h.tip, hash_hashValue]
  have hroot : buildMerkleRoot (Slice.ofList [newCoinbase (Manager.minedAt 1790000000) initialReward
      (script 0x11), spendGenesis 1]).toList = hash minedRoot := buildMerkleRoot_blockM
  rw [templateOn, hnext, hreward, newBlock, hroot, hhash]
  rfl

end Regtest

/-- On top of the idle blocks a block with a transaction of the pool is mined and accepted. -/
theorem mined_template_accepted_regtest :
    ∃ p rest n pool n' pool', Run Regtest.manager PositiveHeight Regtest.genesis (p :: rest) n ∧
      pool.txs.lookup (Regtest.spendGenesis 1).hash ≠ none ∧
      (Regtest.manager.validateAndApplyBlock 1790000000 1 Regtest.blockM).run exec
        ⟨n.store, some pool⟩ = (.ok (), n') ∧
      DB.tip n'.store = .ok Regtest.blockM.hash ∧ n'.mempool = some pool' ∧ pool'.txs = ∅ := by
  obtain ⟨p, rest, n, hmatured, -⟩ := Regtest.exists_matured none
  obtain ⟨hchain, hholds⟩ := hmatured.run.holds fun _ _ _ h ↦ h
  have hledger : DB.utxos n.store = Ledger.replay [Regtest.genesis] :=
    hholds.ledger.trans hmatured.ledger
  obtain ⟨pool, e, hadd, htxs, he⟩ := Regtest.add_spendGenesis hledger
  have hcalls : Relation.ReflTransGen Mempool.PoolCall (Mempool.new 1000) pool :=
    .single (.add nofun hadd)
  have hsnapshot : pool.IsSnapshot [Regtest.spendGenesis 1] := by
    rw [Mempool.IsSnapshot, htxs, Finmap.entries_insert_of_notMem Finmap.notMem_empty,
      Multiset.map_cons, he]
    rfl
  have hentries : ∀ hash e', pool.txs.lookup hash = some e' → ∃ r,
      (validateTransactionAt e'.tx Store.get Regtest.manager.verifier []
        (p.header.height + 1)).run exec n = (.ok r, n) := by
    intro hash e' he'
    have hspendable := Regtest.spendable_spendGenesis (show (1 : UInt64) ≠ 0 by decide) (by decide)
      fun himmature : Regtest.genesisCoin.Immature 100 ↦ absurd himmature.2.2 (by decide)
    obtain ⟨fee, hpasses⟩ := hspendable.passes (hledger ▸ readsView_get n)
      fun _ _ ↦ List.not_mem_nil
    rw [List.mem_singleton.mp ((Mempool.mem_snapshot hsnapshot).mpr ⟨hash, e', he', rfl⟩),
      hmatured.height_eq]
    exact ⟨_, hpasses⟩
  obtain ⟨template, hbuild, haccepted⟩ := mined_template_accepted hmatured.run ⟨"regtest", rfl⟩
    hmatured.inLimits hcalls hentries hsnapshot (by decide) 1790000000 1790000000
    (Regtest.script 0x11)
  have hstores : Stores (p :: rest) (Node.mk n.store (some pool)).store := hholds.toStores
  have hbits : (expectedBits p.header Regtest.manager.network Manager.headerByHeight).run exec
      ⟨n.store, some pool⟩ = (.ok regtestPowBits, ⟨n.store, some pool⟩) := by
    rw [hstores.run_expectedBits hchain hmatured.run.genesis.height (List.suffix_refl _)
      hmatured.inLimits]
    exact hmatured.validOn_blockS.bits _
  rw [run_buildTemplate (hstores.tip rfl)
    (hstores.getBlock_of_mem List.mem_cons_self hmatured.inLimits) hbits,
    hmatured.templateOn_eq] at hbuild
  cases hbuild
  obtain ⟨n', pool', hcall, htip, hmempool, hempty, -⟩ := haccepted 1 Regtest.blockM 1790000000 1
    Regtest.mine_blockM
    (hstores.unknown_of_new (hmatured.hash_ne Regtest.hashValue_blockM (by simp))) (by decide)
  refine ⟨p, rest, n, pool, n', pool', hmatured.run, ?_, hcall, htip, hmempool, hempty⟩
  rw [htxs, Finmap.lookup_insert]
  exact Option.some_ne_none e

end NevelCore
