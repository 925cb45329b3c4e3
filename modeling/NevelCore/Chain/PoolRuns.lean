import NevelCore.Chain.Runs
import NevelCore.Mempool.Consistency

/-!
# The memory pool beside the chain

What the memory pool holds, compared with the store it reads. `Mempool.admitted_minable_iff`
compares `Add` with the rules for the next block: the two ask for the same, but `Add` does not ask
whether coinbase outputs are mature, and `Mempool.admitted_not_minable` is a transaction for which
that matters.

`PoolStep` is one call on a node, of `Add`, `Remove` or `ValidateAndApplyBlock`. The inputs of the
pool stay unspent along the calls whose blocks do not conflict with the pool (`pool_unspent`). The
condition is needed: `RemoveMinedBlock` looks for the transactions of the block by their hashes, and
a transaction that spends the same output as one of the block stays (`pool_spent`). The state for
this lies behind a hundred blocks on the regression test network, at whose end the output of genesis
is mature. Their hashes are computed on numbers (`Regtest.hash_blockOn`).
-/

set_option autoImplicit false
set_option relaxedAutoImplicit false

namespace NevelCore

open Foundations Sha256

/-! ### Spending the output of genesis -/

namespace Regtest

/-- A transaction that spends the output of genesis and leaves a fee. -/
def spendGenesis (amount : UInt64) : Transaction where
  version := 1
  inputs := .ofList [{
    prevTxHash := genesisCoin.txHash
    outputIdx := 0
    signature := .ofList []
    publicKey := .ofList [] }]
  outputs := .ofList [{ amount := amount, lockingScript := .ofList [] }]
  lockTime := 0

theorem view_replay_genesis (outpoint : Outpoint) :
    (Ledger.replay [genesis]).view outpoint =
      if outpoint = genesisCoin.outpoint then some genesisCoin else none := by
  rw [replay_genesis, Ledger.view]
  split_ifs with h
  · rw [h, Finmap.lookup_insert]
    rfl
  · rw [Finmap.lookup_insert_of_ne _ h]
    rfl

theorem get_genesisCoin {d : Store} (h : DB.utxos d = Ledger.replay [genesis]) :
    DB.get d genesisCoin.txHash 0 = .ok genesisCoin := by
  rw [DB.get_eq_ok, h, replay_genesis]
  exact ⟨rfl, Finmap.lookup_insert _⟩

/-- A node that has the output of genesis refuses to spend it as long as it is not mature. -/
theorem run_spendGenesis_of_immature {n : Node} (h : DB.utxos n.store = Ledger.replay [genesis])
    {spendHeight : UInt64} (himmature : genesisCoin.Immature spendHeight) (amount : UInt64) :
    (validateTransactionAt (spendGenesis amount) Store.get none [] spendHeight).run exec n =
      (.error (.error .immatureCoinbase), n) := by
  have hcoinbase : (spendGenesis amount).isCoinbase = false := rfl
  rw [validateTransactionAt, hcoinbase, if_neg Bool.false_ne_true]
  refine Prog.run_bind_of_error ?_
  change (validateInputs _ _ _ _ 0 [_] 0 []).run exec n = _
  rw [validateInputs, if_neg List.not_mem_nil, run_get_bind, get_genesisCoin h]
  exact congrArg (Prog.run exec · n) (if_pos himmature)

theorem spendable_spendGenesis {amount spendHeight : UInt64} (hamount : amount ≠ 0)
    (hlow : amount < 1000) (hmature : ¬ genesisCoin.Immature spendHeight) :
    Spendable (Ledger.replay [genesis]).view none spendHeight (spendGenesis amount) := by
  have hcoin : (Ledger.replay [genesis]).view genesisCoin.outpoint = some genesisCoin := by
    rw [view_replay_genesis, if_pos rfl]
  have hinput : (Ledger.replay [genesis]).view.inputTotal (spendGenesis amount) = 50000000000 := by
    change ([genesisCoin.outpoint].map _).sum = _
    rw [List.map_singleton, List.sum_singleton, View.amountAt, hcoin]
    rfl
  have houtput : outputTotal (spendGenesis amount) = amount.toNat := List.sum_singleton
  have hfee : (minFee (spendGenesis amount)).toNat = 96 := rfl
  have hnat : amount.toNat < 1000 := UInt64.lt_iff_toNat_lt.mp hlow
  refine ⟨?_, List.nodup_singleton _, ?_, ?_, ?_, ?_, ?_⟩
  · rfl
  · intro p hp
    obtain rfl := List.mem_singleton.mp hp
    exact ⟨genesisCoin, hcoin, hmature, Bool.false_ne_true⟩
  · intro output houtput
    obtain rfl := List.mem_singleton.mp houtput
    exact hamount
  · rw [hinput]
    decide
  · rw [hinput, houtput]
    omega
  · rw [View.fee, hinput, houtput, hfee]
    omega

/-- A new pool beside a node that has the output of genesis takes a transaction that spends it. -/
theorem add_spendGenesis {n : Node} (h : DB.utxos n.store = Ledger.replay [genesis]) :
    ∃ pool e, ((Mempool.new 1000).add Mempool.someOrders (spendGenesis 1) Store.get
        manager.verifier).run exec n = (.ok pool, n) ∧
      pool.txs = (∅ : Finmap fun _ : Hash ↦ Entry).insert (spendGenesis 1).hash e ∧
      e.tx = spendGenesis 1 := by
  have hspendable := spendable_spendGenesis (show (1 : UInt64) ≠ 0 by decide) (by decide)
    fun himmature : genesisCoin.Immature 0xffffffffffffffff ↦ himmature.2.1 rfl
  rw [← h] at hspendable
  exact Mempool.run_add_new (readsView_get n) hspendable 1000 Mempool.someOrders

end Regtest

/-! ### Admission and the next block -/

namespace Mempool

section Admission

variable {n n' : Node} {pool pool' : Mempool} {orders : AddOrders} {t : Transaction}
  {verifier : Option SignatureVerifier}

/-- A transaction that `Add` admits is spendable but for maturity, which `Add` does not ask for. -/
theorem spendable_of_add
    (h : (pool.add orders t Store.get verifier).run exec n = (.ok pool', n')) :
    Spendable (DB.utxos n.store).view verifier 0xffffffffffffffff t := by
  obtain ⟨r, hvalidate, -⟩ := add_ok h
  exact ((validateTransactionAt_eq_ok_iff (readsView_get n)).mp hvalidate).2.1

/-- A transaction that `Add` admits passes the rules for a block of some height, on top of the same
store, exactly if it spends no coinbase output that is not mature there. -/
theorem admitted_minable_iff
    (h : (pool.add orders t Store.get verifier).run exec n = (.ok pool', n')) (height : UInt64) :
    (∃ r, (validateTransactionAt t Store.get verifier [] height).run exec n = (.ok r, n)) ↔
      ∀ outpoint ∈ t.spent, ∀ u, (DB.utxos n.store).view outpoint = some u →
        ¬ u.Immature height := by
  have hspendable := spendable_of_add h
  rw [← hspendable.at_iff]
  constructor
  · rintro ⟨r, hr⟩
    exact ((validateTransactionAt_eq_ok_iff (readsView_get n)).mp hr).2.1
  · intro hnext
    obtain ⟨fee, hpasses⟩ := hnext.passes (readsView_get n) fun _ _ ↦ List.not_mem_nil
    exact ⟨_, hpasses⟩

end Admission

theorem admitted_minable_regtest :
    ∃ r, (validateTransactionAt (Regtest.spendGenesis 1) Store.get Regtest.manager.verifier []
      100).run exec Regtest.afterGenesis = (.ok r, Regtest.afterGenesis) := by
  obtain ⟨pool', e, hadd, -⟩ := Regtest.add_spendGenesis (n := Regtest.afterGenesis)
    Regtest.utxos_genesis
  refine (admitted_minable_iff hadd 100).mpr fun outpoint _ u hu himmature ↦ ?_
  rw [Regtest.afterGenesis, Regtest.utxos_genesis, Regtest.view_replay_genesis] at hu
  split_ifs at hu
  cases hu
  exact absurd himmature.2.2 (by decide)

/-- On top of genesis its output is not mature. `Add` takes a transaction that spends it all the
same. -/
theorem admitted_not_minable :
    ∃ n tip pool orders t pool', Run Regtest.manager PositiveHeight Regtest.genesis [tip] n ∧
      Manager.tipBlock.run exec n = (.ok tip, n) ∧
      (add pool orders t Store.get Regtest.manager.verifier).run exec n = (.ok pool', n) ∧
      (validateTransactionAt t Store.get Regtest.manager.verifier [] (tip.header.height + 1)).run
        exec n = (.error (.error .immatureCoinbase), n) := by
  have hrun : Run Regtest.manager PositiveHeight Regtest.genesis [Regtest.genesis]
      Regtest.afterGenesis := .start Regtest.starts
  obtain ⟨-, hholds⟩ := hrun.holds fun _ _ _ h ↦ h
  have hread := hholds.getBlock_of_mem List.mem_cons_self Regtest.genesis_inLimits
  obtain ⟨pool', e, hadd, -⟩ := Regtest.add_spendGenesis hholds.ledger
  exact ⟨_, _, _, _, _, pool', hrun, run_tipBlock Regtest.tip_afterGenesis hread, hadd,
    Regtest.run_spendGenesis_of_immature hholds.ledger ⟨rfl, by decide, by decide⟩ 1⟩

end Mempool

/-! ### The pool along runs -/

/-- Every input of every transaction of a pool names an outpoint that is unspent in a ledger. -/
def Mempool.UnspentIn (pool : Mempool) (l : Ledger) : Prop :=
  ∀ hash e, pool.txs.lookup hash = some e → ∀ outpoint ∈ e.tx.spent, l.lookup outpoint ≠ none

/-- One call on a node: `Add` or `Remove` on its pool, or `ValidateAndApplyBlock` with a block of
positive height that a condition allows. -/
inductive PoolStep (m : Manager) (allowed : Node → ℤ → Block → Prop) : Node → Node → Prop
  | add {n n' : Node} {pool pool' : Mempool} {orders : AddOrders} {t : Transaction}
      (holds : n.mempool = some pool)
      (returns : (pool.add orders t Store.get m.verifier).run exec n = (.ok pool', n')) :
      PoolStep m allowed n { n' with mempool := some pool' }
  | addFails {n n' : Node} {pool : Mempool} {orders : AddOrders} {t : Transaction} {halt : Halt}
      (holds : n.mempool = some pool)
      (returns : (pool.add orders t Store.get m.verifier).run exec n = (.error halt, n')) :
      PoolStep m allowed n n'
  | remove {n : Node} (hash : Hash) :
      PoolStep m allowed n { n with mempool := n.mempool.map (·.remove hash) }
  | deliver {n n' : Node} {now : ℤ} {fuel : ℕ} {b : Block} {r : Except Halt Unit}
      (positive : 0 < b.header.height) (allows : allowed n now b)
      (returns : (m.validateAndApplyBlock now fuel b).run exec n = (r, n'))
      (fueled : r ≠ .error .outOfFuel) : PoolStep m allowed n n'

/-- A block does not conflict with a pool: a transaction of the pool that spends what the block
spends is itself one of the block. -/
def NoConflict (pool : Mempool) (b : Block) : Prop :=
  ∀ hash e, pool.txs.lookup hash = some e → ∀ outpoint ∈ e.tx.spent, outpoint ∈ Ledger.spent b →
    ∃ t ∈ b.transactions.toList, t.isCoinbase = false ∧ t.hash = hash

/-- The condition that a block which meets the rules on top of the tip does not conflict with the
pool. -/
def NoConflictOnTip (m : Manager) (n : Node) (now : ℤ) (b : Block) : Prop :=
  MeetsRules m n now b → DB.tip n.store = .ok b.header.prevHash →
    ∀ pool, n.mempool = some pool → NoConflict pool b

theorem PoolStep.mono {m : Manager} {allowed allowed' : Node → ℤ → Block → Prop} {n n' : Node}
    (h : PoolStep m allowed n n') (hallowed : ∀ n now b, allowed n now b → allowed' n now b) :
    PoolStep m allowed' n n' := by
  cases h with
  | add holds returns => exact .add holds returns
  | addFails holds returns => exact .addFails holds returns
  | remove hash => exact .remove hash
  | deliver positive allows returns fueled =>
    exact .deliver positive (hallowed _ _ _ allows) returns fueled

section PoolRuns

variable {m : Manager} {g b : Block} {n n' : Node} {pool pool' : Mempool} {l : Ledger}

/-- `Add` only reads from the store. -/
theorem eq_of_run_add {orders : AddOrders} {t : Transaction} {verifier : Option SignatureVerifier}
    {r : Except Halt Mempool}
    (h : (pool.add orders t Store.get verifier).run exec n = (r, n')) : n' = n := by
  have honly : (pool.add orders t Store.get verifier).Only Call.Reads Halt.Raised :=
    Prog.only_bind (Prog.only_mono Call.Gets.reads (only_validateTransactionAt t _)) fun _ ↦ trivial
  exact congrArg Prod.snd (h.symm.trans (run_of_reads honly n))

theorem Mempool.UnspentIn.within (h : pool.UnspentIn l) (hwithin : Mempool.Within pool pool') :
    pool'.UnspentIn l :=
  fun hash e he ↦ h hash e (hwithin.txs he)

/-- `Add` takes only transactions whose inputs are unspent. -/
theorem Mempool.UnspentIn.add {orders : AddOrders} {t : Transaction}
    {verifier : Option SignatureVerifier} (h : pool.UnspentIn (DB.utxos n.store))
    (hadd : (pool.add orders t Store.get verifier).run exec n = (.ok pool', n')) :
    pool'.UnspentIn (DB.utxos n.store) := by
  have hspendable := Mempool.spendable_of_add hadd
  obtain ⟨r, -, rfl⟩ := Mempool.add_ok hadd
  intro hash e he
  by_cases heq : hash = t.hash
  · rw [heq] at he
    cases (Finmap.lookup_insert _).symm.trans he
    exact hspendable.there
  · have hold := (Finmap.lookup_insert_of_ne _ heq).symm.trans he
    exact h.within (Mempool.within_makeRoom pool _ _ _) hash e hold

/-- What is left of a pool after a block without conflicts spends nothing that the block spends. -/
theorem NoConflict.notMem (h : NoConflict pool b) {hash : Hash} {e : Entry}
    (he : (pool.removeMinedBlock b).txs.lookup hash = some e) :
    ∀ outpoint ∈ e.tx.spent, outpoint ∉ Ledger.spent b := by
  intro outpoint hmem hspent
  obtain ⟨hbefore, hleft⟩ := Mempool.lookup_txs_of_removeMinedBlock he
  obtain ⟨t, ht, hcoinbase, hhash⟩ := h hash e hbefore outpoint hmem hspent
  exact hleft t ht hcoinbase hhash

/-- A block without conflicts keeps the inputs of the pool unspent. -/
theorem Mempool.UnspentIn.mined (h : pool.UnspentIn l) (hconflict : NoConflict pool b) :
    (pool.removeMinedBlock b).UnspentIn (l.apply b) := by
  intro hash e he outpoint hmem
  obtain ⟨hbefore, -⟩ := Mempool.lookup_txs_of_removeMinedBlock he
  refine lookup_commit_ne_none ?_ (h hash e hbefore outpoint hmem)
  rw [Ledger.deleted_blockOps]
  exact hconflict.notMem he outpoint hmem

/-- The invariant of such runs: the store holds a chain, and the inputs of the pool are unspent. -/
structure PoolState (m : Manager) (g : Block) (n : Node) : Prop where
  chain : ∃ chain, Chain m g chain ∧ Holds chain n.store
  unspent : ∀ pool, n.mempool = some pool → pool.UnspentIn (DB.utxos n.store)

/-- A call with a block of positive height keeps the invariant. -/
theorem PoolState.deliver {now : ℤ} {fuel : ℕ} {r : Except Halt Unit} (h : PoolState m g n)
    (hg : g.header.height = 0) (hheight : 0 < b.header.height)
    (hconflict : NoConflictOnTip m n now b)
    (hcall : (m.validateAndApplyBlock now fuel b).run exec n = (r, n')) : PoolState m g n' := by
  rcases validateAndApplyBlock_cases hcall with ⟨e, -, -, rfl⟩ | ⟨hcheck, -⟩
  · exact h
  obtain ⟨chain, hchain, hholds⟩ := h.chain
  have hreturned := call_returned hcall hheight hchain hg hholds
  obtain ⟨chain', houtcome⟩ := hreturned.outcome
  refine ⟨⟨chain', houtcome.holds hchain hg hholds⟩, ?_⟩
  cases hreturned with
  | failed raised => exact h.unspent
  | recorded suffix inLimits link unknown =>
    rw [DB.utxos_putTotalWork]
    exact h.unspent
  | extended eq step =>
    intro pool' hpool'
    obtain ⟨pool, hpool, rfl⟩ := Option.map_eq_some_iff.mp hpool'
    have htip : DB.tip n.store = .ok b.header.prevHash := by rw [hholds.tip eq, step.link]
    rw [Node.mined_store, DB.utxos_extend]
    exact (h.unspent pool hpool).mined (hconflict (checkBlock_ok hcheck).2 htip pool hpool)

theorem PoolState.step {allowed : Node → ℤ → Block → Prop} (h : PoolState m g n)
    (hg : g.header.height = 0)
    (hallowed : ∀ n now b, allowed n now b → NoConflictOnTip m n now b)
    (hstep : PoolStep m allowed n n') : PoolState m g n' := by
  cases hstep with
  | add holds returns =>
    obtain rfl := eq_of_run_add returns
    refine ⟨h.chain, fun added hadded ↦ ?_⟩
    cases hadded
    exact (h.unspent _ holds).add returns
  | addFails holds returns =>
    obtain rfl := eq_of_run_add returns
    exact h
  | remove hash =>
    refine ⟨h.chain, fun left hleft ↦ ?_⟩
    obtain ⟨pool, hpool, rfl⟩ := Option.map_eq_some_iff.mp hleft
    exact (h.unspent pool hpool).within (Mempool.within_remove pool hash)
  | deliver positive allows returns fueled =>
    exact h.deliver hg positive (hallowed n _ _ allows) returns

end PoolRuns

/-! ### A hundred blocks on the regression test network -/

namespace Regtest

/-- A coinbase without outputs. -/
def emptyCoinbase : Transaction where
  version := 1
  inputs := .ofList [{
    prevTxHash := Bytes32.zero
    outputIdx := 0xffffffff
    signature := .ofList []
    publicKey := .ofList [] }]
  outputs := .ofList []
  lockTime := 0

/-- A block on top of the block with some hash, at the clock reading of the other blocks. -/
def blockOn (prev root : ℕ) (height nonce : UInt64) (txs : List Transaction) : Block where
  header := {
    version := 1
    prevHash := hash prev
    merkleRoot := hash root
    timestamp := 1790000000
    bits := regtestPowBits
    nonce := nonce
    height := height }
  transactions := .ofList txs

/-- The header of such a block in bytes, read as a number. -/
def headerNumber (prev root : ℕ) (height nonce : UInt64) : ℕ :=
  ((0x01000000 * 256 ^ 32 + prev) * 256 ^ 32 + root) * 256 ^ 28 +
    beValue (leBytes 8 1790000000 ++ leBytes 4 0x207fffff ++ leBytes 8 nonce.toNat ++
      leBytes 8 height.toNat)

/-- Its hash as a number. -/
def headerValue (prev root : ℕ) (height nonce : UInt64) : ℕ :=
  packedSha256 32 (packedSha256 96 (headerNumber prev root height nonce))

/-- The target of the network. -/
def target : ℕ := 0x7fffff * 256 ^ 29

/-- The Merkle root of the empty coinbase. -/
def idleRoot : ℕ := 0x903f64f190e1812626fc6478e2d85d247fcf6c88df18984e3cad67151af31fc4

/-- A block that creates and spends nothing. -/
def idleBlock (prev : ℕ) (height nonce : UInt64) : Block :=
  blockOn prev idleRoot height nonce [emptyCoinbase]

/-- The hash of the last of some idle blocks, given by their nonces, on top of blocks whose hashes
are given newest first. It is 0 if one of them misses the target, repeats a hash or has one to
avoid. -/
def lastIdle (avoid : List ℕ) : List UInt64 → List ℕ → ℕ
  | [], values => values.headD 0
  | nonce :: nonces, values =>
    strictly (fun v ↦
      if v ≤ target ∧ v ∉ values ∧ v ∉ avoid then lastIdle avoid nonces (v :: values) else 0)
      (headerValue (values.headD 0) idleRoot (UInt64.ofNat values.length) nonce)

theorem hashValue_lt (h : Hash) : hashValue h < 256 ^ 32 := by
  have hlt := beValue_lt h.toList
  rwa [h.length_eq] at hlt

/-- The hash of a block, computed on numbers. -/
theorem hash_blockOn {prev root : ℕ} (hprev : prev < 256 ^ 32) (hroot : root < 256 ^ 32)
    (height nonce : UInt64) (txs : List Transaction) :
    (blockOn prev root height nonce txs).hash = hash (headerValue prev root height nonce) := by
  have hlength := length_preimage (blockOn prev root height nonce txs).header
  have hnumber : beValue (blockOn prev root height nonce txs).header.preimage =
      headerNumber prev root height nonce := by
    have hsplit : (blockOn prev root height nonce txs).header.preimage =
        leBytes 4 1 ++ beBytes 32 prev ++ beBytes 32 root ++ (leBytes 8 1790000000 ++
          leBytes 4 0x207fffff ++ leBytes 8 nonce.toNat ++ leBytes 8 height.toNat) := by
      simp only [List.append_assoc]
      rfl
    have hversion : beValue (leBytes 4 1) = 0x01000000 := by decide
    have htail : (leBytes 8 1790000000 ++ leBytes 4 0x207fffff ++ leBytes 8 nonce.toNat ++
        leBytes 8 height.toNat).length = 28 := by
      simp only [List.length_append, length_leBytes]
    rw [hsplit, beValue_append, beValue_append, beValue_append, beValue_beBytes, beValue_beBytes,
      Nat.mod_eq_of_lt hprev, Nat.mod_eq_of_lt hroot, length_beBytes, length_beBytes, hversion,
      htail, headerNumber]
  have hdouble := toList_doubleSha256 (blockOn prev root height nonce txs).header.preimage
  rw [hlength, hnumber, ← headerValue] at hdouble
  exact Bytes32.ext hdouble

theorem headerValue_lt (prev root : ℕ) (height nonce : UInt64) :
    headerValue prev root height nonce < 256 ^ 32 :=
  packedSha256_lt _ _

/-- A block on top of a block of low height is valid if it meets the target and its transactions are
in order. -/
theorem validOn_blockOn {p : Block} {rest : List Block} {root : ℕ} {nonce : UInt64}
    {txs : List Transaction} (hbits : p.header.bits = regtestPowBits)
    (hheight : p.header.height.toNat + 1 < 720) (htxs : txs.length < 2 ^ 31)
    (hroot : buildMerkleRoot txs = hash root) (hlt : root < 256 ^ 32)
    (hvalue : headerValue (hashValue p.hash) root (p.header.height + 1) nonce ≤ target)
    (htransactions : ∀ n, DB.utxos n.store = Ledger.replay (p :: rest) →
      (validateBlockTransactions (blockOn (hashValue p.hash) root (p.header.height + 1) nonce txs)
        Store.get none).run exec n = (.ok (), n)) :
    ValidOn manager 1790000000
      (blockOn (hashValue p.hash) root (p.header.height + 1) nonce txs) p rest := by
  have hnext := toNat_succ p.header.height (by omega)
  have htarget : compactToBig regtestPowBits = (target : ℤ) := by decide
  have hhash := hash_blockOn (hashValue_lt p.hash) hlt (p.header.height + 1) nonce txs
  refine ⟨?_, validateBlockHeader_ok_iff.mpr ⟨?_, checkProofOfWork_ok_iff.mpr ⟨?_, ?_, ?_⟩, ?_, ?_⟩,
    ?_, htransactions⟩
  · change 0 < p.header.height + 1
    rw [UInt64.lt_iff_toNat_lt, hnext]
    exact Nat.succ_pos _
  · change hash root = buildMerkleRoot (Slice.ofList txs).toList
    rw [Slice.toList_ofList htxs, hroot]
  · change 0 < compactToBig regtestPowBits
    decide
  · change compactToBig regtestPowBits ≤ compactToBig regtestPowBits
    exact le_rfl
  · change (hashValue (Block.hash _) : ℤ) ≤ compactToBig regtestPowBits
    rw [hhash, hashValue_hash (headerValue_lt _ _ _ _), htarget]
    exact_mod_cast hvalue
  · change (1790000000 : Int64).toInt ≤ 1790000000 + 2 * 60 * 60
    decide
  · rintro _ ⟨⟩
    exact ⟨rfl, hash_hashValue _⟩
  · intro n
    have hmod : (p.header.height + 1) % difficultyWindow ≠ 0 := by
      intro hzero
      have hnat := congrArg UInt64.toNat hzero
      rw [UInt64.toNat_mod, hnext] at hnat
      change (p.header.height.toNat + 1) % 720 = 0 at hnat
      omega
    rw [expectedBits, if_pos (.inl hmod), hbits]
    rfl

theorem hash_emptyCoinbase : emptyCoinbase.hash = hash idleRoot :=
  doubleSha256_eq (by decide +kernel)

theorem buildMerkleRoot_idle : buildMerkleRoot [emptyCoinbase] = hash idleRoot := hash_emptyCoinbase

theorem apply_idleBlock (l : Ledger) (prev : ℕ) (height nonce : UInt64) :
    l.apply (idleBlock prev height nonce) = l := rfl

theorem removeMinedBlock_idleBlock (pool : Mempool) (prev : ℕ) (height nonce : UInt64) :
    pool.removeMinedBlock (idleBlock prev height nonce) = pool := rfl

/-- An idle block conflicts with no pool. -/
theorem noConflictOnTip_idleBlock (n : Node) (now : ℤ) (prev : ℕ) (height nonce : UInt64) :
    NoConflictOnTip manager n now (idleBlock prev height nonce) := by
  intro _ _ pool _ hash e _ outpoint _ hspent
  cases hspent

theorem inLimits_idleBlock (prev : ℕ) (height nonce : UInt64) :
    (idleBlock prev height nonce).InLimits := by
  have hfirst : (idleBlock 0 0 0).InLimits := by decide +kernel
  exact hfirst

/-- A state of a run with the ledger of genesis, from which idle blocks lead on. -/
structure Idle (p : Block) (rest : List Block) (n : Node) : Prop where
  run : Run manager PositiveHeight genesis (p :: rest) n
  inLimits : p.InLimits
  bits : p.header.bits = regtestPowBits
  ledger : Ledger.replay (p :: rest) = Ledger.replay [genesis]

theorem Idle.height {p : Block} {rest : List Block} {n : Node} (h : Idle p rest n) :
    p.header.height.toNat = rest.length :=
  ((h.run.holds fun _ _ _ h ↦ h).1.branch h.run.genesis.height).height_eq (List.suffix_refl _)

theorem hashValue_idleBlock {prev : ℕ} (hprev : prev < 256 ^ 32) (height nonce : UInt64) :
    hashValue (idleBlock prev height nonce).hash = headerValue prev idleRoot height nonce := by
  have hroot : idleRoot < 256 ^ 32 := by decide
  rw [idleBlock, hash_blockOn hprev hroot]
  exact hashValue_hash (headerValue_lt _ _ _ _)

theorem validOn_idleBlock {p : Block} {rest : List Block} {nonce : UInt64}
    (hbits : p.header.bits = regtestPowBits) (hheight : p.header.height.toNat + 1 < 720)
    (hvalue : headerValue (hashValue p.hash) idleRoot (p.header.height + 1) nonce ≤ target) :
    ValidOn manager 1790000000
      (idleBlock (hashValue p.hash) (p.header.height + 1) nonce) p rest := by
  have hroot : idleRoot < 256 ^ 32 := by decide
  have hlength : [emptyCoinbase].length < 2 ^ 31 := by decide
  refine validOn_blockOn hbits hheight hlength buildMerkleRoot_idle hroot hvalue fun n _ ↦ ?_
  exact run_validateBlockTransactions_of_coinbase rfl rfl (Nat.zero_le _)

/-- One more idle block. -/
theorem Idle.extend {p : Block} {rest : List Block} {n : Node} (h : Idle p rest n) {nonce : UInt64}
    (hlength : rest.length + 1 < 720)
    (hvalue : headerValue (hashValue p.hash) idleRoot (p.header.height + 1) nonce ≤ target)
    (hnew : headerValue (hashValue p.hash) idleRoot (p.header.height + 1) nonce ∉
      (p :: rest).map fun b ↦ hashValue b.hash) :
    ∃ n', Idle (idleBlock (hashValue p.hash) (p.header.height + 1) nonce) (p :: rest) n' ∧
      n'.mempool = n.mempool ∧ PoolStep manager (NoConflictOnTip manager) n n' := by
  have hvalid : ValidOn manager 1790000000
      (idleBlock (hashValue p.hash) (p.header.height + 1) nonce) p rest :=
    validOn_idleBlock h.bits (by rw [h.height]; exact hlength) hvalue
  have hunknown : ∀ x ∈ p :: rest,
      x.hash ≠ (idleBlock (hashValue p.hash) (p.header.height + 1) nonce).hash := by
    intro x hx heq
    rw [← hashValue_idleBlock (hashValue_lt p.hash), ← heq] at hnew
    exact hnew (List.mem_map.mpr ⟨x, hx, rfl⟩)
  obtain ⟨n', hcall, -, hmempool, hrun⟩ := h.run.extend (fun _ _ _ h ↦ h) hvalid.height hvalid
    h.inLimits hunknown 1
  refine ⟨n', ⟨hrun, inLimits_idleBlock _ _ _, rfl, ?_⟩, ?_,
    .deliver hvalid.height (noConflictOnTip_idleBlock _ _ _ _ _) hcall nofun⟩
  · rw [replay_cons, apply_idleBlock, h.ledger]
  · rw [hmempool]
    simp only [removeMinedBlock_idleBlock, Option.map_id']

/-- The nonces of ninety-nine idle blocks on top of genesis. -/
def idleNonces : List UInt64 :=
  [1, 1, 0, 1, 0, 0, 1, 1, 0, 1, 1, 0, 3, 2, 2, 2, 4, 2, 1, 0, 1, 0, 0, 1, 0, 2, 1, 1, 0, 0,
   2, 0, 0, 1, 2, 0, 0, 0, 5, 0, 2, 2, 0, 1, 1, 0, 0, 0, 0, 0, 0, 0, 0, 0, 0, 1, 1, 1, 1, 1,
   2, 2, 1, 1, 0, 0, 1, 1, 1, 2, 1, 0, 1, 1, 4, 0, 0, 2, 0, 2, 0, 3, 0, 2, 1, 0, 3, 2, 1, 0,
   3, 0, 0, 0, 5, 0, 0, 1, 2]

/-- The hash of the last of them. -/
def idleTip : ℕ := 0x721c1d47950e9f8e34d97ad4c0a51e81fbac070fd6a12de851eb4f8117366e34

theorem lastIdle_cons (avoid : List ℕ) (nonce : UInt64) (nonces : List UInt64) (values : List ℕ) :
    lastIdle avoid (nonce :: nonces) values =
      if headerValue (values.headD 0) idleRoot (UInt64.ofNat values.length) nonce ≤ target ∧
          headerValue (values.headD 0) idleRoot (UInt64.ofNat values.length) nonce ∉ values ∧
          headerValue (values.headD 0) idleRoot (UInt64.ofNat values.length) nonce ∉ avoid then
        lastIdle avoid nonces
          (headerValue (values.headD 0) idleRoot (UInt64.ofNat values.length) nonce :: values)
      else 0 :=
  strictly_apply _ _

/-- Idle blocks, given by their nonces, lead on from such a state. -/
theorem Idle.mine {p : Block} {rest : List Block} {n : Node} {avoid : List ℕ} {nonces : List UInt64}
    {last : ℕ} (h : Idle p rest n) (hlength : rest.length + nonces.length < 719)
    (havoid : ∀ x ∈ p :: rest, hashValue x.hash ∉ avoid)
    (hlast : lastIdle avoid nonces ((p :: rest).map fun b ↦ hashValue b.hash) = last)
    (hne : last ≠ 0) :
    ∃ p' rest' n', Idle p' rest' n' ∧ (∀ x ∈ p' :: rest', hashValue x.hash ∉ avoid) ∧
      hashValue p'.hash = last ∧ rest'.length = rest.length + nonces.length ∧
      n'.mempool = n.mempool ∧
      Relation.ReflTransGen (PoolStep manager (NoConflictOnTip manager)) n n' := by
  induction nonces generalizing p rest n with
  | nil =>
    rw [lastIdle, List.map_cons, List.headD_cons] at hlast
    exact ⟨p, rest, n, h, havoid, hlast, rfl, rfl, .refl⟩
  | cons nonce nonces ih =>
    have hnext : UInt64.ofNat ((p :: rest).map fun b ↦ hashValue b.hash).length =
        p.header.height + 1 := by
      rw [List.length_map, List.length_cons, UInt64.ofNat_add, ← h.height, UInt64.ofNat_toNat]
      rfl
    rw [List.length_cons] at hlength
    rw [lastIdle_cons, hnext, List.map_cons, List.headD_cons] at hlast
    split_ifs at hlast with hmines
    · obtain ⟨hvalue, hnew, hother⟩ := hmines
      obtain ⟨n₁, hidle, hpool, hstep⟩ := h.extend (by omega) hvalue hnew
      rw [← hashValue_idleBlock (hashValue_lt p.hash)] at hlast hother
      obtain ⟨p', rest', n', hidle', havoid', hlast', hlength', hmempool', hsteps⟩ :=
        ih hidle (by rw [List.length_cons]; omega) (List.forall_mem_cons.mpr ⟨hother, havoid⟩) hlast
      refine ⟨p', rest', n', hidle', havoid', hlast', ?_, hmempool'.trans hpool, .head hstep hsteps⟩
      rw [hlength', List.length_cons, List.length_cons]
      omega
    · exact absurd hlast.symm hne

/-- A block that spends the output of genesis, on top of the idle blocks. -/
def spendBlock (amount : UInt64) (root : ℕ) (nonce : UInt64) : Block :=
  blockOn idleTip root 100 nonce [emptyCoinbase, spendGenesis amount]

def blockS : Block :=
  spendBlock 1 0x8b1cc82e4ce60389807d1118282eeb619943d4eb56cbe4d202cf04b40aee2b7a 4

def blockT : Block :=
  spendBlock 2 0xea22b70029fdb860df2e54abc050c0fd2ecd5af9afc67f91efd4d48c508db03d 0

def blockSValue : ℕ := 0x0319bf0b125995b14f4900e64700c1fbcc4213572514f59bcdcbaff891d08212

def blockTValue : ℕ := 0x0f898d40b119e0f776bc99ce2f36335c643f71572faa15e08b45557e73b50eb3

/-- The hash of the block that `BuildTemplate` makes there with the same transaction as block S. -/
def minedValue : ℕ := 0x0c668ac701b0d1c3151fef595253df73272fa126793ff00cd8d2650fcdd53b1a

/-- A state after the idle blocks. -/
structure Matured (p : Block) (rest : List Block) (n : Node) : Prop extends Idle p rest n where
  height_eq : p.header.height = 99
  tip : hashValue p.hash = idleTip
  avoids : ∀ x ∈ p :: rest, hashValue x.hash ∉ [blockSValue, blockTValue, minedValue]

theorem lastIdle_idleNonces : lastIdle [blockSValue, blockTValue, minedValue] idleNonces
    [0x502a0f3951b534514cb7ee43f068aeb40287d79c38516f993d40821c12ed0287] = idleTip := by
  decide +kernel

/-- The idle blocks lead to such a state. -/
theorem exists_matured (mempool : Option Mempool) :
    ∃ p rest n, Matured p rest n ∧ n.mempool = mempool ∧
      Relation.ReflTransGen (PoolStep manager (NoConflictOnTip manager))
        ⟨DB.extend ∅ genesis, mempool⟩ n := by
  have hidle : Idle genesis [] ⟨DB.extend ∅ genesis, mempool⟩ :=
    ⟨.start (startsWith mempool), genesis_inLimits, rfl, rfl⟩
  have hgenesis : hashValue genesis.hash =
      0x502a0f3951b534514cb7ee43f068aeb40287d79c38516f993d40821c12ed0287 := by
    rw [genesis_hash]
    exact hashValue_hash (by decide)
  have havoid : ∀ x ∈ [genesis], hashValue x.hash ∉ [blockSValue, blockTValue, minedValue] := by
    intro x hx
    rw [List.mem_singleton.mp hx, hgenesis]
    decide
  have hlast : lastIdle [blockSValue, blockTValue, minedValue] idleNonces
      ([genesis].map fun b ↦ hashValue b.hash) = idleTip := by
    rw [List.map_singleton, hgenesis, lastIdle_idleNonces]
  obtain ⟨p, rest, n, h, havoids, htip, hlength, hmempool, hsteps⟩ :=
    hidle.mine (by decide) havoid hlast (by decide)
  have hheight : p.header.height = 99 := by
    rw [← UInt64.toNat_inj, h.height, hlength]
    rfl
  exact ⟨p, rest, n, ⟨h, hheight, htip, havoids⟩, hmempool, hsteps⟩

theorem Matured.validOn_spendBlock {p : Block} {rest : List Block} {n : Node} (h : Matured p rest n)
    {amount nonce : UInt64} {root : ℕ} (hamount : amount ≠ 0) (hlow : amount < 1000)
    (hroot : buildMerkleRoot [emptyCoinbase, spendGenesis amount] = hash root)
    (hlt : root < 256 ^ 32) (hvalue : headerValue idleTip root 100 nonce ≤ target) :
    ValidOn manager 1790000000 (spendBlock amount root nonce) p rest := by
  have hnext : p.header.height + 1 = 100 := by
    rw [h.height_eq]
    rfl
  have hvalid : ValidOn manager 1790000000 (blockOn (hashValue p.hash) root (p.header.height + 1)
      nonce [emptyCoinbase, spendGenesis amount]) p rest := by
    have hlength : [emptyCoinbase, spendGenesis amount].length < 2 ^ 31 := by
      rw [List.length_cons, List.length_singleton]
      decide
    refine validOn_blockOn h.bits ?_ hlength hroot hlt ?_ ?_
    · rw [h.height_eq]
      decide
    · rw [h.tip, hnext]
      exact hvalue
    · intro n hledger
      have hspendable : Spendable (DB.utxos n.store).view none (p.header.height + 1)
          (spendGenesis amount) := by
        rw [hledger, h.ledger, hnext]
        exact spendable_spendGenesis hamount hlow fun himmature ↦ absurd himmature.2.2 (by decide)
      obtain ⟨fees, hfees⟩ := exists_toNat_eq (lt_of_le_of_lt (Nat.sub_le _ _) hspendable.fits)
      refine (validateBlockTransactionsAt_eq_ok_iff (readsView_get n)).mpr ⟨rfl, emptyCoinbase,
        [spendGenesis amount], rfl, rfl, ?_, List.nodup_singleton _, fees, ?_, Nat.zero_le _⟩
      · intro t ht
        rw [List.mem_singleton.mp ht]
        exact hspendable
      · rw [hfees, List.map_singleton, List.sum_singleton]
        rfl
  rw [h.tip, hnext] at hvalid
  exact hvalid

theorem hash_spendGenesis_one : (spendGenesis 1).hash =
    hash 0xe00d6be90f6ac5e5b5cb0acdc0c5084bf5afede9b7e081e6b214a4faec1f1a7f :=
  doubleSha256_eq (by decide +kernel)

theorem hash_spendGenesis_two : (spendGenesis 2).hash =
    hash 0xe8f9c4aecc5de7d4e85846884edc324d21c2f516fc4dc359d464c0cbb16a4a48 :=
  doubleSha256_eq (by decide +kernel)

/-- The Merkle root of two transactions, from their hashes. -/
theorem buildMerkleRoot_pair {first second : Transaction} {v w root : ℕ}
    (hfirst : first.hash = hash v) (hsecond : second.hash = hash w)
    (hroot : packedSha256 32 (packedSha256 64 (beValue (beBytes 32 v ++ beBytes 32 w))) = root) :
    buildMerkleRoot [first, second] = hash root := by
  change doubleSha256 (first.hash.toList ++ second.hash.toList) = hash root
  rw [hfirst, hsecond]
  refine doubleSha256_eq ?_
  rw [List.length_append, (hash v).length_eq, (hash w).length_eq]
  exact hroot

theorem headerValue_blockS : headerValue idleTip
    0x8b1cc82e4ce60389807d1118282eeb619943d4eb56cbe4d202cf04b40aee2b7a 100 4 = blockSValue := by
  decide +kernel

theorem headerValue_blockT : headerValue idleTip
    0xea22b70029fdb860df2e54abc050c0fd2ecd5af9afc67f91efd4d48c508db03d 100 0 = blockTValue := by
  decide +kernel

theorem hashValue_blockS : hashValue blockS.hash = blockSValue := by
  rw [blockS, spendBlock, hash_blockOn (by decide) (by decide), headerValue_blockS]
  exact hashValue_hash (by decide)

theorem hashValue_blockT : hashValue blockT.hash = blockTValue := by
  rw [blockT, spendBlock, hash_blockOn (by decide) (by decide), headerValue_blockT]
  exact hashValue_hash (by decide)

section Matured

variable {p : Block} {rest : List Block} {n : Node}

theorem Matured.validOn_blockS (h : Matured p rest n) :
    ValidOn manager 1790000000 blockS p rest := by
  refine h.validOn_spendBlock (by decide) (by decide)
    (buildMerkleRoot_pair hash_emptyCoinbase hash_spendGenesis_one (by decide +kernel))
    (by decide) ?_
  rw [headerValue_blockS]
  decide

theorem Matured.validOn_blockT (h : Matured p rest n) :
    ValidOn manager 1790000000 blockT p rest := by
  refine h.validOn_spendBlock (by decide) (by decide)
    (buildMerkleRoot_pair hash_emptyCoinbase hash_spendGenesis_two (by decide +kernel))
    (by decide) ?_
  rw [headerValue_blockT]
  decide

/-- The idle blocks have other hashes than the blocks to come. -/
theorem Matured.hash_ne (h : Matured p rest n) {b : Block} {v : ℕ} (hvalue : hashValue b.hash = v)
    (hmem : v ∈ [blockSValue, blockTValue, minedValue]) : ∀ x ∈ p :: rest, x.hash ≠ b.hash := by
  intro x hx heq
  refine h.avoids x hx ?_
  rw [heq, hvalue]
  exact hmem

end Matured

theorem removeMinedBlock_spendBlock (pool : Mempool) (amount : UInt64) (root : ℕ) (nonce : UInt64) :
    pool.removeMinedBlock (spendBlock amount root nonce) = pool.remove (spendGenesis amount).hash :=
  rfl

theorem hash_spendGenesis_ne : (spendGenesis 1).hash ≠ (spendGenesis 2).hash := by
  rw [hash_spendGenesis_one, hash_spendGenesis_two]
  decide

/-- After such a block the output of genesis is spent. -/
theorem lookup_apply_spendBlock (l : Ledger) {amount : UInt64} (root : ℕ) (nonce : UInt64)
    (hne : (spendGenesis amount).hash ≠ genesisCoin.txHash) :
    (l.apply (spendBlock amount root nonce)).lookup genesisCoin.outpoint = none := by
  refine lookup_commit_of_deleted ?_ ?_ l
  · rw [Ledger.deleted_blockOps]
    exact List.mem_singleton_self _
  · rw [Ledger.written_blockOps]
    intro hmem
    have hcreated : Ledger.created (spendBlock amount root nonce) =
        [⟨(spendGenesis amount).hash, 0⟩] := rfl
    rw [hcreated, List.mem_singleton] at hmem
    exact hne (congrArg Outpoint.hash hmem).symm

end Regtest

/-! ### Conflicts -/

/-- In every state reached from a new node by calls whose blocks do not conflict with the pool,
every input of every transaction of the pool is unspent. After one more such block on top of the
tip, no transaction of the pool spends what the block spends. -/
theorem pool_unspent {m : Manager} {g : Block} {start n : Node} {maxBytes : Int64}
    (hstarts : Starts m g start) (hpool : start.mempool = some (Mempool.new maxBytes))
    (h : Relation.ReflTransGen (PoolStep m (NoConflictOnTip m)) start n) :
    (∀ pool, n.mempool = some pool → pool.UnspentIn (DB.utxos n.store)) ∧
      ∀ now fuel b n' pool', NoConflictOnTip m n now b → DB.tip n.store = .ok b.header.prevHash →
        (m.validateAndApplyBlock now fuel b).run exec n = (.ok (), n') → n'.mempool = some pool' →
        ∀ hash e, pool'.txs.lookup hash = some e →
          ∀ outpoint ∈ e.tx.spent, outpoint ∉ Ledger.spent b := by
  obtain ⟨hgenesis, hstore⟩ := hstarts.spec
  have hstate : PoolState m g n := by
    induction h with
    | refl =>
      refine ⟨⟨[g], .genesis, hstore ▸ Holds.genesis hgenesis.height⟩, fun pool hsome ↦ ?_⟩
      cases hpool.symm.trans hsome
      exact fun hash e he ↦ by cases he
    | tail _ hstep ih => exact ih.step hgenesis.height (fun _ _ _ h ↦ h) hstep
  refine ⟨hstate.unspent, ?_⟩
  intro now fuel b n' pool' hconflict htip hcall hpool' hash e he
  obtain ⟨hcheck, rfl⟩ := validateAndApplyBlock_ok_of_tip hcall htip
  obtain ⟨pool, hbefore, rfl⟩ := Option.map_eq_some_iff.mp hpool'
  exact (hconflict (checkBlock_ok hcheck).2 htip pool hbefore).notMem he

/-- A block does not conflict with a pool whose one transaction is in the block. -/
theorem Regtest.noConflictOnTip_blockS {n : Node} {now : ℤ} {pool : Mempool} {e : Entry}
    (hpool : n.mempool = some pool)
    (htxs : pool.txs = (∅ : Finmap fun _ : Hash ↦ Entry).insert (spendGenesis 1).hash e) :
    NoConflictOnTip manager n now blockS := by
  intro _ _ pool' hpool' hash e' he' outpoint _ _
  cases hpool.symm.trans hpool'
  have hhash : hash = (spendGenesis 1).hash := by
    by_contra hne
    rw [htxs, Finmap.lookup_insert_of_ne _ hne] at he'
    cases he'
  exact ⟨spendGenesis 1, List.mem_cons_of_mem _ List.mem_cons_self, rfl, hhash.symm⟩

/-- A transaction is added to the pool, ninety-nine blocks are accepted beside it, and block S,
which has this transaction, after them. -/
theorem pool_unspent_regtest :
    ∃ n n' pool pool', Relation.ReflTransGen
        (PoolStep Regtest.manager (NoConflictOnTip Regtest.manager))
        ⟨DB.extend ∅ Regtest.genesis, some (Mempool.new 1000)⟩ n ∧
      n.mempool = some pool ∧ pool.txs.lookup (Regtest.spendGenesis 1).hash ≠ none ∧
      pool.UnspentIn (DB.utxos n.store) ∧
      (Regtest.manager.validateAndApplyBlock 1790000000 1 Regtest.blockS).run exec n =
        (.ok (), n') ∧
      DB.tip n'.store = .ok Regtest.blockS.hash ∧ n'.mempool = some pool' ∧
      pool'.UnspentIn (DB.utxos n'.store) ∧
      ∀ hash e, pool'.txs.lookup hash = some e →
        ∀ outpoint ∈ e.tx.spent, outpoint ∉ Ledger.spent Regtest.blockS := by
  obtain ⟨pool, e, hadd, htxs, -⟩ := Regtest.add_spendGenesis
    (n := ⟨DB.extend ∅ Regtest.genesis, some (Mempool.new 1000)⟩) Regtest.utxos_genesis
  obtain ⟨p, rest, n, hmatured, hpool, hsteps⟩ := Regtest.exists_matured (some pool)
  obtain ⟨hchain, hholds⟩ := hmatured.run.holds fun _ _ _ h ↦ h
  have hvalid := hmatured.validOn_blockS
  obtain ⟨n', hcall, hstore, hmempool⟩ := hvalid.deliver hchain hmatured.run.genesis.height
    hholds.toStores hmatured.inLimits (hmatured.hash_ne Regtest.hashValue_blockS (by simp)) 1
  have hconflict : NoConflictOnTip Regtest.manager n 1790000000 Regtest.blockS :=
    Regtest.noConflictOnTip_blockS hpool htxs
  have hbefore : Relation.ReflTransGen (PoolStep Regtest.manager (NoConflictOnTip Regtest.manager))
      ⟨DB.extend ∅ Regtest.genesis, some (Mempool.new 1000)⟩ n := hsteps.head (.add rfl hadd)
  have hafter := hbefore.tail (.deliver hvalid.height hconflict hcall nofun)
  have htip : DB.tip n.store = .ok Regtest.blockS.header.prevHash := by
    rw [hholds.tip rfl, hvalid.link]
  have hpool' : n'.mempool = some (pool.removeMinedBlock Regtest.blockS) := by
    rw [hmempool, hpool]
    rfl
  have hstarts := Regtest.startsWith (some (Mempool.new 1000))
  obtain ⟨hunspent, hmined⟩ := pool_unspent hstarts rfl hbefore
  refine ⟨n, n', pool, _, hbefore, hpool, ?_, hunspent pool hpool, hcall, ?_, hpool',
    (pool_unspent hstarts rfl hafter).1 _ hpool', hmined _ _ _ _ _ hconflict htip hcall hpool'⟩
  · rw [htxs, Finmap.lookup_insert]
    exact Option.some_ne_none e
  · rw [hstore, DB.tip_extend]

/-- A pool can hold a transaction whose input is spent. A block with another transaction that spends
the same output takes only that one out. -/
theorem pool_spent :
    ∃ start n pool hash e outpoint, Starts Regtest.manager Regtest.genesis start ∧
      start.mempool = some (Mempool.new 1000) ∧
      Relation.ReflTransGen (PoolStep Regtest.manager fun _ _ _ ↦ True) start n ∧
      n.mempool = some pool ∧ pool.txs.lookup hash = some e ∧ outpoint ∈ e.tx.spent ∧
      (DB.utxos n.store).lookup outpoint = none := by
  obtain ⟨p, rest, n, hmatured, hpool, hsteps⟩ :=
    Regtest.exists_matured (some (Mempool.new 1000))
  obtain ⟨hchain, hholds⟩ := hmatured.run.holds fun _ _ _ h ↦ h
  have hledger : DB.utxos n.store = Ledger.replay [Regtest.genesis] :=
    hholds.ledger.trans hmatured.ledger
  obtain ⟨pool, e, hadd, htxs, he⟩ := Regtest.add_spendGenesis hledger
  -- the store is the same with the new pool beside it
  have hstores : Stores (p :: rest) (Node.mk n.store (some pool)).store := hholds.toStores
  obtain ⟨n', hcall, hstore, hmempool⟩ := hmatured.validOn_blockT.deliver hchain
    hmatured.run.genesis.height hstores hmatured.inLimits
    (hmatured.hash_ne Regtest.hashValue_blockT (by simp)) 1
  have hidle : Relation.ReflTransGen (PoolStep Regtest.manager fun _ _ _ ↦ True) _ n :=
    hsteps.lift id fun _ _ hstep ↦ hstep.mono fun _ _ _ _ ↦ trivial
  have hadded : PoolStep Regtest.manager (fun _ _ _ ↦ True) n ⟨n.store, some pool⟩ :=
    .add hpool hadd
  have hdelivered : PoolStep Regtest.manager (fun _ _ _ ↦ True) ⟨n.store, some pool⟩ n' :=
    .deliver hmatured.validOn_blockT.height trivial hcall nofun
  refine ⟨_, n', pool.removeMinedBlock Regtest.blockT, (Regtest.spendGenesis 1).hash, e,
    Regtest.genesisCoin.outpoint, Regtest.startsWith _, rfl, (hidle.tail hadded).tail hdelivered,
    hmempool, ?_, ?_, ?_⟩
  · rw [Regtest.blockT, Regtest.removeMinedBlock_spendBlock, Mempool.lookup_txs_remove,
      if_neg Regtest.hash_spendGenesis_ne, htxs, Finmap.lookup_insert]
  · rw [he]
    exact List.mem_singleton_self _
  · rw [hstore, DB.utxos_extend, hledger]
    refine Regtest.lookup_apply_spendBlock _ _ _ ?_
    rw [Regtest.hash_spendGenesis_two]
    decide

end NevelCore
