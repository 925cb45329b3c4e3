import NevelCore.Chain.Runs
import NevelCore.Storage.Calls

/-!
# The index of transactions

`ApplyBlock` writes every transaction of a block under its hash, and nothing deletes it, so that
`GetTx` finds the transactions of the main chain and no others, in every state that is reached by
blocks of positive height (`getTx_iff`). It returns those that the reader of transactions takes,
which need not be so for those of the tip: a block that is too large for the reader is written, too.

Two transactions with one hash share one place in the index, and the later one takes it.
-/

set_option autoImplicit false
set_option relaxedAutoImplicit false

namespace NevelCore

open Foundations

/-- The transactions of a chain. -/
def chainTxs (chain : List Block) : List Transaction := chain.flatMap (·.transactions.toList)

/-- The index has the transactions of a chain, under their hashes. -/
structure TxIndexed (chain : List Block) (d : Store) : Prop where
  sound : ∀ {hash data}, d.lookup (Key.tx hash) = some data →
    ∃ t ∈ chainTxs chain, t.hash = hash ∧ serializeTransaction t = data
  complete : ∀ t ∈ chainTxs chain, d.lookup (Key.tx t.hash) ≠ none

namespace DB

/-- The writes of `ApplyBlock` to the index of transactions. -/
def txOps (b : Block) : List StoreOp :=
  b.transactions.toList.map fun t ↦ .set (.tx t.hash) (serializeTransaction t)

theorem deleted_txOps (b : Block) : deleted (txOps b) = [] := by
  rw [txOps]
  induction b.transactions.toList with
  | nil => rfl
  | cons t txs ih => exact ih

/-- What `ApplyBlock` does to the index of transactions. -/
theorem lookup_tx_applyBlock (d : Store) (b : Block) (hash : Hash) :
    (applyBlock d b).lookup (Key.tx hash) = (commit (txOps b) d).lookup (Key.tx hash) := by
  have hops : Key.tx hash ∉
      (b.transactions.toList.mapIdx (transactionOps b.header.height)).flatten.map BatchOp.key := by
    rw [List.mem_map]
    rintro ⟨op, hop, hkey⟩
    obtain ⟨ops, hops, hop⟩ := List.mem_flatten.mp hop
    obtain ⟨i, hi, rfl⟩ := List.mem_mapIdx.mp hops
    obtain ⟨outpoint, h | h⟩ := key_of_mem_transactionOps hop <;> rw [h] at hkey <;> cases hkey
  have hrest : (applyBlock d b).lookup (Key.tx hash) =
      (commit (txOps b) (commit [.set (.undo b.hash) (undoLog d b),
        .set (.blockHash b.hash) (serializeBlock b),
        .set (.blockHeight b.header.height) b.hash] d)).lookup (Key.tx hash) := by
    rw [applyBlock, applyOps, applyOpsWith, commit_append, commit_append, commit_append,
      lookup_commit_of_notMem (by simp), lookup_commit_of_notMem hops]
    rfl
  rw [hrest]
  by_cases hkey : Key.tx hash ∈ (txOps b).map BatchOp.key
  · exact lookup_commit_congr hkey _ _
  · rw [lookup_commit_of_notMem hkey, lookup_commit_of_notMem hkey,
      lookup_commit_of_notMem (by simp)]

theorem lookup_tx_extend (d : Store) (b : Block) (hash : Hash) :
    (extend d b).lookup (Key.tx hash) = (commit (txOps b) d).lookup (Key.tx hash) := by
  rw [extend, lookup_putTotalWork (by simp), lookup_tx_applyBlock]

end DB

namespace TxIndexed

variable {chain : List Block} {d : Store}

theorem empty : TxIndexed [] ∅ where
  sound h := by
    rw [Finmap.lookup_empty] at h
    cases h
  complete _ ht := absurd ht List.not_mem_nil

theorem extend (h : TxIndexed chain d) (b : Block) : TxIndexed (b :: chain) (DB.extend d b) where
  sound {hash data} hdata := by
    rw [DB.lookup_tx_extend] at hdata
    rcases set_mem_of_lookup_commit hdata with hset | hbefore
    · obtain ⟨t, ht, heq⟩ := List.mem_map.mp hset
      cases heq
      exact ⟨t, List.mem_append_left _ ht, rfl, rfl⟩
    · obtain ⟨t, ht, hhash, hbytes⟩ := h.sound hbefore
      exact ⟨t, List.mem_append_right _ ht, hhash, hbytes⟩
  complete t ht := by
    rw [DB.lookup_tx_extend]
    have hdeleted : Key.tx t.hash ∉ deleted (DB.txOps b) := by
      rw [DB.deleted_txOps]
      exact List.not_mem_nil
    rcases List.mem_append.mp ht with ht | ht
    · exact lookup_commit_ne_none_of_set (List.mem_map.mpr ⟨t, ht, rfl⟩) hdeleted _
    · exact lookup_commit_ne_none hdeleted (h.complete t ht)

theorem putTotalWork (h : TxIndexed chain d) (hash : Hash) (work : ℕ) :
    TxIndexed chain (DB.putTotalWork d hash work) where
  sound hdata := h.sound ((DB.lookup_putTotalWork (by simp) d work).symm.trans hdata)
  complete t ht := by
    rw [DB.lookup_putTotalWork (by simp)]
    exact h.complete t ht

theorem outcome {m : Manager} {b : Block} {chain' : List Block} {d' : Store}
    (h : TxIndexed chain d) (houtcome : Outcome m chain d b chain' d') : TxIndexed chain' d' := by
  cases houtcome with
  | unchanged => exact h
  | recorded => exact h.putTotalWork _ _
  | extended => exact h.extend b

end TxIndexed

section Run

variable {m : Manager} {allowed : Node → ℤ → Block → Prop} {g : Block} {tips : List Block}
  {n : Node}

/-- In every state that is reached by blocks of positive height, the index has the transactions of
the chain. -/
theorem Run.txIndexed (h : Run m allowed g tips n)
    (hallowed : ∀ n now b, allowed n now b → 0 < b.header.height) : TxIndexed tips n.store := by
  induction h with
  | start starts =>
    rw [starts.spec.2]
    exact TxIndexed.empty.extend g
  | call run allows returns fueled ih =>
    obtain ⟨hchain, hholds⟩ := run.holds hallowed
    have hg := run.genesis.height
    obtain ⟨chain', houtcome⟩ := call_outcome returns (hallowed _ _ _ allows) hchain hg hholds
    obtain ⟨-, hholds'⟩ := houtcome.holds hchain hg hholds
    rw [houtcome.tipsAfter hholds hholds']
    exact ih.outcome houtcome

end Run

/-- The reader takes back a transaction that is in its limits, and no other. -/
theorem deserializeTransaction_serializeTransaction {t t' : Transaction} :
    deserializeTransaction (serializeTransaction t) = .ok t' ↔ t = t' ∧ t.InLimits := by
  by_cases hlimits : t.InLimits
  · have hread := readTransaction_inverts.1 t [] hlimits
    rw [List.append_nil] at hread
    rw [deserializeTransaction, hread]
    exact ⟨fun h ↦ ⟨Except.ok.inj h, hlimits⟩, fun h ↦ congrArg Except.ok h.1⟩
  · obtain ⟨e, hread⟩ := readTransaction_inverts.2 t [] hlimits
    rw [List.append_nil] at hread
    rw [deserializeTransaction, hread]
    exact ⟨nofun, fun h ↦ absurd h.2 hlimits⟩

theorem DB.getTx_of_lookup {d : Store} {hash : Hash} {data : List UInt8}
    (h : d.lookup (Key.tx hash) = some data) : DB.getTx d hash = deserializeTransaction data := by
  rw [DB.getTx, h]
  rfl

/-- In every state that is reached by blocks of positive height, `GetTx` returns for a hash the
transaction of the main chain that has it and is in the limits of the reader, if there is one, and
fails otherwise. The transactions of the chain must have different hashes. -/
theorem getTx_iff {m : Manager} {g : Block} {tips : List Block} {n : Node}
    (h : Run m PositiveHeight g tips n)
    (hdistinct : Set.InjOn Transaction.hash {t | t ∈ chainTxs tips}) (hash : Hash)
    (t : Transaction) :
    DB.getTx n.store hash = .ok t ↔ t ∈ chainTxs tips ∧ t.hash = hash ∧ t.InLimits := by
  have hindexed := h.txIndexed fun _ _ _ hheight ↦ hheight
  constructor
  · intro hget
    cases hdata : n.store.lookup (Key.tx hash) with
    | none =>
      rw [DB.getTx, hdata] at hget
      cases hget
    | some data =>
      rw [DB.getTx_of_lookup hdata] at hget
      obtain ⟨t', ht', hhash, rfl⟩ := hindexed.sound hdata
      obtain ⟨rfl, hlimits⟩ := deserializeTransaction_serializeTransaction.mp hget
      exact ⟨ht', hhash, hlimits⟩
  · rintro ⟨ht, rfl, hlimits⟩
    obtain ⟨data, hdata⟩ := Option.ne_none_iff_exists'.mp (hindexed.complete t ht)
    obtain ⟨t', ht', hhash, rfl⟩ := hindexed.sound hdata
    have heq : t' = t := hdistinct ht' ht hhash
    rw [DB.getTx_of_lookup hdata, heq]
    exact deserializeTransaction_serializeTransaction.mpr ⟨rfl, hlimits⟩

/-- The coinbase of genesis is found after another block. -/
theorem getTx_regtest :
    DB.getTx Regtest.afterA.store Regtest.genesisCoinbase.hash = .ok Regtest.genesisCoinbase := by
  have hrun : Run Regtest.manager PositiveHeight Regtest.genesis
      [Regtest.blockA, Regtest.genesis] Regtest.afterA :=
    Regtest.runA Regtest.validOn_blockA.height
  have hnodup : ((chainTxs [Regtest.blockA, Regtest.genesis]).map Transaction.hash).Nodup := by
    change [Transaction.hash _, Regtest.genesisCoinbase.hash].Nodup
    rw [Regtest.hash_coinbaseA, Regtest.hash_genesisCoinbase]
    decide
  have hlimits : Regtest.genesisCoinbase.InLimits := by decide +kernel
  have hmem : Regtest.genesisCoinbase ∈ chainTxs [Regtest.blockA, Regtest.genesis] :=
    List.mem_cons_of_mem _ List.mem_cons_self
  exact (getTx_iff hrun (fun _ ht _ ht' ↦ List.inj_on_of_nodup_map hnodup ht ht')
    Regtest.genesisCoinbase.hash Regtest.genesisCoinbase).mpr ⟨hmem, rfl, hlimits⟩

end NevelCore
