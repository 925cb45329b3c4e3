import NevelCore.Chain.ForkChoice
import NevelCore.Chain.Supply
import NevelCore.Chain.TxIndex
import NevelCore.Chain.UnspentOutputs

/-!
# No coins are lost

A block that passes the transaction rules changes the supply by its coinbase and its fees exactly if
none of its outputs takes the place of another that is unspent. That is a condition on the outpoints
it creates (`Ledger.CreatesFresh`): they are distinct, and each is absent before the block or spent
by a transaction of the block that is not behind its own.

Only a coinbase can break it. Another transaction that is made twice would spend the same outputs
twice, and these cannot be created again as long as no hash is used again
(`Extends.nodup_txHashes`). So in a run in which every coinbase is new, every new tip conserves the
coins (`newTip_conserves`).

The code does not check that a coinbase is new. `BuildTemplate` gives blocks that are made in the
same second for the same address the same coinbase, and then the second one replaces the output of
the first.
-/

set_option autoImplicit false
set_option relaxedAutoImplicit false

namespace NevelCore

open Foundations

namespace Ledger

/-- The fee of a transaction: what it spends without what it creates. -/
def fee (l : Ledger) (t : Transaction) : ℤ := ((spends t).map l.amountAt).sum - outputTotal t

/-- The fees of the transactions of a block behind the coinbase. -/
def fees (l : Ledger) (b : Block) : ℤ := (b.transactions.toList.tail.map l.fee).sum

/-- The outputs of the coinbase of a block. -/
def coinbaseTotal (b : Block) : ℕ := b.transactions.toList.head?.elim 0 outputTotal

/-- A block creates distinct outpoints, each absent before the block or spent by a transaction of
the block that is not behind its own. -/
def CreatesFresh (l : Ledger) (b : Block) : Prop :=
  (created b).Nodup ∧ ∀ front t back, b.transactions.toList = front ++ t :: back →
    ∀ outpoint ∈ DB.outpoints t,
      l.lookup outpoint = none ∨ outpoint ∈ (front ++ [t]).flatMap spends

theorem createsFresh_of_absent {l : Ledger} {b : Block} (hnodup : (created b).Nodup)
    (habsent : ∀ outpoint ∈ created b, l.lookup outpoint = none) : l.CreatesFresh b := by
  refine ⟨hnodup, fun front t back htxs outpoint hmem ↦ .inl (habsent outpoint ?_)⟩
  rw [created, htxs]
  exact List.mem_flatMap.mpr ⟨t, by simp, hmem⟩

/-! ### The writes of a block -/

/-- Before a write of a transaction that sets a key, all its deletions are done. -/
theorem deleted_of_split {dels : List Outpoint} {us : List UTXO} {before after : List LedgerOp}
    {k : Outpoint} {value : RecordAt k}
    (h : dels.map .delete ++ us.map setRecord = before ++ .set k value :: after) :
    deleted before = dels ∧ k ∈ us.map UTXO.outpoint := by
  induction dels generalizing before with
  | nil =>
    obtain ⟨us₁, us₂, rfl, rfl, h₂⟩ := List.map_eq_append_iff.mp h
    obtain ⟨u, us₃, rfl, hu, -⟩ := List.map_eq_cons_iff.mp h₂
    have hkey : u.outpoint = k := congrArg BatchOp.key hu
    exact ⟨deleted_setRecord us₁, by simp [hkey]⟩
  | cons outpoint dels ih =>
    obtain _ | ⟨op, before⟩ := before
    · cases h
    · obtain ⟨rfl, hrest⟩ := List.cons.inj h
      obtain ⟨hdeleted, hk⟩ := ih hrest
      exact ⟨congrArg (outpoint :: ·) hdeleted, hk⟩

/-- A write of a block that sets a key is of one of its transactions, and before it the deletions of
the transactions up to that one are done. -/
theorem exists_of_split {height : UInt64} {f : ℕ → Transaction → List LedgerOp}
    (hf : ∀ i t, ∃ ti, f i t = transactionOps height ti t) {txs : List Transaction}
    {before after : List LedgerOp} {k : Outpoint} {value : RecordAt k}
    (h : (txs.mapIdx f).flatten = before ++ .set k value :: after) :
    ∃ front t back, txs = front ++ t :: back ∧ k ∈ DB.outpoints t ∧
      deleted before = (front ++ [t]).flatMap spends := by
  induction txs generalizing f before with
  | nil => simp at h
  | cons t txs ih =>
    obtain ⟨ti, hti⟩ := hf 0 t
    rw [List.mapIdx_cons, List.flatten_cons, hti] at h
    have hrest (before' : List LedgerOp)
        (h' : (txs.mapIdx fun i ↦ f (i + 1)).flatten = before' ++ .set k value :: after)
        (hbefore : before = transactionOps height ti t ++ before') :
        ∃ front t' back, t :: txs = front ++ t' :: back ∧ k ∈ DB.outpoints t' ∧
          deleted before = (front ++ [t']).flatMap spends := by
      obtain ⟨front, t', back, rfl, hk, hdeleted⟩ := ih (fun i t ↦ hf (i + 1) t) h'
      refine ⟨t :: front, t', back, rfl, hk, ?_⟩
      rw [hbefore, deleted_append, deleted_transactionOps, hdeleted]
      rfl
    rcases List.append_eq_append_iff.mp h with ⟨before', hbefore, h'⟩ | ⟨middle, hops, h'⟩
    · exact hrest before' h' hbefore
    · obtain _ | ⟨op, middle⟩ := middle
      · exact hrest [] h'.symm (by rw [hops, List.append_nil, List.append_nil])
      · obtain ⟨rfl, -⟩ := List.cons.inj h'
        obtain ⟨hdeleted, hk⟩ := deleted_of_split hops
        rw [outpoint_records] at hk
        exact ⟨[], t, txs, rfl, hk, by rw [hdeleted]; simp⟩

/-- The outputs of a transaction of a block are set when the deletions of the transactions up to it
are done. -/
theorem split_of_mem {b : Block} {front back : List Transaction} {t : Transaction}
    (htxs : b.transactions.toList = front ++ t :: back) {k : Outpoint} (hk : k ∈ DB.outpoints t) :
    ∃ before value after, blockOps b = before ++ .set k value :: after ∧
      deleted before = (front ++ [t]).flatMap spends := by
  let height := b.header.height
  rw [← outpoint_records t height (0 + front.length == 0), List.mem_map] at hk
  obtain ⟨u, hu, rfl⟩ := hk
  obtain ⟨us, us', hrecords⟩ := List.append_of_mem hu
  have hfront : deleted (front.mapIdx (transactionOps height)).flatten = front.flatMap spends := by
    rw [deleted_flatten, map_mapIdx_eq _ _ _ fun i t ↦ deleted_transactionOps height i t]
    rfl
  have hdels : deleted ((spends t).map .delete ++ us.map setRecord) = spends t := by
    have h := deleted_transactionOps height (0 + front.length) t
    rwa [transactionOps, deleted_append, deleted_setRecord, ← deleted_setRecord us,
      ← deleted_append] at h
  refine ⟨(front.mapIdx (transactionOps height)).flatten ++
    ((spends t).map .delete ++ us.map setRecord), ⟨u, rfl⟩, us'.map setRecord ++
      (back.mapIdx fun i ↦ transactionOps height (i + 1 + front.length)).flatten, ?_, ?_⟩
  · rw [blockOps, htxs, List.mapIdx_append, List.mapIdx_cons, List.flatten_append,
      List.flatten_cons, transactionOps, hrecords, List.map_append, List.map_cons]
    simp only [List.append_assoc, List.cons_append]
    rfl
  · rw [deleted_append, hfront, hdels, List.flatMap_append]
    simp

/-- A block replaces nothing exactly if it creates fresh outpoints. -/
theorem fresh_blockOps_iff {l : Ledger} {b : Block} (h : TransactionsValid l b) :
    Fresh (blockOps b) l ↔ l.CreatesFresh b := by
  have hdeleted := deleted_blockOps b
  rw [fresh_iff (by rw [hdeleted]; exact h.nodup) (by rw [hdeleted]; exact h.there),
    written_blockOps]
  refine and_congr_right fun _ ↦ ⟨fun hsplit front t back htxs k hk ↦ ?_,
    fun hfresh before k value after hops ↦ ?_⟩
  · obtain ⟨before, value, after, hops, hbefore⟩ := split_of_mem htxs hk
    rw [← hbefore]
    exact hsplit before k value after hops
  · obtain ⟨front, t, back, htxs, hk, hbefore⟩ := exists_of_split (fun i t ↦ ⟨i, rfl⟩) hops
    rw [hbefore]
    exact hfresh front t back htxs k hk

theorem sum_fee (l : Ledger) (txs : List Transaction) :
    (txs.map l.fee).sum =
      ((txs.flatMap spends).map l.amountAt).sum - ((txs.map outputTotal).sum : ℕ) := by
  induction txs with
  | nil => rfl
  | cons t txs ih =>
    rw [List.map_cons, List.sum_cons, ih, fee, List.flatMap_cons, List.map_append, List.sum_append,
      List.map_cons, List.sum_cons]
    omega

/-- A block changes the supply by its coinbase and its fees, and replaces nothing, exactly if it
creates fresh outpoints. -/
theorem conserves_iff {l : Ledger} {b : Block} (h : TransactionsValid l b) :
    (((l.apply b).supply : ℤ) = l.supply + coinbaseTotal b - l.fees b ∧ Fresh (blockOps b) l) ↔
      l.CreatesFresh b := by
  rw [fresh_blockOps_iff h, and_iff_right_iff_imp]
  intro hfresh
  have hdeleted := deleted_blockOps b
  have hlost : lost amount (blockOps b) l = ((spent b).map l.amountAt).sum := by
    rw [lost_eq_of_fresh ((fresh_blockOps_iff h).mpr hfresh) (by rw [hdeleted]; exact h.nodup)
      (by rw [hdeleted]; exact h.there), hdeleted]
    rfl
  have haccount := supply_apply l b
  rw [hlost] at haccount
  obtain ⟨coinbase, txs, htxs, hcoinbase, -⟩ := h.coinbase
  have hfees : l.fees b = ((spent b).map l.amountAt).sum - ((txs.map outputTotal).sum : ℕ) := by
    rw [fees, htxs, List.tail_cons, sum_fee, spent, htxs, List.flatMap_cons, spends,
      if_pos hcoinbase, List.nil_append]
  rw [coinbaseTotal, hfees]
  rw [htxs, List.map_cons, List.sum_cons] at haccount
  rw [htxs, List.head?_cons, Option.elim_some]
  omega

end Ledger

/-! ### New coinbases -/

section NewCoinbases

open Ledger

variable {m : Manager} {g b p : Block} {chain rest : List Block}

/-- What a block of a chain spends is not there any more, if no hash of a transaction is used
twice. -/
theorem Chain.lookup_replay_of_spent (h : Chain m g chain) (hg : spent g = [])
    (hdistinct : (txHashes chain).Nodup) (hb : b ∈ chain) {outpoint : Outpoint}
    (hspent : outpoint ∈ spent b) : (replay chain).lookup outpoint = none := by
  cases hlookup : (replay chain).lookup outpoint with
  | none => rfl
  | some record =>
    obtain ⟨u, rfl⟩ := record
    exact absurd hspent (((h.lookup_replay_iff hg hdistinct).mp hlookup).2 b hb)

/-- On a chain that uses no hash of a transaction twice, neither does a block with a new
coinbase. -/
theorem Extends.nodup_txHashes (step : Extends m b p rest) (hchain : Chain m g (p :: rest))
    (hg : spent g = []) (hinj : Set.InjOn Transaction.hash {t | t ∈ chainTxs (b :: p :: rest)})
    (hcoinbase : ∀ coinbase ∈ b.transactions.toList.head?, coinbase.hash ∉ txHashes (p :: rest))
    (hdistinct : (txHashes (p :: rest)).Nodup) : (txHashes (b :: p :: rest)).Nodup := by
  have hvalid := step.transactions
  have hbody := hvalid.toBody
  have hblock : ∀ t ∈ b.transactions.toList, t ∈ chainTxs (b :: p :: rest) :=
    fun _ ht ↦ List.mem_append_left _ ht
  rw [txHashes_cons, List.nodup_append]
  refine ⟨hbody.nodup.map_on fun t ht t' ht' heq ↦ hinj (hblock t ht) (hblock t' ht') heq,
    hdistinct, ?_⟩
  rintro _ hnew _ hold rfl
  obtain ⟨t, ht, hhash⟩ := List.mem_map.mp hnew
  obtain ⟨t', ht', hhash'⟩ := List.mem_map.mp hold
  obtain rfl : t' = t := hinj (List.mem_append_right _ ht') (hblock t ht) (hhash'.trans hhash.symm)
  obtain ⟨coinbase, others, htxs, -, hothers⟩ := hvalid.coinbase
  rcases List.mem_cons.mp (htxs ▸ ht) with rfl | hother
  · exact hcoinbase t' (by rw [htxs]; rfl) (hhash ▸ hold)
  · -- The transaction is that of a block below, and spends there what it spends now.
    obtain ⟨x, hx, hbelow⟩ := List.mem_flatMap.mp ht'
    obtain ⟨input, hinput⟩ := List.exists_mem_of_ne_nil _ (hbody.inputs t' ht)
    have hspends : input.outpoint ∈ spends t' := by
      rw [spends, if_neg (by rw [hothers t' hother]; exact Bool.false_ne_true)]
      exact List.mem_map_of_mem hinput
    refine hvalid.there input.outpoint (List.mem_flatMap.mpr ⟨t', ht, hspends⟩) ?_
    exact hchain.lookup_replay_of_spent hg hdistinct hx (List.mem_flatMap.mpr ⟨t', hbelow, hspends⟩)

/-- A block whose transactions have distinct new hashes creates fresh outpoints. -/
theorem createsFresh_of_nodup (h : (txHashes (b :: chain)).Nodup) :
    (replay chain).CreatesFresh b := by
  rw [txHashes_cons, List.nodup_append] at h
  obtain ⟨hblock, -, hdisjoint⟩ := h
  refine createsFresh_of_absent (nodup_created hblock) fun outpoint hcreated ↦ ?_
  by_contra hlookup
  exact hdisjoint _ (hash_mem_of_created hcreated) _ (hash_mem_of_lookup hlookup) rfl

end NewCoinbases

/-! ### New tips -/

/-- A block has a positive height. If it meets the rules on top of the tip, then no transaction is
stored under the hash of its coinbase. -/
def NewCoinbaseOnTip (m : Manager) (n : Node) (now : ℤ) (b : Block) : Prop :=
  0 < b.header.height ∧ (MeetsRules m n now b → DB.tip n.store = .ok b.header.prevHash →
    ∀ coinbase ∈ b.transactions.toList.head?, n.store.lookup (Key.tx coinbase.hash) = none)

section Run

open Ledger

variable {m : Manager} {g b : Block} {tips : List Block} {n n' : Node} {now : ℤ} {fuel : ℕ}
  {r : Except Halt Unit}

/-- In a run of new coinbases a new tip keeps the hashes of the transactions distinct. -/
theorem Run.nodup_newTip (h : Run m (NewCoinbaseOnTip m) g tips n)
    (hdistinct : (txHashes tips).Nodup) (hb : NewCoinbaseOnTip m n now b)
    (hinj : Set.InjOn Transaction.hash {t | t ∈ chainTxs (b :: tips)})
    (hcall : (m.validateAndApplyBlock now fuel b).run exec n = (r, n'))
    (hbefore : DB.tip n.store ≠ .ok b.hash) (hafter : DB.tip n'.store = .ok b.hash) :
    (txHashes (b :: tips)).Nodup := by
  have hpositive : ∀ n now b, NewCoinbaseOnTip m n now b → 0 < b.header.height :=
    fun _ _ _ hnew ↦ hnew.1
  obtain ⟨p, rest, rfl, step, hlink, -⟩ := h.newTip hpositive hb.1 hcall hbefore hafter
  have hrules : MeetsRules m n now b := meetsRules_of_ne hcall fun heq ↦ hbefore (heq ▸ hafter)
  refine step.nodup_txHashes (h.holds hpositive).1 h.genesis.spent_eq_nil hinj
    (fun coinbase hcoinbase hmem ↦ ?_) hdistinct
  obtain ⟨t, ht, hhash⟩ := List.mem_map.mp hmem
  have hnone := hb.2 hrules hlink coinbase hcoinbase
  rw [← hhash] at hnone
  exact (h.txIndexed hpositive).complete t ht hnone

/-- A block whose transactions have distinct new hashes has a new coinbase. -/
theorem TxIndexed.newCoinbaseOnTip (h : TxIndexed tips n.store) (hheight : 0 < b.header.height)
    (hdistinct : (txHashes (b :: tips)).Nodup) : NewCoinbaseOnTip m n now b := by
  refine ⟨hheight, fun _ _ coinbase hcoinbase ↦ ?_⟩
  cases hlookup : n.store.lookup (Key.tx coinbase.hash) with
  | none => rfl
  | some data =>
    obtain ⟨t, ht, hhash, -⟩ := h.sound hlookup
    rw [txHashes_cons, List.nodup_append] at hdistinct
    exact absurd hhash.symm (hdistinct.2.2 _
      (List.mem_map_of_mem (List.mem_of_mem_head? hcoinbase)) _ (List.mem_map_of_mem ht))

/-- In a run of new coinbases no hash of a transaction is used twice. -/
theorem Run.nodup_txHashes (h : Run m (NewCoinbaseOnTip m) g tips n)
    (hinj : Set.InjOn Transaction.hash {t | t ∈ chainTxs tips}) : (txHashes tips).Nodup := by
  induction h with
  | start starts =>
    rw [txHashes, List.flatMap_singleton, starts.spec.1.transactions]
    exact List.nodup_singleton _
  | call run allows returns fueled ih =>
    rw [tipsAfter] at hinj ⊢
    split_ifs at hinj ⊢ with hnew
    · have hbelow := ih (hinj.mono fun t ht ↦ List.mem_append_right _ ht)
      exact run.nodup_newTip hbelow allows hinj returns hnew.1 hnew.2
    · exact ih hinj

end Run

/-- In every run of blocks of positive height with new coinbases, whose transactions have different
hashes if they are different: a block that becomes the tip changes the supply by its coinbase and
its fees, and replaces no unspent output. -/
theorem newTip_conserves {m : Manager} {g : Block} {tips : List Block} {n n' : Node}
    (h : Run m (NewCoinbaseOnTip m) g tips n) {now : ℤ} {fuel : ℕ} {b : Block}
    (hb : NewCoinbaseOnTip m n now b) {r : Except Halt Unit}
    (hinj : Set.InjOn Transaction.hash {t | t ∈ chainTxs (b :: tips)})
    (hcall : (m.validateAndApplyBlock now fuel b).run exec n = (r, n'))
    (hbefore : DB.tip n.store ≠ .ok b.hash) (hafter : DB.tip n'.store = .ok b.hash) :
    ((DB.utxos n'.store).supply : ℤ) = (DB.utxos n.store).supply + Ledger.coinbaseTotal b -
        (DB.utxos n.store).fees b ∧ Fresh (Ledger.blockOps b) (DB.utxos n.store) := by
  have hpositive : ∀ n now b, NewCoinbaseOnTip m n now b → 0 < b.header.height :=
    fun _ _ _ hnew ↦ hnew.1
  have hbelow := h.nodup_txHashes (hinj.mono fun t ht ↦ List.mem_append_right _ ht)
  have hnodup := h.nodup_newTip hbelow hb hinj hcall hbefore hafter
  obtain ⟨p, rest, rfl, step, -, hstore⟩ := h.newTip hpositive hb.1 hcall hbefore hafter
  rw [hstore, DB.utxos_extend, (h.holds hpositive).2.ledger]
  exact (Ledger.conserves_iff step.transactions).mpr (createsFresh_of_nodup hnodup)

/-- Block C becomes the tip on top of block B, and brings the reward. -/
theorem newTip_conserves_regtest :
    ∃ n n', Run Regtest.manager (NewCoinbaseOnTip Regtest.manager) Regtest.genesis
        [Regtest.blockB, Regtest.genesis] n ∧
      (Regtest.manager.validateAndApplyBlock 1790000000 1 Regtest.blockC).run exec n =
        (.ok (), n') ∧
      ((DB.utxos n'.store).supply : ℤ) = (DB.utxos n.store).supply + 50000000000 := by
  have hpositive : ∀ n now b, NewCoinbaseOnTip Regtest.manager n now b → 0 < b.header.height :=
    fun _ _ _ hnew ↦ hnew.1
  have hdistinct : (Ledger.txHashes [Regtest.blockC, Regtest.blockB, Regtest.genesis]).Nodup := by
    change [Transaction.hash _, Transaction.hash _, Regtest.genesisCoinbase.hash].Nodup
    rw [Regtest.hash_coinbaseC, Regtest.hash_coinbaseB, Regtest.hash_genesisCoinbase]
    decide
  obtain ⟨⟨hCB, -, hCG⟩, ⟨-, hBG⟩, -⟩ := Regtest.hashes_ne
  have hstart : Run Regtest.manager (NewCoinbaseOnTip Regtest.manager) Regtest.genesis
      [Regtest.genesis] Regtest.afterGenesis := .start Regtest.starts
  have hnewB : NewCoinbaseOnTip Regtest.manager Regtest.afterGenesis 1790000000 Regtest.blockB :=
    (hstart.txIndexed hpositive).newCoinbaseOnTip Regtest.validOn_blockB.height hdistinct.of_cons
  obtain ⟨n, -, -, -, hrun⟩ := hstart.extend hpositive hnewB Regtest.validOn_blockB
    Regtest.genesis_inLimits (List.forall_mem_cons.mpr ⟨Ne.symm hBG, List.forall_mem_nil _⟩) 1
  have hnewC : NewCoinbaseOnTip Regtest.manager n 1790000000 Regtest.blockC :=
    (hrun.txIndexed hpositive).newCoinbaseOnTip Regtest.validOn_blockC.height hdistinct
  have hlimits : Regtest.blockB.InLimits := by decide +kernel
  obtain ⟨n', hcall, hstore, -, -⟩ := hrun.extend hpositive hnewC Regtest.validOn_blockC hlimits
    (List.forall_mem_cons.mpr ⟨Ne.symm hCB, List.forall_mem_cons.mpr
      ⟨Ne.symm hCG, List.forall_mem_nil _⟩⟩) 1
  have hbefore : DB.tip n.store ≠ .ok Regtest.blockC.hash := by
    rw [(hrun.holds hpositive).2.tip rfl]
    exact fun heq ↦ hCB (Except.ok.inj heq).symm
  have hafter : DB.tip n'.store = .ok Regtest.blockC.hash := by
    rw [hstore]
    exact DB.tip_extend _ _
  have hconserves := (newTip_conserves hrun hnewC
    (fun _ ht _ ht' ↦ List.inj_on_of_nodup_map hdistinct ht ht') hcall hbefore hafter).1
  have hcoinbase : Ledger.coinbaseTotal Regtest.blockC = 50000000000 := rfl
  have hfees : (DB.utxos n.store).fees Regtest.blockC = 0 := rfl
  rw [hcoinbase, hfees, Int.sub_zero] at hconserves
  exact ⟨n, n', hrun, hcall, hconserves⟩

theorem Regtest.blockA_fresh : (DB.utxos afterGenesis.store).CreatesFresh blockA := by
  refine Ledger.createsFresh_of_absent ?_ blockA_absent
  rw [created_blockA]
  exact List.nodup_singleton _

/-! ### A coinbase that is made twice -/

/-- A round of `MineBlocksStreaming` returns the block that it has built on the tip, mined and
submitted. -/
theorem run_mineBlock {m : Manager} {coinbaseNow headerNow : Int64} {now : ℤ} {fuel polls : ℕ}
    {snapshot : List Transaction} {minerScript : Bytes} {t b : Block} {bits : UInt32} {n n' : Node}
    (htip : DB.tip n.store = .ok t.hash) (hread : DB.getBlock n.store t.hash = .ok t)
    (hbits : (expectedBits t.header m.network Manager.headerByHeight).run exec n = (.ok bits, n))
    (hmine : mine polls (templateOn t bits coinbaseNow headerNow snapshot minerScript)
      (compactToBig bits) = some b)
    (hcall : (m.validateAndApplyBlock now fuel b).run exec n = (.ok (), n')) :
    (m.mineBlock coinbaseNow headerNow now fuel polls snapshot minerScript).run exec n =
      (.ok b, n') := by
  have htemplate := run_buildTemplate htip hread hbits coinbaseNow headerNow snapshot minerScript
  rw [Manager.mineBlock, Prog.run_bind_of_ok htemplate]
  dsimp only [templateOn, newBlock] at hmine ⊢
  rw [hmine]
  exact Prog.run_bind_of_ok hcall

namespace Regtest

/-- Building, mining and submitting a block, all in one second. -/
def mineNow : Routine Block :=
  manager.mineBlock 1790000000 1790000000 1790000000 1 1 [] (script 0x11)

/-- The block that is made on top of block A in the second in which A is made. -/
def blockAgain : Block :=
  block blockAHash (hash 0xc5855049a928bc717d5a1dd464640b4484f90e9818f1c119229e83806852c094)
    2 1790000000 0x11 0

def afterAgain : Node := ⟨DB.extend afterA.store blockAgain, none⟩

/-- The first nonce of a template without other transactions is mined if its hash is below the
target. -/
theorem mine_template {prevHash root : Hash} {height : UInt64} {now : Int64} {byte : UInt8}
    (hroot : (newCoinbase (Manager.minedAt now) initialReward (script byte)).hash = root)
    (hlt : (hashValue (block prevHash root height now byte 0).hash : ℤ) <
      compactToBig regtestPowBits) :
    mine 1 (newBlock now prevHash height regtestPowBits
      (.ofList [newCoinbase (Manager.minedAt now) initialReward (script byte)]))
      (compactToBig regtestPowBits) = some (block prevHash root height now byte 0) := by
  subst hroot
  exact if_pos hlt

theorem mineNow_blockA : mineNow.run exec afterGenesis = (.ok blockA, afterA) := by
  refine run_mineBlock tip_afterGenesis getBlock_genesis rfl ?_ blockA_returns
  rw [templateOn, genesis_hash]
  refine mine_template hash_coinbaseA ?_
  change (hashValue blockA.hash : ℤ) < _
  rw [blockA_hash, blockAHash, hashValue_hash (by decide)]
  decide

theorem blockAgain_hash : blockAgain.hash =
    hash 0x5ba8b01808bf21aa46c63ce25b56717d389cb856a152c39ba8e7e30589874dea :=
  doubleSha256_eq (by decide +kernel)

theorem hashValue_blockAgain_lt :
    (hashValue blockAgain.hash : ℤ) < compactToBig regtestPowBits := by
  rw [blockAgain_hash, hashValue_hash (by decide)]
  decide

theorem validOn_blockAgain : ValidOn manager 1790000000 blockAgain blockA [genesis] :=
  validOn_block blockA_hash rfl rfl (by decide) (by decide) hash_coinbaseA
    hashValue_blockAgain_lt.le (by decide)

theorem hash_ne_blockAgain : ∀ x ∈ [blockA, genesis], x.hash ≠ blockAgain.hash := by
  simp only [List.forall_mem_cons, blockA_hash, genesis_hash, blockAgain_hash]
  exact ⟨by decide, by decide, List.forall_mem_nil _⟩

theorem blockAgain_returns :
    (manager.validateAndApplyBlock 1790000000 1 blockAgain).run exec afterA =
      (.ok (), afterAgain) := by
  have hrun : Run manager PositiveHeight genesis [blockA, genesis] afterA :=
    runA validOn_blockA.height
  obtain ⟨n', hcall, hstore, hmempool, -⟩ := hrun.extend (fun _ _ _ h ↦ h)
    validOn_blockAgain.height validOn_blockAgain blockA_inLimits hash_ne_blockAgain 1
  have hn' : n' = ⟨n'.store, none⟩ := congrArg (Node.mk n'.store) hmempool
  rw [hcall, afterAgain, ← hstore, ← hn']

theorem mineNow_blockAgain : mineNow.run exec afterA = (.ok blockAgain, afterAgain) := by
  refine run_mineBlock tip_afterA getBlock_blockA rfl ?_ blockAgain_returns
  rw [templateOn, blockA_hash]
  exact mine_template hash_coinbaseA hashValue_blockAgain_lt

theorem supply_blockAgain :
    (Ledger.replay [blockAgain, blockA, genesis]).supply =
        (Ledger.replay [blockA, genesis]).supply ∧
      Ledger.coinbaseTotal blockAgain = 50000000000 ∧
      (Ledger.replay [blockA, genesis]).fees blockAgain = 0 := by
  have hagain : Ledger.blockOps blockAgain =
      [Ledger.setRecord (coin blockA.header.merkleRoot 2 0x11)] := blockOps_block hash_coinbaseA
  have hreplay : Ledger.replay [blockA, genesis] = (Ledger.replay [genesis]).apply blockA := rfl
  have hreplay' : Ledger.replay [blockAgain, blockA, genesis] =
      ((Ledger.replay [genesis]).apply blockA).apply blockAgain := rfl
  refine ⟨?_, rfl, rfl⟩
  rw [hreplay', hreplay, Ledger.apply, Ledger.apply, hagain, blockOps_blockA, replay_genesis]
  decide

/-- The second block becomes the tip, and its coinbase adds nothing to the supply. -/
theorem coinbase_replaced :
    mineNow.run exec afterGenesis = (.ok blockA, afterA) ∧
      mineNow.run exec afterA = (.ok blockAgain, afterAgain) ∧
      DB.tip afterA.store ≠ .ok blockAgain.hash ∧
      DB.tip afterAgain.store = .ok blockAgain.hash ∧
      ((DB.utxos afterAgain.store).supply : ℤ) ≠ (DB.utxos afterA.store).supply +
        Ledger.coinbaseTotal blockAgain - (DB.utxos afterA.store).fees blockAgain := by
  refine ⟨mineNow_blockA, mineNow_blockAgain, ?_, DB.tip_extend _ _, ?_⟩
  · rw [tip_afterA]
    exact fun heq ↦ hash_ne_blockAgain blockA List.mem_cons_self (Except.ok.inj heq)
  · have hledger : DB.utxos afterA.store = Ledger.replay [blockA, genesis] := by
      rw [afterA, DB.utxos_extend, afterGenesis, DB.utxos_extend]
      rfl
    have hledger' : DB.utxos afterAgain.store = Ledger.replay [blockAgain, blockA, genesis] := by
      rw [afterAgain, DB.utxos_extend, hledger]
      rfl
    obtain ⟨hsupply, hcoinbase, hfees⟩ := supply_blockAgain
    rw [hledger', hledger, hsupply, hcoinbase, hfees]
    omega

end Regtest

end NevelCore
