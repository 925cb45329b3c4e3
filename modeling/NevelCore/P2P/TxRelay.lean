import NevelCore.Chain.PoolRuns
import NevelCore.P2P.ReadLoops

/-!
# Relaying transactions

A transaction is relayed if `Add` takes it into the pool. The pool refuses a transaction whose
inputs are already spent by one of its entries, so one that is in the pool is not relayed again: a
node relays it at most once more than it has left the pool, whatever else the node is sent
(`tx_relays_le`).

In a network of nodes the messages for one transaction therefore come to an end, in any topology and
in any order of delivery, with no condition on what is delivered (`tx_flood_ends`). For a block that
is not so: a block of a side branch is accepted as often as it comes.

All this is up to hash collisions: the pool is keyed by the hash, so of the transactions that are
pooled or delivered (`Pools`) no two may have the same one.
-/

set_option autoImplicit false
set_option relaxedAutoImplicit false

namespace NevelCore.P2P

open Foundations

/-! ### What handling a message does to the pool -/

/-- An output that relays the transaction with a hash. -/
def Output.relaysTx (payloads : PayloadJson) (hash : Hash) : Output → Bool
  | .broadcastExcept msg _ =>
    msg.type = .tx && (payloads.transaction msg.payload).any (·.hash = hash)
  | .send _ _ => false

/-- The pool has an entry for a hash. -/
def Pooled (hash : Hash) (n : NevelCore.Node) : Prop :=
  ∃ pool ∈ n.mempool, (pool.txs.lookup hash).isSome

instance (hash : Hash) (n : NevelCore.Node) : Decidable (Pooled hash n) := by
  unfold Pooled
  infer_instance

/-- The pool is consistent, and its transactions are of a set. -/
def Pools (T : Set Transaction) (n : NevelCore.Node) : Prop :=
  ∀ pool ∈ n.mempool, pool.Consistent ∧ ∀ hash e, pool.txs.lookup hash = some e → e.tx ∈ T

section Handling

variable {m : Manager} {json : Json} {payloads : PayloadJson} {env : Surroundings} {s : System}
  {peer : String} {msg : Message} {hash : Hash} {T : Set Transaction} {t : Transaction}

theorem handler_of_tx (htype : msg.type = .tx) :
    handler m json payloads env s peer msg = handleTx m payloads env s peer msg := by
  rw [handler, htype]

/-- A message with a transaction is without effect on the chain, or the transaction is added and
relayed. -/
theorem handleTx_cases (m : Manager) (payloads : PayloadJson) (env : Surroundings) (s : System)
    (peer : String) (msg : Message) :
    (handleTx m payloads env s peer msg).outputs = [] ∧
        (handleTx m payloads env s peer msg).system.chain = s.chain ∧
        (payloads.transaction msg.payload ≠ none →
          (handleTx m payloads env s peer msg).system = s) ∨
      ∃ t pool pool', payloads.transaction msg.payload = some t ∧ s.chain.mempool = some pool ∧
        (pool.add env.orders t Store.get m.verifier).run exec s.chain = (.ok pool', s.chain) ∧
        handleTx m payloads env s peer msg =
          ⟨.returned, { s with chain := { s.chain with mempool := some pool' } },
            [.broadcastExcept msg peer]⟩ := by
  unfold handleTx
  split
  · next hnone => exact .inl ⟨rfl, rfl, fun h ↦ absurd hnone h⟩
  · next t hdecode =>
    split
    · exact .inl ⟨rfl, rfl, fun _ ↦ rfl⟩
    · next pool hpool =>
      split
      · exact .inl ⟨rfl, rfl, fun _ ↦ rfl⟩
      · next pool' chain hadd =>
        obtain rfl := eq_of_run_add hadd
        exact .inr ⟨t, pool, pool', hdecode, hpool, hadd, rfl⟩

theorem chain_connect (s : System) (address : String) :
    (connect json env s address).system.chain = s.chain := by
  unfold connect
  split_ifs
  · rfl
  · split
    · rfl
    · dsimp only
      split_ifs
      · rw [send_system]
      · rfl

theorem chain_connectAll (s : System) (addrs : List String) :
    (connectAll json env s addrs).1.chain = s.chain := by
  induction addrs generalizing s with
  | nil => rfl
  | cons addr addrs ih =>
    unfold connectAll
    split_ifs
    · rfl
    · exact ih s
    · exact (ih _).trans (chain_connect s addr)

/-- Any other message is without effect on the chain, but for a block. -/
theorem chain_handler (htype : msg.type ≠ .tx) :
    (handler m json payloads env s peer msg).system.chain = s.chain ∨
      ∃ b : Block, (handler m json payloads env s peer msg).system.chain =
        ((m.validateAndApplyBlock env.blockNow env.fuel b).run exec s.chain).2 := by
  unfold handler
  split
  · exact .inl (congrArg _ (send_system s _ _))
  · exact .inl (congrArg _ (send_system s _ _))
  · split
    · exact .inl rfl
    · exact .inl (chain_connectAll s _)
  · unfold handleBlock
    split
    · exact .inl rfl
    · next b _ =>
      right
      use b
      split <;> next heq => rw [heq]
  · next htx => exact absurd htx htype
  · unfold handleGetHeaders
    split
    · exact .inl rfl
    · split
      · exact .inl rfl
      · exact .inl (congrArg _ (send_system s _ _))
  · exact .inl (congrArg _ (send_system s _ _))
  · exact .inl rfl

theorem type_of_mem_connectAll {addrs : List String} {o : Output}
    (ho : o ∈ (connectAll json env s addrs).2) : o.message.type = .version := by
  induction addrs generalizing s with
  | nil => cases ho
  | cons addr addrs ih =>
    unfold connectAll at ho
    split_ifs at ho
    · cases ho
    · exact ih ho
    · rcases List.mem_append.mp ho with ho | ho
      · exact type_of_mem_connect ho
      · exact ih ho

/-- Only a message with a transaction makes a node send one. -/
theorem type_ne_tx_of_mem_handler (htype : msg.type ≠ .tx) {o : Output}
    (ho : o ∈ (handler m json payloads env s peer msg).outputs) : o.message.type ≠ .tx := by
  unfold handler at ho
  split at ho
  · rw [message_of_mem_send ho]
    nofun
  · rw [message_of_mem_send ho]
    nofun
  · split at ho
    · cases ho
    · rw [type_of_mem_connectAll ho]
      nofun
  · unfold handleBlock at ho
    split at ho
    · cases ho
    · split at ho
      · cases ho
      · rwa [List.mem_singleton.mp ho]
  · next htx => exact absurd htx htype
  · unfold handleGetHeaders at ho
    split at ho
    · cases ho
    · split at ho
      · cases ho
      · rw [message_of_mem_send ho]
        nofun
  · rw [message_of_mem_send ho]
    nofun
  · cases ho

theorem countP_relaysTx_of_type_ne (htype : msg.type ≠ .tx) :
    (handler m json payloads env s peer msg).outputs.countP (·.relaysTx payloads hash) = 0 := by
  refine List.countP_eq_zero.mpr fun o ho hrelays ↦ ?_
  have hne := type_ne_tx_of_mem_handler htype ho
  cases o with
  | send id msg => cases hrelays
  | broadcastExcept msg id => exact hne (of_decide_eq_true (Bool.and_eq_true_iff.mp hrelays).1)

/-! ### The pool over a run -/

theorem Pools.exec (c : NevelCore.Call) (n : NevelCore.Node) (h : Pools T n) :
    Pools T (NevelCore.exec c n).2 := by
  cases c with
  | removeMinedBlock b =>
    intro pool hpool
    obtain ⟨before, hbefore, rfl⟩ := Option.map_eq_some_iff.mp hpool
    obtain ⟨hconsistent, hmem⟩ := h before hbefore
    refine ⟨hconsistent.removeMinedBlock b, fun hash e he ↦ ?_⟩
    exact hmem hash e (Mempool.lookup_txs_of_removeMinedBlock he).1
  | _ => exact h

variable (m json env peer) in
/-- The pool stays consistent, with transactions that were pooled or delivered. -/
theorem Pools.handler (hT : Set.InjOn Transaction.hash T) (h : Pools T s.chain)
    (ht : ∀ t, payloads.transaction msg.payload = some t → t ∈ T) :
    Pools T (P2P.handler m json payloads env s peer msg).system.chain := by
  by_cases htype : msg.type = .tx
  · rw [handler_of_tx htype]
    rcases handleTx_cases m payloads env s peer msg with
      ⟨-, hchain, -⟩ | ⟨t, pool, pool', hdecode, hpool, hadd, heq⟩
    · rwa [hchain]
    · rw [heq]
      rintro _ ⟨⟩
      obtain ⟨hconsistent, hmem⟩ := h pool hpool
      have hdistinct (e : Entry) (he : pool.txs.lookup t.hash = some e) : e.tx = t :=
        hT (hmem _ e he) (ht t hdecode) (hconsistent.keyed he)
      refine ⟨hconsistent.add hdistinct hadd, fun hash e he ↦ ?_⟩
      obtain ⟨r, -, rfl⟩ := Mempool.add_ok hadd
      rcases Mempool.lookup_txs_insert_cases he with ⟨-, rfl⟩ | ⟨-, he⟩
      · exact ht t hdecode
      · exact hmem hash e ((Mempool.within_makeRoom _ _ _ _).txs he)
  · rcases chain_handler htype with hchain | ⟨b, hchain⟩
    · rwa [hchain]
    · rw [hchain]
      exact Prog.run_keeps Pools.exec _ h

/-- A transaction that is added was not in the pool before, and is after. -/
theorem pooled_of_add (hT : Set.InjOn Transaction.hash T) (h : Pools T s.chain) (ht : t ∈ T)
    {pool pool' : Mempool} (hpool : s.chain.mempool = some pool) {orders : AddOrders}
    (hadd : (pool.add orders t Store.get m.verifier).run exec s.chain = (.ok pool', s.chain)) :
    ¬ Pooled t.hash s.chain ∧ Pooled t.hash { s.chain with mempool := some pool' } := by
  constructor
  · rintro ⟨_, hin, hsome⟩
    obtain rfl := Option.some.inj (hpool.symm.trans hin)
    obtain ⟨e, he⟩ := Option.isSome_iff_exists.mp hsome
    obtain ⟨hconsistent, hmem⟩ := h _ hin
    obtain rfl : e.tx = t := hT (hmem _ e he) ht (hconsistent.keyed he)
    -- an input of the transaction is spent by its entry
    obtain ⟨hne, -, hfree⟩ := Mempool.spent_of_add hadd
    obtain ⟨outpoint, hout⟩ := List.exists_mem_of_ne_nil _ hne
    have hspent := hconsistent.spends.mpr ⟨e, he, hout⟩
    rw [hfree outpoint hout] at hspent
    cases hspent
  · obtain ⟨r, -, rfl⟩ := Mempool.add_ok hadd
    refine ⟨_, rfl, ?_⟩
    rw [Mempool.insert, Finmap.lookup_insert]
    rfl

variable (m json env peer) in
/-- A message makes a node relay a transaction that was not in the pool and now is, or none with
its hash. -/
theorem relaysTx_handler (hT : Set.InjOn Transaction.hash T) (h : Pools T s.chain)
    (ht : ∀ t, payloads.transaction msg.payload = some t → t ∈ T) (hash : Hash) :
    (handler m json payloads env s peer msg).outputs.countP (·.relaysTx payloads hash) = 0 ∨
      (handler m json payloads env s peer msg).outputs.countP (·.relaysTx payloads hash) = 1 ∧
        ¬ Pooled hash s.chain ∧
        Pooled hash (handler m json payloads env s peer msg).system.chain := by
  by_cases htype : msg.type = .tx
  · rw [handler_of_tx htype]
    rcases handleTx_cases m payloads env s peer msg with
      ⟨houtputs, -⟩ | ⟨t, pool, pool', hdecode, hpool, hadd, heq⟩
    · rw [houtputs]
      exact .inl rfl
    · have hrelays : (Output.broadcastExcept msg peer).relaysTx payloads hash =
          decide (t.hash = hash) := by
        rw [Output.relaysTx, hdecode, htype]
        rfl
      rw [heq, List.countP_singleton, hrelays]
      by_cases hhash : t.hash = hash
      · subst hhash
        rw [decide_eq_true rfl]
        exact .inr ⟨rfl, pooled_of_add hT h (ht t hdecode) hpool hadd⟩
      · rw [decide_eq_false hhash]
        exact .inl rfl
  · exact .inl (countP_relaysTx_of_type_ne htype)

/-- The number of messages that take the transaction with a hash out of the pool, until a call
panics. -/
def departures (m : Manager) (json : Json) (payloads : PayloadJson) (hash : Hash) :
    System → List Delivery → ℕ
  | _, [] => 0
  | s, d :: ds =>
    let handled := handler m json payloads d.env s d.peer d.msg
    (if Pooled hash s.chain ∧ ¬ Pooled hash handled.system.chain then 1 else 0) +
      if handled.ending.panics then 0 else departures m json payloads hash handled.system ds

theorem countP_relaysTx_handleAll (hT : Set.InjOn Transaction.hash T) {ds : List Delivery}
    (hds : ∀ d ∈ ds, ∀ t, payloads.transaction d.msg.payload = some t → t ∈ T)
    (h : Pools T s.chain) :
    (handleAll m json payloads s ds).2.countP (·.relaysTx payloads hash) +
        (if Pooled hash s.chain then 1 else 0) ≤
      1 + departures m json payloads hash s ds := by
  induction ds generalizing s with
  | nil =>
    change 0 + (if Pooled hash s.chain then 1 else 0) ≤ 1 + 0
    split_ifs <;> omega
  | cons d ds ih =>
    obtain ⟨hd, hds⟩ := List.forall_mem_cons.mp hds
    have hrest := ih hds (h.handler m json d.env d.peer hT hd)
    have hstep := relaysTx_handler m json d.env d.peer hT h hd hash
    dsimp only [handleAll, departures]
    generalize (handler m json payloads d.env s d.peer d.msg) = done at hrest hstep ⊢
    by_cases hpanics : done.ending.panics = true
    · rw [if_pos hpanics, if_pos hpanics]
      rcases hstep with hnone | ⟨hone, hbefore, -⟩
      · rw [hnone]
        split_ifs <;> omega
      · rw [hone, if_neg hbefore]
        omega
    rw [if_neg hpanics, if_neg hpanics, List.countP_append]
    rcases hstep with hnone | ⟨hone, hbefore, hafter⟩
    · rw [hnone]
      by_cases hbefore : Pooled hash s.chain <;>
        by_cases hafter : Pooled hash done.system.chain <;>
        simp only [hbefore, hafter, if_true, if_false, not_true_eq_false, not_false_eq_true,
          and_true, and_false] at hrest ⊢ <;>
        omega
    · rw [if_pos hafter] at hrest
      rw [hone, if_neg hbefore, if_neg fun h ↦ hbefore h.1]
      omega

/-- A node relays a transaction at most once more than it has left the pool. -/
theorem tx_relays_le {m : Manager} {json : Json} {payloads : PayloadJson} {T : Set Transaction}
    (hT : Set.InjOn Transaction.hash T) {s : System} (h : Pools T s.chain) {ds : List Delivery}
    (hds : ∀ d ∈ ds, ∀ t, payloads.transaction d.msg.payload = some t → t ∈ T) (hash : Hash) :
    (handleAll m json payloads s ds).2.countP (·.relaysTx payloads hash) ≤
      departures m json payloads hash s ds + if Pooled hash s.chain then 0 else 1 := by
  have hle : _ ≤ 1 + departures m json payloads hash s ds := countP_relaysTx_handleAll hT hds h
  split_ifs at hle ⊢ <;> omega

end Handling

namespace Sample

/-- The message with a transaction that spends the output of genesis. -/
def txMsg : Message := ⟨.tx, Transaction.form.marshal (Regtest.spendGenesis 1)⟩

theorem type_txMsg : txMsg.type = .tx := rfl

theorem decode_txMsg : payloadJson.transaction txMsg.payload = some (Regtest.spendGenesis 1) :=
  Transaction.form.unmarshal_marshal _

/-- A node after genesis, with two peers and an empty pool. -/
def txNode : System := ⟨⟨DB.extend ∅ Regtest.genesis, some (Mempool.new 1000)⟩, ringNode⟩

theorem pools_txNode : Pools {Regtest.spendGenesis 1} txNode.chain := by
  rintro _ ⟨⟩
  refine ⟨Mempool.consistent_new 1000, fun hash e he ↦ ?_⟩
  rw [show (Mempool.new 1000).txs = ∅ from rfl, Finmap.lookup_empty] at he
  cases he

/-- The node relays the transaction. -/
theorem outputs_txMsg : (handler Regtest.manager json payloadJson env txNode "prev" txMsg).outputs =
    [.broadcastExcept txMsg "prev"] := by
  obtain ⟨pool, -, hadd, -⟩ := Regtest.add_spendGenesis
    (n := ⟨DB.extend ∅ Regtest.genesis, some (Mempool.new 1000)⟩) Regtest.utxos_genesis
  rw [handler_of_tx type_txMsg, handleTx, decode_txMsg]
  dsimp only [txNode, env]
  rw [hadd]

end Sample

/-- A transaction that comes twice is relayed the first time. -/
theorem tx_relays_le_regtest :
    (handler Regtest.manager Sample.json payloadJson Sample.env Sample.txNode "prev"
        Sample.txMsg).outputs = [.broadcastExcept Sample.txMsg "prev"] ∧
      (handleAll Regtest.manager Sample.json payloadJson Sample.txNode
          [⟨Sample.env, "prev", Sample.txMsg⟩, ⟨Sample.env, "next", Sample.txMsg⟩]).2.countP
          (·.relaysTx payloadJson (Regtest.spendGenesis 1).hash) ≤
        departures Regtest.manager Sample.json payloadJson (Regtest.spendGenesis 1).hash
          Sample.txNode [⟨Sample.env, "prev", Sample.txMsg⟩, ⟨Sample.env, "next", Sample.txMsg⟩] +
        if Pooled (Regtest.spendGenesis 1).hash Sample.txNode.chain then 0 else 1 := by
  refine ⟨Sample.outputs_txMsg, tx_relays_le (Set.injOn_singleton _ _) Sample.pools_txNode
    (fun d hd t ht ↦ ?_) _⟩
  have hmsg : d.msg = Sample.txMsg := by
    simp only [List.mem_cons, List.not_mem_nil, or_false] at hd
    rcases hd with rfl | rfl
    · rfl
    · rfl
  rw [hmsg, Sample.decode_txMsg] at ht
  exact (Option.some.inj ht).symm

/-! ### A network of nodes -/

/-- The message of a transaction is relayed once. -/
theorem relaysOnce_tx {m : Manager} {json : Json} {payloads : PayloadJson} {msg : Message}
    {t : Transaction} {T : Set Transaction} (hT : Set.InjOn Transaction.hash T) (ht : t ∈ T)
    (htype : msg.type = .tx) (hdecode : payloads.transaction msg.payload = some t)
    (allowed : System → Message → Prop) :
    RelaysOnce m json payloads allowed msg (fun s ↦ Pools T s.chain)
      (fun s ↦ Pooled t.hash s.chain) where
  net_eq env s peer _ _ := by
    rw [handler_of_tx htype]
    rcases handleTx_cases m payloads env s peer msg with
      ⟨-, -, hsystem⟩ | ⟨t', pool, pool', hdecode', hpool, hadd, heq⟩
    · rw [hsystem (by rw [hdecode]; nofun)]
    · rw [heq]
  keeps env s peer hpools _ := hpools.handler m json env peer hT fun t' ht' ↦
    Option.some.inj (hdecode.symm.trans ht') ▸ ht
  knows env s peer hpools _ hknown := by
    rw [handler_of_tx htype]
    rcases handleTx_cases m payloads env s peer msg with
      ⟨-, hchain, -⟩ | ⟨t', pool, pool', hdecode', hpool, hadd, heq⟩
    · rwa [hchain]
    · obtain rfl : t' = t := Option.some.inj (hdecode'.symm.trans hdecode)
      exact absurd hknown (pooled_of_add hT hpools ht hpool hadd).1
  relays env s peer hpools _ := by
    rw [handler_of_tx htype]
    rcases handleTx_cases m payloads env s peer msg with
      ⟨houtputs, -⟩ | ⟨t', pool, pool', hdecode', hpool, hadd, heq⟩
    · exact .inl houtputs
    · obtain rfl : t' = t := Option.some.inj (hdecode'.symm.trans hdecode)
      rw [heq]
      exact .inr ⟨rfl, pooled_of_add hT hpools ht hpool hadd⟩

/-- A transaction that is brought into a network is delivered at most once more for each peer of a
node, in any topology and in any order. -/
theorem tx_flood_ends {ι : Type} [Fintype ι] [DecidableEq ι] {m : Manager} {json : Json}
    {payloads : PayloadJson} {route : ι → String → Option (ι × String)} {w₀ w : Network ι} {i : ι}
    {peer : String} {msg : Message} {t : Transaction} {k : ℕ} (htype : msg.type = .tx)
    (hdecode : payloads.transaction msg.payload = some t)
    (hflight : w₀.inFlight = {(i, peer, msg)}) {T : Set Transaction}
    (hT : Set.InjOn Transaction.hash T) (ht : t ∈ T)
    (hpools : ∀ j, Pools T (w₀.systems j).chain)
    (hrun : NetworkRun m json payloads route (fun _ _ ↦ True) w₀ k w) :
    k ≤ 1 + ∑ j, (w₀.systems j).net.peers.keys.card :=
  (relaysOnce_tx hT ht htype hdecode _).length_le hrun hpools hflight

/-- The transaction goes round the ring. -/
theorem tx_flood_ends_regtest :
    (∃ w, NetworkRun Regtest.manager Sample.json payloadJson Sample.ringRoute
      (fun _ _ ↦ True) ⟨fun _ ↦ Sample.txNode, {(0, "prev", Sample.txMsg)}⟩ 1 w) ∧
    ∀ k w, NetworkRun Regtest.manager Sample.json payloadJson Sample.ringRoute
      (fun _ _ ↦ True) ⟨fun _ ↦ Sample.txNode, {(0, "prev", Sample.txMsg)}⟩ k w →
      k ≤ 1 + ∑ _ : Fin 3, Sample.ringNode.peers.keys.card := by
  refine ⟨⟨_, .deliver .start Sample.env (Multiset.cons_zero _).symm trivial le_rfl⟩,
    fun k w hrun ↦ ?_⟩
  have hflight : (⟨fun _ ↦ Sample.txNode, {(0, "prev", Sample.txMsg)}⟩ : Network (Fin 3)).inFlight =
      {(0, "prev", Sample.txMsg)} := rfl
  have hpools (j : Fin 3) : Pools {Regtest.spendGenesis 1} ((⟨fun _ ↦ Sample.txNode,
      {(0, "prev", Sample.txMsg)}⟩ : Network (Fin 3)).systems j).chain := Sample.pools_txNode
  -- The bound is only compared with the goal once the network is known.
  have hle := tx_flood_ends Sample.type_txMsg Sample.decode_txMsg hflight (Set.injOn_singleton _ _)
    (Set.mem_singleton (Regtest.spendGenesis 1)) hpools hrun
  exact hle

end NevelCore.P2P
