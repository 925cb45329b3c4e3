import NevelCore.Chain.PoolRuns
import NevelCore.Rpc.Server

/-!
# Reported trades

An answer of `genesisTrade` of type `genesis_utxo` reports the transaction with some hash. Is it in
the memory pool, and do two answers never report transactions that spend the same output?

`genesisTrade` does not look at the error of `Add`, so this depends on what `Add` asks for. A
payment takes the first outputs of its key that the store lists, whether the pool spends them or
not, and pays a fee of 1000, however long it is. `TradeFits` says that none of this matters: the
pool spends none of these outputs, and the payment has at most 1000 bytes, for which there is room.
Then `Add` succeeds (`spendable_of_built`, `addTransaction_of_spendable`). With room also for the
payments of `buildTx` nothing that was reported is evicted, and `trades_pending` says that in every
such sequence of requests the answers report what is in the pool, and nothing twice.

The condition is needed. `trade_dropped` is a key that trades twice in a row, with one confirmed
output: the second payment spends the same output, `Add` refuses it, and the trade is reported.
-/

set_option autoImplicit false
set_option relaxedAutoImplicit false

namespace NevelCore.Rpc

open Foundations Wallet Wallet.CurveParams

/-! ### What is reported -/

/-- An answer of type `genesis_utxo` with some hash. -/
def Answer.ReportsHash (answer : Answer) (hash : Hash) : Prop :=
  ∃ side ticker fromAddress toAddress amount fee, answer =
    .genesisTrade (.json (.genesisUtxo hash side ticker fromAddress toAddress amount fee))

/-- The transaction with the hash of the answer is in the pool at that moment. -/
def Served.Reports (served : Served) (t : Transaction) : Prop :=
  ∃ hash pool e, served.answer.ReportsHash hash ∧ served.after.mempool = some pool ∧
    pool.txs.lookup hash = some e ∧ e.tx = t

/-- Every reported transaction is in the pool at that moment, and no two spend the same outpoint. -/
structure PendingTrades (history : List Served) : Prop where
  pending : ∀ served ∈ history, ∀ hash, served.answer.ReportsHash hash → ∃ t, served.Reports t
  disjoint : history.Pairwise fun first second ↦ ∀ t t', first.Reports t → second.Reports t' →
    List.Disjoint t.spent t'.spent

/-! ### The condition -/

/-- The outputs that a payment spends, as the first ones of its key in the order of the store that
reach the amount and the fee, and its length. -/
def Selects (s : Server) (env : Environment) (key toAddress : List UInt8) (need : ℕ)
    (selected : List UTXO) (size : ℕ) : Prop :=
  ∃ w toScript k, fromHexPrivateKey s.maps key s.addressPrefix = .ok w ∧
    lockingScriptForAddress s.maps toAddress s.addressPrefix = .ok toScript ∧
    ShortestPrefix (env.outputs (ownScript w)).toList need k ∧
    selected = (env.outputs (ownScript w)).toList.take k ∧
    size = paymentSize k toScript (totalAmount selected - need)

/-- Some bytes can be added to a pool without an eviction. -/
def HasRoom (pool : Mempool) (size : ℕ) : Prop := pool.bytes + Int64.ofNat size ≤ pool.maxBytes

/-- The payment of a trade is not longer than its fee allows, and a pool with room for it spends
none of its outputs. No output stands for the input of a coinbase. -/
def TradeFits (s : Server) (env : Environment) (req : TradeRequest) (n : Node) : Prop :=
  ∀ selected size, Selects s env req.privateKeyHex req.poolAddress (req.amount.toNat + 1000)
    selected size → size ≤ 1000 ∧ selected.map UTXO.outpoint ≠ [⟨Bytes32.zero, 0xffffffff⟩] ∧
      ∃ pool, n.mempool = some pool ∧ HasRoom pool size ∧
        ∀ u ∈ selected, pool.spends.lookup u.outpoint = none

/-- There is room for the payment of a request to build a transaction. -/
def BuildFits (s : Server) (env : Environment) (req : BuildRequest) (n : Node) : Prop :=
  ∀ selected size, Selects s env req.privateKeyHex req.toAddress
    (req.amount.toNat + (if req.fee = 0 then 1000 else req.fee).toNat) selected size →
      ∀ pool, n.mempool = some pool → HasRoom pool size

/-- The condition on a request, in the state before it. -/
def Fits (s : Server) (env : Environment) (n : Node) : Incoming → Prop
  | .genesisTrade r => ∀ req, r.body = some req → TradeFits s env req n
  | .buildTx r => ∀ req, r.body = some req → BuildFits s env req n

/-- Every request meets the condition in the state it is served in. -/
def AllFit (s : Server) : List (Environment × Incoming) → Node → Prop
  | [], _ => True
  | (env, incoming) :: rest, n =>
    Fits s env n incoming ∧ AllFit s rest (serve s env n incoming).after

/-- The private key of a request. -/
def Incoming.key : Incoming → List UInt8
  | .genesisTrade r => (r.body.map TradeRequest.privateKeyHex).getD []
  | .buildTx r => (r.body.map BuildRequest.privateKeyHex).getD []

/-- A request is served with a listing of the store, and signed with its key. -/
structure Regular (s : Server) (d : Store) (env : Environment) (incoming : Incoming) : Prop where
  listed : DB.ListsUTXOs d env.listed
  signs : ∀ w, fromHexPrivateKey s.maps incoming.key s.addressPrefix = .ok w →
    ∀ i, SignsFor (env.sign i) w.privateKey

/-- The verifier accepts what `VerifyTransactionInput` accepts. -/
def Honors (verifier : Option SignatureVerifier) : Prop :=
  ∀ (t : Transaction) (i : ℕ) (script : Bytes), Answers (verifyTransactionInput t i script) true →
    ¬ Refuses verifier t i script

/-! ### Payments in the pool -/

section Payment

variable {s : Server} {env : Environment} {n : Node} {w : Wallet} {toScript : Bytes}
  {amount fee : UInt64} {k : ℕ} {t : Transaction}

theorem mem_outputs {script : Bytes} {u : UTXO} (h : u ∈ (env.outputs script).toList) :
    u ∈ env.listed ∧ u.script = script := by
  have hmem := List.mem_filter.mp (List.mem_of_mem_take h)
  exact ⟨hmem.1, of_decide_eq_true hmem.2⟩

theorem nodup_outputs (hlisted : DB.ListsUTXOs n.store env.listed) (script : Bytes) :
    ((env.outputs script).toList.map UTXO.outpoint).Nodup :=
  hlisted.nodup.sublist (((List.take_sublist _ _).trans List.filter_sublist).map _)

theorem spent_of_isCoinbase (h : t.isCoinbase = true) :
    t.spent = [⟨Bytes32.zero, 0xffffffff⟩] := by
  rw [Transaction.isCoinbase] at h
  split at h
  · next input hinputs =>
    obtain ⟨hhash, hidx⟩ := of_decide_eq_true h
    rw [Transaction.spent, hinputs, List.map_singleton, Input.outpoint, hhash, hidx]
  · cases h

/-- A payment from the outputs of the store that is not longer than its fee is spendable. -/
theorem spendable_of_built (hlisted : DB.ListsUTXOs n.store env.listed)
    (howns : OwnsScript s.maps w) (hverifier : Honors s.verifier) (hamount : amount ≠ 0)
    (h : Built w toScript amount fee (env.outputs (ownScript w)).toList k t)
    (hsize : (serializeTransaction t).length ≤ fee.toNat)
    (hcoinbase : t.spent ≠ [⟨Bytes32.zero, 0xffffffff⟩]) :
    Spendable (DB.utxos n.store).view s.verifier 0xffffffffffffffff t := by
  have hview : ∀ u ∈ (env.outputs (ownScript w)).toList.take k,
      (DB.utxos n.store).view u.outpoint = some u :=
    fun u hu ↦ hlisted.view_eq (mem_outputs (List.mem_of_mem_take hu)).1
  have htotal : (DB.utxos n.store).view.inputTotal t =
      totalAmount ((env.outputs (ownScript w)).toList.take k) := by
    rw [View.inputTotal, h.spent_eq, List.map_map, totalAmount]
    refine congrArg List.sum (List.map_congr_left fun u hu ↦ ?_)
    rw [Function.comp_apply, View.amountAt, hview u hu]
    rfl
  have hbalance := h.balance
  obtain ⟨change, hchange, houtputs⟩ := h.outputs_eq
  refine ⟨?_, ?_, ?_, ?_, ?_, ?_, ?_⟩
  · by_contra hcoin
    exact hcoinbase (spent_of_isCoinbase (Bool.not_eq_false _ ▸ hcoin))
  · rw [h.spent_eq]
    exact (nodup_outputs hlisted _).sublist ((List.take_sublist _ _).map _)
  · rintro ⟨input, i⟩ hzip
    have hinput := List.mem_zipIdx_iff_getElem?.mp hzip
    have hi : i < t.inputs.toList.length := (List.getElem?_eq_some_iff.mp hinput).1
    have hmem : input.outpoint ∈ t.spent :=
      List.mem_map_of_mem (List.fst_mem_of_mem_zipIdx hzip)
    rw [h.spent_eq] at hmem
    obtain ⟨u, hu, houtpoint⟩ := List.mem_map.mp hmem
    obtain ⟨unsigned, hsigned⟩ := h.signed
    refine ⟨u, by rw [← houtpoint, hview u hu], fun himmature ↦ himmature.2.1 rfl, ?_⟩
    rw [(mem_outputs (List.mem_of_mem_take hu)).2]
    exact hverifier t i _ (hsigned.answers howns hi)
  · rw [houtputs]
    refine List.forall_mem_cons.mpr ⟨hamount, fun output houtput ↦ ?_⟩
    split at houtput
    · next hpositive =>
      rw [List.mem_singleton.mp houtput]
      rintro rfl
      exact absurd hpositive (by decide)
    · cases houtput
  · rw [htotal]
    exact h.fits
  · rw [htotal, hbalance, outputTotal]
    omega
  · rw [toNat_minFee, View.fee, htotal, hbalance, outputTotal]
    omega

end Payment

section Add

variable {s : Server} {n : Node} {pool : Mempool} {t : Transaction}

theorem makeRoom_of_hasRoom (orders : ℕ → MapOrder fun _ : Hash ↦ Entry) (size rounds : ℕ)
    (h : HasRoom pool size) : pool.makeRoom orders (Int64.ofNat size) rounds = pool := by
  cases rounds with
  | zero => rfl
  | succ rounds => rw [Mempool.makeRoom, if_neg (Int64.not_lt.mpr h)]

/-- If there is room, `Add` leaves the node as it is or inserts the transaction. -/
theorem addTransaction_cases (orders : AddOrders)
    (hroom : HasRoom pool (serializeTransaction t).length) :
    (addTransaction s orders pool t n).2 = n ∨ ∃ fee, (addTransaction s orders pool t n).2 =
      { n with mempool := some (pool.insert t fee
        (Int64.ofNat (serializeTransaction t).length)) } := by
  rw [addTransaction]
  split
  · next pool' n' hrun =>
    obtain ⟨r, -, rfl⟩ := Mempool.add_ok hrun
    obtain rfl := eq_of_run_add hrun
    rw [makeRoom_of_hasRoom _ _ _ hroom]
    exact .inr ⟨r.1, rfl⟩
  · next halt n' hrun =>
    exact .inl (eq_of_run_add hrun)

/-- If moreover the transaction is spendable and the pool spends none of its outpoints, it is
inserted. -/
theorem addTransaction_of_spendable (orders : AddOrders)
    (hroom : HasRoom pool (serializeTransaction t).length)
    (hspendable : Spendable (DB.utxos n.store).view s.verifier 0xffffffffffffffff t)
    (hfree : ∀ outpoint ∈ t.spent, pool.spends.lookup outpoint = none) :
    ∃ fee, (addTransaction s orders pool t n).2 = { n with mempool := some (pool.insert t fee
      (Int64.ofNat (serializeTransaction t).length)) } := by
  have hpending : ∀ outpoint ∈ t.spent,
      outpoint ∉ (orders.spends.list pool.spends).map Sigma.fst := by
    intro outpoint hmem hold
    obtain ⟨hash, hlookup⟩ := Mempool.mem_pending.mp hold
    rw [hfree outpoint hmem] at hlookup
    cases hlookup
  obtain ⟨fee, hvalidate⟩ := hspendable.passes (readsView_get n) hpending
  have hrun := Mempool.run_add (m := pool) hvalidate
  rw [makeRoom_of_hasRoom _ _ _ hroom] at hrun
  refine ⟨fee, ?_⟩
  rw [addTransaction, hrun]

/-- A transaction that spends what the pool spends is refused. -/
theorem addTransaction_of_spent (orders : AddOrders) {outpoint : Outpoint} {hash : Hash}
    (hmem : outpoint ∈ t.spent) (hspent : pool.spends.lookup outpoint = some hash) :
    (addTransaction s orders pool t n).2 = n := by
  rw [addTransaction]
  split
  · next pool' n' hrun =>
    obtain ⟨r, hvalidate, -⟩ := Mempool.add_ok hrun
    have hpending := ((validateTransactionAt_eq_ok_iff (readsView_get n)).mp hvalidate).2.2.1
    exact absurd (Mempool.mem_pending.mpr ⟨hash, hspent⟩) (hpending outpoint hmem)
  · next halt n' hrun => exact eq_of_run_add hrun

end Add

/-! ### One request -/

theorem Regular.signs_of_key {s : Server} {d : Store} {env : Environment} {incoming : Incoming}
    (h : Regular s d env incoming) {key : List UInt8} (hkey : incoming.key = key) {w : Wallet}
    (hwallet : fromHexPrivateKey s.maps key s.addressPrefix = .ok w) (i : ℕ) :
    SignsFor (env.sign i) w.privateKey :=
  h.signs w (hkey ▸ hwallet) i

/-- A payment that a handler builds, with what it selects. -/
theorem selects_of_build {s : Server} {env : Environment} {key toAddress : List UInt8}
    {amount fee : UInt64} {w : Wallet} {t : Transaction} (hprinted : LowerPrintable s.addressPrefix)
    (hwallet : fromHexPrivateKey s.maps key s.addressPrefix = .ok w)
    (hsign : ∀ i, SignsFor (env.sign i) w.privateKey)
    (hbuild : buildTransaction s.maps w env.sign env.provider toAddress amount fee = .ok t) :
    OwnsScript s.maps w ∧ ∃ toScript k,
      Built w toScript amount fee (env.outputs (ownScript w)).toList k t ∧
      Selects s env key toAddress (amount.toNat + fee.toNat)
        ((env.outputs (ownScript w)).toList.take k) (serializeTransaction t).length := by
  obtain ⟨hsame, howns⟩ := of_fromHexPrivateKey hprinted hwallet
  obtain ⟨toScript, utxos, k, hto, hutxos, hbuilt⟩ :=
    of_buildTransaction howns.script_eq hsign hbuild
  obtain rfl : env.outputs (ownScript w) = utxos := Except.ok.inj hutxos
  rw [hsame] at hto
  exact ⟨howns, toScript, k, hbuilt, w, toScript, k, hwallet, hto, hbuilt.shortest, rfl,
    hbuilt.length_serializeTransaction howns.length_publicKey⟩

section Step

variable {s : Server} {env : Environment} {n : Node}

/-- The node with a transaction inserted into its pool. -/
def inserted (n : Node) (pool : Mempool) (t : Transaction) (fee : UInt64) : Node :=
  { n with mempool := some (pool.insert t fee (Int64.ofNat (serializeTransaction t).length)) }

/-- The payment of a trade that meets the condition is inserted. -/
theorem addTransaction_of_fits (req : TradeRequest) {w : Wallet} {toScript : Bytes} {k : ℕ}
    {t : Transaction} (hlisted : DB.ListsUTXOs n.store env.listed) (howns : OwnsScript s.maps w)
    (hverifier : Honors s.verifier) (hamount : req.amount ≠ 0)
    (hbuilt : Built w toScript req.amount tradeFee (env.outputs (ownScript w)).toList k t)
    (hselects : Selects s env req.privateKeyHex req.poolAddress (req.amount.toNat + tradeFee.toNat)
      ((env.outputs (ownScript w)).toList.take k) (serializeTransaction t).length)
    (hfits : TradeFits s env req n) :
    ∃ pool fee, n.mempool = some pool ∧
      (∀ outpoint ∈ t.spent, pool.spends.lookup outpoint = none) ∧
      (addTransaction s env.orders pool t n).2 = inserted n pool t fee := by
  obtain ⟨hsize, hcoinbase, pool, hpool, hroom, hfree⟩ := hfits _ _ hselects
  have hspendable := spendable_of_built hlisted howns hverifier hamount hbuilt hsize
    (by rwa [hbuilt.spent_eq])
  have hunspent : ∀ outpoint ∈ t.spent, pool.spends.lookup outpoint = none := by
    rw [hbuilt.spent_eq]
    exact List.forall_mem_map.mpr hfree
  obtain ⟨fee, hadd⟩ := addTransaction_of_spendable env.orders hroom hspendable hunspent
  exact ⟨pool, fee, hpool, hunspent, hadd⟩

/-- A trade that meets the condition is not reported and changes nothing, or it is reported and its
payment inserted, of which the pool spent nothing. -/
theorem genesisTrade_cases {r : Request TradeRequest} (hprinted : LowerPrintable s.addressPrefix)
    (hverifier : Honors s.verifier) (hregular : Regular s n.store env (.genesisTrade r))
    (hfits : Fits s env n (.genesisTrade r)) :
    (∀ hash, ¬ (serve s env n (.genesisTrade r)).answer.ReportsHash hash) ∧
        (serve s env n (.genesisTrade r)).after = n ∨
      ∃ pool t fee, (serve s env n (.genesisTrade r)).answer.ReportsHash t.hash ∧
        n.mempool = some pool ∧ (∀ outpoint ∈ t.spent, pool.spends.lookup outpoint = none) ∧
        (serve s env n (.genesisTrade r)).after = inserted n pool t fee := by
  dsimp only [serve]
  rcases genesisTrade_spec s env r n with
    ⟨hsilent, hsame⟩ | ⟨req, wlt, t, hbody, hgiven, hwallet, hbuild, hanswer⟩
  · refine .inl ⟨?_, hsame⟩
    rintro hash ⟨side, ticker, fromAddress, toAddress, amount, fee, heq⟩
    exact hsilent hash side ticker fromAddress toAddress amount fee (Answer.genesisTrade.inj heq)
  have hkey : (Incoming.genesisTrade r).key = req.privateKeyHex := by
    rw [Incoming.key, hbody]
    rfl
  obtain ⟨howns, toScript, k, hbuilt, hselects⟩ := selects_of_build hprinted hwallet
    (hregular.signs_of_key hkey hwallet) hbuild
  have hamount : req.amount ≠ 0 := by
    intro hzero
    rw [hzero] at hgiven
    exact absurd hgiven.2.2 (by decide)
  obtain ⟨pool, fee, hpool, hunspent, hadd⟩ := addTransaction_of_fits req hregular.listed
    howns hverifier hamount hbuilt hselects (hfits req hbody)
  rw [hanswer, hpool]
  exact .inr ⟨pool, t, fee, ⟨_, _, _, _, _, _, rfl⟩, rfl, hunspent, hadd⟩

/-- A trade whose payment can be built is reported, whatever `Add` returns. -/
theorem serve_genesisTrade {r : Request TradeRequest} {req : TradeRequest} {pool : Mempool}
    {wlt : Wallet} {t : Transaction} (hmethod : r.method = "POST") (hbody : r.body = some req)
    (hgiven : req.privateKeyHex ≠ [] ∧ req.poolAddress ≠ [] ∧ req.amount > 0)
    (hwallet : fromHexPrivateKey s.maps req.privateKeyHex s.addressPrefix = .ok wlt)
    (hbuild :
      buildTransaction s.maps wlt env.sign env.provider req.poolAddress req.amount tradeFee =
      .ok t) (hpool : n.mempool = some pool) :
    (serve s env n (.genesisTrade r)).answer.ReportsHash t.hash ∧
      (serve s env n (.genesisTrade r)).after = (addTransaction s env.orders pool t n).2 := by
  dsimp only [serve]
  rw [genesisTrade, if_neg (not_not.mpr hmethod), hbody]
  dsimp only
  rw [if_pos hgiven, hwallet]
  dsimp only
  rw [hbuild]
  dsimp only
  rw [hpool]
  exact ⟨⟨_, _, _, _, _, _, rfl⟩, rfl⟩

/-- A request to build a transaction that meets the condition changes nothing or inserts it. -/
theorem buildTx_cases {r : Request BuildRequest} (hprinted : LowerPrintable s.addressPrefix)
    (hregular : Regular s n.store env (.buildTx r)) (hfits : Fits s env n (.buildTx r)) :
    (serve s env n (.buildTx r)).after = n ∨ ∃ pool t fee, n.mempool = some pool ∧
      (serve s env n (.buildTx r)).after = inserted n pool t fee := by
  dsimp only [serve]
  rcases buildTx_spec s env r n with
    hsame | ⟨req, w2, t, pool, hbody, hwallet, hbuild, hpool, hafter⟩
  · exact .inl hsame
  have hkey : (Incoming.buildTx r).key = req.privateKeyHex := by
    rw [Incoming.key, hbody]
    rfl
  obtain ⟨-, toScript, k, -, hselects⟩ := selects_of_build hprinted hwallet
    (hregular.signs_of_key hkey hwallet) hbuild
  rw [hafter]
  exact (addTransaction_cases env.orders (hfits req hbody _ _ hselects pool hpool)).imp_right
    fun ⟨fee, h⟩ ↦ ⟨pool, t, fee, hpool, h⟩

end Step

/-! ### All requests -/

/-- The pool of a node spends an outpoint. -/
def Spends (n : Node) (outpoint : Outpoint) : Prop :=
  ∃ pool hash, n.mempool = some pool ∧ pool.spends.lookup outpoint = some hash

section Run

variable {s : Server} {env : Environment} {n : Node} {pool : Mempool} {t : Transaction}
  {fee : UInt64}

theorem spends_inserted_of_mem {outpoint : Outpoint} (h : outpoint ∈ t.spent) :
    Spends (inserted n pool t fee) outpoint := by
  refine ⟨_, t.hash, rfl, ?_⟩
  rw [Mempool.lookup_spends_insert, if_pos h]

/-- An insertion keeps what was spent. -/
theorem spends_inserted {outpoint : Outpoint} (hpool : n.mempool = some pool)
    (h : Spends n outpoint) : Spends (inserted n pool t fee) outpoint := by
  obtain ⟨pool', hash, hpool', hlookup⟩ := h
  cases hpool.symm.trans hpool'
  by_cases hmem : outpoint ∈ t.spent
  · exact spends_inserted_of_mem hmem
  · refine ⟨_, hash, rfl, ?_⟩
    rw [Mempool.lookup_spends_insert, if_neg hmem, hlookup]

/-- What is reported with the hash of an inserted transaction is this transaction. -/
theorem reports_inserted {served : Served} (h : served.answer.ReportsHash t.hash)
    (hafter : served.after = inserted n pool t fee) (t' : Transaction) :
    served.Reports t' ↔ t = t' := by
  have hlookup : (pool.insert t fee (Int64.ofNat (serializeTransaction t).length)).txs.lookup
      t.hash = some ⟨t, fee, Int64.ofNat (serializeTransaction t).length⟩ :=
    Finmap.lookup_insert _
  constructor
  · rintro ⟨hash, pool', e, ⟨_, _, _, _, _, _, heq'⟩, hpool', he, rfl⟩
    obtain ⟨_, _, _, _, _, _, heq⟩ := h
    cases heq.symm.trans heq'
    rw [hafter] at hpool'
    cases hpool'
    cases hlookup.symm.trans he
    rfl
  · rintro rfl
    exact ⟨_, _, _, h, by rw [hafter]; rfl, hlookup, rfl⟩

variable (hprinted : LowerPrintable s.addressPrefix) (hverifier : Honors s.verifier)

include hprinted hverifier

/-- What one request can do, if it meets the condition. -/
theorem serve_cases {incoming : Incoming} (hregular : Regular s n.store env incoming)
    (hfits : Fits s env n incoming) :
    (∀ hash, ¬ (serve s env n incoming).answer.ReportsHash hash) ∧
        ((serve s env n incoming).after = n ∨ ∃ pool t fee, n.mempool = some pool ∧
          (serve s env n incoming).after = inserted n pool t fee) ∨
      ∃ pool t fee, (serve s env n incoming).answer.ReportsHash t.hash ∧ n.mempool = some pool ∧
        (∀ outpoint ∈ t.spent, pool.spends.lookup outpoint = none) ∧
        (serve s env n incoming).after = inserted n pool t fee := by
  cases incoming with
  | genesisTrade r =>
    exact (genesisTrade_cases hprinted hverifier hregular hfits).imp_left (And.imp_right .inl)
  | buildTx r =>
    refine .inl ⟨?_, buildTx_cases hprinted hregular hfits⟩
    rintro hash ⟨_, _, _, _, _, _, heq⟩
    cases heq

/-- A request that meets the condition keeps the store and what the pool spends. -/
theorem serve_keeps {incoming : Incoming} (hregular : Regular s n.store env incoming)
    (hfits : Fits s env n incoming) :
    (serve s env n incoming).after.store = n.store ∧
      ∀ outpoint, Spends n outpoint → Spends (serve s env n incoming).after outpoint := by
  rcases serve_cases hprinted hverifier hregular hfits with
    ⟨-, hafter | ⟨pool, t, fee, hpool, hafter⟩⟩ | ⟨pool, t, fee, -, hpool, -, hafter⟩
  · rw [hafter]
    exact ⟨rfl, fun _ h ↦ h⟩
  · rw [hafter]
    exact ⟨rfl, fun _ ↦ spends_inserted hpool⟩
  · rw [hafter]
    exact ⟨rfl, fun _ ↦ spends_inserted hpool⟩

/-- A reported transaction spends nothing that the pool spent before, and the pool spends it. -/
theorem spends_of_reports {incoming : Incoming} (hregular : Regular s n.store env incoming)
    (hfits : Fits s env n incoming) {t : Transaction}
    (h : (serve s env n incoming).Reports t) :
    ∀ outpoint ∈ t.spent, ¬ Spends n outpoint ∧ Spends (serve s env n incoming).after outpoint := by
  obtain ⟨hash, -, -, hreports, -⟩ := id h
  rcases serve_cases hprinted hverifier hregular hfits with
    ⟨hsilent, -⟩ | ⟨pool, t', fee, hreports', hpool, hfree, hafter⟩
  · exact absurd hreports (hsilent hash)
  · obtain rfl := (reports_inserted hreports' hafter t).mp h
    intro outpoint hmem
    refine ⟨?_, hafter ▸ spends_inserted_of_mem hmem⟩
    rintro ⟨pool', hash', hpool', hlookup⟩
    cases hpool.symm.trans hpool'
    rw [hfree outpoint hmem] at hlookup
    cases hlookup

/-- Along a run nothing is reported that the pool spends at its start. -/
theorem not_spends_of_reports {requests : List (Environment × Incoming)}
    (hregular : ∀ p ∈ requests, Regular s n.store p.1 p.2) (hfits : AllFit s requests n) :
    ∀ served ∈ serveAll s requests n, ∀ t, served.Reports t →
      ∀ outpoint ∈ t.spent, ¬ Spends n outpoint := by
  induction requests generalizing n with
  | nil => exact List.forall_mem_nil _
  | cons p rest ih =>
    obtain ⟨hfirst, hrest⟩ := List.forall_mem_cons.mp hregular
    obtain ⟨hstore, hkeeps⟩ := serve_keeps hprinted hverifier hfirst hfits.1
    refine List.forall_mem_cons.mpr ⟨fun t ht outpoint hmem ↦
      (spends_of_reports hprinted hverifier hfirst hfits.1 ht outpoint hmem).1, ?_⟩
    intro served hserved t ht outpoint hmem hspends
    exact ih (hstore ▸ hrest) hfits.2 served hserved t ht outpoint hmem (hkeeps outpoint hspends)

end Run

/-- In every sequence of requests that meet the condition, the answers of type `genesis_utxo` report
transactions that are in the pool at that moment, and no two of them spend the same outpoint. -/
theorem trades_pending {s : Server} {requests : List (Environment × Incoming)} {n : Node}
    (hprinted : LowerPrintable s.addressPrefix) (hverifier : Honors s.verifier)
    (hregular : ∀ p ∈ requests, Regular s n.store p.1 p.2) (hfits : AllFit s requests n) :
    PendingTrades (serveAll s requests n) := by
  induction requests generalizing n with
  | nil => exact ⟨List.forall_mem_nil _, List.Pairwise.nil⟩
  | cons p rest ih =>
    obtain ⟨hfirst, hrest⟩ := List.forall_mem_cons.mp hregular
    obtain ⟨hstore, -⟩ := serve_keeps hprinted hverifier hfirst hfits.1
    rw [← hstore] at hrest
    obtain ⟨hpending, hdisjoint⟩ := ih hrest hfits.2
    refine ⟨List.forall_mem_cons.mpr ⟨fun hash hreports ↦ ?_, hpending⟩,
      List.Pairwise.cons (fun served hserved t t' ht ht' outpoint hmem hmem' ↦ ?_) hdisjoint⟩
    · rcases serve_cases hprinted hverifier hfirst hfits.1 with
        ⟨hsilent, -⟩ | ⟨pool, t, fee, hreports', -, -, hafter⟩
      · exact absurd hreports (hsilent hash)
      · exact ⟨t, (reports_inserted hreports' hafter t).mpr rfl⟩
    · exact not_spends_of_reports hprinted hverifier hrest hfits.2 served hserved t' ht' outpoint
        hmem' (spends_of_reports hprinted hverifier hfirst hfits.1 ht outpoint hmem).2

/-! ### Two keys with one output each -/

/-- `VerifyTransactionInput` as the verifier of a pool. A panic counts as a refusal. -/
def walletVerifier : SignatureVerifier := fun t i script ↦
  match ((verifyTransactionInput t i script).run collect []).1 with
  | .ok answer => answer
  | .error _ => false

theorem honors_walletVerifier : Honors (some walletVerifier) := by
  intro t i script h hrefuses
  rw [Refuses, Option.any_some, walletVerifier, h []] at hrefuses
  cases hrefuses

namespace Sample

/-- The script that pays to the private key two. -/
def scriptTwo : Bytes := .ofList (beBytes 26 0x7032706b683a06afd46bcdfd22ef94ac122aa11f241244a37ecc)

/-- The coinbase of a block on top of genesis, with one half of the reward for the private key one
and the other half for the private key two. -/
def coinbase : Transaction :=
  { newCoinbase (Manager.minedAt 1790000000) initialReward Wallet.Sample.script with
    outputs := .ofList [
      { amount := initialReward / 2, lockingScript := Wallet.Sample.script },
      { amount := initialReward / 2, lockingScript := scriptTwo }] }

def root : ℕ := 0xdcd1b428dd6dbf4989657de9780bfeab74a78852caa4f8cb80f5ed2c3649b26a

def genesisValue : ℕ := 0x502a0f3951b534514cb7ee43f068aeb40287d79c38516f993d40821c12ed0287

def block : Block := Regtest.blockOn genesisValue root 1 1 [coinbase]

def blockValue : ℕ := 0x265a3bd8db340f635a15e9f1a1ae411c2a77ef87e413761887c0b5294a3994dd

/-- An output of the block. -/
def coin (outputIdx : UInt32) (script : Bytes) : UTXO where
  txHash := Regtest.hash root
  outputIdx := outputIdx
  amount := initialReward / 2
  script := script
  height := 1
  coinbase := true

def coinOne : UTXO := coin 0 Wallet.Sample.script

def coinTwo : UTXO := coin 1 scriptTwo

theorem hash_coinbase : coinbase.hash = Regtest.hash root :=
  Regtest.doubleSha256_eq (by decide +kernel)

theorem headerValue_block : Regtest.headerValue genesisValue root 1 1 = blockValue := by
  decide +kernel

theorem hashValue_genesis : hashValue Regtest.genesis.hash = genesisValue := by
  rw [Regtest.genesis_hash]
  exact Regtest.hashValue_hash (by decide)

theorem validOn_block : ValidOn Regtest.manager 1790000000 block Regtest.genesis [] := by
  have hlength : [coinbase].length < 2 ^ 31 := by
    rw [List.length_singleton]
    decide
  have hvalid : ValidOn Regtest.manager 1790000000 (Regtest.blockOn (hashValue Regtest.genesis.hash)
      root (Regtest.genesis.header.height + 1) 1 [coinbase]) Regtest.genesis [] := by
    refine Regtest.validOn_blockOn rfl (by decide) hlength hash_coinbase (by decide) ?_ fun n _ ↦ ?_
    · rw [hashValue_genesis]
      change Regtest.headerValue genesisValue root 1 1 ≤ _
      rw [headerValue_block]
      decide
    · exact run_validateBlockTransactions_of_coinbase rfl rfl (by decide)
  rw [hashValue_genesis] at hvalid
  exact hvalid

theorem hash_ne_block : ∀ x ∈ [Regtest.genesis], x.hash ≠ block.hash := by
  intro x hx heq
  have hvalue := congrArg hashValue heq
  rw [List.mem_singleton.mp hx, hashValue_genesis, block,
    Regtest.hash_blockOn (by decide) (by decide), headerValue_block,
    Regtest.hashValue_hash (by decide)] at hvalue
  exact absurd hvalue (by decide)

/-- The ledger after the block: the outputs of the block and of genesis. -/
theorem replay_block : Ledger.replay [block, Regtest.genesis] =
    ((Ledger.replay [Regtest.genesis]).insert coinOne.outpoint ⟨coinOne, rfl⟩).insert
      coinTwo.outpoint ⟨coinTwo, rfl⟩ := by
  have hops : Ledger.blockOps block =
      [Ledger.setRecord { coinOne with txHash := coinbase.hash },
        Ledger.setRecord { coinTwo with txHash := coinbase.hash }] := rfl
  rw [Ledger.replay, Ledger.apply, hops, hash_coinbase]
  rfl

/-- The outputs after the block. -/
def listed : List UTXO := [coinTwo, coinOne, Regtest.genesisCoin]

theorem listing_block :
    Ledger.listing (Ledger.replay [block, Regtest.genesis]) = (listed : Multiset UTXO) := by
  have hone : coinOne.outpoint ∉ Ledger.replay [Regtest.genesis] := by
    rw [Regtest.replay_genesis, Finmap.mem_insert, not_or]
    exact ⟨by decide, Finmap.notMem_empty⟩
  have htwo : coinTwo.outpoint ∉
      (Ledger.replay [Regtest.genesis]).insert coinOne.outpoint ⟨coinOne, rfl⟩ := by
    rw [Regtest.replay_genesis, Finmap.mem_insert, Finmap.mem_insert, not_or, not_or]
    exact ⟨by decide, by decide, Finmap.notMem_empty⟩
  rw [replay_block, Ledger.listing, Finmap.entries_insert_of_notMem htwo,
    Finmap.entries_insert_of_notMem hone, Regtest.replay_genesis,
    Finmap.entries_insert_of_notMem Finmap.notMem_empty]
  rfl

/-- A run of the regression test network that ends with the outputs of genesis and of the block. -/
theorem exists_paid (maxBytes : Int64) :
    ∃ tips n, Run Regtest.manager PositiveHeight Regtest.genesis tips n ∧
      n.mempool = some (Mempool.new maxBytes) ∧ DB.ListsUTXOs n.store listed := by
  have hstart : Run Regtest.manager PositiveHeight Regtest.genesis [Regtest.genesis]
      ⟨DB.extend ∅ Regtest.genesis, some (Mempool.new maxBytes)⟩ := .start (Regtest.startsWith _)
  obtain ⟨n, -, hstore, hmempool, hrun⟩ := hstart.extend (fun _ _ _ h ↦ h) validOn_block.height
    validOn_block Regtest.genesis_inLimits hash_ne_block 1
  refine ⟨_, n, hrun, hmempool, ?_⟩
  obtain ⟨-, hholds⟩ := hrun.holds fun _ _ _ h ↦ h
  rw [DB.ListsUTXOs, hholds.ledger, listing_block]

/-- A server of the regression test network. -/
def server : Server where
  maps := Wallet.Sample.asciiMaps
  chainPrefix := some [0x72, 0x6e, 0x65, 0x76, 0x65, 0x6c]
  verifier := some walletVerifier

noncomputable def environment : Environment where
  listed := listed
  orders := Mempool.someOrders
  sign := fun _ ↦ Wallet.Sample.signer

/-- The private keys one and two in hexadecimal form. -/
def keyOne : List UInt8 := [0x30, 0x31]

def keyTwo : List UInt8 := [0x30, 0x32]

/-- A trade of a key. -/
def trade (key address : List UInt8) (amount : UInt64) : Incoming :=
  .genesisTrade ⟨"POST", some ⟨key, address, amount, [], [], [], []⟩⟩

theorem lowerPrintable : LowerPrintable server.addressPrefix :=
  ⟨by simp [server, Server.addressPrefix], by simp [server, Server.addressPrefix]⟩

/-- The wallet of a key has one of the outputs. -/
structure HasCoin (key : List UInt8) (w : Wallet) (u : UTXO) : Prop where
  key_ne : key ≠ []
  wallet : fromHexPrivateKey server.maps key server.addressPrefix = .ok w
  signs : ∀ i, SignsFor (environment.sign i) w.privateKey
  outputs : (environment.outputs (ownScript w)).toList = [u]
  amount : u.amount = initialReward / 2
  outpoint : u.outpoint ≠ ⟨Bytes32.zero, 0xffffffff⟩

/-- The outputs that pay to a script. -/
theorem outputs_eq {script : Bytes} {u : UTXO}
    (h : listed.filter (fun u ↦ u.script = script) = [u]) :
    (environment.outputs script).toList = [u] := by
  have hlisted : environment.listed = listed := rfl
  rw [Environment.outputs, hlisted, h,
    Slice.toList_ofList (by rw [List.length_singleton]; decide)]

/-- A key whose public key and script are known has the output that pays to it. -/
theorem exists_hasCoin {key : List UInt8} {u : UTXO} (bytes pub : List UInt8)
    (hkey : key ≠ []) (hbytes : decodeHex key = .ok bytes) (hdvd : ¬ secp256k1.N ∣ beValue bytes)
    (hmarshal : marshalCompressed (coordsOf (beValue bytes • basePoint)) = some pub)
    (hfilter : listed.filter (fun u ↦ u.script = .ofList (scriptForPubKeyHash (hash160 pub))) = [u])
    (hamount : u.amount = initialReward / 2)
    (houtpoint : u.outpoint ≠ ⟨Bytes32.zero, 0xffffffff⟩) : ∃ w, HasCoin key w u := by
  have hcurve := isOnCurve_coordsOf
    (mt (nsmul_eq_zero_iff_dvd basePoint_ne_zero (beValue bytes)).mp hdvd)
  obtain ⟨w, hwallet, hpriv, -, howns⟩ := exists_fromPrivateKey server.maps
    ⟨beValue bytes, coordsOf (beValue bytes • basePoint)⟩ hcurve lowerPrintable
  have hpublic : w.publicKey.toList = pub := by
    have hkey : unmarshalCompressed w.publicKey.toList = coordsOf (beValue bytes • basePoint) := by
      rw [howns.key_eq, hpriv]
    have hx : (unmarshalCompressed w.publicKey.toList).x ≠ none := by
      obtain ⟨x, y, hcoords⟩ := exists_of_isOnCurve hcurve
      rw [hkey, hcoords]
      exact Option.some_ne_none x
    have hback := (marshalCompressed_unmarshalCompressed hx).2
    rw [hkey, hmarshal] at hback
    exact (Option.some.inj hback).symm
  refine ⟨w, hkey, (fromHexPrivateKey_of_ok hbytes).trans hwallet, fun _ ↦ ?_, ?_, hamount,
    houtpoint⟩
  · rw [hpriv]
    exact Wallet.Sample.signsFor_signer_of_not_dvd hdvd
  · rw [ownScript, hpublic]
    exact outputs_eq hfilter

theorem exists_one : ∃ w, HasCoin keyOne w coinOne := by
  have hnumber : beValue [1] = 1 := by decide
  refine exists_hasCoin [1] Wallet.Sample.publicKey (by decide) (by decide) (by decide) ?_ ?_ rfl
    (by decide)
  · rw [hnumber, one_nsmul, coordsOf_basePoint]
    decide +kernel
  · rw [Wallet.Sample.hash160_publicKey]
    decide +kernel

/-- The compressed double of the base point, the public key of the private key two. -/
def publicKeyTwo : List UInt8 :=
  beBytes 33 0x02c6047f9441ed7d6d3045406e95c07cd85c778e4b8cef3ca7abac09b95c709ee5

theorem hash160_publicKeyTwo :
    hash160 publicKeyTwo = beBytes 20 0x06afd46bcdfd22ef94ac122aa11f241244a37ecc := by
  rw [hash160, toList_sha256]
  decide +kernel

theorem exists_two : ∃ w, HasCoin keyTwo w coinTwo := by
  have hnumber : beValue [2] = 2 := by decide
  refine exists_hasCoin [2] publicKeyTwo (by decide) (by decide) (by decide) ?_ ?_ rfl (by decide)
  · rw [hnumber, two_nsmul, Wallet.Sample.coordsOf_double]
    decide +kernel
  · rw [hash160_publicKeyTwo]
    decide +kernel

theorem eq_one_of_shortestPrefix {u : UTXO} {need n : ℕ} (hneed : 0 < need)
    (h : ShortestPrefix [u] need n) : n = 1 := by
  have hle := h.le_length
  have hreaches := h.reaches
  rw [List.length_singleton] at hle
  cases n with
  | zero => exact absurd hreaches (Nat.not_le.mpr hneed)
  | succ n => omega

section Trade

variable {key : List UInt8} {w : Wallet} {u : UTXO} (h : HasCoin key w u)

include h

theorem HasCoin.same : w.addressPrefix = server.addressPrefix :=
  (of_fromHexPrivateKey lowerPrintable h.wallet).1

theorem HasCoin.owns : OwnsScript server.maps w :=
  (of_fromHexPrivateKey lowerPrintable h.wallet).2

theorem HasCoin.totalAmount_eq : totalAmount [u] = 25000000000 := by
  rw [totalAmount, List.map_singleton, List.sum_singleton, h.amount]
  decide

/-- The key pays any amount that the output covers to its own address. -/
theorem exists_built (amount : UInt64) (hamount : amount ≠ 0)
    (hfunds : amount.toNat + 1000 ≤ 25000000000) :
    ∃ t n, buildTransaction server.maps w environment.sign environment.provider w.address amount
        tradeFee = .ok t ∧
      Built w (ownScript w) amount tradeFee (environment.outputs (ownScript w)).toList n t := by
  have hfee : tradeFee.toNat = 1000 := rfl
  have htotal : totalAmount (environment.outputs (ownScript w)).toList = 25000000000 := by
    rw [h.outputs, h.totalAmount_eq]
  exact (buildTransaction_of_fits hamount (by omega) h.owns.script_eq h.owns.script_eq rfl
    (by omega) h.signs).2 (by omega)

/-- A payment of the key takes the output. -/
theorem spent_built {amount : UInt64} {n : ℕ} {t : Transaction} (hamount : amount ≠ 0)
    (hbuilt : Built w (ownScript w) amount tradeFee (environment.outputs (ownScript w)).toList n
      t) : t.spent = [u.outpoint] := by
  have hspent := hbuilt.spent_eq
  have hshortest := hbuilt.shortest
  rw [h.outputs] at hspent hshortest
  obtain rfl := eq_one_of_shortestPrefix (by
    have hpositive := Nat.pos_of_ne_zero fun hzero ↦ hamount (UInt64.toNat_inj.mp hzero)
    omega) hshortest
  exact hspent

/-- A trade of the key selects its output, and the payment takes 261 bytes. -/
theorem of_selects {selected : List UTXO} {size : ℕ}
    (hselects : Selects server environment key w.address ((1000 : UInt64).toNat + 1000)
      selected size) : selected = [u] ∧ size = 261 := by
  obtain ⟨w', toScript, k, hwallet, hto, hshortest, hselected, hsize⟩ := hselects
  cases h.wallet.symm.trans hwallet
  rw [← h.same] at hto
  cases h.owns.script_eq.symm.trans hto
  rw [h.outputs] at hshortest hselected
  obtain rfl := eq_one_of_shortestPrefix (Nat.succ_pos _) hshortest
  obtain rfl : selected = [u] := hselected
  have hchange : ¬ 25000000000 - ((1000 : UInt64).toNat + 1000) = 0 := by decide
  rw [paymentSize, length_ownScript, h.totalAmount_eq, if_neg hchange] at hsize
  exact ⟨rfl, hsize⟩

/-- A trade of the key meets the condition while the pool has room and does not spend the output. -/
theorem fits_trade {n : Node} {pool : Mempool} (hpool : n.mempool = some pool)
    (hroom : HasRoom pool 261) (hfree : pool.spends.lookup u.outpoint = none) :
    Fits server environment n (trade key w.address 1000) := by
  rintro req hreq selected size hselects
  cases hreq
  obtain ⟨rfl, rfl⟩ := of_selects h hselects
  refine ⟨by decide, ?_, pool, hpool, hroom, List.forall_mem_singleton.mpr hfree⟩
  exact fun heq ↦ h.outpoint (List.singleton_injective heq)

/-- A trade of the key is reported, whatever `Add` returns. -/
theorem reports_trade {amount : UInt64} (hamount : amount > 0) {t : Transaction}
    (hbuild : buildTransaction server.maps w environment.sign environment.provider w.address amount
      tradeFee = .ok t) {n : Node} {pool : Mempool} (hpool : n.mempool = some pool) :
    (serve server environment n (trade key w.address amount)).answer.ReportsHash t.hash ∧
      (serve server environment n (trade key w.address amount)).after =
        (addTransaction server environment.orders pool t n).2 := by
  have haddress : w.address ≠ [] := by
    intro hnil
    have hscript := h.owns.script_eq
    rw [hnil] at hscript
    cases hscript
  rw [trade]
  exact serve_genesisTrade rfl rfl ⟨h.key_ne, haddress, hamount⟩ h.wallet hbuild hpool

/-- While the pool has room and does not spend the output, the payment is inserted. -/
theorem serve_trade {n : Node} {pool : Mempool} (hpool : n.mempool = some pool)
    (hroom : HasRoom pool 261) (hfree : pool.spends.lookup u.outpoint = none)
    (hlisted : DB.ListsUTXOs n.store listed) :
    ∃ t fee, (serve server environment n (trade key w.address 1000)).answer.ReportsHash t.hash ∧
      (serve server environment n (trade key w.address 1000)).after = inserted n pool t fee ∧
      t.spent = [u.outpoint] ∧ (serializeTransaction t).length = 261 := by
  have hamount : (1000 : UInt64) ≠ 0 := by decide
  obtain ⟨t, k, hbuild, hpays⟩ := exists_built h 1000 hamount (by decide)
  obtain ⟨-, toScript, k', hbuilt, hselects⟩ :=
    selects_of_build lowerPrintable h.wallet h.signs hbuild
  have hfits : TradeFits server environment ⟨key, w.address, 1000, [], [], [], []⟩ n :=
    fits_trade h hpool hroom hfree _ rfl
  obtain ⟨pool', fee, hpool', -, hadd⟩ := addTransaction_of_fits
    ⟨key, w.address, 1000, [], [], [], []⟩ hlisted h.owns honors_walletVerifier hamount hbuilt
    hselects hfits
  cases hpool.symm.trans hpool'
  obtain ⟨hreports, hafter⟩ := reports_trade h (by decide) hbuild hpool
  exact ⟨t, fee, hreports, hafter.trans hadd, spent_built h hamount hpays,
    (of_selects h hselects).2⟩

theorem regular_trade {n : Node} (hlisted : DB.ListsUTXOs n.store listed) (amount : UInt64) :
    Regular server n.store environment (trade key w.address amount) := by
  refine ⟨hlisted, fun w' hwallet i ↦ ?_⟩
  cases h.wallet.symm.trans hwallet
  exact h.signs i

end Trade

theorem hasRoom_new : HasRoom (Mempool.new 67108864) 261 := by
  rw [HasRoom]
  decide

/-- A payment leaves room for another one. -/
theorem hasRoom_insert {t : Transaction} (fee : UInt64)
    (hlength : (serializeTransaction t).length = 261) :
    HasRoom ((Mempool.new 67108864).insert t fee
      (Int64.ofNat (serializeTransaction t).length)) 261 := by
  rw [hlength, HasRoom]
  change 0 + Int64.ofNat 261 + Int64.ofNat 261 ≤ 67108864
  decide

end Sample

/-- Two keys trade one after the other. Both payments are reported and in the pool, and they spend
different outputs. -/
theorem trades_pending_sample :
    ∃ tips n address address' served served' t t',
      Run Regtest.manager PositiveHeight Regtest.genesis tips n ∧
      serveAll Sample.server
        [(Sample.environment, Sample.trade Sample.keyOne address 1000),
          (Sample.environment, Sample.trade Sample.keyTwo address' 1000)] n =
        [served, served'] ∧
      served.Reports t ∧ served'.Reports t' ∧ List.Disjoint t.spent t'.spent := by
  obtain ⟨tips, n, hrun, hpool, hlisted⟩ := Sample.exists_paid 67108864
  obtain ⟨w, hone⟩ := Sample.exists_one
  obtain ⟨w', htwo⟩ := Sample.exists_two
  obtain ⟨t, fee, hreports, hafter, hspent, hlength⟩ :=
    Sample.serve_trade hone hpool Sample.hasRoom_new rfl hlisted
  -- The pool after the first trade does not spend the output of the second key.
  have hfree : ((Mempool.new 67108864).insert t fee
      (Int64.ofNat (serializeTransaction t).length)).spends.lookup Sample.coinTwo.outpoint =
        none := by
    rw [Mempool.lookup_spends_insert, hspent, if_neg (by decide)]
    rfl
  have hsecond := Sample.hasRoom_insert fee hlength
  obtain ⟨t', fee', hreports', -⟩ := Sample.serve_trade htwo
    (show (inserted n (Mempool.new 67108864) t fee).mempool = some _ from rfl) hsecond hfree hlisted
  have hpending : PendingTrades (serveAll Sample.server
      [(Sample.environment, Sample.trade Sample.keyOne w.address 1000),
        (Sample.environment, Sample.trade Sample.keyTwo w'.address 1000)] n) := by
    refine trades_pending Sample.lowerPrintable honors_walletVerifier
      (List.forall_mem_cons.mpr ⟨Sample.regular_trade hone hlisted 1000,
        List.forall_mem_singleton.mpr (Sample.regular_trade htwo hlisted 1000)⟩)
      ⟨Sample.fits_trade hone hpool Sample.hasRoom_new rfl, ?_, trivial⟩
    rw [hafter]
    exact Sample.fits_trade htwo rfl hsecond hfree
  rw [serveAll, serveAll, hafter] at hpending
  obtain ⟨t₁, ht₁⟩ := hpending.pending _ List.mem_cons_self t.hash hreports
  obtain ⟨t₂, ht₂⟩ :=
    hpending.pending _ (List.mem_cons_of_mem _ List.mem_cons_self) t'.hash hreports'
  have hdisjoint := List.rel_of_pairwise_cons hpending.disjoint List.mem_cons_self t₁ t₂ ht₁ ht₂
  refine ⟨tips, n, w.address, w'.address, _, _, t₁, t₂, hrun, ?_, ht₁, ht₂, hdisjoint⟩
  rw [serveAll, serveAll, hafter]
  rfl

/-- A key has one confirmed output and trades twice. The second payment spends the same output,
so that `Add` refuses it, and it is reported. Its hash is not in the pool, or it is the hash of the
first payment, which is then reported twice. -/
theorem trade_dropped :
    ∃ tips n address, Run Regtest.manager PositiveHeight Regtest.genesis tips n ∧
      n.mempool = some (Mempool.new 67108864) ∧
      (∀ amount, Regular Sample.server n.store Sample.environment
        (Sample.trade Sample.keyOne address amount)) ∧
      ¬ PendingTrades (serveAll Sample.server
        [(Sample.environment, Sample.trade Sample.keyOne address 1000),
          (Sample.environment, Sample.trade Sample.keyOne address 2000)] n) := by
  obtain ⟨tips, n, hrun, hpool, hlisted⟩ := Sample.exists_paid 67108864
  obtain ⟨w, hone⟩ := Sample.exists_one
  refine ⟨tips, n, w.address, hrun, hpool, Sample.regular_trade hone hlisted, fun h ↦ ?_⟩
  -- The first payment is inserted, the second one refused.
  obtain ⟨t, fee, hreports, hafter, hspent, -⟩ :=
    Sample.serve_trade hone hpool Sample.hasRoom_new rfl hlisted
  obtain ⟨t', k', hbuild', hbuilt'⟩ := Sample.exists_built hone 2000 (by decide) (by decide)
  have hspent' := Sample.spent_built hone (by decide) hbuilt'
  obtain ⟨hreports', hafter'⟩ := Sample.reports_trade hone (by decide) hbuild'
    (show (inserted n (Mempool.new 67108864) t fee).mempool = some _ from rfl)
  have hpending : ((Mempool.new 67108864).insert t fee
      (Int64.ofNat (serializeTransaction t).length)).spends.lookup Sample.coinOne.outpoint =
        some t.hash := by
    rw [Mempool.lookup_spends_insert, if_pos (by rw [hspent]; exact List.mem_singleton_self _)]
  rw [addTransaction_of_spent _ (by rw [hspent']; exact List.mem_singleton_self _) hpending]
    at hafter'
  -- Whatever is reported second is the first payment, the only one in the pool.
  rw [serveAll, serveAll, hafter] at h
  obtain ⟨t₂, hreported⟩ :=
    h.pending _ (List.mem_cons_of_mem _ List.mem_cons_self) t'.hash hreports'
  have hsame₂ : t₂ = t := by
    obtain ⟨hash, pool, e, -, hpool₂, he, rfl⟩ := hreported
    rw [hafter'] at hpool₂
    cases hpool₂
    by_cases hhash : hash = t.hash
    · rw [hhash] at he
      cases (Finmap.lookup_insert _).symm.trans he
      rfl
    · cases (Finmap.lookup_insert_of_ne _ hhash).symm.trans he
  subst hsame₂
  have hdisjoint := List.rel_of_pairwise_cons h.disjoint List.mem_cons_self t₂ t₂
    ((reports_inserted hreports hafter t₂).mpr rfl) hreported
  have hmem : Sample.coinOne.outpoint ∈ t₂.spent := by
    rw [hspent]
    exact List.mem_singleton_self _
  exact hdisjoint hmem hmem

end NevelCore.Rpc
