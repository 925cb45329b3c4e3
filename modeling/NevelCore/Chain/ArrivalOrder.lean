import NevelCore.Chain.ForkChoice
import NevelCore.Chain.PoolRuns

/-!
# Competing blocks and their order of arrival

Two blocks on top of the same tip, each of which is accepted when it comes first. The second one to
come is checked against the ledger with the first one applied: its header passes as before, since
the first block leaves the headers up to their parent as they were (`Passes.after`), and its work is
not more than that of the first, so that it is recorded and not switched to. What is left are its
transactions and its hash, and `Compatible` says what is asked of them.

`competing_iff` is the result: both orders end well exactly if the blocks are compatible in both
orders, and if they create only new outpoints, exactly if their hashes are told apart and they spend
no output both. `competing_rejected` is a pair of blocks that spend the same output.
-/

set_option autoImplicit false
set_option relaxedAutoImplicit false

namespace NevelCore

open Foundations

/-! ### Transactions over a changed ledger -/

/-- The transactions of a block pass the rules over a ledger. -/
def TransactionsPass (l : Ledger) (verifier : Option SignatureVerifier) (b : Block) : Prop :=
  ∃ coinbase txs, b.transactions.toList = coinbase :: txs ∧ coinbase.isCoinbase = true ∧
    (∀ t ∈ txs, Spendable l.view verifier b.header.height t) ∧
    (txs.flatMap Transaction.spent).Nodup ∧
    ∃ fees : UInt64, fees.toNat = (txs.map l.view.fee).sum ∧
      outputTotal coinbase ≤ (blockReward b.header.height + fees).toNat

/-- What a block `b` needs to be accepted behind a block `a` on top of the same ledger. -/
structure Compatible (l : Ledger) (verifier : Option SignatureVerifier) (a b : Block) : Prop where
  /-- The store does not take it for the first block. -/
  hash : b.hash ≠ a.hash ∨ ¬ a.InLimits
  /-- Its transactions pass over the ledger with the first block. -/
  transactions : TransactionsPass (l.apply a) verifier b

section Ledger

variable {l l' : Ledger} {verifier : Option SignatureVerifier} {a b : Block}

theorem run_validateBlockTransactions_iff {n : Node} :
    (validateBlockTransactions b Store.get verifier).run exec n = (.ok (), n) ↔
      TransactionsPass (DB.utxos n.store) verifier b :=
  (validateBlockTransactionsAt_eq_ok_iff (readsView_get n)).trans (and_iff_right rfl)

theorem TransactionsPass.there (h : TransactionsPass l verifier b) :
    ∀ outpoint ∈ Ledger.spent b, l.lookup outpoint ≠ none := by
  obtain ⟨coinbase, txs, htxs, hcoinbase, hall, -⟩ := h
  intro outpoint hmem
  rw [spent_of_spendable htxs hcoinbase hall] at hmem
  obtain ⟨t, ht, hmem⟩ := List.mem_flatMap.mp hmem
  exact (hall t ht).there outpoint hmem

/-- The rules look only at what is spent. -/
theorem TransactionsPass.congr (h : TransactionsPass l verifier b)
    (hsame : ∀ outpoint ∈ Ledger.spent b, l'.lookup outpoint = l.lookup outpoint) :
    TransactionsPass l' verifier b := by
  obtain ⟨coinbase, txs, htxs, hcoinbase, hall, hnodup, fees, hfees, hle⟩ := h
  have hspent := spent_of_spendable htxs hcoinbase hall
  have hview : ∀ t ∈ txs, ∀ outpoint ∈ t.spent, l'.view outpoint = l.view outpoint := by
    intro t ht outpoint hmem
    rw [Ledger.view, Ledger.view, hsame outpoint (hspent ▸ List.mem_flatMap.mpr ⟨t, ht, hmem⟩)]
  refine ⟨coinbase, txs, htxs, hcoinbase, fun t ht ↦ (hall t ht).congr (hview t ht), hnodup, fees,
    ?_, hle⟩
  rw [hfees]
  congr 1
  refine List.map_congr_left fun t ht ↦ ?_
  rw [View.fee, View.fee, Spendable.inputTotal_congr (hview t ht)]

/-- Over a block that creates only new outpoints, the transactions of another block pass exactly if
the two spend no output both. -/
theorem transactionsPass_apply_iff (h : TransactionsPass l verifier b)
    (hcreated : ∀ outpoint ∈ Ledger.created a, l.lookup outpoint = none) :
    TransactionsPass (l.apply a) verifier b ↔
      ∀ outpoint ∈ Ledger.spent b, outpoint ∉ Ledger.spent a := by
  have hnotCreated : ∀ outpoint ∈ Ledger.spent b, outpoint ∉ Ledger.created a :=
    fun outpoint hmem hmem' ↦ h.there outpoint hmem (hcreated outpoint hmem')
  constructor
  · intro hpass outpoint hmem hspent
    refine hpass.there outpoint hmem (lookup_commit_of_deleted ?_ ?_ l)
    · rw [Ledger.deleted_blockOps]
      exact hspent
    · rw [Ledger.written_blockOps]
      exact hnotCreated outpoint hmem
  · intro hdisjoint
    refine h.congr fun outpoint hmem ↦ lookup_commit_of_notMem ?_ l
    rw [mem_keys_iff, Ledger.deleted_blockOps, Ledger.written_blockOps]
    rintro (hspent | hcreated)
    · exact hdisjoint outpoint hmem hspent
    · exact hnotCreated outpoint hmem hcreated

end Ledger

/-! ### The second block -/

section Second

variable {m : Manager} {n : Node} {a b prev : Block} {now now' : ℤ}

/-- The store after a block keeps the answers for what could be read before. -/
theorem getBlock_extend_of_ok {d : Store} {hash : Hash} {x : Block}
    (hunknown : ∃ e, DB.getBlock d a.hash = .error e) (hget : DB.getBlock d hash = .ok x) :
    hash ≠ a.hash ∧ DB.getBlock (DB.extend d a) hash = .ok x := by
  have hne : hash ≠ a.hash := by
    rintro rfl
    obtain ⟨e, he⟩ := hunknown
    rw [he] at hget
    cases hget
  refine ⟨hne, ?_⟩
  rw [DB.getBlock, DB.lookup_blockHash_extend, if_neg hne]
  exact hget

/-- A block that could not be read is still unknown after another one exactly if the store does not
take it for that one. -/
theorem unknown_extend_iff {d : Store} (hunknown : ∃ e, DB.getBlock d b.hash = .error e) :
    (∃ e, DB.getBlock (DB.extend d a) b.hash = .error e) ↔ b.hash ≠ a.hash ∨ ¬ a.InLimits := by
  by_cases heq : b.hash = a.hash
  · have hget : DB.getBlock (DB.extend d a) b.hash = deserializeBlock (serializeBlock a) := by
      rw [DB.getBlock, DB.lookup_blockHash_extend, if_pos heq]
      rfl
    rw [hget]
    by_cases hlimits : a.InLimits
    · rw [deserializeBlock_serializeBlock hlimits]
      constructor
      · rintro ⟨e, herror⟩
        cases herror
      · intro h
        exact (h.resolve_left (absurd heq) hlimits).elim
    · exact ⟨fun _ ↦ .inr hlimits, fun _ ↦ deserializeBlock_serializeBlock_error hlimits⟩
  · rw [DB.getBlock, DB.lookup_blockHash_extend, if_neg heq]
    exact ⟨fun _ ↦ .inl heq, fun _ ↦ hunknown⟩

theorem run_headerByHeight_extend {height : UInt64} {first : BlockHeader} {n' : Node}
    (hstore : n'.store = DB.extend n.store a)
    (hunknown : ∃ e, DB.getBlock n.store a.hash = .error e)
    (hne : height ≠ a.header.height)
    (h : (Manager.headerByHeight height).run exec n = (.ok first, n)) :
    (Manager.headerByHeight height).run exec n' = (.ok first, n') := by
  rw [Manager.headerByHeight, run_blockHashByHeight_bind] at h ⊢
  rw [hstore, DB.blockHashByHeight_extend, if_neg hne]
  cases hindex : DB.blockHashByHeight n.store height with
  | error e =>
    rw [hindex] at h
    cases h
  | ok hash =>
    rw [hindex, attempt_ok, Prog.pure_bind, run_getBlock_bind] at h
    rw [attempt_ok, Prog.pure_bind, run_getBlock_bind, hstore]
    cases hget : DB.getBlock n.store hash with
    | error e =>
      rw [hget] at h
      cases h
    | ok x =>
      rw [hget] at h
      rw [(getBlock_extend_of_ok hunknown hget).2]
      cases h
      rfl

/-- The bits that a parent asks for are the same after another block on top of it. -/
theorem run_expectedBits_extend {bits : UInt32} {n' : Node}
    (hstore : n'.store = DB.extend n.store a)
    (hunknown : ∃ e, DB.getBlock n.store a.hash = .error e)
    (hheight : a.header.height = prev.header.height + 1)
    (h : (expectedBits prev.header m.network Manager.headerByHeight).run exec n = (.ok bits, n)) :
    (expectedBits prev.header m.network Manager.headerByHeight).run exec n' = (.ok bits, n') := by
  rw [expectedBits] at h ⊢
  split_ifs at h ⊢ with hretarget
  · cases h
    rfl
  · have hne : prev.header.height + 1 - difficultyWindow ≠ a.header.height := by
      have hle := retarget_height_le hretarget
      have hnext : prev.header.height + 1 ≠ 0 := fun hzero ↦ hretarget (.inr hzero)
      intro heq
      rw [heq, hheight, UInt64.le_iff_toNat_le, UInt64.toNat_add] at hle
      rw [ne_eq, ← UInt64.toNat_inj, UInt64.toNat_add] at hnext
      change ¬ (prev.header.height.toNat + 1) % 2 ^ 64 = 0 at hnext
      change (prev.header.height.toNat + 1) % 2 ^ 64 ≤ prev.header.height.toNat at hle
      have hlt := prev.header.height.toNat_lt
      omega
    obtain ⟨first, mid, hfirst, hrest⟩ := Prog.run_bind_eq_ok h
    obtain rfl : n = mid := by
      rw [run_of_reads (Prog.only_mono Call.ReadsHeaders.reads (only_headerByHeight _))] at hfirst
      exact congrArg Prod.snd hfirst
    rw [Prog.run_bind_of_ok (run_headerByHeight_extend hstore hunknown hne hfirst)]
    cases hrest
    rfl

/-- After another block on top of the same parent, what is left of the checks of a block with a hash
of its own are its transactions. -/
theorem Passes.run_checkBlock_after {n' : Node} (hb : Passes m now b prev n)
    (ha : Passes m now' a prev n) (hheight : 0 < b.header.height)
    (hstore : n'.store = DB.extend n.store a) (hhash : b.hash ≠ a.hash ∨ ¬ a.InLimits) {later : ℤ}
    (hlater : now ≤ later) :
    (m.checkBlock later b).run exec n' =
      (validateBlockTransactions b Store.get m.verifier).run exec n' := by
  obtain ⟨e, hunknown⟩ : ∃ e, DB.getBlock n'.store b.hash = .error e := by
    rw [hstore]
    exact (unknown_extend_iff hb.unknown).mpr hhash
  have hprevious := run_previousHeader (n := n') hheight
  rw [hstore, (getBlock_extend_of_ok ha.unknown hb.previous).2] at hprevious
  obtain ⟨hroot, hwork, htime, hparent⟩ := validateBlockHeader_ok_iff.mp hb.header
  have hheader : validateBlockHeader later b (some prev.header) m.network = .ok () :=
    validateBlockHeader_ok_iff.mpr ⟨hroot, hwork, by omega, hparent⟩
  obtain ⟨-, -, -, hparent'⟩ := validateBlockHeader_ok_iff.mp ha.header
  have hbits := run_expectedBits_extend hstore ha.unknown (hparent' prev.header rfl).1 hb.bits
  rw [run_checkBlock_of_unknown hunknown, Prog.run_bind_of_ok hprevious,
    Prog.run_bind_of_ok (validateBlockHeaderWithDifficulty_ok_iff.mpr ⟨hheader, hbits⟩)]

/-- A block that passes the checks passes them after another block on top of the same parent exactly
if the two are compatible. -/
theorem Passes.checkBlock_after_iff {n' : Node} (hb : Passes m now b prev n)
    (ha : Passes m now' a prev n) (hheight : 0 < b.header.height)
    (hstore : n'.store = DB.extend n.store a) {later : ℤ} (hlater : now ≤ later) :
    (m.checkBlock later b).run exec n' = (.ok (), n') ↔
      Compatible (DB.utxos n.store) m.verifier a b := by
  have hledger : DB.utxos n'.store = (DB.utxos n.store).apply a := by rw [hstore, DB.utxos_extend]
  constructor
  · intro h
    obtain ⟨hunknown, -, htransactions⟩ := checkBlock_ok h
    rw [hstore] at hunknown
    refine ⟨(unknown_extend_iff hb.unknown).mp hunknown, ?_⟩
    rw [← hledger]
    exact run_validateBlockTransactions_iff.mp htransactions
  · rintro ⟨hhash, htransactions⟩
    rw [hb.run_checkBlock_after ha hheight hstore hhash hlater, run_validateBlockTransactions_iff,
      hledger]
    exact htransactions

/-- A block that passes the checks after another block on top of the same parent has no more work
than that, and is recorded. -/
theorem run_connectBlock_second {n' : Node} (hb : Passes m now b prev n)
    (ha : Passes m now' a prev n)
    (hlink : b.header.prevHash = a.header.prevHash) (hheightA : 0 < a.header.height)
    (hheightB : 0 < b.header.height) (hstore : n'.store = DB.extend n.store a) (fuel : ℕ) :
    ∃ n'', (Manager.connectBlock fuel b).run exec n' = (.ok (), n'') := by
  have hne : b.header.prevHash ≠ a.hash := (getBlock_extend_of_ok ha.unknown hb.previous).1
  have hbits : b.header.bits = a.header.bits :=
    Except.ok.inj (congrArg Prod.fst (hb.bits.symm.trans ha.bits))
  have hwork : DB.workOn n'.store b = DB.workOn n.store a := by
    rw [DB.workOn, DB.workOn, if_pos hheightA, if_pos hheightB, hstore, DB.totalWork_extend,
      if_neg hne, hlink, hbits]
  have hrecorded : (DB.totalWork n'.store a.hash).toOption.getD 0 = DB.workOn n.store a := by
    rw [hstore, DB.totalWork_extend, if_pos rfl]
    rfl
  refine ⟨{ n' with store := DB.putTotalWork n'.store b.hash (DB.workOn n'.store b) }, ?_⟩
  rw [run_connectBlock, hstore, DB.tip_extend]
  dsimp only
  rw [if_neg hne, ← hstore, hrecorded, hwork, if_pos le_rfl]

/-- What two blocks on top of the same tip have that are both accepted as the first one. -/
theorem passes_of_first {fuel fuel' : ℕ} {nA nB : Node}
    (htipA : DB.tip n.store = .ok a.header.prevHash)
    (htipB : DB.tip n.store = .ok b.header.prevHash)
    (hheightA : 0 < a.header.height) (hheightB : 0 < b.header.height)
    (hA : (m.validateAndApplyBlock now fuel a).run exec n = (.ok (), nA))
    (hB : (m.validateAndApplyBlock now' fuel' b).run exec n = (.ok (), nB)) :
    nA.store = DB.extend n.store a ∧ nB.store = DB.extend n.store b ∧
      b.header.prevHash = a.header.prevHash ∧
      ∃ prev, Passes m now a prev n ∧ Passes m now' b prev n := by
  obtain ⟨hcheckA, rfl⟩ := validateAndApplyBlock_ok_of_tip hA htipA
  obtain ⟨hcheckB, rfl⟩ := validateAndApplyBlock_ok_of_tip hB htipB
  obtain ⟨prev, hpassesA⟩ := (checkBlock_ok_iff hheightA).mp hcheckA
  obtain ⟨prev', hpassesB⟩ := (checkBlock_ok_iff hheightB).mp hcheckB
  have hlink : b.header.prevHash = a.header.prevHash := Except.ok.inj (htipB.symm.trans htipA)
  obtain rfl : prev' = prev := by
    have hprevious := hpassesB.previous
    rw [hlink, hpassesA.previous] at hprevious
    exact (Except.ok.inj hprevious).symm
  exact ⟨rfl, rfl, hlink, prev', hpassesA, hpassesB⟩

/-- The second of two blocks is accepted exactly if the two are compatible. -/
theorem second_ok_iff {n' : Node} (hb : Passes m now b prev n) (ha : Passes m now' a prev n)
    (hlink : b.header.prevHash = a.header.prevHash) (hheightA : 0 < a.header.height)
    (hheightB : 0 < b.header.height) (hstore : n'.store = DB.extend n.store a) {later : ℤ}
    (hlater : now ≤ later) (fuel : ℕ) :
    (∃ n'', (m.validateAndApplyBlock later fuel b).run exec n' = (.ok (), n'')) ↔
      Compatible (DB.utxos n.store) m.verifier a b := by
  rw [← hb.checkBlock_after_iff ha hheightB hstore hlater]
  constructor
  · rintro ⟨n'', h⟩
    obtain ⟨hcheck, -⟩ := (validateAndApplyBlock_cases h).resolve_left
      fun ⟨_, _, herror, _⟩ ↦ nomatch herror
    exact hcheck
  · intro hcheck
    rw [run_validateAndApplyBlock_of_ok hcheck]
    exact run_connectBlock_second hb ha hlink hheightA hheightB hstore fuel

end Second

/-! ### Both orders -/

/-- Two blocks on top of the same tip, of which each is accepted if it comes first. They are both
accepted in both orders exactly if each is compatible with the other before it. If they create only
new outpoints, that is exactly if their hashes tell them apart and no output is spent by both. -/
theorem competing_iff {m : Manager} {n nA nB : Node} {a b : Block} {nowA nowB laterA laterB : ℤ}
    {fuelA fuelB : ℕ} (htipA : DB.tip n.store = .ok a.header.prevHash)
    (htipB : DB.tip n.store = .ok b.header.prevHash) (hheightA : 0 < a.header.height)
    (hheightB : 0 < b.header.height)
    (hA : (m.validateAndApplyBlock nowA fuelA a).run exec n = (.ok (), nA))
    (hB : (m.validateAndApplyBlock nowB fuelB b).run exec n = (.ok (), nB))
    (hlaterA : nowA ≤ laterA) (hlaterB : nowB ≤ laterB) (fuel : ℕ) :
    ((∃ n', (m.validateAndApplyBlock laterB fuel b).run exec nA = (.ok (), n')) ∧
        (∃ n', (m.validateAndApplyBlock laterA fuel a).run exec nB = (.ok (), n')) ↔
      Compatible (DB.utxos n.store) m.verifier a b ∧
        Compatible (DB.utxos n.store) m.verifier b a) ∧
    ((∀ outpoint ∈ Ledger.created a ++ Ledger.created b,
        (DB.utxos n.store).lookup outpoint = none) →
      ((∃ n', (m.validateAndApplyBlock laterB fuel b).run exec nA = (.ok (), n')) ∧
          (∃ n', (m.validateAndApplyBlock laterA fuel a).run exec nB = (.ok (), n')) ↔
        (a.hash = b.hash → ¬ a.InLimits ∧ ¬ b.InLimits) ∧
          ∀ outpoint ∈ Ledger.spent a, outpoint ∉ Ledger.spent b)) := by
  obtain ⟨hstoreA, hstoreB, hlink, prev, hpassesA, hpassesB⟩ :=
    passes_of_first htipA htipB hheightA hheightB hA hB
  rw [second_ok_iff hpassesB hpassesA hlink hheightA hheightB hstoreA hlaterB fuel,
    second_ok_iff hpassesA hpassesB hlink.symm hheightB hheightA hstoreB hlaterA fuel]
  refine ⟨Iff.rfl, fun hcreated ↦ ?_⟩
  obtain ⟨hcreatedA, hcreatedB⟩ := List.forall_mem_append.mp hcreated
  have htxsA := run_validateBlockTransactions_iff.mp hpassesA.transactions
  have htxsB := run_validateBlockTransactions_iff.mp hpassesB.transactions
  constructor
  · rintro ⟨hAB, hBA⟩
    refine ⟨fun heq ↦ ?_, ?_⟩
    · exact ⟨hAB.hash.resolve_left (absurd heq.symm), hBA.hash.resolve_left (absurd heq)⟩
    · exact (transactionsPass_apply_iff htxsA hcreatedB).mp hBA.transactions
  · rintro ⟨hhash, hdisjoint⟩
    refine ⟨⟨?_, ?_⟩, ?_, ?_⟩
    · exact not_or_of_imp fun heq ↦ (hhash heq.symm).1
    · exact (transactionsPass_apply_iff htxsB hcreatedA).mpr fun outpoint hb ha ↦
        hdisjoint outpoint ha hb
    · exact not_or_of_imp fun heq ↦ (hhash heq).2
    · exact (transactionsPass_apply_iff htxsA hcreatedB).mpr hdisjoint

/-- Blocks A and B on top of genesis are accepted in both orders. -/
theorem competing_regtest :
    ∃ nB, (Regtest.manager.validateAndApplyBlock 1790000000 1 Regtest.blockB).run exec
          Regtest.afterGenesis = (.ok (), nB) ∧
      (∃ n, (Regtest.manager.validateAndApplyBlock 1790000000 1 Regtest.blockB).run exec
          Regtest.afterA = (.ok (), n)) ∧
      ∃ n, (Regtest.manager.validateAndApplyBlock 1790000000 1 Regtest.blockA).run exec nB =
        (.ok (), n) := by
  have hrun : Run Regtest.manager PositiveHeight Regtest.genesis [Regtest.genesis]
      Regtest.afterGenesis := .start Regtest.starts
  obtain ⟨-, ⟨hBA, hBG⟩, -⟩ := Regtest.hashes_ne
  obtain ⟨nB, hB, -⟩ := hrun.extend (fun _ _ _ h ↦ h) Regtest.validOn_blockB.height
    Regtest.validOn_blockB Regtest.genesis_inLimits
    (fun x hx ↦ by rw [List.mem_singleton.mp hx]; exact Ne.symm hBG) 1
  have hcreatedB : ∀ outpoint ∈ Ledger.created Regtest.blockB,
      (DB.utxos Regtest.afterGenesis.store).lookup outpoint = none := by
    have hcreated : Ledger.created Regtest.blockB = [⟨Regtest.blockB.header.merkleRoot, 0⟩] :=
      Regtest.created_block Regtest.hash_coinbaseB
    rw [hcreated]
    intro outpoint hmem
    rw [List.mem_singleton.mp hmem]
    exact Regtest.lookup_genesis (by decide)
  have hcreated := List.forall_mem_append.mpr ⟨Regtest.blockA_absent, hcreatedB⟩
  have htipA : DB.tip Regtest.afterGenesis.store = .ok Regtest.blockA.header.prevHash := by
    rw [Regtest.tip_afterGenesis, Regtest.validOn_blockA.link]
  have htipB : DB.tip Regtest.afterGenesis.store = .ok Regtest.blockB.header.prevHash := by
    rw [Regtest.tip_afterGenesis, Regtest.validOn_blockB.link]
  have hboth := ((competing_iff htipA htipB Regtest.validOn_blockA.height
    Regtest.validOn_blockB.height Regtest.blockA_returns hB le_rfl le_rfl 1).2 hcreated).mpr
    ⟨fun heq ↦ absurd heq.symm hBA, List.forall_mem_nil _⟩
  exact ⟨nB, hB, hboth⟩

namespace Regtest

/-- A node in which the output of genesis is spent refuses to spend it again. -/
theorem run_spendBlock_of_spent {n : Node}
    (h : (DB.utxos n.store).lookup genesisCoin.outpoint = none) (amount : UInt64) (root : ℕ)
    (nonce : UInt64) :
    (validateBlockTransactions (spendBlock amount root nonce) Store.get none).run exec n =
      (.error (.error .missingUTXO), n) := by
  have hget : DB.get n.store genesisCoin.txHash 0 = .error .notFound := by
    rw [DB.lookup_utxos] at h
    change found ((n.store.lookup (Key.utxo genesisCoin.outpoint)).map Subtype.val) = _
    rw [h]
    rfl
  refine Prog.run_bind_of_error ?_
  refine Prog.run_bind_of_error ?_
  have hcoinbase : (spendGenesis amount).isCoinbase = false := rfl
  rw [validateTransactionAt, hcoinbase, if_neg Bool.false_ne_true]
  refine Prog.run_bind_of_error ?_
  change (validateInputs _ _ _ _ 0 [_] 0 []).run exec n = _
  rw [validateInputs, if_neg List.not_mem_nil, run_get_bind, hget]
  rfl

/-- Of two blocks that spend the output of genesis the second is refused. -/
theorem second_spendBlock {n n' : Node} {prev : Block} {amount amount' : UInt64} {root root' : ℕ}
    {nonce nonce' : UInt64}
    (hb : Passes manager 1790000000 (spendBlock amount' root' nonce') prev n)
    (ha : Passes manager 1790000000 (spendBlock amount root nonce) prev n)
    (hhash : (spendBlock amount' root' nonce').hash ≠ (spendBlock amount root nonce).hash)
    (hne : (spendGenesis amount).hash ≠ genesisCoin.txHash)
    (hstore : n'.store = DB.extend n.store (spendBlock amount root nonce)) :
    (manager.validateAndApplyBlock 1790000000 1 (spendBlock amount' root' nonce')).run exec n' =
      (.error (.error .missingUTXO), n') := by
  have hheight : 0 < (spendBlock amount' root' nonce').header.height :=
    show (0 : UInt64) < 100 by decide
  refine Prog.run_bind_of_error ?_
  rw [hb.run_checkBlock_after ha hheight hstore (.inl hhash) le_rfl]
  refine run_spendBlock_of_spent ?_ amount' root' nonce'
  rw [hstore, DB.utxos_extend]
  exact lookup_apply_spendBlock _ root nonce hne

end Regtest

/-- Two blocks that spend the same output: each is accepted if it comes first, and refused if it
comes second. -/
theorem competing_rejected :
    ∃ p rest n nS nT, Run Regtest.manager PositiveHeight Regtest.genesis (p :: rest) n ∧
      DB.tip n.store = .ok Regtest.blockS.header.prevHash ∧
      DB.tip n.store = .ok Regtest.blockT.header.prevHash ∧
      (Regtest.manager.validateAndApplyBlock 1790000000 1 Regtest.blockS).run exec n =
        (.ok (), nS) ∧
      (Regtest.manager.validateAndApplyBlock 1790000000 1 Regtest.blockT).run exec n =
        (.ok (), nT) ∧
      (Regtest.manager.validateAndApplyBlock 1790000000 1 Regtest.blockT).run exec nS =
        (.error (.error .missingUTXO), nS) ∧
      (Regtest.manager.validateAndApplyBlock 1790000000 1 Regtest.blockS).run exec nT =
        (.error (.error .missingUTXO), nT) := by
  obtain ⟨p, rest, n, hmatured, -⟩ := Regtest.exists_matured none
  obtain ⟨hchain, hholds⟩ := hmatured.run.holds fun _ _ _ h ↦ h
  have hvalidS := hmatured.validOn_blockS
  have hvalidT := hmatured.validOn_blockT
  obtain ⟨nS, hS, -⟩ := hvalidS.deliver hchain hmatured.run.genesis.height hholds.toStores
    hmatured.inLimits (hmatured.hash_ne Regtest.hashValue_blockS (by simp)) 1
  obtain ⟨nT, hT, -⟩ := hvalidT.deliver hchain hmatured.run.genesis.height hholds.toStores
    hmatured.inLimits (hmatured.hash_ne Regtest.hashValue_blockT (by simp)) 1
  have htipS : DB.tip n.store = .ok Regtest.blockS.header.prevHash := by
    rw [hholds.tip rfl, hvalidS.link]
  have htipT : DB.tip n.store = .ok Regtest.blockT.header.prevHash := by
    rw [hholds.tip rfl, hvalidT.link]
  obtain ⟨hstoreS, hstoreT, -, prev, hpassesS, hpassesT⟩ :=
    passes_of_first htipS htipT hvalidS.height hvalidT.height hS hT
  have hhash : Regtest.blockS.hash ≠ Regtest.blockT.hash := by
    intro heq
    have hvalues := congrArg hashValue heq
    rw [Regtest.hashValue_blockS, Regtest.hashValue_blockT] at hvalues
    exact absurd hvalues (by decide)
  refine ⟨p, rest, n, nS, nT, hmatured.run, htipS, htipT, hS, hT, ?_, ?_⟩
  · refine Regtest.second_spendBlock hpassesT hpassesS hhash.symm ?_ hstoreS
    rw [Regtest.hash_spendGenesis_one]
    decide
  · refine Regtest.second_spendBlock hpassesS hpassesT hhash ?_ hstoreT
    rw [Regtest.hash_spendGenesis_two]
    decide

end NevelCore
