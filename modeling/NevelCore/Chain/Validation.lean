import NevelCore.Chain.Manager
import NevelCore.Consensus.Commitment
import NevelCore.Storage.Ledger

/-!
# What the checks of a block say

The checks of `ValidateAndApplyBlock` only read the store. `validateBlockTransactions_ok` says what
a block that passes the transaction rules has: a coinbase in front and no other, inputs that are
distinct and unspent before the block, and amounts that balance. `checkBlock_ok` is the inversion
of all checks together, and `checkBlock_ok_iff` says when a block of positive height passes them.
-/

set_option autoImplicit false
set_option relaxedAutoImplicit false

namespace NevelCore

open Foundations

/-! ### Reading keeps the state -/

namespace Call

/-- The calls for records of unspent outputs. -/
def Gets : Call → Prop
  | .get _ _ => True
  | _ => False

/-- The calls for headers. -/
def ReadsHeaders : Call → Prop
  | .getBlock _ | .blockHashByHeight _ => True
  | _ => False

/-- The calls for headers or records. -/
def Reads : Call → Prop
  | .getBlock _ | .blockHashByHeight _ | .get _ _ => True
  | _ => False

theorem Gets.reads (c : Call) (h : c.Gets) : c.Reads := by
  cases c <;> first | exact h | trivial

theorem ReadsHeaders.reads (c : Call) (h : c.ReadsHeaders) : c.Reads := by
  cases c <;> first | exact h | trivial

end Call

theorem exec_of_reads (c : Call) (h : c.Reads) (n : Node) : (exec c n).2 = n := by
  cases c <;> first | rfl | exact h.elim

section Reads

variable {α : Type} {kind : Call → Prop}

theorem run_of_reads {p : Routine α} (h : p.Only Call.Reads Halt.Raised) (n : Node) :
    p.run exec n = ((p.run exec n).1, n) :=
  Prog.run_of_only exec_of_reads h n

theorem only_attempt (r : Except Err α) : (attempt r : Routine α).Only kind Halt.Raised := by
  cases r <;> trivial

variable {verifier : Option SignatureVerifier} {spendHeight : UInt64}

theorem only_validateInputs (t : Transaction) (inputs : List Input) (i : ℕ) (total : UInt64)
    (spent : List Outpoint) :
    (validateInputs t Store.get verifier spendHeight i inputs total spent).Only Call.Gets
      Halt.Raised := by
  induction inputs generalizing i total spent with
  | nil => trivial
  | cons input inputs ih =>
    rw [validateInputs]
    split
    · trivial
    refine Prog.only_bind ⟨trivial, fun _ ↦ trivial⟩ fun answer ↦ ?_
    cases answer with
    | error e => trivial
    | ok u =>
      dsimp only
      split
      · trivial
      split
      · trivial
      exact Prog.only_bind (only_attempt _) fun total ↦ ih _ _ _

theorem only_validateTransactionAt (t : Transaction) (spent : List Outpoint) :
    (validateTransactionAt t Store.get verifier spent spendHeight).Only Call.Gets Halt.Raised := by
  rw [validateTransactionAt]
  split
  · trivial
  refine Prog.only_bind (only_validateInputs _ _ _ _ _) fun r ↦ ?_
  refine Prog.only_bind (only_attempt _) fun total ↦ ?_
  split
  · trivial
  dsimp only
  split <;> trivial

theorem only_validateFees (txs : List Transaction) (fees : UInt64) (spent : List Outpoint) :
    (validateFees Store.get verifier spendHeight txs fees spent).Only Call.Gets Halt.Raised := by
  induction txs generalizing fees spent with
  | nil => trivial
  | cons t txs ih =>
    refine Prog.only_bind (only_validateTransactionAt t spent) fun r ↦ ?_
    exact Prog.only_bind (only_attempt _) fun fees ↦ ih _ _

/-- The transaction rules only read records of unspent outputs. -/
theorem only_validateBlockTransactions (b : Block) :
    (validateBlockTransactions b Store.get verifier).Only Call.Gets Halt.Raised := by
  rw [validateBlockTransactions, validateBlockTransactionsAt]
  split
  · trivial
  split
  · trivial
  refine Prog.only_bind (only_validateFees _ _ _) fun fees ↦ ?_
  refine Prog.only_bind (only_attempt _) fun coinbaseOut ↦ ?_
  split <;> trivial

theorem only_headerByHeight (height : UInt64) :
    (Manager.headerByHeight height).Only Call.ReadsHeaders Halt.Raised := by
  refine Prog.only_bind ⟨trivial, fun _ ↦ trivial⟩ fun hash ↦ ?_
  refine Prog.only_bind (only_attempt _) fun hash ↦ ?_
  refine Prog.only_bind ⟨trivial, fun _ ↦ trivial⟩ fun b ↦ ?_
  exact Prog.only_bind (only_attempt _) fun b ↦ trivial

theorem only_expectedBits {headerByHeight : UInt64 → Routine BlockHeader}
    (h : ∀ height, (headerByHeight height).Only kind Halt.Raised) (prev : BlockHeader)
    (net : Network) :
    (expectedBits prev net headerByHeight).Only kind Halt.Raised := by
  rw [expectedBits]
  split
  · trivial
  · exact Prog.only_bind (h _) fun first ↦ trivial

theorem only_validateBlockHeaderWithDifficulty {headerByHeight : UInt64 → Routine BlockHeader}
    (h : ∀ height, (headerByHeight height).Only kind Halt.Raised) (now : ℤ) (b : Block)
    (prev : Option BlockHeader) (net : Network) :
    (validateBlockHeaderWithDifficulty now b prev net headerByHeight).Only kind Halt.Raised := by
  refine Prog.only_bind (only_attempt _) fun _ ↦ ?_
  cases prev with
  | none => trivial
  | some prev =>
    refine Prog.only_bind (only_expectedBits h prev net) fun expected ↦ ?_
    split <;> trivial

theorem only_previousHeader (b : Block) :
    (Manager.previousHeader b).Only Call.ReadsHeaders Halt.Raised := by
  rw [Manager.previousHeader]
  split
  · refine Prog.only_bind ⟨trivial, fun _ ↦ trivial⟩ fun answer ↦ ?_
    cases answer <;> trivial
  · trivial

/-- The checks of `ValidateAndApplyBlock` only read. -/
theorem only_checkBlock (m : Manager) (now : ℤ) (b : Block) :
    (m.checkBlock now b).Only Call.Reads Halt.Raised := by
  refine Prog.only_bind ⟨trivial, fun _ ↦ trivial⟩ fun answer ↦ ?_
  cases answer with
  | ok known => trivial
  | error e =>
    refine Prog.only_bind (Prog.only_mono Call.ReadsHeaders.reads (only_previousHeader b))
      fun prevHeader ↦ Prog.only_bind (Prog.only_mono Call.ReadsHeaders.reads
        (only_validateBlockHeaderWithDifficulty only_headerByHeight _ _ _ _)) fun _ ↦ ?_
    exact Prog.only_mono Call.Gets.reads (only_validateBlockTransactions b)

end Reads

/-! ### Transactions -/

section Transactions

variable {n n' : Node} {verifier : Option SignatureVerifier} {spendHeight : UInt64}

/-- The store answers from its ledger. -/
theorem readsView_get (n : Node) : ReadsView exec n Store.get (DB.utxos n.store).view := by
  intro hash idx
  refine ⟨DB.get n.store hash idx, rfl, ?_⟩
  rw [Ledger.view, DB.lookup_utxos, DB.get]
  cases n.store.lookup (Key.utxo ⟨hash, idx⟩) <;> rfl

theorem Spendable.there {l : Ledger} {t : Transaction}
    (h : Spendable l.view verifier spendHeight t) :
    ∀ outpoint ∈ t.spent, l.lookup outpoint ≠ none := by
  intro outpoint hmem hnone
  obtain ⟨u, hu, -⟩ := h.exists_record hmem
  rw [Ledger.view, hnone] at hu
  cases hu

/-- What spendable transactions spend is what they create and their fees. -/
theorem sum_amountAt_of_spendable {l : Ledger} {txs : List Transaction}
    (h : ∀ t ∈ txs, Spendable l.view verifier spendHeight t) :
    ((txs.flatMap Ledger.spends).map l.amountAt).sum =
      (txs.map outputTotal).sum + (txs.map l.view.fee).sum := by
  induction txs with
  | nil => rfl
  | cons t txs ih =>
    obtain ⟨ht, htxs⟩ := List.forall_mem_cons.mp h
    have hinput : ((Ledger.spends t).map l.amountAt).sum = l.view.inputTotal t := by
      rw [Ledger.spends_of_noCoinbase ht.noCoinbase, View.inputTotal, Ledger.amountAt_view]
    have hfee : outputTotal t + l.view.fee t = l.view.inputTotal t :=
      Nat.add_sub_of_le ht.covered
    rw [List.flatMap_cons, List.map_append, List.sum_append, ih htxs, hinput, ← hfee]
    simp only [List.map_cons, List.sum_cons]
    omega

theorem flatMap_spends_of_spendable {l : Ledger} {txs : List Transaction}
    (h : ∀ t ∈ txs, Spendable l.view verifier spendHeight t) :
    txs.flatMap Ledger.spends = txs.flatMap Transaction.spent :=
  List.flatMap_congr fun t ht ↦ Ledger.spends_of_noCoinbase (h t ht).noCoinbase

/-- A block with a coinbase in front spends what the others spend. -/
theorem spent_of_spendable {l : Ledger} {b : Block} {coinbase : Transaction}
    {txs : List Transaction} (htxs : b.transactions.toList = coinbase :: txs)
    (hcoinbase : coinbase.isCoinbase = true)
    (h : ∀ t ∈ txs, Spendable l.view verifier spendHeight t) :
    Ledger.spent b = txs.flatMap Transaction.spent := by
  rw [Ledger.spent, htxs, List.flatMap_cons, Ledger.spends, if_pos hcoinbase, List.nil_append,
    flatMap_spends_of_spendable h]

/-- The transactions behind the coinbase together. -/
theorem validateFees_ok {txs : List Transaction} {fees : UInt64} {spent : List Outpoint}
    {r : UInt64}
    (h : (validateFees Store.get verifier spendHeight txs fees spent).run exec n = (.ok r, n')) :
    (∀ t ∈ txs, t.isCoinbase = false) ∧
      (∀ outpoint ∈ txs.flatMap Ledger.spends, (DB.utxos n.store).lookup outpoint ≠ none) ∧
      ((txs.flatMap Ledger.spends).map (DB.utxos n.store).amountAt).sum + fees.toNat =
        (txs.map outputTotal).sum + r.toNat ∧
      (spent.Nodup → (txs.flatMap Ledger.spends ++ spent).Nodup) := by
  obtain ⟨-, hall, hnodup, hpending, hr⟩ := (validateFees_eq_ok_iff (readsView_get n)).mp h
  refine ⟨fun t ht ↦ (hall t ht).noCoinbase, ?_, ?_, fun hspent ↦ ?_⟩
  · rw [flatMap_spends_of_spendable hall]
    intro outpoint hmem
    obtain ⟨t, ht, hmem⟩ := List.mem_flatMap.mp hmem
    exact (hall t ht).there outpoint hmem
  · rw [sum_amountAt_of_spendable hall, hr]
    omega
  · rw [flatMap_spends_of_spendable hall, List.nodup_append]
    refine ⟨hnodup, hspent, ?_⟩
    rintro outpoint hmem _ hold rfl
    exact hpending outpoint hmem hold

/-- What a block that passes the transaction rules has, over the ledger it is checked against. -/
structure TransactionsValid (l : Ledger) (b : Block) : Prop extends
    Body b.transactions.toList where
  /-- No output is spent twice. -/
  nodup : (Ledger.spent b).Nodup
  /-- Every output spent is there before the block. -/
  there : ∀ outpoint ∈ Ledger.spent b, l.lookup outpoint ≠ none
  /-- The amounts spent are those created behind the coinbase and the fees, and the coinbase has
  at most the reward and the fees, added up in `uint64`. -/
  balance : ∃ fees : UInt64,
    ((Ledger.spent b).map l.amountAt).sum =
      (b.transactions.toList.tail.map outputTotal).sum + fees.toNat ∧
    (b.transactions.toList.head?.elim 0 outputTotal) ≤
      (blockReward b.header.height + fees).toNat

theorem validateBlockTransactions_ok {b : Block}
    (h : (validateBlockTransactions b Store.get verifier).run exec n = (.ok (), n')) :
    TransactionsValid (DB.utxos n.store) b := by
  obtain ⟨-, coinbase, txs, htxs, hcoinbase, hall, hnodup, fees, hfees, hle⟩ :=
    (validateBlockTransactionsAt_eq_ok_iff (readsView_get n)).mp h
  have hspent := spent_of_spendable htxs hcoinbase hall
  refine ⟨.of_validateBlockTransactionsAt h, ?_, ?_, fees, ?_, ?_⟩
  · rw [hspent]
    exact hnodup
  · rw [hspent]
    intro outpoint hmem
    obtain ⟨t, ht, hmem⟩ := List.mem_flatMap.mp hmem
    exact (hall t ht).there outpoint hmem
  · rw [hspent, ← flatMap_spends_of_spendable hall, sum_amountAt_of_spendable hall, htxs,
      List.tail_cons, hfees]
  · rw [htxs]
    exact hle

/-- A block with nothing but a coinbase passes if that has at most the reward. -/
theorem run_validateBlockTransactions_of_coinbase {b : Block} {coinbase : Transaction}
    (htxs : b.transactions.toList = [coinbase]) (hcoinbase : coinbase.isCoinbase = true)
    (hle : outputTotal coinbase ≤ (blockReward b.header.height).toNat) :
    (validateBlockTransactions b Store.get verifier).run exec n = (.ok (), n) := by
  refine (validateBlockTransactionsAt_eq_ok_iff (readsView_get n)).mpr ⟨rfl, coinbase, [], htxs,
    hcoinbase, List.forall_mem_nil _, List.nodup_nil, 0, rfl, ?_⟩
  rw [UInt64.add_zero]
  exact hle

/-- The transaction rules depend only on the ledger of the store. -/
theorem run_validateBlockTransactions_congr {b : Block}
    (h : DB.utxos n.store = DB.utxos n'.store) :
    ((validateBlockTransactions b Store.get verifier).run exec n).1 =
      ((validateBlockTransactions b Store.get verifier).run exec n').1 := by
  refine Prog.run_congr (fun c hc ↦ exec_of_reads c (Call.Gets.reads c hc))
    (only_validateBlockTransactions b) fun c hc ↦ ?_
  cases c with
  | get hash idx =>
    change DB.get n.store hash idx = DB.get n'.store hash idx
    rw [DB.get, DB.get, ← DB.lookup_utxos, ← DB.lookup_utxos, h]
  | _ => exact hc.elim

end Transactions

/-! ### Headers -/

section Headers

variable {now : ℤ} {b : Block} {net : Network}

theorem checkProofOfWork_ok_iff {h : BlockHeader} {powLimit : ℤ} :
    checkProofOfWork h powLimit = .ok () ↔ 0 < compactToBig h.bits ∧
      compactToBig h.bits ≤ powLimit ∧ (hashValue h.hash : ℤ) ≤ compactToBig h.bits := by
  rw [checkProofOfWork]
  split
  · next hbits =>
    refine ⟨nofun, fun h ↦ ?_⟩
    omega
  · next hbits =>
    split
    · next hhash =>
      refine ⟨nofun, fun h ↦ ?_⟩
      omega
    · next hhash =>
      refine ⟨fun _ ↦ ?_, fun _ ↦ rfl⟩
      omega

/-- What the header rules ask for. -/
theorem validateBlockHeader_ok_iff {prev : Option BlockHeader} :
    validateBlockHeader now b prev net = .ok () ↔
      b.header.merkleRoot = buildMerkleRoot b.transactions.toList ∧
      checkProofOfWork b.header net.powLimit = .ok () ∧
      b.header.timestamp.toInt ≤ now + 2 * 60 * 60 ∧
      ∀ p, prev = some p → b.header.height = p.height + 1 ∧ b.header.prevHash = p.hash := by
  unfold validateBlockHeader
  by_cases hroot : b.header.merkleRoot = buildMerkleRoot b.transactions.toList
  swap
  · rw [if_pos hroot]
    exact ⟨nofun, fun h ↦ absurd h.1 hroot⟩
  rw [if_neg (not_not.mpr hroot)]
  cases hwork : checkProofOfWork b.header net.powLimit with
  | error e => exact ⟨nofun, fun h ↦ nomatch h.2.1⟩
  | ok _ =>
    change (if _ then _ else _) = _ ↔ _
    by_cases htime : b.header.timestamp.toInt > now + 2 * 60 * 60
    · rw [if_pos htime]
      exact ⟨nofun, fun h ↦ absurd htime (not_lt.mpr h.2.2.1)⟩
    rw [if_neg htime]
    cases prev with
    | none => simpa using ⟨hroot, not_lt.mp htime⟩
    | some prev =>
      by_cases hheight : b.header.height = prev.height + 1
      swap
      · dsimp only
        rw [if_pos hheight]
        exact ⟨nofun, fun h ↦ absurd (h.2.2.2 prev rfl).1 hheight⟩
      by_cases hprev : b.header.prevHash = prev.hash
      swap
      · dsimp only
        rw [if_neg (not_not.mpr hheight), if_pos hprev]
        exact ⟨nofun, fun h ↦ absurd (h.2.2.2 prev rfl).2 hprev⟩
      simpa [hheight, hprev] using ⟨hroot, not_lt.mp htime⟩

/-- A block on top of another: the header rules, and the bits that the parent asks for. -/
theorem validateBlockHeaderWithDifficulty_ok_iff {prev : BlockHeader} {n : Node}
    {headerByHeight : UInt64 → Routine BlockHeader} :
    (validateBlockHeaderWithDifficulty now b (some prev) net headerByHeight).run exec n =
        (.ok (), n) ↔
      validateBlockHeader now b (some prev) net = .ok () ∧
        (expectedBits prev net headerByHeight).run exec n = (.ok b.header.bits, n) := by
  unfold validateBlockHeaderWithDifficulty
  cases hheader : validateBlockHeader now b (some prev) net with
  | error e => exact ⟨nofun, nofun⟩
  | ok _ =>
    dsimp only [attempt_ok, Prog.pure_bind]
    rw [Prog.run_bind]
    constructor
    · intro h
      split at h
      · next expected n' hexpected =>
        split at h
        · cases h
        · next hbits =>
          rw [not_not] at hbits
          cases h
          rw [hexpected, hbits]
          exact ⟨rfl, rfl⟩
      · cases h
    · rintro ⟨-, hexpected⟩
      rw [hexpected]
      exact congrArg (Prog.run exec · n) (if_neg (not_not.mpr rfl))

end Headers

/-! ### All checks -/

section CheckBlock

variable {m : Manager} {now : ℤ} {b : Block} {n n' : Node}

theorem getBlock_eq_ok {d : Store} {hash : Hash} {b : Block} :
    DB.getBlock d hash = .ok b ↔
      ∃ data, d.lookup (Key.blockHash hash) = some data ∧ deserializeBlock data = .ok b := by
  rw [DB.getBlock]
  cases h : d.lookup (Key.blockHash hash) with
  | none =>
    constructor
    · intro hb
      cases hb
    · rintro ⟨data, heq, -⟩
      cases heq
  | some data =>
    constructor
    · intro hb
      exact ⟨data, rfl, hb⟩
    · rintro ⟨data', heq, hb⟩
      cases heq
      exact hb

/-- What a block of positive height that passes all checks has. -/
structure Passes (m : Manager) (now : ℤ) (b prev : Block) (n : Node) : Prop where
  unknown : ∃ e, DB.getBlock n.store b.hash = .error e
  previous : DB.getBlock n.store b.header.prevHash = .ok prev
  header : validateBlockHeader now b (some prev.header) m.network = .ok ()
  bits : (expectedBits prev.header m.network Manager.headerByHeight).run exec n =
    (.ok b.header.bits, n)
  transactions : (validateBlockTransactions b Store.get m.verifier).run exec n = (.ok (), n)

theorem run_previousHeader (hheight : 0 < b.header.height) :
    (Manager.previousHeader b).run exec n = match DB.getBlock n.store b.header.prevHash with
      | .ok prev => (.ok (some prev.header), n)
      | .error e => (.error (.error (.previousBlockNotFound e)), n) := by
  rw [Manager.previousHeader, if_pos hheight, run_getBlock_bind]
  cases DB.getBlock n.store b.header.prevHash <;> rfl

theorem run_checkBlock_of_unknown {e : Err} (h : DB.getBlock n.store b.hash = .error e) :
    (m.checkBlock now b).run exec n = (Manager.previousHeader b >>= fun prevHeader ↦ do
      validateBlockHeaderWithDifficulty now b prevHeader m.network Manager.headerByHeight
      validateBlockTransactions b Store.get m.verifier).run exec n := by
  rw [Manager.checkBlock, run_getBlock_bind, h]

/-- A block meets the rules for its header, with its parent if it is to have one, and the rules for
its transactions. -/
structure MeetsRules (m : Manager) (n : Node) (now : ℤ) (b : Block) : Prop where
  header : ∃ prev, (Manager.previousHeader b).run exec n = (.ok prev, n) ∧
    (validateBlockHeaderWithDifficulty now b prev m.network Manager.headerByHeight).run exec n =
      (.ok (), n)
  transactions : (validateBlockTransactions b Store.get m.verifier).run exec n = (.ok (), n)

/-- What a block of any height that passes the checks has. -/
theorem checkBlock_ok (h : (m.checkBlock now b).run exec n = (.ok (), n)) :
    (∃ e, DB.getBlock n.store b.hash = .error e) ∧ MeetsRules m n now b := by
  cases hknown : DB.getBlock n.store b.hash with
  | ok known =>
    rw [Manager.checkBlock, run_getBlock_bind, hknown] at h
    cases h
  | error e =>
    rw [run_checkBlock_of_unknown hknown] at h
    obtain ⟨prev, mid, hprev, hrest⟩ := Prog.run_bind_eq_ok h
    obtain rfl : n = mid := by
      rw [run_of_reads (Prog.only_mono Call.ReadsHeaders.reads (only_previousHeader b))] at hprev
      exact congrArg Prod.snd hprev
    obtain ⟨_, mid, hheader, htxs⟩ := Prog.run_bind_eq_ok hrest
    obtain rfl : n = mid := by
      rw [run_of_reads (Prog.only_mono Call.ReadsHeaders.reads
        (only_validateBlockHeaderWithDifficulty only_headerByHeight _ _ _ _))] at hheader
      exact congrArg Prod.snd hheader
    exact ⟨⟨e, rfl⟩, ⟨prev, hprev, hheader⟩, htxs⟩

/-- The checks of a block of positive height pass exactly if each of them does. -/
theorem checkBlock_ok_iff (hheight : 0 < b.header.height) :
    (m.checkBlock now b).run exec n = (.ok (), n) ↔ ∃ prev, Passes m now b prev n := by
  have hrun := run_previousHeader (n := n) hheight
  constructor
  · intro h
    obtain ⟨hunknown, ⟨prevHeader, hprev, hheader⟩, htxs⟩ := checkBlock_ok h
    rw [hrun] at hprev
    split at hprev
    · next prev hget =>
      cases hprev
      obtain ⟨hheader, hbits⟩ := validateBlockHeaderWithDifficulty_ok_iff.mp hheader
      exact ⟨prev, hunknown, hget, hheader, hbits, htxs⟩
    · cases hprev
  · rintro ⟨prev, h⟩
    obtain ⟨e, hunknown⟩ := h.unknown
    rw [h.previous] at hrun
    rw [run_checkBlock_of_unknown hunknown, Prog.run_bind_of_ok hrun,
      Prog.run_bind_of_ok (validateBlockHeaderWithDifficulty_ok_iff.mpr ⟨h.header, h.bits⟩)]
    exact h.transactions

/-- A block of height 0 is checked without a parent. -/
theorem checkBlock_of_height_zero (hheight : b.header.height = 0) {e : Err}
    (hunknown : DB.getBlock n.store b.hash = .error e)
    (hheader : validateBlockHeader now b none m.network = .ok ())
    (htransactions : (validateBlockTransactions b Store.get m.verifier).run exec n = (.ok (), n)) :
    (m.checkBlock now b).run exec n = (.ok (), n) := by
  have hprevious : (Manager.previousHeader b).run exec n = (.ok none, n) := by
    rw [Manager.previousHeader, hheight]
    rfl
  rw [run_checkBlock_of_unknown hunknown, Prog.run_bind_of_ok hprevious,
    validateBlockHeaderWithDifficulty, hheader]
  exact htransactions

end CheckBlock

end NevelCore
