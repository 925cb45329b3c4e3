import NevelCore.Chain.Validation

/-!
# The outcomes of a call

What `ValidateAndApplyBlock` can do, said once: it returns an error of its checks and changes
nothing, or it goes on as `run_connectBlock` says, which names its four ends. A block without a
tip, or on top of the tip, is applied. A block elsewhere has its work recorded, or is handed to
`reorg`.
-/

set_option autoImplicit false
set_option relaxedAutoImplicit false

namespace NevelCore

open Foundations

namespace DB

/-- The work of a block on top of what the store has for its parent. -/
def workOn (d : Store) (b : Block) : ℕ :=
  workForBits b.header.bits +
    if 0 < b.header.height then (totalWork d b.header.prevHash).toOption.getD 0 else 0

/-- The store after a block is applied and its work recorded. -/
def extend (d : Store) (b : Block) : Store :=
  putTotalWork (applyBlock d b) b.hash (workOn d b)

end DB

/-- The memory pool without the transactions of a block. -/
def Node.mined (n : Node) (b : Block) : Node :=
  { n with mempool := n.mempool.map (·.removeMinedBlock b) }

@[simp] theorem Node.mined_store (n : Node) (b : Block) : (n.mined b).store = n.store := rfl

section Outcomes

variable {m : Manager} {now : ℤ} {fuel : ℕ} {b : Block} {n n' : Node} {r : Except Halt Unit}

@[simp] theorem run_accumulatedWork (b : Block) (n : Node) :
    (Manager.accumulatedWork b).run exec n = (.ok (DB.workOn n.store b), n) := by
  rw [Manager.accumulatedWork, DB.workOn]
  split
  · rw [run_totalWork_bind]
    cases DB.totalWork n.store b.header.prevHash <;> rfl
  · rfl

theorem run_tipBlock {n : Node} {hash : Hash} {t : Block} (htip : DB.tip n.store = .ok hash)
    (hread : DB.getBlock n.store hash = .ok t) : Manager.tipBlock.run exec n = (.ok t, n) := by
  rw [Manager.tipBlock, run_tip_bind, htip]
  dsimp only
  rw [run_getBlock_bind, hread]
  rfl

theorem run_tipBlock_of_unreadable {n : Node} {hash : Hash} {e : Err}
    (htip : DB.tip n.store = .ok hash) (hread : DB.getBlock n.store hash = .error e) :
    Manager.tipBlock.run exec n = (.error (.error e), n) := by
  rw [Manager.tipBlock, run_tip_bind, htip]
  dsimp only
  rw [run_getBlock_bind, hread]
  rfl

/-- The block that `BuildTemplate` makes on top of a tip. -/
def templateOn (tip : Block) (bits : UInt32) (coinbaseNow headerNow : Int64)
    (snapshot : List Transaction) (minerScript : Bytes) : Block :=
  newBlock headerNow tip.hash (tip.header.height + 1) bits
    (.ofList (newCoinbase (Manager.minedAt coinbaseNow) (blockReward (tip.header.height + 1))
      minerScript :: snapshot))

theorem run_buildTemplate {tip : Block} {bits : UInt32} (htip : DB.tip n.store = .ok tip.hash)
    (hread : DB.getBlock n.store tip.hash = .ok tip)
    (hbits : (expectedBits tip.header m.network Manager.headerByHeight).run exec n = (.ok bits, n))
    (coinbaseNow headerNow : Int64) (snapshot : List Transaction) (minerScript : Bytes) :
    (m.buildTemplate coinbaseNow headerNow snapshot minerScript).run exec n =
      (.ok (templateOn tip bits coinbaseNow headerNow snapshot minerScript), n) := by
  rw [Manager.buildTemplate, Prog.run_bind_of_ok (run_tipBlock htip hread), Manager.nextBits,
    Prog.run_bind_of_ok hbits]
  rfl

/-- What happens to a block that has passed the checks. -/
theorem run_connectBlock (fuel : ℕ) (b : Block) (n : Node) :
    (Manager.connectBlock fuel b).run exec n = match DB.tip n.store with
      | .error _ => (.ok (), { n with store := DB.extend n.store b })
      | .ok tip =>
        if b.header.prevHash = tip then
          (.ok (), Node.mined { n with store := DB.extend n.store b } b)
        else if DB.workOn n.store b ≤ (DB.totalWork n.store tip).toOption.getD 0 then
          (.ok (), { n with store := DB.putTotalWork n.store b.hash (DB.workOn n.store b) })
        else (Manager.reorg fuel b).run exec n := by
  rw [Manager.connectBlock, Prog.run_bind_of_ok (run_accumulatedWork b n), run_tip_bind]
  cases DB.tip n.store with
  | error e => rfl
  | ok tip =>
    dsimp only
    rw [run_totalWork_bind]
    split
    · rfl
    split
    · rfl
    · rfl

/-- The checks end the call, or `connectBlock` goes on from the same state. -/
theorem validateAndApplyBlock_cases
    (h : (m.validateAndApplyBlock now fuel b).run exec n = (r, n')) :
    (∃ e, (m.checkBlock now b).run exec n = (.error e, n) ∧ r = .error e ∧ n' = n) ∨
      (m.checkBlock now b).run exec n = (.ok (), n) ∧
        (Manager.connectBlock fuel b).run exec n = (r, n') := by
  have hreads := run_of_reads (only_checkBlock m now b) n
  rw [Manager.validateAndApplyBlock] at h
  cases hcheck : ((m.checkBlock now b).run exec n).1 with
  | error e =>
    rw [hcheck] at hreads
    rw [Prog.run_bind_of_error hreads] at h
    cases h
    exact .inl ⟨e, hreads, rfl, rfl⟩
  | ok _ =>
    rw [hcheck] at hreads
    rw [Prog.run_bind_of_ok hreads] at h
    exact .inr ⟨hreads, h⟩

/-- A call that changes the state is for a block that meets the rules. -/
theorem meetsRules_of_ne (h : (m.validateAndApplyBlock now fuel b).run exec n = (r, n'))
    (hne : n' ≠ n) : MeetsRules m n now b := by
  rcases validateAndApplyBlock_cases h with ⟨e, -, -, hsame⟩ | ⟨hcheck, -⟩
  · exact absurd hsame hne
  · exact (checkBlock_ok hcheck).2

theorem run_validateAndApplyBlock_of_ok (h : (m.checkBlock now b).run exec n = (.ok (), n)) :
    (m.validateAndApplyBlock now fuel b).run exec n = (Manager.connectBlock fuel b).run exec n :=
  Prog.run_bind_of_ok h

/-- A block on top of the tip that passes the checks is applied. -/
theorem run_validateAndApplyBlock_of_tip (fuel : ℕ)
    (h : (m.checkBlock now b).run exec n = (.ok (), n))
    (htip : DB.tip n.store = .ok b.header.prevHash) :
    ∃ n', (m.validateAndApplyBlock now fuel b).run exec n = (.ok (), n') ∧
      n'.store = DB.extend n.store b ∧ n'.mempool = n.mempool.map (·.removeMinedBlock b) := by
  refine ⟨Node.mined { n with store := DB.extend n.store b } b, ?_, rfl, rfl⟩
  rw [run_validateAndApplyBlock_of_ok h, run_connectBlock, htip]
  exact if_pos rfl

/-- A call that ends well with a block on top of the tip has applied it. -/
theorem validateAndApplyBlock_ok_of_tip
    (h : (m.validateAndApplyBlock now fuel b).run exec n = (.ok (), n'))
    (htip : DB.tip n.store = .ok b.header.prevHash) :
    (m.checkBlock now b).run exec n = (.ok (), n) ∧
      n' = Node.mined { n with store := DB.extend n.store b } b := by
  obtain ⟨hcheck, hconnect⟩ := (validateAndApplyBlock_cases h).resolve_left
    fun ⟨_, _, herror, _⟩ ↦ nomatch herror
  rw [run_connectBlock, htip] at hconnect
  dsimp only at hconnect
  rw [if_pos rfl] at hconnect
  cases hconnect
  exact ⟨hcheck, rfl⟩

end Outcomes

/-! ### The store of an extension -/

namespace DB

variable (d : Store) (b : Block)

@[simp] theorem tip_extend : tip (extend d b) = .ok b.hash := by simp [extend]

@[simp] theorem utxos_extend : utxos (extend d b) = (utxos d).apply b := by
  rw [extend, utxos_putTotalWork, utxos_applyBlock]

theorem lookup_blockHash_extend (hash : Hash) :
    (extend d b).lookup (Key.blockHash hash) =
      if hash = b.hash then some (serializeBlock b) else d.lookup (Key.blockHash hash) := by
  rw [extend, lookup_putTotalWork (by simp), lookup_blockHash_applyBlock]

theorem blockHashByHeight_extend (height : UInt64) :
    blockHashByHeight (extend d b) height =
      if height = b.header.height then .ok b.hash else blockHashByHeight d height := by
  rw [extend, blockHashByHeight_putTotalWork, blockHashByHeight_applyBlock]

theorem totalWork_extend (hash : Hash) :
    totalWork (extend d b) hash = if hash = b.hash then .ok (workOn d b) else totalWork d hash := by
  rw [extend, totalWork_putTotalWork, totalWork_applyBlock]

theorem undo_extend (hash : Hash) :
    undo (extend d b) hash =
      if hash = b.hash then .ok ((utxos d).undoLog b) else undo d hash := by
  rw [extend, undo_putTotalWork, undo_applyBlock]

end DB

/-! ### The end of a reorganisation -/

namespace Manager

theorem run_applySideChain (blocks : List Block) (n : Node) :
    (applySideChain blocks).run exec n =
      (.ok (), { n with store := blocks.foldl DB.extend n.store }) := by
  induction blocks generalizing n with
  | nil => rfl
  | cons b blocks ih =>
    -- applying the block first does not change the work its parent has on record
    have hwork : DB.workOn (DB.applyBlock n.store b) b = DB.workOn n.store b := by
      rw [DB.workOn, DB.totalWork_applyBlock, DB.workOn]
    rw [applySideChain, run_applyBlock_bind]
    dsimp only
    rw [Prog.run_bind_of_ok (run_accumulatedWork b _), run_putTotalWork_bind, attempt_ok,
      Prog.pure_bind, ih, hwork]
    rfl

theorem run_removeMinedBlocks (blocks : List Block) (n : Node) :
    ∃ mempool, (removeMinedBlocks blocks).run exec n = (.ok (), ⟨n.store, mempool⟩) := by
  induction blocks generalizing n with
  | nil => exact ⟨n.mempool, rfl⟩
  | cons b blocks ih => exact ih _

/-- The side chain is collected with the new tip in front. -/
theorem collectSideChain_ok {fuel : ℕ} {cur : Block} {sideChain : List Block} {n n' : Node}
    {r : List Block × Block}
    (h : (collectSideChain fuel cur sideChain).run exec n = (.ok r, n')) :
    ∃ more, r.1 = sideChain ++ more ∧ n' = n := by
  induction fuel generalizing cur sideChain with
  | zero => cases h
  | succ fuel ih =>
    rw [collectSideChain] at h
    split at h
    · cases h
      exact ⟨[], (List.append_nil _).symm, rfl⟩
    rw [run_blockHashByHeight_bind] at h
    split at h
    · cases h
    split at h
    · cases h
      exact ⟨[], (List.append_nil _).symm, rfl⟩
    rw [run_getBlock_bind] at h
    split at h
    · cases h
    · next parentBlock _ =>
      obtain ⟨more, hmore, hn⟩ := ih h
      exact ⟨parentBlock :: more, by rw [hmore, List.append_assoc]; rfl, hn⟩

/-- What a reorganisation that succeeds has done. -/
theorem reorg_ok {fuel : ℕ} {newTip : Block} {n n' : Node}
    (h : (reorg fuel newTip).run exec n = (.ok (), n')) :
    ∃ sideChain cur mid, (collectSideChain fuel newTip [newTip]).run exec n =
        (.ok (sideChain, cur), n) ∧
      (rollbackToHeight fuel (if cur.header.height = 0 then 0 else cur.header.height - 1)).run
        exec n = (.ok (), mid) ∧
      n'.store = sideChain.reverse.foldl DB.extend mid.store := by
  rw [reorg] at h
  obtain ⟨⟨sideChain, cur⟩, n₁, hcollect, hrest⟩ := Prog.run_bind_eq_ok h
  obtain ⟨more, -, rfl⟩ := collectSideChain_ok hcollect
  obtain ⟨_, mid, hroll, hrest⟩ := Prog.run_bind_eq_ok hrest
  rw [Prog.run_bind_of_ok (run_applySideChain _ _)] at hrest
  obtain ⟨mempool, hremove⟩ := run_removeMinedBlocks sideChain
    { mid with store := sideChain.reverse.foldl DB.extend mid.store }
  rw [hremove] at hrest
  refine ⟨sideChain, cur, mid, hcollect, Prog.run_of_mapError hroll, ?_⟩
  exact congrArg (fun result ↦ result.2.store) hrest.symm

end Manager

end NevelCore
