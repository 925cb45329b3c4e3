import NevelCore.Chain.Rejection
import NevelCore.Storage.Calls

/-!
# After a write has failed

A batch is written file by file, so a write that fails leaves the writes before it. For
`DisconnectTip` this can be repaired: the tip is written last, so the next call reads the same block
and the same undo log and writes everything again. Called until it succeeds, it has the effect of
one call that does not fail (`retryDisconnect_eq`).

For `ApplyBlock` it cannot, once the block itself has been written: the block is now known, so
`ValidateAndApplyBlock` refuses it, and the tip stays where it was (`interrupted_block_refused`).
-/

set_option autoImplicit false
set_option relaxedAutoImplicit false

namespace NevelCore

open Foundations

/-- The keys that `ApplyBlock` writes between the block and the tip. -/
def Key.Between : Key → Prop
  | .blockHeight _ | .tx _ | .utxo _ | .spent _ => True
  | _ => False

namespace DB

variable {ε : Type}

/-! ### Disconnecting again -/

/-- `DisconnectTip` called again after each failure to write, with the attempts that may fail given
first. -/
def retryDisconnect : List (ℕ → Option ε) → Store → Except Err Block × Store
  | [], d => disconnectTip d
  | fails :: attempts, d =>
    match disconnectTipFallible fails d with
    | (.ok b, d') => (.ok b, d')
    | (.error (.read e), d') => (.error e, d')
    | (.error (.write _), d') => retryDisconnect attempts d'

/-- The writes of `DisconnectTip` before the last one are to records of unspent outputs. -/
theorem key_of_mem_take_disconnectOps {b : Block} {log : List UTXO} {k : ℕ}
    (hk : k < (disconnectOps b log).length) {op : StoreOp}
    (hop : op ∈ (disconnectOps b log).take k) : ∃ outpoint, op.key = .utxo outpoint := by
  rw [disconnectOps, List.length_append, List.length_singleton] at hk
  rw [disconnectOps, List.take_append_of_le_length (Nat.lt_succ_iff.mp hk)] at hop
  rcases List.mem_append.mp (List.mem_of_mem_take hop) with hop | hop
  · obtain ⟨outpoint, -, rfl⟩ := List.mem_map.mp hop
    exact ⟨outpoint, rfl⟩
  · obtain ⟨u, -, rfl⟩ := List.mem_map.mp hop
    exact ⟨u.outpoint, rfl⟩

/-- An interrupted call reads the same again. -/
theorem readTip_commit_take {b : Block} {log : List UTXO} {k : ℕ}
    (hk : k < (disconnectOps b log).length) (d : Store) :
    readTip (commit ((disconnectOps b log).take k) d) = readTip d := by
  have hsame (key : Key) (hkey : ∀ outpoint, key ≠ .utxo outpoint) :
      (commit ((disconnectOps b log).take k) d).lookup key = d.lookup key := by
    refine lookup_commit_of_notMem (fun hmem ↦ ?_) d
    obtain ⟨op, hop, rfl⟩ := List.mem_map.mp hmem
    obtain ⟨outpoint, houtpoint⟩ := key_of_mem_take_disconnectOps hk hop
    exact hkey outpoint houtpoint
  have hblock (hash : Hash) :
      getBlock (commit ((disconnectOps b log).take k) d) hash = getBlock d hash := by
    rw [getBlock, getBlock, hsame _ fun _ ↦ Key.noConfusion]
  have hundo (hash : Hash) :
      undo (commit ((disconnectOps b log).take k) d) hash = undo d hash := by
    rw [undo, undo, hsame _ fun _ ↦ Key.noConfusion]
  have htip : tip (commit ((disconnectOps b log).take k) d) = tip d := by
    rw [tip, tip, hsame _ fun _ ↦ Key.noConfusion]
  simp only [readTip, hblock, hundo, htip]

theorem disconnectTip_commit_take {d : Store} {b : Block} {log : List UTXO}
    (hread : readTip d = .ok (b, log)) {k : ℕ} (hk : k < (disconnectOps b log).length) :
    disconnectTip (commit ((disconnectOps b log).take k) d) = disconnectTip d := by
  rw [disconnectTip_of_readTip hread,
    disconnectTip_of_readTip ((readTip_commit_take hk d).trans hread),
    commit_commit_of_subset ((List.take_sublist _ _).map _).subset]

/-- However often its writes fail, `DisconnectTip` called until it succeeds returns the block and
leaves the store that one call without a failure does. -/
theorem retryDisconnect_eq (attempts : List (ℕ → Option ε)) (d : Store) :
    retryDisconnect attempts d = disconnectTip d := by
  induction attempts generalizing d with
  | nil => rfl
  | cons fails attempts ih =>
    cases hread : readTip d with
    | error e =>
      rw [retryDisconnect, disconnectTipFallible, hread, disconnectTip_of_readTip_error hread]
    | ok found =>
      obtain ⟨b, log⟩ := found
      rw [retryDisconnect, disconnectTipFallible, hread]
      dsimp only
      rcases commitFallible_cases fails 0 (disconnectOps b log) d with
        ⟨-, hrun⟩ | ⟨k, hk, e, -, -, hrun⟩
      · rw [hrun, disconnectTip_of_readTip hread]
      · rw [hrun]
        exact (ih _).trans (disconnectTip_commit_take hread hk)

/-! ### A block that was not applied to the end -/

/-- The undo log and the block are written first and the tip is written last. -/
theorem applyOps_eq (d : Store) (b : Block) :
    ∃ ops : List StoreOp, applyOps d b = .set (.undo b.hash) (undoLog d b) ::
        .set (.blockHash b.hash) (serializeBlock b) :: (ops ++ [.set .tip b.hash]) ∧
      ∀ op ∈ ops, op.key.Between := by
  refine ⟨[.set (.blockHeight b.header.height) b.hash] ++
    b.transactions.toList.map (fun t ↦ .set (.tx t.hash) (serializeTransaction t)) ++
    (b.transactions.toList.mapIdx (transactionOps b.header.height)).flatten, rfl, fun op hop ↦ ?_⟩
  rw [List.mem_append, List.mem_append, List.mem_singleton] at hop
  rcases hop with (rfl | hop) | hop
  · trivial
  · obtain ⟨t, -, rfl⟩ := List.mem_map.mp hop
    trivial
  · obtain ⟨ops, hops, hop⟩ := List.mem_flatten.mp hop
    obtain ⟨ti, hti, rfl⟩ := List.mem_mapIdx.mp hops
    obtain ⟨outpoint, h | h⟩ := key_of_mem_transactionOps hop <;> rw [h] <;> trivial

/-- A call of `ApplyBlock` that is interrupted after the block and before the tip is written leaves
the block, and the tip as it was. -/
theorem applyBlockFallible_interrupted {fails : ℕ → Option ε} {d : Store} {b : Block} {k : ℕ}
    (hk : 2 ≤ k) (hlt : k < (applyOps d b).length) (hfails : FailsAt fails k) :
    ((applyBlockFallible fails d b).2.lookup (Key.blockHash b.hash) = some (serializeBlock b)) ∧
      (applyBlockFallible fails d b).2.lookup Key.tip = d.lookup Key.tip := by
  obtain ⟨ops, hops, hbetween⟩ := applyOps_eq d b
  have hnot {key : Key} (hkey : ¬ key.Between) (j : ℕ) : key ∉ (ops.take j).map BatchOp.key := by
    intro hmem
    obtain ⟨op, hop, rfl⟩ := List.mem_map.mp hmem
    exact hkey (hbetween op (List.mem_of_mem_take hop))
  rcases commitFallible_cases fails 0 (applyOps d b) d with
    ⟨hnone, -⟩ | ⟨j, hj, e, he, hbefore, hrun⟩
  · exact absurd (Nat.zero_add k ▸ hnone k hlt) hfails.1
  · simp only [Nat.zero_add] at he hbefore
    have hjk : j = k := FailsAt.unique ⟨he ▸ Option.some_ne_none e, hbefore⟩ hfails
    subst hjk
    obtain ⟨j, rfl⟩ := Nat.exists_eq_add_of_le' hk
    have htake : (applyOps d b).take (j + 2) = .set (.undo b.hash) (undoLog d b) ::
        .set (.blockHash b.hash) (serializeBlock b) :: ops.take j := by
      rw [hops] at hlt ⊢
      rw [List.take_succ_cons, List.take_succ_cons, List.take_append_of_le_length]
      simp only [List.length_cons, List.length_append, List.length_nil] at hlt
      omega
    rw [applyBlockFallible, hrun, htake]
    constructor
    · exact @lookup_commit_set _ _ _ [.set (.undo b.hash) (undoLog d b)] _ _
        (hnot (fun h : Key.Between (.blockHash b.hash) ↦ h) j) (serializeBlock b) d
    · refine lookup_commit_of_notMem ?_ d
      simpa using hnot (fun h : Key.Between .tip ↦ h) j

end DB

/-- A block in the limits of the reader whose `ApplyBlock` is interrupted after the block and before
the tip is written is refused when it is submitted again to the store as it was left, at any time:
it is already known, although the tip is still the one from before. -/
theorem interrupted_block_refused {ε : Type} (m : Manager) {fails : ℕ → Option ε} {d : Store}
    {b : Block} (hlimits : b.InLimits) {k : ℕ} (hk : 2 ≤ k)
    (hlt : k < (DB.applyOps d b).length) (hfails : FailsAt fails k) {n : Node}
    (hn : n.store = (DB.applyBlockFallible fails d b).2) (now : ℤ) (fuel : ℕ) :
    DB.tip n.store = DB.tip d ∧
      (m.validateAndApplyBlock now fuel b).run exec n =
        (.error (.error .blockAlreadyKnown), n) := by
  obtain ⟨hblock, htip⟩ := DB.applyBlockFallible_interrupted hk hlt hfails
  refine ⟨by rw [DB.tip, DB.tip, hn, htip], ?_⟩
  have hknown : DB.getBlock n.store b.hash = .ok b := by
    rw [DB.getBlock, hn, hblock]
    exact deserializeBlock_serializeBlock hlimits
  exact run_validateAndApplyBlock_of_known hknown

/-- The first block after the genesis block, where the write of the height fails. -/
theorem interrupted_blockA_refused :
    let fails : ℕ → Option Unit := fun i ↦ if i = 2 then some () else none
    let n : Node := { Regtest.afterGenesis with
      store := (DB.applyBlockFallible fails Regtest.afterGenesis.store Regtest.blockA).2 }
    DB.tip n.store = DB.tip Regtest.afterGenesis.store ∧
      (Regtest.manager.validateAndApplyBlock 0 0 Regtest.blockA).run exec n =
        (.error (.error .blockAlreadyKnown), n) := by
  intro fails n
  have hlt : 2 < (DB.applyOps Regtest.afterGenesis.store Regtest.blockA).length := by
    simp only [DB.applyOps, DB.applyOpsWith, List.length_append, List.length_cons]
    omega
  have hfails : FailsAt fails 2 :=
    ⟨Option.some_ne_none (), fun j hj ↦ if_neg (Nat.ne_of_lt hj)⟩
  exact interrupted_block_refused Regtest.manager Regtest.blockA_inLimits le_rfl hlt hfails rfl 0 0

end NevelCore
