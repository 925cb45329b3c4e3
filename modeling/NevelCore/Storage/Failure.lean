import NevelCore.Storage.Ledger

/-!
# Storage failures

`Batch.Commit` of the store is a loop over single writes that returns at the first one that fails,
and nothing takes the earlier ones back. Here the failures are given, as the error of each write if
it has one, and a process that stops before a write leaves the same store as one whose write fails.

`applyBlock_atomic_iff` is the exact account: `ApplyBlock` and `DisconnectTip` are all-or-nothing
only if the writes before the failing one change nothing. For a block without an undo record that
means that the very first write fails, since this write is the undo record
(`applyOps_take_redundant_iff`). `applyBlock_torn` is a failure of the second write.
-/

set_option autoImplicit false
set_option relaxedAutoImplicit false

namespace NevelCore

open Foundations

/-- Why a call on a store with failing writes fails. -/
inductive Failure (ε : Type) where
  | read (e : Err)
  | write (e : ε)

namespace DB

variable {ε : Type}

/-- `ApplyBlock`, where writes may fail. -/
def applyBlockFallible (fails : ℕ → Option ε) (d : Store) (b : Block) : Except ε Unit × Store :=
  commitFallible fails 0 (applyOps d b) d

/-- The block at the tip and its undo log, as `DisconnectTip` reads them. -/
def readTip (d : Store) : Except Err (Block × List UTXO) := do
  let hash ← tip d
  let b ← getBlock d hash
  let log ← undo d hash
  .ok (b, log)

/-- `DisconnectTip`, where writes may fail. -/
def disconnectTipFallible (fails : ℕ → Option ε) (d : Store) : Except (Failure ε) Block × Store :=
  match readTip d with
  | .error e => (.error (.read e), d)
  | .ok (b, log) =>
    match commitFallible fails 0 (disconnectOps b log) d with
    | (.ok (), d') => (.ok b, d')
    | (.error e, d') => (.error (.write e), d')

/-- A call has succeeded with all its writes, or failed with none. -/
def AllOrNothing {ε α : Type} (result : Except ε α × Store) (before after : Store) : Prop :=
  match result with
  | (.ok _, d) => d = after
  | (.error _, d) => d = before

theorem applyBlockFallible_allOrNothing_iff (fails : ℕ → Option ε) (d : Store) (b : Block) :
    AllOrNothing (applyBlockFallible fails d b) d (applyBlock d b) ↔
      ∀ k < (applyOps d b).length, FailsAt fails k → Redundant ((applyOps d b).take k) d := by
  rw [← commitFallible_atomic_iff, applyBlockFallible]
  rcases commitFallible_cases fails 0 (applyOps d b) d with ⟨-, hrun⟩ | ⟨k, -, e, -, -, hrun⟩
  · rw [hrun]
    exact ⟨fun _ h ↦ absurd rfl h, fun _ ↦ rfl⟩
  · rw [hrun]
    exact ⟨fun h _ ↦ h, fun h ↦ h nofun⟩

theorem disconnectTip_of_readTip {d : Store} {b : Block} {log : List UTXO}
    (h : readTip d = .ok (b, log)) :
    disconnectTip d = (.ok b, commit (disconnectOps b log) d) := by
  rw [readTip] at h
  rw [disconnectTip, h]

theorem disconnectTip_of_readTip_error {d : Store} {e : Err} (h : readTip d = .error e) :
    disconnectTip d = (.error e, d) := by
  rw [readTip] at h
  rw [disconnectTip, h]

theorem disconnectTipFallible_allOrNothing_iff (fails : ℕ → Option ε) (d : Store) :
    AllOrNothing (disconnectTipFallible fails d) d (disconnectTip d).2 ↔
      ∀ b log, readTip d = .ok (b, log) → ∀ k < (disconnectOps b log).length, FailsAt fails k →
        Redundant ((disconnectOps b log).take k) d := by
  rw [disconnectTipFallible]
  cases hread : readTip d with
  | error e =>
    rw [disconnectTip_of_readTip_error hread]
    refine ⟨fun _ b log heq ↦ ?_, fun _ ↦ rfl⟩
    cases heq
  | ok read =>
    obtain ⟨b, log⟩ := read
    rw [disconnectTip_of_readTip hread]
    dsimp only
    rcases commitFallible_cases fails 0 (disconnectOps b log) d with
      ⟨-, hrun⟩ | ⟨k, -, e, -, -, hrun⟩
    · rw [hrun]
      refine ⟨fun _ b' log' heq ↦ ?_, fun _ ↦ rfl⟩
      cases heq
      rw [← commitFallible_atomic_iff, hrun]
      exact fun h ↦ absurd rfl h
    · rw [hrun]
      refine ⟨fun h b' log' heq ↦ ?_, fun h ↦ ?_⟩
      · cases heq
        rw [← commitFallible_atomic_iff, hrun]
        exact fun _ ↦ h
      · have hatomic := commitFallible_atomic_iff.mpr (h b log rfl)
        rw [hrun] at hatomic
        exact hatomic fun heq ↦ by cases heq

/-- The undo record is written first and by no other write. -/
theorem applyOps_eq_cons (d : Store) (b : Block) :
    ∃ ops, applyOps d b = .set (.undo b.hash) (undoLog d b) :: ops ∧
      Key.undo b.hash ∉ ops.map BatchOp.key := by
  refine ⟨[.set (.blockHash b.hash) (serializeBlock b),
      .set (.blockHeight b.header.height) b.hash] ++
    b.transactions.toList.map (fun t ↦ .set (.tx t.hash) (serializeTransaction t)) ++
    (b.transactions.toList.mapIdx (transactionOps b.header.height)).flatten ++
    [.set .tip b.hash], rfl, fun hmem ↦ ?_⟩
  obtain ⟨op, hop, hkey⟩ := List.mem_map.mp hmem
  simp only [List.mem_append, List.mem_cons, List.not_mem_nil, or_false] at hop
  rcases hop with (((rfl | rfl) | hop) | hop) | rfl
  · cases hkey
  · cases hkey
  · obtain ⟨t, -, rfl⟩ := List.mem_map.mp hop
    cases hkey
  · obtain ⟨ops, hops, hop⟩ := List.mem_flatten.mp hop
    obtain ⟨i, hi, rfl⟩ := List.mem_mapIdx.mp hops
    obtain ⟨outpoint, h | h⟩ := key_of_mem_transactionOps hop <;> rw [h] at hkey <;> cases hkey
  · cases hkey

/-- Where there is no undo record of a block, only the empty beginning of its batch changes
nothing. -/
theorem applyOps_take_redundant_iff {d : Store} {b : Block}
    (hundo : undo d b.hash = .error .notFound)
    (k : ℕ) : Redundant ((applyOps d b).take k) d ↔ k = 0 := by
  constructor
  · intro h
    cases k with
    | zero => rfl
    | succ k =>
      obtain ⟨ops, hops, hnotMem⟩ := applyOps_eq_cons d b
      rw [hops, List.take_succ_cons] at h
      have hafter : Key.undo b.hash ∉ (ops.take k).map BatchOp.key := fun hmem ↦
        hnotMem ((List.take_sublist k ops).map _ |>.subset hmem)
      have hleft : (commit (.set (.undo b.hash) (undoLog d b) :: ops.take k) ∅).lookup
          (Key.undo b.hash) = some (undoLog d b) :=
        @lookup_commit_set _ _ _ [] _ _ hafter (undoLog d b) ∅
      have hsame : _ = d.lookup (Key.undo b.hash) := h (Key.undo b.hash) List.mem_cons_self
      rw [undo, ← hsame, hleft] at hundo
      cases hundo
  · rintro rfl k hk
    cases hk

/-- When `ApplyBlock` and `DisconnectTip` are all-or-nothing under failing writes: exactly if the
writes before the first one that fails have nothing to change. For a block without an undo record
this is a failure of the very first write. -/
theorem applyBlock_atomic_iff (fails : ℕ → Option ε) (d : Store) (b : Block) :
    (AllOrNothing (applyBlockFallible fails d b) d (applyBlock d b) ↔
      ∀ k < (applyOps d b).length, FailsAt fails k → Redundant ((applyOps d b).take k) d) ∧
    (undo d b.hash = .error .notFound →
      (AllOrNothing (applyBlockFallible fails d b) d (applyBlock d b) ↔
        ∀ k < (applyOps d b).length, FailsAt fails k → k = 0)) ∧
    (AllOrNothing (disconnectTipFallible fails d) d (disconnectTip d).2 ↔
      ∀ x log, readTip d = .ok (x, log) → ∀ k < (disconnectOps x log).length, FailsAt fails k →
        Redundant ((disconnectOps x log).take k) d) := by
  have happly := applyBlockFallible_allOrNothing_iff fails d b
  refine ⟨happly, fun hundo ↦ ?_, disconnectTipFallible_allOrNothing_iff fails d⟩
  simp only [happly, applyOps_take_redundant_iff hundo]

/-- Only write number `k` fails. -/
def failsOnlyAt (k i : ℕ) : Option String := if i = k then some "no space left on device" else none

theorem applyBlock_atomic_firstFails :
    undo ∅ (createGenesisBlock regtest).hash = .error .notFound ∧
      AllOrNothing (applyBlockFallible (failsOnlyAt 0) ∅ (createGenesisBlock regtest)) ∅
        (applyBlock ∅ (createGenesisBlock regtest)) := by
  refine ⟨rfl, ((applyBlock_atomic_iff _ _ _).2.1 rfl).mpr fun k _ hfails ↦ ?_⟩
  by_contra hk
  exact hfails.1 (if_neg hk)

/-- `ApplyBlock` of a genesis block on an empty store, when its second write fails: the call fails
and the undo record stays, of a block that is not there. -/
theorem applyBlock_torn :
    ∃ e d, applyBlockFallible (failsOnlyAt 1) ∅ (createGenesisBlock regtest) = (.error e, d) ∧
      undo d (createGenesisBlock regtest).hash = .ok [] ∧
      undo ∅ (createGenesisBlock regtest).hash = .error .notFound ∧
      getBlock d (createGenesisBlock regtest).hash = .error .notFound := by
  generalize hg : createGenesisBlock regtest = g
  have hlog : undoLog ∅ g = [] := by
    rw [← hg]
    rfl
  refine ⟨_, _, rfl, ?_, rfl, ?_⟩
  · rw [undo, ← hlog]
    exact congrArg found (Finmap.lookup_insert ∅)
  · rw [getBlock]
    have hne : Key.blockHash g.hash ≠ Key.undo g.hash := by
      intro heq
      cases heq
    rw [show (BatchOp.apply (.set (.undo g.hash) (undoLog ∅ g)) ∅ : Store).lookup
      (Key.blockHash g.hash) = _ from Finmap.lookup_insert_of_ne ∅ hne]
    rfl

end DB

end NevelCore
