import NevelCore.Chain.Runs
import NevelCore.Chain.WellFormed

/-!
# Guards against reorganisations

`EvaluateForkChoice` and `ValidateDifficultyTransition` of `chain/protection.go`. Nothing calls
them: `ValidateAndApplyBlock` decides for itself. Over a run they agree with it (`guards_pass`):
each change of the tip is one that the first guard allows under any policy, and for each block of
the main chain the second guard accepts its bits and no others, in every later state.
-/

set_option autoImplicit false
set_option relaxedAutoImplicit false

namespace NevelCore

open Foundations

structure ReorgPolicy where
  maxDepth : UInt64
  requireMoreWork : Bool

structure ForkChoice where
  currentWork : ℤ
  candidateWork : ℤ
  reorgDepth : UInt64
  allowed : Bool
  reason : String

inductive GuardError where
  | reorgTooDeep
  | insufficientWork
  | difficultyAnomaly
deriving DecidableEq

def GuardError.message : GuardError → String
  | .reorgTooDeep => "reorg exceeds configured depth"
  | .insufficientWork => "candidate chain does not have more accumulated work"
  | .difficultyAnomaly => "difficulty change exceeds consensus bounds"

/-- `EvaluateForkChoice`. -/
def evaluateForkChoice (currentWork candidateWork : Option ℤ) (reorgDepth : UInt64)
    (policy : ReorgPolicy) : ForkChoice × Option GuardError :=
  let currentWork := currentWork.getD 0
  let candidateWork := candidateWork.getD 0
  let choice : ForkChoice :=
    { currentWork := currentWork
      candidateWork := candidateWork
      reorgDepth := reorgDepth
      allowed := false
      reason := "" }
  if 0 < policy.maxDepth ∧ policy.maxDepth < reorgDepth then
    ({ choice with reason := GuardError.reorgTooDeep.message }, some .reorgTooDeep)
  else if policy.requireMoreWork ∧ candidateWork ≤ currentWork then
    ({ choice with reason := GuardError.insufficientWork.message }, some .insufficientWork)
  else ({ choice with allowed := true }, none)

/-- `ValidateDifficultyTransition`. -/
def validateDifficultyTransition {S : Signature} (prev : BlockHeader) (nextBits : UInt32)
    (net : Network) (headerByHeight : UInt64 → Prog S Halt BlockHeader) :
    Prog S Halt (Except GuardError Unit) := do
  let expected ← expectedBits prev net headerByHeight
  pure (if nextBits ≠ expected then .error .difficultyAnomaly else .ok ())

/-! ### Heavier chains -/

section Guards

variable {m : Manager} {g next prev : Block} {chain rest : List Block} {n : Node}

/-- A chain that has more work and takes no block away is allowed. -/
theorem evaluateForkChoice_eq_none {currentWork candidateWork : ℤ} (policy : ReorgPolicy)
    (h : currentWork < candidateWork) :
    (evaluateForkChoice (some currentWork) (some candidateWork) 0 policy).2 = none := by
  have hdepth : ¬ (0 < policy.maxDepth ∧ policy.maxDepth < 0) := fun h ↦ UInt64.not_lt_zero h.2
  have hwork : ¬ (policy.requireMoreWork ∧ candidateWork ≤ currentWork) :=
    fun hnot ↦ not_lt.mpr hnot.2 h
  unfold evaluateForkChoice
  dsimp only [Option.getD_some]
  rw [if_neg hdepth, if_neg hwork]

/-- A block has more work than its parent. -/
theorem Chain.work_lt (h : Chain m g (next :: prev :: rest))
    (hlimit : m.network.powLimit ≤ maxPowLimit) :
    chainWork (prev :: rest) < chainWork (next :: prev :: rest) := by
  cases h with
  | extend below step =>
    obtain ⟨hpos, hle, -⟩ := checkProofOfWork_ok_iff.mp step.proofOfWork
    exact Nat.lt_add_of_pos_left (workForBits_pos hpos (hle.trans hlimit))

/-- `ValidateDifficultyTransition` accepts the bits of the next block on the main chain. -/
theorem Holds.run_validateDifficultyTransition (h : Holds chain n.store) (hchain : Chain m g chain)
    (hg : g.header.height = 0) (hsuffix : next :: prev :: rest <:+ chain) (bits : UInt32) :
    (validateDifficultyTransition prev.header bits m.network Manager.headerByHeight).run exec n =
      (.ok (if bits = next.header.bits then .ok () else .error .difficultyAnomaly), n) := by
  cases hchain.of_suffix hsuffix with
  | extend below step =>
    have hbelow : prev :: rest <:+ chain := (List.suffix_cons _ _).trans hsuffix
    rw [validateDifficultyTransition, Prog.run_bind,
      h.run_expectedBits hchain hg hbelow step.parentInLimits, step.bits]
    by_cases hbits : bits = next.header.bits
    · subst hbits
      rw [if_pos rfl]
      dsimp only
      rw [if_neg (not_not.mpr rfl)]
      rfl
    · rw [if_neg hbits]
      dsimp only
      rw [if_pos hbits]
      rfl

end Guards

/-- In every state of a run of blocks of positive height, for a block of the main chain in the
limits of the reader and its parent: the guard against anomalies accepts the bits of the block and
no others, and the guard against reorganisations allows the change from the parent to the block. -/
theorem guards_pass {m : Manager} {g next prev : Block} {tips rest : List Block} {n : Node}
    (h : Run m PositiveHeight g tips n) (hlimit : m.network.powLimit ≤ maxPowLimit)
    (hsuffix : next :: prev :: rest <:+ tips) (hnext : next.InLimits) :
    (∀ bits, (validateDifficultyTransition prev.header bits m.network
        Manager.headerByHeight).run exec n =
      (.ok (if bits = next.header.bits then .ok () else .error .difficultyAnomaly), n)) ∧
    ∃ work work' : ℕ, DB.totalWork n.store prev.hash = .ok work ∧
      DB.totalWork n.store next.hash = .ok work' ∧
      ∀ policy, (evaluateForkChoice (some (work : ℤ)) (some (work' : ℤ)) 0 policy).2 = none := by
  obtain ⟨hchain, hholds⟩ := h.holds fun _ _ _ h ↦ h
  have hpair := hchain.of_suffix hsuffix
  have hprev : prev.InLimits := hpair.inLimits_of_mem_tail List.mem_cons_self
  refine ⟨hholds.run_validateDifficultyTransition hchain h.genesis.height hsuffix, _, _,
    hholds.work ((List.suffix_cons _ _).trans hsuffix) hprev, hholds.work hsuffix hnext,
    fun policy ↦ evaluateForkChoice_eq_none policy ?_⟩
  exact_mod_cast hpair.work_lt hlimit

/-- The guards pass for block A on genesis. -/
theorem guards_pass_regtest :
    (validateDifficultyTransition Regtest.genesis.header Regtest.blockA.header.bits
        Regtest.manager.network Manager.headerByHeight).run exec Regtest.afterA =
      (.ok (.ok ()), Regtest.afterA) ∧
    ∃ work work' : ℕ, DB.totalWork Regtest.afterA.store Regtest.genesis.hash = .ok work ∧
      DB.totalWork Regtest.afterA.store Regtest.blockA.hash = .ok work' ∧
      ∀ policy, (evaluateForkChoice (some (work : ℤ)) (some (work' : ℤ)) 0 policy).2 = none := by
  have hrun : Run Regtest.manager PositiveHeight Regtest.genesis
      [Regtest.blockA, Regtest.genesis] Regtest.afterA := Regtest.runA Regtest.validOn_blockA.height
  obtain ⟨hbits, hwork⟩ := guards_pass hrun (by decide) (List.suffix_refl _) Regtest.blockA_inLimits
  refine ⟨?_, hwork⟩
  rw [hbits Regtest.blockA.header.bits, if_pos rfl]

end NevelCore
