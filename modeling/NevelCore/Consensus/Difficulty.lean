import NevelCore.Consensus.Rules
import NevelCore.Params.CompactTarget

/-!
# Retargeting

The bits that a block must have. Between two windows they are those of the previous block, and at
the end of a window `ExpectedBits` reckons with the time that the window took, within a factor of
four of the time it should take (`retarget_eq`), and cuts the new target off at the limit of the
network. `expectedBits_le` and `expectedBits_bounded` bound the target that comes out.

The time is a difference in `int64`, and nothing bounds a timestamp from below, so that it can
overflow. `usesElapsed_iff` says for which pairs of timestamps it is the exact time that is reckoned
with. Among these a later last block never makes the target smaller.
-/

set_option autoImplicit false
set_option relaxedAutoImplicit false

namespace NevelCore

open Foundations

/-! ### Retargeting -/

/-- The time a retarget reckons with, within a factor of four of the time expected. -/
def reckonedTime (elapsed : ℤ) : ℤ :=
  min (max elapsed (expectedRetargetSec.toInt / 4)) (4 * expectedRetargetSec.toInt)

theorem retarget_eq (oldTarget : ℤ) (actualTime : Int64) :
    retarget oldTarget actualTime expectedRetargetSec =
      oldTarget * reckonedTime actualTime.toInt / expectedRetargetSec.toInt := by
  have hlower : (expectedRetargetSec / 4).toInt = expectedRetargetSec.toInt / 4 := by decide
  have hupper : (expectedRetargetSec * 4).toInt = 4 * expectedRetargetSec.toInt := by decide
  have hreckoned : (if (if actualTime < expectedRetargetSec / 4 then expectedRetargetSec / 4
      else actualTime) > expectedRetargetSec * 4 then expectedRetargetSec * 4
      else if actualTime < expectedRetargetSec / 4 then expectedRetargetSec / 4
        else actualTime).toInt = reckonedTime actualTime.toInt := by
    have hvalue : expectedRetargetSec.toInt = 43200 := by decide
    rw [reckonedTime]
    simp only [gt_iff_lt, Int64.lt_iff_toInt_lt, apply_ite Int64.toInt, hlower, hupper, hvalue]
    split_ifs <;> omega
  rw [← hreckoned]
  rfl

theorem reckonedTime_bounds (elapsed : ℤ) :
    10800 ≤ reckonedTime elapsed ∧ reckonedTime elapsed ≤ 172800 := by
  have hvalue : expectedRetargetSec.toInt = 43200 := by decide
  rw [reckonedTime, hvalue]
  omega

theorem retarget_bounds {oldTarget : ℤ} (h : 0 ≤ oldTarget) (actualTime : Int64) :
    oldTarget / 4 ≤ retarget oldTarget actualTime expectedRetargetSec ∧
      retarget oldTarget actualTime expectedRetargetSec ≤ 4 * oldTarget := by
  obtain ⟨hlower, hupper⟩ := reckonedTime_bounds actualTime.toInt
  rw [retarget_eq, show expectedRetargetSec.toInt = 43200 by decide]
  constructor
  · rw [Int.le_ediv_iff_mul_le (by decide)]
    have hmul : oldTarget * 10800 ≤ oldTarget * reckonedTime actualTime.toInt :=
      Int.mul_le_mul_of_nonneg_left hlower h
    omega
  · refine Int.ediv_le_of_le_mul (by decide) ?_
    have hmul : oldTarget * reckonedTime actualTime.toInt ≤ oldTarget * 172800 :=
      Int.mul_le_mul_of_nonneg_left hupper h
    omega

/-- The bits of a target after some time has passed, within a limit. -/
def retargetedBits (oldTarget limit elapsed : ℤ) : UInt32 :=
  bigToCompact (min limit (oldTarget * reckonedTime elapsed / expectedRetargetSec.toInt))

/-- A header of the network for tests. -/
def regtestHeader (height : UInt64) (timestamp : Int64) : BlockHeader where
  version := 1
  prevHash := Bytes32.zero
  merkleRoot := Bytes32.zero
  timestamp := timestamp
  bits := regtestPowBits
  nonce := 0
  height := height

theorem compactToBig_regtestHeader (height : UInt64) (timestamp : Int64) :
    compactToBig (regtestHeader height timestamp).bits = regtest.powLimit := by
  rw [regtestHeader, regtest]

section ExpectedBits

variable {S : Signature} {σ : Type} {exec : Machine S σ} {s s' : σ} {prev : BlockHeader}
  {net : Network} {headerByHeight : UInt64 → Prog S Halt BlockHeader} {bits : UInt32}

/-- The bits after a header with a target in the range of the network have a target within its
limit. -/
theorem expectedBits_le
    (h : (expectedBits prev net headerByHeight).run exec s = (.ok bits, s'))
    (hnonneg : 0 ≤ compactToBig prev.bits) (hle : compactToBig prev.bits ≤ net.powLimit)
    (hlimit : net.powLimit ≤ maxPowLimit) : compactToBig bits ≤ net.powLimit := by
  rw [expectedBits] at h
  split_ifs at h with hretarget
  · cases h
    exact hle
  · obtain ⟨first, mid, -, hrest⟩ := Prog.run_bind_eq_ok h
    cases hrest
    have hretargeted := (Int.ediv_nonneg hnonneg (by decide)).trans
      (retarget_bounds hnonneg (prev.timestamp - first.timestamp)).1
    split_ifs with hover
    · exact compactToBig_bigToCompact_le (hnonneg.trans hle) hlimit
    · have hcut := not_lt.mp hover
      exact (compactToBig_bigToCompact_le hretargeted (hcut.trans hlimit)).trans hcut

/-- The bits at the end of a window. -/
theorem expectedBits_of_retarget (prev first : BlockHeader) (net : Network)
    (hwindow : (prev.height + 1) % difficultyWindow = 0)
    (hpos : prev.height + 1 ≠ 0)
    (hfirst : (headerByHeight (prev.height + 1 - difficultyWindow)).run exec s = (.ok first, s')) :
    (expectedBits prev net headerByHeight).run exec s =
      (.ok (retargetedBits (compactToBig prev.bits) net.powLimit
        (prev.timestamp - first.timestamp).toInt), s') := by
  rw [expectedBits, if_neg (not_or.mpr ⟨not_not.mpr hwindow, hpos⟩), Prog.run_bind_of_ok hfirst,
    retargetedBits, ← retarget_eq, min_comm, min_def]
  dsimp only
  simp only [gt_iff_lt, ← not_le, ite_not]
  rfl

/-- After a header whose target is at least 4 and within the limit, the target is positive, within
the limit and four times the last target, and at least a quarter of that up to rounding. So its sign
bit is clear, and `CheckProofOfWork` goes on to compare the hash. -/
theorem expectedBits_bounded (prev : BlockHeader) (net : Network)
    (headerByHeight : UInt64 → Prog S Halt BlockHeader) (hpos : 0 < net.powLimit)
    (hrange : net.powLimit < 2 ^ 256) (hlow : 4 ≤ compactToBig prev.bits)
    (hle : compactToBig prev.bits ≤ net.powLimit)
    (hanswers : ∀ height, ∃ first s', (headerByHeight height).run exec s = (.ok first, s')) :
    ∃ bits s', (expectedBits prev net headerByHeight).run exec s = (.ok bits, s') ∧
      0 < compactToBig bits ∧
      compactToBig bits ≤ min net.powLimit (4 * compactToBig prev.bits) ∧
      2 ^ 15 * (compactToBig prev.bits / 4 - compactToBig bits) < compactToBig bits ∧
      bits &&& 0x00800000 = 0 ∧
      ∀ header : BlockHeader, header.bits = bits → checkProofOfWork header net.powLimit =
        if (hashValue header.hash : ℤ) > compactToBig bits then .error .invalidProofOfWork
        else .ok () := by
  -- the sign and the range test follow from the bounds on the target
  suffices hbits : ∃ bits s', (expectedBits prev net headerByHeight).run exec s = (.ok bits, s') ∧
      0 < compactToBig bits ∧ compactToBig bits ≤ min net.powLimit (4 * compactToBig prev.bits) ∧
      2 ^ 15 * (compactToBig prev.bits / 4 - compactToBig bits) < compactToBig bits by
    obtain ⟨bits, s', hrun, hbitsPos, hupper, hlower⟩ := hbits
    refine ⟨bits, s', hrun, hbitsPos, hupper, hlower, sign_eq_zero hbitsPos, ?_⟩
    rintro header rfl
    have hlimit := hupper.trans (min_le_left _ _)
    rw [checkProofOfWork, if_neg (not_or.mpr ⟨not_le.mpr hbitsPos, not_lt.mpr hlimit⟩)]
  by_cases hwindow : (prev.height + 1) % difficultyWindow ≠ 0 ∨ prev.height + 1 = 0
  · refine ⟨prev.bits, s, by rw [expectedBits, if_pos hwindow]; rfl, by omega,
      le_min hle (by omega), by omega⟩
  · obtain ⟨hwindow, hheight⟩ := not_or.mp hwindow
    obtain ⟨first, s', hfirst⟩ := hanswers (prev.height + 1 - difficultyWindow)
    refine ⟨_, s', expectedBits_of_retarget prev first net (not_not.mp hwindow) hheight hfirst, ?_⟩
    obtain ⟨hquarter, hfour⟩ := retarget_bounds (le_trans (by decide) hlow)
      (prev.timestamp - first.timestamp)
    rw [retargetedBits, ← retarget_eq]
    generalize retarget (compactToBig prev.bits) _ expectedRetargetSec = retargeted at *
    have hmax := maxPowLimit_lt
    rw [maxPowLimit] at hmax
    have hpositive : 0 < min net.powLimit retargeted := lt_min hpos (by omega)
    have hbound : min net.powLimit retargeted < compactBound :=
      lt_of_le_of_lt (min_le_left _ _) (by omega)
    have hround := lt_compactToBig_bigToCompact hpositive hbound
    have hgreatest := (isGreatest_compactToBig_bigToCompact hpositive.le hbound).1.2
    have hdown : compactToBig prev.bits / 4 ≤ min net.powLimit retargeted :=
      le_min (by omega) hquarter
    refine ⟨by omega, hgreatest.trans (min_le_min_left _ hfour), by omega⟩

theorem expectedBits_bounded_regtest :
    ∃ bits s', (expectedBits (regtestHeader 719 1) regtest
        fun _ ↦ pure (regtestHeader 0 0)).run noCalls () = (.ok bits, s') ∧
      0 < compactToBig bits ∧ compactToBig bits ≤ min regtest.powLimit (4 * regtest.powLimit) := by
  obtain ⟨bits, s', hrun, hpos, hle, -⟩ := expectedBits_bounded (regtestHeader 719 1) regtest
    (fun _ ↦ pure (regtestHeader 0 0)) (by decide) (by decide)
    (by rw [compactToBig_regtestHeader]; decide) (le_of_eq (compactToBig_regtestHeader 719 1))
    fun _ ↦ ⟨regtestHeader 0 0, (), rfl⟩
  rw [compactToBig_regtestHeader] at hle
  exact ⟨bits, s', hrun, hpos, hle⟩

end ExpectedBits

/-! ### The time between two timestamps -/

/-- The difference of two timestamps in `int64` and the exact one give the same time to reckon with:
it does not overflow, or it is so far below the range that it comes out as a short time again. -/
def ElapsedFits (last first : Int64) : Prop :=
  -2 ^ 63 ≤ last.toInt - first.toInt ∧ last.toInt - first.toInt < 2 ^ 63 ∨
    last.toInt - first.toInt ≤ expectedRetargetSec.toInt / 4 - 2 ^ 64

theorem reckonedTime_cases {last first : Int64} :
    (ElapsedFits last first ∧
      reckonedTime (last - first).toInt = reckonedTime (last.toInt - first.toInt)) ∨
    (¬ ElapsedFits last first ∧
      (reckonedTime (last - first).toInt = 10800 ∧
        10800 < reckonedTime (last.toInt - first.toInt) ∨
      10800 < reckonedTime (last - first).toInt ∧
        reckonedTime (last.toInt - first.toInt) = 10800)) := by
  have hvalue : expectedRetargetSec.toInt = 43200 := by decide
  have hlast := last.toInt_lt
  have hlast' := last.le_toInt
  have hfirst := first.toInt_lt
  have hfirst' := first.le_toInt
  rw [Int64.toInt_sub, Int.bmod_def, ElapsedFits, reckonedTime, reckonedTime, hvalue]
  omega

/-- `ExpectedBits` reckons with the exact time between two timestamps. -/
def UsesElapsed (last firstTime : Int64) : Prop :=
  ∀ (S : Signature) (σ : Type) (exec : Machine S σ) (s s' : σ)
    (headerByHeight : UInt64 → Prog S Halt BlockHeader) (prev first : BlockHeader) (net : Network),
    0 < net.powLimit → (prev.height + 1) % difficultyWindow = 0 → prev.height + 1 ≠ 0 →
    (headerByHeight (prev.height + 1 - difficultyWindow)).run exec s = (.ok first, s') →
    prev.timestamp = last → first.timestamp = firstTime →
    (expectedBits prev net headerByHeight).run exec s =
      (.ok (retargetedBits (compactToBig prev.bits) net.powLimit (last.toInt - firstTime.toInt)),
        s')

/-- A longer time never makes the target smaller. -/
theorem retargetedBits_mono {oldTarget limit : ℤ} (hold : 0 ≤ oldTarget) (hlimit : 0 ≤ limit)
    (hbound : limit < compactBound) {elapsed elapsed' : ℤ}
    (hle : reckonedTime elapsed ≤ reckonedTime elapsed') :
    compactToBig (retargetedBits oldTarget limit elapsed) ≤
      compactToBig (retargetedBits oldTarget limit elapsed') := by
  have hnonneg : 0 ≤ oldTarget * reckonedTime elapsed :=
    Int.mul_nonneg hold (le_trans (by decide) (reckonedTime_bounds elapsed).1)
  refine compactToBig_bigToCompact_mono (le_min hlimit (Int.ediv_nonneg hnonneg (by decide)))
    (min_le_min_left _ ?_) (lt_of_le_of_lt (min_le_left _ _) hbound)
  exact Int.ediv_le_ediv (by decide) (Int.mul_le_mul_of_nonneg_left hle hold)

theorem reckonedTime_mono {elapsed elapsed' : ℤ} (h : elapsed ≤ elapsed') :
    reckonedTime elapsed ≤ reckonedTime elapsed' :=
  min_le_min_right _ (max_le_max_right _ h)

/-- On the network for tests a second above the shortest time makes a difference. -/
theorem retargetedBits_regtest_ne {elapsed elapsed' : ℤ} (hshort : reckonedTime elapsed = 10800)
    (hlonger : 10800 < reckonedTime elapsed') :
    retargetedBits regtest.powLimit regtest.powLimit elapsed ≠
      retargetedBits regtest.powLimit regtest.powLimit elapsed' := by
  intro heq
  have hlimit : 0 ≤ regtest.powLimit := by decide
  have hbound : regtest.powLimit < compactBound := lt_of_le_of_lt (by decide) maxPowLimit_lt
  have hle : reckonedTime 10801 ≤ reckonedTime elapsed' := by
    rw [show reckonedTime 10801 = 10801 by decide]
    omega
  have hmono := retargetedBits_mono hlimit hlimit hbound hle
  rw [← heq, retargetedBits, retargetedBits, hshort] at hmono
  exact absurd hmono (by decide)

/-- The bits after the first window of the network for tests. -/
theorem expectedBits_regtestHeader (last firstTime : Int64) :
    (expectedBits (regtestHeader 719 last) regtest fun _ ↦ pure (regtestHeader 0 firstTime)).run
        noCalls () =
      (.ok (retargetedBits regtest.powLimit regtest.powLimit (last - firstTime).toInt), ()) := by
  have hwindow : ((719 : UInt64) + 1) % difficultyWindow = 0 := by decide
  have hheight : (719 : UInt64) + 1 ≠ 0 := by decide
  rw [expectedBits_of_retarget (regtestHeader 719 last) (regtestHeader 0 firstTime) regtest hwindow
    hheight rfl, compactToBig_regtestHeader, regtestHeader, regtestHeader]

/-- The exact time between two timestamps is what the bits are reckoned with if and only if the
difference fits, or is so short that it comes out as a short time again. Of two last timestamps for
which this is so the earlier one does not make the target larger, if the limit has a compact
form. -/
theorem usesElapsed_iff (last firstTime : Int64) :
    (UsesElapsed last firstTime ↔ ElapsedFits last firstTime) ∧
    ∀ (S : Signature) (σ : Type) (exec : Machine S σ) (s s' : σ)
      (headerByHeight : UInt64 → Prog S Halt BlockHeader) (prev first : BlockHeader)
      (net : Network) (earlier : Int64),
      0 < compactToBig prev.bits → compactToBig prev.bits ≤ net.powLimit →
      net.powLimit < compactBound →
      (prev.height + 1) % difficultyWindow = 0 → prev.height + 1 ≠ 0 →
      (headerByHeight (prev.height + 1 - difficultyWindow)).run exec s = (.ok first, s') →
      prev.timestamp = last → first.timestamp = firstTime → earlier ≤ last →
      ElapsedFits last firstTime → ElapsedFits earlier firstTime →
      ∃ bits bits', (expectedBits { prev with timestamp := earlier } net headerByHeight).run exec s =
          (.ok bits, s') ∧ (expectedBits prev net headerByHeight).run exec s = (.ok bits', s') ∧
        compactToBig bits ≤ compactToBig bits' := by
  have hlaw {last firstTime : Int64} (hfits : ElapsedFits last firstTime) :
      UsesElapsed last firstTime := by
    intro S σ exec s s' headerByHeight prev first net hpos hwindow hheight hfirst hlast hfirstTime
    rw [expectedBits_of_retarget prev first net hwindow hheight hfirst, hlast, hfirstTime,
      retargetedBits,
      (reckonedTime_cases.resolve_right fun h ↦ h.1 hfits).2, ← retargetedBits]
  refine ⟨⟨fun h ↦ ?_, hlaw⟩, ?_⟩
  · by_contra hfits
    have hwindow : ((719 : UInt64) + 1) % difficultyWindow = 0 := by decide
    have hheight : (719 : UInt64) + 1 ≠ 0 := by decide
    have hrun := h _ _ noCalls () () (fun _ ↦ pure (regtestHeader 0 firstTime))
      (regtestHeader 719 last) (regtestHeader 0 firstTime) regtest (by decide) hwindow hheight rfl
      rfl rfl
    rw [expectedBits_regtestHeader, compactToBig_regtestHeader, Prod.mk.injEq,
      Except.ok.injEq] at hrun
    obtain ⟨hshort, hlonger⟩ | ⟨hlonger, hshort⟩ :=
      (reckonedTime_cases.resolve_left fun h ↦ hfits h.1).2
    · exact retargetedBits_regtest_ne hshort hlonger hrun.1
    · exact retargetedBits_regtest_ne hshort hlonger hrun.1.symm
  · intro S σ exec s s' headerByHeight prev first net earlier hpos hle hbound hwindow hheight hfirst
      hlast hfirstTime hearlier hfits hfits'
    have hlimit := hpos.trans_le hle
    refine ⟨_, _, hlaw hfits' _ _ _ _ _ _ { prev with timestamp := earlier } first _ hlimit hwindow
      hheight hfirst rfl hfirstTime, hlaw hfits _ _ _ _ _ _ _ _ _ hlimit hwindow hheight hfirst
      hlast hfirstTime, ?_⟩
    refine retargetedBits_mono hpos.le (hpos.le.trans hle) hbound (reckonedTime_mono ?_)
    have := Int64.le_iff_toInt_le.mp hearlier
    omega

theorem usesElapsed_late : UsesElapsed 43200 0 ∧ ¬ UsesElapsed Int64.minValue 1 :=
  ⟨(usesElapsed_iff 43200 0).1.mpr (Or.inl (by decide)),
    fun h ↦ absurd ((usesElapsed_iff Int64.minValue 1).1.mp h) (by rw [ElapsedFits]; decide)⟩

/-- The difference of the least timestamp and that of the genesis block overflows to a long time,
and the target stays at the limit. By the exact time it is a quarter of that, as it is after a block
with timestamp 0. -/
theorem expectedBits_wraps :
    (expectedBits (regtestHeader 719 Int64.minValue) regtest
        fun _ ↦ pure (regtestHeader 0 1780000000)).run noCalls () = (.ok 0x207fffff, ()) ∧
      retargetedBits (compactToBig (regtestHeader 719 Int64.minValue).bits) regtest.powLimit
        ((regtestHeader 719 Int64.minValue).timestamp.toInt -
          (regtestHeader 0 1780000000).timestamp.toInt) = 0x201fffff ∧
      (expectedBits (regtestHeader 719 0) regtest
        fun _ ↦ pure (regtestHeader 0 1780000000)).run noCalls () = (.ok 0x201fffff, ()) := by
  rw [expectedBits_regtestHeader, expectedBits_regtestHeader, compactToBig_regtestHeader]
  exact ⟨rfl, rfl, rfl⟩

end NevelCore
