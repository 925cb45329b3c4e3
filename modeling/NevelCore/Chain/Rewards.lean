import NevelCore.Chain.Supply

/-!
# Reward totals

Two functions add up rewards: `AuditSupplySchedule` of `params`, with a reward formula of its own,
and `TotalBlockRewards` of `chain`. Both loop over heights in `uint64`; the loops here have a bound
on their rounds and return nothing when it is reached.

There is no reward from height 75 686 400 on (`blockReward_eq_zero_iff`), so that the audit, which
stops at the first height without one, misses nothing. `auditSupplySchedule_exact` says that it ends
with the exact sum for every height. The other loop has no such exit, and does not end by its
condition if the last height is the largest number: `totalBlockRewards_exact_iff`.
-/

set_option autoImplicit false
set_option relaxedAutoImplicit false

namespace NevelCore

/-! ### The functions -/

/-- `ErrSupplyScheduleExceedsMax`. -/
inductive AuditErr where
  | supplyScheduleExceedsMax
deriving DecidableEq

def AuditErr.message : AuditErr → String
  | .supplyScheduleExceedsMax => "supply schedule exceeds maximum supply"

structure SupplyAudit where
  maxSupply : UInt64
  initialReward : UInt64
  halvingInterval : UInt64
  totalSubsidy : UInt64
  pass : Bool
deriving DecidableEq

/-- The reward in `AuditSupplySchedule`. The first shift is zero in Go if there are 64 halvings or
more, and is replaced by zero in any case. -/
def scheduledReward (height : UInt64) : UInt64 :=
  let reward := initialReward >>> (height / halvingInterval)
  if height / halvingInterval ≥ 64 then 0 else reward

/-- The loop of `AuditSupplySchedule`: the total, and whether the guard has stopped it. -/
def auditLoop (maxHeight : UInt64) : ℕ → UInt64 → UInt64 → Option (UInt64 × Option AuditErr)
  | 0, _, _ => none
  | fuel + 1, height, total =>
    if height ≤ maxHeight then
      let reward := scheduledReward height
      if 0xffffffffffffffff - total < reward ∨ total + reward > maxSupply then
        some (total, some .supplyScheduleExceedsMax)
      else if reward = 0 then some (total + reward, none)
      else auditLoop maxHeight fuel (height + 1) (total + reward)
    else some (total, none)

/-- `AuditSupplySchedule`. -/
def auditSupplySchedule (fuel : ℕ) (maxHeight : UInt64) :
    Option (SupplyAudit × Option AuditErr) :=
  let report : SupplyAudit := ⟨maxSupply, initialReward, halvingInterval, 0, false⟩
  match auditLoop maxHeight fuel 0 0 with
  | none => none
  | some (total, some err) => some ({ report with totalSubsidy := total }, some err)
  | some (total, none) =>
    some ({ report with totalSubsidy := total, pass := total ≤ maxSupply }, none)

/-- The loop of `TotalBlockRewards`. -/
def totalBlockRewardsLoop (lastHeight : UInt64) :
    ℕ → UInt64 → UInt64 → Option (Except Err UInt64)
  | 0, _, _ => none
  | fuel + 1, height, total =>
    if height ≤ lastHeight then
      let reward := blockReward height
      if 0xffffffffffffffff - total < reward then some (.error .inflation)
      else totalBlockRewardsLoop lastHeight fuel (height + 1) (total + reward)
    else some (.ok total)

/-- `TotalBlockRewards`. -/
def totalBlockRewards (fuel : ℕ) (firstHeight lastHeight : UInt64) : Option (Except Err UInt64) :=
  if lastHeight < firstHeight then some (.ok 0)
  else totalBlockRewardsLoop lastHeight fuel firstHeight 0

/-! ### Sums of rewards -/

/-- The rewards of all heights below one. -/
def rewardsBelow (n : ℕ) : ℕ := ∑ h ∈ Finset.range n, (blockReward (UInt64.ofNat h)).toNat

/-- The rewards from one height to another. -/
def rewardsBetween (first last : UInt64) : ℕ :=
  ∑ h ∈ Finset.Icc first.toNat last.toNat, (blockReward (UInt64.ofNat h)).toNat

theorem rewardsBelow_succ (height : UInt64) :
    rewardsBelow (height.toNat + 1) = rewardsBelow height.toNat + (blockReward height).toNat := by
  rw [rewardsBelow, Finset.sum_range_succ, UInt64.ofNat_toNat]
  rfl

theorem rewardsBelow_add_rewardsBetween {first last : UInt64} (h : first ≤ last) :
    rewardsBelow first.toNat + rewardsBetween first last = rewardsBelow (last.toNat + 1) := by
  have hle : first.toNat ≤ last.toNat + 1 := Nat.le_succ_of_le (UInt64.le_iff_toNat_le.mp h)
  rw [rewardsBelow, rewardsBetween, rewardsBelow, ← Finset.sum_range_add_sum_Ico _ hle]
  rfl

/-- There is a reward at the heights of the first 36 intervals. -/
theorem blockReward_eq_zero_iff {height : UInt64} :
    blockReward height = 0 ↔ 75_686_400 ≤ height.toNat := by
  rw [← UInt64.toNat_inj, toNat_blockReward]
  change 50_000_000_000 / 2 ^ (height.toNat / 2_102_400) = 0 ↔ _
  rw [Nat.div_eq_zero_iff_lt (Nat.two_pow_pos _)]
  constructor
  · intro hlt
    by_contra hbelow
    have hpow : 2 ^ (height.toNat / 2_102_400) ≤ 2 ^ 35 :=
      Nat.pow_le_pow_right (by decide) (by omega)
    omega
  · intro hge
    have hpow : 2 ^ 36 ≤ 2 ^ (height.toNat / 2_102_400) :=
      Nat.pow_le_pow_right (by decide) (by omega)
    omega

/-- Heights without a reward add nothing. -/
theorem rewardsBelow_eq_of_zero {m n : ℕ} (hm : 75_686_400 ≤ m) (hle : m ≤ n) (hn : n ≤ 2 ^ 64) :
    rewardsBelow n = rewardsBelow m := by
  have hzero : ∑ h ∈ Finset.Ico m n, (blockReward (UInt64.ofNat h)).toNat = 0 := by
    refine Finset.sum_eq_zero fun h hh ↦ ?_
    obtain ⟨hge, hlt⟩ := Finset.mem_Ico.mp hh
    have hheight : (UInt64.ofNat h).toNat = h := UInt64.toNat_ofNat_of_lt' (hlt.trans_le hn)
    rw [blockReward_eq_zero_iff.mpr (hheight.symm ▸ hm.trans hge)]
    rfl
  rw [rewardsBelow, ← Finset.sum_range_add_sum_Ico _ hle, hzero, Nat.add_zero]
  rfl

/-- The rewards below any height of `uint64` are within the maximal supply. -/
theorem rewardsBelow_le {n : ℕ} (hn : n ≤ 2 ^ 64) : rewardsBelow n ≤ maxSupply.toNat := by
  cases n with
  | zero => exact Nat.zero_le _
  | succ n =>
    have hupTo := rewardsUpTo_le (UInt64.ofNat n)
    rwa [rewardsUpTo, UInt64.toNat_ofNat_of_lt' (by change n < 2 ^ 64; omega)] at hupTo

/-- A reward can be added to those of the heights before it: the guard does not stop it, and the sum
is exact and within the maximal supply. -/
theorem toNat_add_reward {base : ℕ} {height total : UInt64}
    (htotal : base + total.toNat = rewardsBelow height.toNat) :
    ¬ 0xffffffffffffffff - total < blockReward height ∧
      base + (total + blockReward height).toNat = rewardsBelow (height.toNat + 1) ∧
      (total + blockReward height).toNat ≤ maxSupply.toNat := by
  have hle : rewardsBelow (height.toNat + 1) ≤ maxSupply.toNat :=
    rewardsBelow_le (Nat.succ_le_of_lt height.toNat_lt)
  have hsucc := rewardsBelow_succ height
  have hmax : maxSupply.toNat < 2 ^ 64 := maxSupply.toNat_lt
  have hlt : total.toNat + (blockReward height).toNat < 2 ^ 64 := by omega
  rw [guard_iff, UInt64.toNat_add, Nat.mod_eq_of_lt hlt]
  omega

/-! ### The audit -/

theorem scheduledReward_eq (height : UInt64) : scheduledReward height = blockReward height := rfl

/-- From a height with the exact total of those below, the audit ends with the exact total. -/
theorem auditLoop_exact {maxHeight : UInt64} {fuel : ℕ} {height total : UInt64}
    (hfuel : 75_686_400 < height.toNat + fuel) (hheight : height.toNat ≤ 75_686_400)
    (hmax : height.toNat ≤ maxHeight.toNat + 1) (htotal : total.toNat = rewardsBelow height.toNat) :
    ∃ r, auditLoop maxHeight fuel height total = some (r, none) ∧
      r.toNat = rewardsUpTo maxHeight := by
  induction fuel generalizing height total with
  | zero => omega
  | succ fuel ih =>
    rw [auditLoop]
    by_cases hle : height ≤ maxHeight
    · obtain ⟨hfits, hsum, hbound⟩ := toNat_add_reward ((Nat.zero_add _).trans htotal)
      rw [Nat.zero_add] at hsum
      have hguard : ¬ (0xffffffffffffffff - total < scheduledReward height ∨
          total + scheduledReward height > maxSupply) := by
        rw [scheduledReward_eq]
        rintro (hoverflow | hexceeds)
        · exact hfits hoverflow
        · exact (Nat.not_lt.mpr hbound) (UInt64.lt_iff_toNat_lt.mp hexceeds)
      rw [if_pos hle, if_neg hguard]
      rw [UInt64.le_iff_toNat_le] at hle
      by_cases hzero : scheduledReward height = 0
      · rw [if_pos hzero]
        refine ⟨_, rfl, hsum.trans ?_⟩
        have hge := blockReward_eq_zero_iff.mp hzero
        have hlt := maxHeight.toNat_lt
        exact (rewardsBelow_eq_of_zero (by omega) (by omega) (by omega)).symm
      · rw [if_neg hzero]
        rw [scheduledReward_eq, blockReward_eq_zero_iff, not_le] at hzero
        have hnext := toNat_succ height (by omega)
        rw [← hnext] at hsum
        exact ih (by omega) (by omega) (by omega) hsum
    · rw [if_neg hle]
      rw [UInt64.le_iff_toNat_le, not_le] at hle
      have hlast : height.toNat = maxHeight.toNat + 1 := by omega
      exact ⟨total, rfl, htotal.trans (by rw [hlast]; rfl)⟩

/-- 75 686 401 rounds are enough. -/
theorem auditSupplySchedule_of_lt {maxHeight : UInt64} {fuel : ℕ} (hfuel : 75_686_400 < fuel) :
    ∃ total, auditSupplySchedule fuel maxHeight =
        some (⟨maxSupply, initialReward, halvingInterval, total, true⟩, none) ∧
      total.toNat = rewardsUpTo maxHeight := by
  have hzero : (0 : UInt64).toNat = 0 := rfl
  obtain ⟨total, hloop, htotal⟩ : ∃ total, auditLoop maxHeight fuel 0 0 = some (total, none) ∧
      total.toNat = rewardsUpTo maxHeight := by
    refine auditLoop_exact ?_ ?_ (Nat.zero_le _) rfl
    · rw [hzero, Nat.zero_add]
      exact hfuel
    · rw [hzero]
      exact Nat.zero_le _
  have hpass : total ≤ maxSupply :=
    UInt64.le_iff_toNat_le.mpr (htotal.le.trans (rewardsUpTo_le maxHeight))
  refine ⟨total, ?_, htotal⟩
  rw [auditSupplySchedule, hloop]
  simp [hpass]

/-- For every height the audit ends, after fewer rounds than there are heights, without an error.
Its total is the exact sum of the rewards, which is within the maximal supply. A height without a
reward is followed by none with one. -/
theorem auditSupplySchedule_exact (maxHeight : UInt64) :
    (∃ rounds < 2 ^ 64, ∀ fuel ≥ rounds, ∃ total,
      auditSupplySchedule fuel maxHeight =
          some (⟨maxSupply, initialReward, halvingInterval, total, true⟩, none) ∧
        total.toNat = rewardsUpTo maxHeight) ∧
      rewardsUpTo maxHeight ≤ maxSupply.toNat ∧
      ∀ height later : UInt64, blockReward height = 0 → height ≤ later → blockReward later = 0 := by
  refine ⟨⟨75_686_401, by decide, fun fuel hfuel ↦ auditSupplySchedule_of_lt hfuel⟩,
    rewardsUpTo_le maxHeight, fun height later hzero hle ↦ ?_⟩
  rw [blockReward_eq_zero_iff] at hzero ⊢
  exact hzero.trans (UInt64.le_iff_toNat_le.mp hle)

/-! ### Totals of ranges -/

theorem totalBlockRewardsLoop_exact {base : ℕ} {last : UInt64} (hlast : last.toNat + 1 < 2 ^ 64)
    {fuel : ℕ} {height total : UInt64} (hfuel : last.toNat + 1 < height.toNat + fuel)
    (hheight : height.toNat ≤ last.toNat + 1)
    (htotal : base + total.toNat = rewardsBelow height.toNat) :
    ∃ r, totalBlockRewardsLoop last fuel height total = some (.ok r) ∧
      base + r.toNat = rewardsBelow (last.toNat + 1) := by
  induction fuel generalizing height total with
  | zero => omega
  | succ fuel ih =>
    rw [totalBlockRewardsLoop]
    by_cases hle : height ≤ last
    · obtain ⟨hfits, hsum, -⟩ := toNat_add_reward htotal
      rw [if_pos hle, if_neg hfits]
      rw [UInt64.le_iff_toNat_le] at hle
      have hnext := toNat_succ height (by omega)
      rw [← hnext] at hsum
      exact ih (by omega) (by omega) hsum
    · rw [if_neg hle]
      rw [UInt64.le_iff_toNat_le, not_le] at hle
      have hend : height.toNat = last.toNat + 1 := by omega
      rw [← hend]
      exact ⟨total, rfl, htotal⟩

/-- No height is above the largest number, so that the condition of the loop is always true. -/
theorem totalBlockRewardsLoop_ne_ok {fuel : ℕ} {height total r : UInt64} :
    totalBlockRewardsLoop 0xffffffffffffffff fuel height total ≠ some (.ok r) := by
  induction fuel generalizing height total with
  | zero =>
    intro h
    cases h
  | succ fuel ih =>
    have hle : height ≤ 0xffffffffffffffff :=
      UInt64.le_iff_toNat_le.mpr (Nat.le_of_lt_succ height.toNat_lt)
    rw [totalBlockRewardsLoop, if_pos hle]
    dsimp only
    split_ifs
    · intro h
      cases h
    · exact ih

theorem totalBlockRewards_ne_ok {fuel : ℕ} {first r : UInt64} :
    totalBlockRewards fuel first 0xffffffffffffffff ≠ some (.ok r) := by
  have hle : ¬ 0xffffffffffffffff < first :=
    UInt64.not_lt.mpr (UInt64.le_iff_toNat_le.mpr (Nat.le_of_lt_succ first.toNat_lt))
  rw [totalBlockRewards, if_neg hle]
  exact totalBlockRewardsLoop_ne_ok

/-- `TotalBlockRewards` ends without an error, with some total. -/
def Totals (first last total : UInt64) : Prop :=
  ∃ rounds, ∀ fuel ≥ rounds, totalBlockRewards fuel first last = some (.ok total)

theorem exists_totals {first last : UInt64} (h : first ≤ last)
    (hlast : last ≠ 0xffffffffffffffff) :
    ∃ total, Totals first last total ∧ total.toNat = rewardsBetween first last := by
  have hbound : last.toNat + 1 < 2 ^ 64 := by
    have hlt := last.toNat_lt
    have hne : last.toNat ≠ 2 ^ 64 - 1 := fun heq ↦ hlast (UInt64.toNat_inj.mp heq)
    omega
  have hle := UInt64.le_iff_toNat_le.mp h
  have hsum := rewardsBelow_add_rewardsBetween h
  have hloop {fuel : ℕ} (hfuel : last.toNat + 2 ≤ fuel) :
      ∃ r, totalBlockRewards fuel first last = some (.ok r) ∧
        r.toNat = rewardsBetween first last := by
    obtain ⟨r, hr, htotal⟩ : ∃ r, totalBlockRewardsLoop last fuel first 0 = some (.ok r) ∧
        rewardsBelow first.toNat + r.toNat = rewardsBelow (last.toNat + 1) :=
      totalBlockRewardsLoop_exact hbound (by omega) (by omega) rfl
    refine ⟨r, ?_, by omega⟩
    rw [totalBlockRewards, if_neg (UInt64.not_lt.mpr h), hr]
  obtain ⟨total, -, htotal⟩ := hloop (le_refl _)
  refine ⟨total, ⟨last.toNat + 2, fun fuel hfuel ↦ ?_⟩, htotal⟩
  obtain ⟨r, hr, hrtotal⟩ := hloop hfuel
  rw [hr, UInt64.toNat_inj.mp (hrtotal.trans htotal.symm)]

/-- The total over a range is returned, and is exact, if and only if the range does not end with the
largest number. Totals over adjacent ranges add up. -/
theorem totalBlockRewards_exact_iff {first last : UInt64} (h : first ≤ last) :
    ((∃ total, Totals first last total ∧ total.toNat = rewardsBetween first last) ↔
      last ≠ 0xffffffffffffffff) ∧
    (last ≠ 0xffffffffffffffff → ∀ middle, first ≤ middle → middle < last →
      ∃ total total', Totals first middle total ∧ Totals (middle + 1) last total' ∧
        Totals first last (total + total') ∧
        (total + total').toNat = total.toNat + total'.toNat) := by
  refine ⟨⟨?_, exists_totals h⟩, fun hlast middle hfirst hmiddle ↦ ?_⟩
  · rintro ⟨total, ⟨rounds, hreturns⟩, -⟩ rfl
    exact totalBlockRewards_ne_ok (hreturns rounds (le_refl _))
  · have hlt := UInt64.lt_iff_toNat_lt.mp hmiddle
    have hnext := toNat_succ middle (by have hlt' := last.toNat_lt; omega)
    have hnextLe : middle + 1 ≤ last := UInt64.le_iff_toNat_le.mpr (by omega)
    have hmiddleNe : middle ≠ 0xffffffffffffffff := by
      rintro rfl
      have hlt' := last.toNat_lt
      change 0xffffffffffffffff < last.toNat at hlt
      omega
    obtain ⟨all, hall, hallTotal⟩ := exists_totals h hlast
    obtain ⟨total, htotal, hleft⟩ := exists_totals hfirst hmiddleNe
    obtain ⟨total', htotal', hright⟩ := exists_totals hnextLe hlast
    have hsum := rewardsBelow_add_rewardsBetween h
    have hsumLeft := rewardsBelow_add_rewardsBetween hfirst
    have hsumRight := rewardsBelow_add_rewardsBetween hnextLe
    rw [hnext] at hsumRight
    have hadd : (total + total').toNat = total.toNat + total'.toNat := by
      rw [UInt64.toNat_add, Nat.mod_eq_of_lt]
      have hlt' := all.toNat_lt
      omega
    have heq : total + total' = all := UInt64.toNat_inj.mp (by omega)
    exact ⟨total, total', htotal, htotal', heq ▸ hall, hadd⟩

theorem totalBlockRewards_exact_first :
    ∃ total, Totals 0 2_102_399 total ∧ total.toNat = rewardsBetween 0 2_102_399 :=
  (totalBlockRewards_exact_iff (by decide)).1.mpr (by decide)

/-- For the largest number as the only height there is no reward, but no number of rounds is
enough. -/
theorem totalBlockRewards_endless :
    rewardsBetween 0xffffffffffffffff 0xffffffffffffffff = 0 ∧
      ∀ fuel total, totalBlockRewards fuel 0xffffffffffffffff 0xffffffffffffffff ≠
        some (.ok total) := by
  refine ⟨?_, fun _ _ ↦ totalBlockRewards_ne_ok⟩
  rw [rewardsBetween, Finset.Icc_self, Finset.sum_singleton]
  decide

end NevelCore
