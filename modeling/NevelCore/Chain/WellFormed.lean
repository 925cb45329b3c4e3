import NevelCore.Chain.Runs

/-!
# The chain in the store is well formed

Linkage, height index, difficulty and recorded work are kept in four places of the store.
`ancestry_wellFormed` says that in every state of a run of readable blocks of positive height they
describe one chain: following the parents from the tip leads to genesis, and every block met has its
place in the height index, the work it claims, the bits its own ancestors ask for, and the exact
work of its chain recorded.
-/

set_option autoImplicit false
set_option relaxedAutoImplicit false

namespace NevelCore

open Foundations

/-- Follows `PrevHash` through `GetBlock` for a number of steps, and lists the blocks met, newest
first. -/
def DB.ancestry (d : Store) : ℕ → Block → Except Err (List Block)
  | 0, b => .ok [b]
  | steps + 1, b => do
    let parent ← DB.getBlock d b.header.prevHash
    let rest ← DB.ancestry d steps parent
    .ok (b :: rest)

/-- The blocks of the run that became the tip are within the limits of the decoder. -/
def ReadablePositiveHeight : Node → ℤ → Block → Prop :=
  fun _ _ b ↦ 0 < b.header.height ∧ b.InLimits

section WellFormed

variable {m : Manager} {g : Block} {chain : List Block} {d : Store}

/-- In a store that holds a readable chain, the parents of a block lead to genesis. -/
theorem Holds.ancestry_eq (h : Holds chain d) (hlimits : ∀ b ∈ chain, b.InLimits) {b : Block}
    {rest : List Block} (hchain : Chain m g (b :: rest)) (hsuffix : b :: rest <:+ chain) :
    DB.ancestry d rest.length b = .ok (b :: rest) := by
  induction rest generalizing b with
  | nil => rfl
  | cons p rest ih =>
    cases hchain with
    | extend below step =>
      have hbelow : p :: rest <:+ chain := (List.suffix_cons b (p :: rest)).trans hsuffix
      have hp : p ∈ chain := hbelow.subset List.mem_cons_self
      rw [List.length_cons, DB.ancestry, step.link, h.getBlock_of_mem hp (hlimits p hp)]
      change (do let rest ← DB.ancestry d rest.length p; .ok (b :: rest)) = _
      rw [ih below hbelow]
      rfl

/-- Work within the range of a hash is positive. -/
theorem workForBits_pos {bits : UInt32} (hpos : 0 < compactToBig bits)
    (hle : compactToBig bits ≤ maxPowLimit) : 0 < workForBits bits := by
  unfold workForBits
  dsimp only
  rw [if_neg (not_le.mpr hpos)]
  refine Nat.div_pos ?_ (Nat.succ_pos _)
  rw [maxPowLimit] at hle
  omega

/-- In every state of a run of readable blocks of positive height, the tip is at height `H` for some
`H`, its parents lead to genesis in `H` steps, and every block met on the way is as the rules
ask. -/
theorem ancestry_wellFormed {tips : List Block} {n : Node}
    (h : Run m ReadablePositiveHeight g tips n) (hnet : ∃ name, m.network = networkByName name) :
    ∃ tip rest, DB.tip n.store = .ok tip.hash ∧ DB.getBlock n.store tip.hash = .ok tip ∧
      DB.ancestry n.store tip.header.height.toNat tip = .ok (tip :: rest) ∧
      (tip :: rest).getLast? = some g ∧
      ∀ b below, b :: below <:+ tip :: rest →
        b.header.height.toNat = below.length ∧
        DB.blockHashByHeight n.store b.header.height = .ok b.hash ∧
        DB.totalWork n.store b.hash = .ok (chainWork (b :: below)) ∧
        ∀ p below', below = p :: below' →
          (hashValue b.hash : ℤ) ≤ compactToBig b.header.bits ∧
          0 < compactToBig b.header.bits ∧ compactToBig b.header.bits ≤ m.network.powLimit ∧
          (expectedBits p.header m.network (ancestorHeader below)).run exec n =
            (.ok b.header.bits, n) ∧
          chainWork below < chainWork (b :: below) := by
  obtain ⟨hchain, hholds⟩ := h.holds fun _ _ _ hallowed ↦ hallowed.1
  have hg := h.genesis
  have hlimits : ∀ b ∈ tips, b.InLimits := fun b hb ↦ by
    rcases h.allowed_of_mem hb with rfl | ⟨_, _, hallowed⟩
    · exact hg.inLimits
    · exact hallowed.2
  obtain ⟨tip, rest, rfl⟩ := hchain.exists_cons
  have hheight := (hchain.branch hg.height).height_eq (List.suffix_refl _)
  refine ⟨tip, rest, hholds.tip rfl, hholds.getBlock_of_mem List.mem_cons_self
    (hlimits tip List.mem_cons_self), ?_, hchain.getLast?_eq, fun b below hsuffix ↦ ?_⟩
  · rw [hheight]
    exact hholds.ancestry_eq hlimits hchain (List.suffix_refl _)
  · have hb : b ∈ tip :: rest := hsuffix.subset List.mem_cons_self
    refine ⟨(hchain.branch hg.height).height_eq hsuffix, hholds.index b hb,
      hholds.work hsuffix (hlimits b hb), ?_⟩
    rintro p below' rfl
    cases hchain.of_suffix hsuffix with
    | extend _ step =>
      obtain ⟨hpos, hle, hhash⟩ := checkProofOfWork_ok_iff.mp step.proofOfWork
      refine ⟨hhash, hpos, hle, step.bits n, ?_⟩
      obtain ⟨name, hname⟩ := hnet
      have hlimit : m.network.powLimit ≤ maxPowLimit := hname ▸ networkByName_powLimit_le name
      exact Nat.lt_add_of_pos_left (workForBits_pos hpos (hle.trans hlimit))

theorem ancestry_wellFormed_regtest :
    ∃ tip, DB.tip Regtest.afterA.store = .ok tip.hash ∧
      DB.getBlock Regtest.afterA.store tip.hash =
        .ok tip := by
  have hblock : ReadablePositiveHeight Regtest.afterGenesis 1790000000 Regtest.blockA :=
    ⟨by decide, by decide +kernel⟩
  obtain ⟨tip, rest, htip, hget, -⟩ :=
    ancestry_wellFormed (Regtest.runA hblock) ⟨"regtest", rfl⟩
  exact ⟨tip, htip, hget⟩

end WellFormed

end NevelCore
