import NevelCore.Chain.Runs

/-!
# Fork choice

Blocks of a tree are delivered, parents first, each valid on its own branch. `Deliveries` keeps the
branch of every block delivered.

`ValidateAndApplyBlock` stores only blocks that become the tip. So a block on top of a side block
finds no parent and is rejected, however heavy its branch is. As long as every block finds its
parent when it is delivered, the tip has the most work (`tip_has_most_work`): a block that finds it
below the tip has the bits of the main block at its height, and is not heavier than the tip.
-/

set_option autoImplicit false
set_option relaxedAutoImplicit false

namespace NevelCore

open Foundations

/-- The states reached from `InitGenesis` on an empty store by delivering the blocks of a tree, each
allowed by a condition on the state, with the branches of the blocks delivered so far. -/
inductive Deliveries (m : Manager) (allowed : Node → Block → Prop) (g : Block) :
    List (List Block) → Node → Prop
  | start {n : Node} (starts : Starts m g n) : Deliveries m allowed g [[g]] n
  | deliver {branches : List (List Block)} {n n' : Node} {now : ℤ} {fuel : ℕ} {b p : Block}
      {rest : List Block} {r : Except Halt Unit} (deliveries : Deliveries m allowed g branches n)
      (allows : allowed n b) (parent : p :: rest ∈ branches) (valid : ValidOn m now b p rest)
      (tree : ∀ x below, x :: below ∈ branches → x.hash = b.hash → x :: below = b :: p :: rest)
      (returns : (m.validateAndApplyBlock now fuel b).run exec n = (r, n'))
      (fueled : r ≠ .error .outOfFuel) :
      Deliveries m allowed g ((b :: p :: rest) :: branches) n'

/-- The parent of a block can be read from the store. -/
def FindsParent (n : Node) (b : Block) : Prop :=
  ∃ prev, DB.getBlock n.store b.header.prevHash = .ok prev

section ForkChoice

variable {m : Manager} {g : Block} {branches : List (List Block)} {n : Node}

theorem Deliveries.genesis {allowed : Node → Block → Prop}
    (h : Deliveries m allowed g branches n) : IsGenesis m.network g := by
  induction h with
  | start starts => exact starts.spec.1
  | deliver _ _ _ _ _ _ _ ih => exact ih

/-- The blocks delivered are known by their hash. -/
theorem Deliveries.hash_inj {allowed : Node → Block → Prop}
    (h : Deliveries m allowed g branches n) {x y : Block} {below below' : List Block}
    (hx : x :: below ∈ branches) (hy : y :: below' ∈ branches) (heq : x.hash = y.hash) :
    x :: below = y :: below' := by
  induction h with
  | start => rw [List.mem_singleton.mp hx, List.mem_singleton.mp hy]
  | deliver _ _ _ _ tree _ _ ih =>
    rcases List.mem_cons.mp hx with hx' | hx' <;> rcases List.mem_cons.mp hy with hy' | hy'
    · rw [hx', hy']
    · rw [hx', tree y below' hy' (heq.symm.trans (by rw [(List.cons.inj hx').1]))]
    · rw [hy', tree x below hx' (heq.trans (by rw [(List.cons.inj hy').1]))]
    · exact ih hx' hy'

/-- What the store and the branches delivered have in common: a main chain of delivered blocks that
has the most work. -/
structure Leads (m : Manager) (g : Block) (branches : List (List Block)) (chain : List Block)
    (d : Store) : Prop where
  rules : Chain m g chain
  holds : Holds chain d
  delivered : ∀ {b rest}, b :: rest <:+ chain → b :: rest ∈ branches
  most : ∀ branch ∈ branches, chainWork branch ≤ chainWork chain

section Step

variable {chain rest : List Block} {b p : Block} {n' : Node} {now : ℤ} {fuel : ℕ}
  {r : Except Halt Unit}

theorem Leads.deliver_on_tip (h : Leads m g branches (p :: rest) n.store)
    (hg : IsGenesis m.network g) (hvalid : ValidOn m now b p rest)
    (hprev : DB.getBlock n.store b.header.prevHash = .ok p)
    (htree : ∀ x below, x :: below ∈ branches → x.hash = b.hash → x :: below = b :: p :: rest)
    (hcall : (m.validateAndApplyBlock now fuel b).run exec n = (r, n')) :
    Leads m g ((b :: p :: rest) :: branches) (b :: p :: rest) n'.store := by
  obtain ⟨e, hunknown⟩ : ∃ e, DB.getBlock n.store b.hash = .error e := by
    cases hget : DB.getBlock n.store b.hash with
    | error e => exact ⟨e, rfl⟩
    | ok x =>
      obtain ⟨hmem, hhash, -⟩ := h.holds.mem_of_getBlock hget
      obtain ⟨below, hsuffix⟩ := exists_suffix_of_mem hmem
      have hlength := hsuffix.length_le
      rw [htree x below (h.delivered hsuffix) hhash] at hlength
      exact absurd hlength (by simp)
  obtain ⟨hcheck, hstep⟩ := hvalid.passes h.rules hg.height h.holds.toStores
    (h.holds.mem_of_getBlock hprev).2.2 hunknown
  have htip : DB.tip n.store = .ok b.header.prevHash := by rw [h.holds.tip rfl, hvalid.link]
  obtain ⟨n₁, hrun, hstore, -⟩ := run_validateAndApplyBlock_of_tip fuel hcheck htip
  rw [hcall] at hrun
  cases hrun
  rw [hstore]
  refine ⟨h.rules.extend hstep, h.holds.extend h.rules hg.height hstep, fun hsuffix ↦ ?_,
    fun branch hbranch ↦ ?_⟩
  · rcases List.suffix_cons_iff.mp hsuffix with heq | hsuffix
    · rw [heq]
      exact List.mem_cons_self
    · exact List.mem_cons_of_mem _ (h.delivered hsuffix)
  · rcases List.mem_cons.mp hbranch with rfl | hbranch
    · exact Nat.le_refl _
    · exact (h.most branch hbranch).trans (chainWork_le_of_suffix (List.suffix_cons _ _))

theorem Leads.deliver_below_tip (h : Leads m g branches chain n.store)
    (hg : IsGenesis m.network g) {t : Block} (hsuffix : t :: p :: rest <:+ chain)
    (hvalid : ValidOn m now b p rest)
    (hcall : (m.validateAndApplyBlock now fuel b).run exec n = (r, n')) :
    Leads m g ((b :: p :: rest) :: branches) chain n'.store := by
  have hmost (branch : List Block) (hbranch : branch ∈ (b :: p :: rest) :: branches) :
      chainWork branch ≤ chainWork chain := by
    rcases List.mem_cons.mp hbranch with rfl | hbranch
    · exact h.rules.work_le hsuffix hvalid.bits
    · exact h.most branch hbranch
  obtain ⟨chain', houtcome⟩ := call_outcome hcall hvalid.height h.rules hg.height h.holds
  obtain ⟨-, hholds'⟩ := houtcome.holds h.rules hg.height h.holds
  generalize n'.store = d at houtcome hholds'
  cases houtcome with
  | unchanged =>
    exact ⟨h.rules, hholds', fun hx ↦ List.mem_cons_of_mem _ (h.delivered hx), hmost⟩
  | recorded _ _ _ _ =>
    exact ⟨h.rules, hholds', fun hx ↦ List.mem_cons_of_mem _ (h.delivered hx), hmost⟩
  | extended eq step =>
    -- the parent would be the tip, but a block lies above it
    subst eq
    have hne := h.rules.hash_ne_of_mem_tail (mem_tail_of_suffix hsuffix)
    exact absurd (hvalid.link.symm.trans step.link) hne

end Step

/-- The tip of every delivery sequence in which each block finds its parent has the most work. -/
theorem Deliveries.leads (h : Deliveries m FindsParent g branches n) :
    ∃ chain, Leads m g branches chain n.store := by
  induction h with
  | start starts =>
    obtain ⟨hgenesis, hstore⟩ := starts.spec
    rw [hstore]
    refine ⟨[g], .genesis, Holds.genesis hgenesis.height, fun hsuffix ↦ ?_, fun branch hbranch ↦ ?_⟩
    · rcases List.suffix_cons_iff.mp hsuffix with heq | hnil
      · rw [heq]
        exact List.mem_singleton_self _
      · exact absurd (List.suffix_nil.mp hnil) (List.cons_ne_nil _ _)
    · rw [List.mem_singleton.mp hbranch]
  | deliver deliveries allows parent valid tree returns fueled ih =>
    obtain ⟨chain, h⟩ := ih
    have hg := deliveries.genesis
    obtain ⟨prev, hprev⟩ := allows
    obtain ⟨hmem, hhash, -⟩ := h.holds.mem_of_getBlock hprev
    obtain ⟨below, hsuffix⟩ := exists_suffix_of_mem hmem
    cases deliveries.hash_inj (h.delivered hsuffix) parent (hhash.trans valid.link)
    rcases eq_or_exists_of_suffix hsuffix with rfl | ⟨t, habove⟩
    · exact ⟨_, h.deliver_on_tip hg valid hprev tree returns⟩
    · exact ⟨_, h.deliver_below_tip hg habove valid returns⟩

end ForkChoice

/-! ### Blocks beside each other on the regression test network -/

/-- A call with a block that does not name the tip as its parent keeps the chain and returns. -/
theorem call_off_tip {m : Manager} {g b t : Block} {below : List Block} {n : Node} (now : ℤ)
    (hchain : Chain m g (t :: below)) (hg : g.header.height = 0)
    (hholds : Holds (t :: below) n.store) (hheight : 0 < b.header.height)
    (hne : b.header.prevHash ≠ t.hash) :
    ∃ r n', (m.validateAndApplyBlock now 1 b).run exec n = (r, n') ∧ r ≠ .error .outOfFuel ∧
      Holds (t :: below) n'.store := by
  obtain ⟨⟨r, n'⟩, hcall⟩ : ∃ result, (m.validateAndApplyBlock now 1 b).run exec n = result :=
    ⟨_, rfl⟩
  refine ⟨r, n', hcall, fun hout ↦ ?_, ?_⟩
  · exact (call_spec hcall hheight hchain hg hholds).2 _ hout Nat.one_pos
  · obtain ⟨chain', houtcome⟩ := call_outcome hcall hheight hchain hg hholds
    obtain ⟨-, hholds'⟩ := houtcome.holds hchain hg hholds
    generalize n'.store = d' at houtcome hholds' ⊢
    cases houtcome with
    | unchanged => exact hholds'
    | recorded _ _ _ _ => exact hholds'
    | extended eq step =>
      cases eq
      exact absurd step.link hne

namespace Regtest

def blockBHash : Hash := hash 0x58ed9a1cb6c02caab764e09a882541a316f0e0bd446af67bd8dba2a03d652812

/-- A block on top of block B. -/
def blockC : Block :=
  block blockBHash (hash 0xac941aa54ec74294d80bbc2873f51340e918836aada06b04e3c20800aeb76a0a)
    2 1790000001 0x22 1

theorem blockB_hash : blockB.hash = blockBHash := doubleSha256_eq (by decide +kernel)

theorem blockC_hash : blockC.hash =
    hash 0x6577f50b53bc2815bb6bfa5f69e69d9956d7145be38e5534bdee0984fad7e36e :=
  doubleSha256_eq (by decide +kernel)

theorem hash_coinbaseB :
    (newCoinbase (Manager.minedAt 1790000000) initialReward (script 0x22)).hash =
      blockB.header.merkleRoot :=
  doubleSha256_eq (by decide +kernel)

theorem hash_coinbaseC :
    (newCoinbase (Manager.minedAt 1790000001) initialReward (script 0x22)).hash =
      blockC.header.merkleRoot :=
  doubleSha256_eq (by decide +kernel)

theorem validOn_blockB : ValidOn manager 1790000000 blockB genesis [] := by
  refine validOn_block genesis_hash rfl rfl (by decide) (by decide) hash_coinbaseB ?_ (by decide)
  change (hashValue blockB.hash : ℤ) ≤ _
  rw [blockB_hash, blockBHash, hashValue_hash (by decide)]
  decide

theorem validOn_blockC : ValidOn manager 1790000000 blockC blockB [genesis] := by
  refine validOn_block blockB_hash rfl rfl (by decide) (by decide) hash_coinbaseC ?_ (by decide)
  change (hashValue blockC.hash : ℤ) ≤ _
  rw [blockC_hash, hashValue_hash (by decide)]
  decide

theorem hashes_ne :
    (blockC.hash ≠ blockB.hash ∧ blockC.hash ≠ blockA.hash ∧ blockC.hash ≠ genesis.hash) ∧
      (blockB.hash ≠ blockA.hash ∧ blockB.hash ≠ genesis.hash) ∧ blockA.hash ≠ genesis.hash := by
  simp only [blockC_hash, blockB_hash, blockA_hash, genesis_hash]
  decide

theorem delivered_blockA {allowed : Node → Block → Prop} (h : allowed afterGenesis blockA) :
    Deliveries manager allowed genesis [[blockA, genesis], [genesis]] afterA := by
  refine .deliver (.start starts) h (List.mem_singleton_self _) validOn_blockA
    (fun x below hx hhash ↦ ?_) blockA_returns nofun
  cases List.mem_singleton.mp hx
  exact absurd hhash (hash_ne_blockA genesis List.mem_cons_self)

/-- Block B is delivered after block A. It loses, and A stays the tip. -/
theorem delivered_blockB (allowed : Node → Block → Prop) (hA : allowed afterGenesis blockA)
    (hB : allowed afterA blockB) :
    ∃ n, Deliveries manager allowed genesis [[blockB, genesis], [blockA, genesis], [genesis]] n ∧
      Chain manager genesis [blockA, genesis] ∧ Holds [blockA, genesis] n.store := by
  have hrun : Run manager PositiveHeight genesis [blockA, genesis] afterA :=
    runA validOn_blockA.height
  obtain ⟨hchain, hholds⟩ := hrun.holds fun _ _ _ h ↦ h
  obtain ⟨-, ⟨hBA, hBG⟩, hAG⟩ := hashes_ne
  obtain ⟨r, n, hcall, hfueled, hholds'⟩ := call_off_tip 1790000000 hchain hrun.genesis.height
    hholds validOn_blockB.height (by rw [validOn_blockB.link]; exact Ne.symm hAG)
  refine ⟨n, .deliver (delivered_blockA hA) hB (by simp) validOn_blockB (fun x below hx hhash ↦ ?_)
    hcall hfueled, hchain, hholds'⟩
  simp only [List.mem_cons, List.cons.injEq, List.not_mem_nil, or_false] at hx
  rcases hx with ⟨rfl, -⟩ | ⟨rfl, -⟩
  · exact absurd hhash.symm hBA
  · exact absurd hhash.symm hBG

/-- Genesis can be read before block A is delivered and after it. -/
theorem findsParent_genesis {b : Block} (hb : b.header.prevHash = genesis.hash) :
    FindsParent afterGenesis b ∧ FindsParent afterA b := by
  have hrun : Run manager PositiveHeight genesis [blockA, genesis] afterA :=
    runA validOn_blockA.height
  obtain ⟨-, hholds⟩ := hrun.holds fun _ _ _ h ↦ h
  refine ⟨⟨genesis, ?_⟩, genesis, ?_⟩
  · rw [hb]
    exact getBlock_genesis
  · rw [hb]
    exact hholds.getBlock_of_mem (by simp) genesis_inLimits

end Regtest

/-! ### The tip has the most work -/

/-- As long as every block finds its parent when it is delivered, the tip has at least the work of
every block delivered so far. -/
theorem tip_has_most_work {m : Manager} {g : Block} {branches : List (List Block)} {n : Node}
    (h : Deliveries m FindsParent g branches n) :
    ∃ tip rest, tip :: rest ∈ branches ∧ DB.tip n.store = .ok tip.hash ∧
      ∀ branch ∈ branches, chainWork branch ≤ chainWork (tip :: rest) := by
  obtain ⟨chain, hleads⟩ := h.leads
  obtain ⟨tip, rest, rfl⟩ := hleads.rules.exists_cons
  exact ⟨tip, rest, hleads.delivered (List.suffix_refl _), hleads.holds.tip rfl, hleads.most⟩

/-- Block B comes after block A and loses against it. -/
theorem tip_has_most_work_regtest :
    ∃ n, Deliveries Regtest.manager FindsParent Regtest.genesis
        [[Regtest.blockB, Regtest.genesis], [Regtest.blockA, Regtest.genesis], [Regtest.genesis]]
        n ∧
      DB.tip n.store = .ok Regtest.blockA.hash ∧
      ∀ branch ∈ [[Regtest.blockB, Regtest.genesis], [Regtest.blockA, Regtest.genesis],
        [Regtest.genesis]], chainWork branch ≤ chainWork [Regtest.blockA, Regtest.genesis] := by
  have hfindsA := Regtest.findsParent_genesis Regtest.validOn_blockA.link
  have hfindsB := Regtest.findsParent_genesis Regtest.validOn_blockB.link
  obtain ⟨n, hdelivered, -, hholds⟩ := Regtest.delivered_blockB FindsParent hfindsA.1 hfindsB.2
  obtain ⟨tip, rest, hmem, htip, hmost⟩ := tip_has_most_work hdelivered
  have hhash : tip.hash = Regtest.blockA.hash :=
    Except.ok.inj (htip.symm.trans (hholds.tip rfl))
  cases hdelivered.hash_inj hmem (List.mem_cons_of_mem _ List.mem_cons_self) hhash
  exact ⟨n, hdelivered, htip, hmost⟩

/-! ### A side branch that is heavier -/

namespace Regtest

/-- Blocks B and C are delivered after block A. Their branch is heavier, but A stays the tip. -/
theorem heavier_branch_rejected :
    ∃ n, Deliveries manager (fun _ _ ↦ True) genesis
        [[blockC, blockB, genesis], [blockB, genesis], [blockA, genesis], [genesis]] n ∧
      DB.tip n.store = .ok blockA.hash ∧
      chainWork [blockA, genesis] < chainWork [blockC, blockB, genesis] := by
  obtain ⟨n, hdelivered, hchain, hholds⟩ := delivered_blockB (fun _ _ ↦ True) trivial trivial
  obtain ⟨⟨hCB, hCA, hCG⟩, ⟨hBA, -⟩, -⟩ := hashes_ne
  obtain ⟨r, n', hcall, hfueled, hholds'⟩ := call_off_tip 1790000000 hchain rfl hholds
    validOn_blockC.height (by rw [validOn_blockC.link]; exact hBA)
  refine ⟨n', .deliver hdelivered trivial (by simp) validOn_blockC (fun x below hx hhash ↦ ?_)
    hcall hfueled, hholds'.tip rfl, by decide⟩
  simp only [List.mem_cons, List.cons.injEq, List.not_mem_nil, or_false] at hx
  rcases hx with ⟨rfl, -⟩ | ⟨rfl, -⟩ | ⟨rfl, -⟩
  · exact absurd hhash.symm hCB
  · exact absurd hhash.symm hCA
  · exact absurd hhash.symm hCG

end Regtest

end NevelCore
