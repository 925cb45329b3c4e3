import NevelCore.Chain.ForkChoice

/-!
# Genesis is final and work is kept

A block of height 0 has no parent to be checked against. If it names the tip as its parent it is
applied, takes the place of genesis in the height index, and only its own work is recorded for the
new tip. If it is heavier than the recorded work, `reorg` goes back to genesis for it.

`genesis_final_and_work_kept` is the result for runs without such blocks (`Harmless`): genesis keeps
its place, the chain of the tip only grows, and its exact work stays recorded.
-/

set_option autoImplicit false
set_option relaxedAutoImplicit false

namespace NevelCore

open Foundations

/-- The work recorded for the tip. -/
def DB.tipWork (d : Store) : Except Err ℕ := do
  let hash ← DB.tip d
  DB.totalWork d hash

/-- The stored blocks from the tip back to genesis, newest first. -/
structure Ancestry (g : Block) (chain : List Block) (d : Store) : Prop where
  tip : ∃ b rest, chain = b :: rest ∧ DB.tip d = .ok b.hash
  stored : ∀ b ∈ chain, d.lookup (Key.blockHash b.hash) = some (serializeBlock b)
  linked : chain.IsChain fun b p ↦ b.header.prevHash = p.hash
  last : chain.getLast? = some g

/-- A block has positive height, or it neither builds on the tip nor is heavier than what is
recorded for it. And its hash is not that of a stored block with another header. Of a block that
breaks the rules nothing is asked. -/
structure Harmless (m : Manager) (n : Node) (now : ℤ) (b : Block) : Prop where
  height : MeetsRules m n now b → 0 < b.header.height ∨ DB.tip n.store ≠ .ok b.header.prevHash ∧
    ∃ work, DB.tipWork n.store = .ok work ∧ workForBits b.header.bits ≤ work
  header : MeetsRules m n now b →
    ∀ t : Block, n.store.lookup (Key.blockHash b.hash) = some (serializeBlock t) →
      t.header = b.header

/-- A store holds a chain, with the work of its tip even if that cannot be read. -/
structure Tracked (m : Manager) (g : Block) (chain : List Block) (d : Store) : Prop where
  rules : Chain m g chain
  holds : Holds chain d
  work : ∀ {b rest}, chain = b :: rest → DB.totalWork d b.hash = .ok (chainWork (b :: rest))

section Kept

variable {m : Manager} {g b t : Block} {chain below tips : List Block} {n n' : Node} {d : Store}

theorem DB.tipWork_extend (d : Store) (b : Block) :
    DB.tipWork (DB.extend d b) = .ok (DB.workOn d b) := by
  rw [DB.tipWork, DB.tip_extend]
  exact (DB.totalWork_extend d b b.hash).trans (if_pos rfl)

theorem DB.workOn_of_zero (d : Store) (hheight : b.header.height = 0) :
    DB.workOn d b = workForBits b.header.bits := by
  rw [DB.workOn, hheight]
  rfl

theorem Tracked.tipWork (h : Tracked m g chain d) : DB.tipWork d = .ok (chainWork chain) := by
  obtain ⟨t, below, rfl⟩ := h.rules.exists_cons
  rw [DB.tipWork, h.holds.tip rfl]
  exact h.work rfl

theorem Tracked.ancestry (h : Tracked m g chain d) (hg : g.header.height = 0) :
    Ancestry g chain d where
  tip := by
    obtain ⟨t, below, rfl⟩ := h.rules.exists_cons
    exact ⟨t, below, rfl, h.holds.tip rfl⟩
  stored := h.holds.stored
  linked := (h.rules.branch hg).isChain
  last := h.rules.getLast?_eq

/-- Recording work for an unknown block, which is the work of the tip if the block has the tip's
hash. -/
theorem Tracked.putTotalWork (h : Tracked m g chain d) {hash : Hash} {e : Err}
    (hunknown : DB.getBlock d hash = .error e) {work : ℕ}
    (hwork : ∀ {t below}, chain = t :: below → t.hash = hash → work = chainWork (t :: below)) :
    Tracked m g chain (DB.putTotalWork d hash work) where
  rules := h.rules
  holds := h.holds.putTotalWork (fun x hx ↦ h.holds.hash_ne_of_unknown hunknown hx) work
  work hcons := by
    rw [DB.totalWork_putTotalWork]
    split
    · next heq => rw [hwork hcons heq]
    · exact h.work hcons

/-- A tip that cannot be read has a parent. -/
theorem Tracked.exists_parent (h : Tracked m g (t :: below) d) (hg : IsGenesis m.network g)
    {e : Err}
    (hunknown : DB.getBlock d t.hash = .error e) :
    ∃ p rest, below = p :: rest ∧ Parent t p := by
  have hrules := h.rules
  cases hrules with
  | genesis =>
    exact absurd rfl (h.holds.hash_ne_of_unknown hunknown List.mem_cons_self hg.inLimits)
  | extend rules step => exact ⟨_, _, rfl, step.toParent⟩

section Call

variable {now : ℤ} {fuel : ℕ} {r : Except Halt Unit}

/-- A call with a block of positive height keeps the chain, or extends it. -/
theorem Tracked.call_of_pos (h : Tracked m g tips n.store) (hg : IsGenesis m.network g)
    (hheader : ∀ t : Block, n.store.lookup (Key.blockHash b.hash) = some (serializeBlock t) →
      t.header = b.header) (hheight : 0 < b.header.height)
    (hcall : (m.validateAndApplyBlock now fuel b).run exec n = (r, n')) :
    Tracked m g (tipsAfter n n' b tips) n'.store ∧ tips <:+ tipsAfter n n' b tips := by
  obtain ⟨chain', houtcome⟩ := call_outcome hcall hheight h.rules hg.height h.holds
  obtain ⟨hrules', hholds'⟩ := houtcome.holds h.rules hg.height h.holds
  rw [houtcome.tipsAfter h.holds hholds']
  generalize n'.store = d at houtcome hholds'
  cases houtcome with
  | unchanged => exact ⟨h, List.suffix_refl _⟩
  | @recorded p rest suffix inLimits link unknown =>
    obtain ⟨e, hunknown⟩ := unknown
    refine ⟨h.putTotalWork hunknown fun {t below} hcons hhash ↦ ?_, List.suffix_refl _⟩
    -- the block has the header of the tip, and so its parent
    subst hcons
    rw [← hhash] at hunknown
    have hheader := hheader t (hhash ▸ h.holds.stored t List.mem_cons_self)
    obtain ⟨q, rest', rfl, hparent⟩ := h.exists_parent hg hunknown
    have hq : q :: rest' <:+ t :: q :: rest' := List.suffix_cons _ _
    have hpq : p = q := by
      refine h.rules.hash_inj (suffix.subset List.mem_cons_self) (hq.subset List.mem_cons_self) ?_
      rw [← link, ← hheader, hparent.link]
    have hsame := (h.rules.branch hg.height).suffix_inj suffix hq (by rw [hpq])
    rw [hsame, chainWork, ← hheader]
    rfl
  | extended eq step =>
    refine ⟨⟨hrules', hholds', fun hcons ↦ ?_⟩, List.suffix_cons _ _⟩
    cases hcons
    have hholds := h.holds
    rw [eq] at hholds ⊢
    rw [DB.totalWork_extend, if_pos rfl,
      hholds.workOn (List.suffix_refl _) step.parentInLimits step.link step.height_pos]

/-- A call with a block of height 0 that neither builds on the tip nor is heavier keeps the
chain. -/
theorem Tracked.connectBlock_of_zero (h : Tracked m g tips n.store) (hg : IsGenesis m.network g)
    (hne : DB.tip n.store ≠ .ok b.header.prevHash) {work : ℕ}
    (htipWork : DB.tipWork n.store = .ok work) (hle : workForBits b.header.bits ≤ work)
    (hheader : ∀ t : Block, n.store.lookup (Key.blockHash b.hash) = some (serializeBlock t) →
      t.header = b.header) (hheight : b.header.height = 0) {e : Err}
    (hunknown : DB.getBlock n.store b.hash = .error e)
    (hconnect : (Manager.connectBlock fuel b).run exec n = (r, n')) :
    Tracked m g tips n'.store ∧ r = .ok () ∧
      n'.store = DB.putTotalWork n.store b.hash (workForBits b.header.bits) := by
  obtain ⟨t, below, rfl⟩ := h.rules.exists_cons
  have htip := h.holds.tip rfl
  have hwork := h.work rfl
  rw [h.tipWork] at htipWork
  rw [htip] at hne
  have hlight : DB.workOn n.store b ≤ (DB.totalWork n.store t.hash).toOption.getD 0 := by
    rw [DB.workOn_of_zero n.store hheight, hwork]
    exact hle.trans (Nat.le_of_eq (Except.ok.inj htipWork).symm)
  rw [run_connectBlock, htip] at hconnect
  dsimp only at hconnect
  rw [if_neg fun heq ↦ hne (congrArg Except.ok heq.symm), if_pos hlight,
    DB.workOn_of_zero n.store hheight] at hconnect
  cases hconnect
  refine ⟨h.putTotalWork hunknown fun {t' below'} hcons hhash ↦ ?_, rfl, rfl⟩
  -- the tip would have height 0, but only genesis has, which is known
  cases hcons
  rw [← hhash] at hunknown
  have hheader := hheader t (hhash ▸ h.holds.stored t List.mem_cons_self)
  obtain ⟨q, rest', rfl, hparent⟩ := h.exists_parent hg hunknown
  have hpos := hparent.height_pos
  rw [hheader, hheight] at hpos
  exact absurd hpos (by decide)

theorem Tracked.call (h : Tracked m g tips n.store) (hg : IsGenesis m.network g)
    (hsafe : Harmless m n now b)
    (hcall : (m.validateAndApplyBlock now fuel b).run exec n = (r, n')) :
    Tracked m g (tipsAfter n n' b tips) n'.store ∧ tips <:+ tipsAfter n n' b tips := by
  have hkept (htracked : Tracked m g tips n'.store) (htip : DB.tip n'.store = DB.tip n.store) :
      Tracked m g (tipsAfter n n' b tips) n'.store ∧ tips <:+ tipsAfter n n' b tips := by
    rw [tipsAfter, if_neg fun hnew ↦ hnew.1 (htip ▸ hnew.2)]
    exact ⟨htracked, List.suffix_refl _⟩
  rcases validateAndApplyBlock_cases hcall with ⟨e, -, -, rfl⟩ | ⟨hcheck, hconnect⟩
  · exact hkept h rfl
  obtain ⟨⟨e, hunknown⟩, hrules⟩ := checkBlock_ok hcheck
  by_cases hheight : b.header.height = 0
  · obtain ⟨hne, work, htipWork, hle⟩ := (hsafe.height hrules).resolve_left (by simp [hheight])
    obtain ⟨htracked, -, hstore⟩ := h.connectBlock_of_zero hg hne htipWork hle
      (hsafe.header hrules) hheight hunknown hconnect
    exact hkept htracked (by rw [hstore, DB.tip_putTotalWork])
  · exact h.call_of_pos hg (hsafe.header hrules) (UInt64.pos_iff_ne_zero.mpr hheight) hcall

end Call

/-- In runs of harmless blocks the store holds a chain, with the work of its tip. -/
theorem Run.tracked (h : Run m (Harmless m) g tips n) : Tracked m g tips n.store := by
  induction h with
  | start starts =>
    obtain ⟨hgenesis, hstore⟩ := starts.spec
    rw [hstore]
    refine ⟨.genesis, Holds.genesis hgenesis.height, fun hcons ↦ ?_⟩
    cases hcons
    exact (Holds.genesis hgenesis.height).work (List.suffix_refl _) hgenesis.inLimits
  | call run allows returns fueled ih => exact (ih.call run.genesis allows returns).1

end Kept

/-! ### A block of height 0 -/

namespace Regtest

/-- A block of height 0 that names block A as its parent. -/
def blockZero : Block :=
  block blockAHash (hash 0xac941aa54ec74294d80bbc2873f51340e918836aada06b04e3c20800aeb76a0a)
    0 1790000001 0x22 0

theorem blockZero_hash : blockZero.hash =
    hash 0x5f1c7db0edcc7876078e6c49459f7e34c2a4b7264bfa486d490b13aa1a1b06e7 :=
  doubleSha256_eq (by decide +kernel)

theorem hash_ne_blockZero : ∀ x ∈ [blockA, genesis], x.hash ≠ blockZero.hash := by
  simp only [List.forall_mem_cons, blockA_hash, genesis_hash, blockZero_hash]
  exact ⟨by decide, by decide, List.forall_mem_nil _⟩

theorem blockZero_unstored :
    afterGenesis.store.lookup (Key.blockHash blockZero.hash) = none ∧
      afterA.store.lookup (Key.blockHash blockZero.hash) = none := by
  obtain ⟨hA, hG⟩ := List.forall_mem_cons.mp hash_ne_blockZero
  have hgenesis : afterGenesis.store.lookup (Key.blockHash blockZero.hash) = none := by
    rw [afterGenesis, DB.lookup_blockHash_extend, if_neg (hG genesis List.mem_cons_self).symm]
    rfl
  refine ⟨hgenesis, ?_⟩
  rw [afterA, DB.lookup_blockHash_extend, if_neg hA.symm, hgenesis]

theorem blockZero_unknown {n : Node}
    (h : n.store.lookup (Key.blockHash blockZero.hash) = none) :
    DB.getBlock n.store blockZero.hash = .error .notFound := by
  rw [DB.getBlock, h]
  rfl

/-- Without a parent to be checked against, the block passes in any state that does not have it. -/
theorem checkBlock_blockZero {n : Node}
    (hunstored : n.store.lookup (Key.blockHash blockZero.hash) = none) :
    (manager.checkBlock 1790000000 blockZero).run exec n = (.ok (), n) := by
  refine checkBlock_of_height_zero rfl (blockZero_unknown hunstored) (validateBlockHeader_ok_iff.mpr
    ⟨hash_coinbaseC.symm, checkProofOfWork_ok_iff.mpr ⟨by decide, by decide, ?_⟩, by decide,
      fun prev hprev ↦ by cases hprev⟩)
    (run_validateBlockTransactions_of_coinbase rfl rfl (by decide))
  change (hashValue blockZero.hash : ℤ) ≤ _
  rw [blockZero_hash, hashValue_hash (by decide)]
  decide

/-- Before block A the block of height 0 does no harm: its work is recorded, and no more. -/
theorem exists_afterZero :
    ∃ n, (manager.validateAndApplyBlock 1790000000 1 blockZero).run exec afterGenesis =
        (.ok (), n) ∧
      Run manager (Harmless manager) genesis [genesis] n ∧
      n.store.lookup (Key.blockHash blockA.hash) = none := by
  have hunstored := blockZero_unstored.1
  have hstart : Run manager (Harmless manager) genesis [genesis] afterGenesis := .start starts
  have htracked := hstart.tracked
  have hne : DB.tip afterGenesis.store ≠ .ok blockZero.header.prevHash := by
    rw [tip_afterGenesis, genesis_hash]
    decide
  have hheader : ∀ t : Block, afterGenesis.store.lookup (Key.blockHash blockZero.hash) =
      some (serializeBlock t) → t.header = blockZero.header := by
    intro t ht
    rw [hunstored] at ht
    cases ht
  have hsafe : Harmless manager afterGenesis 1790000000 blockZero :=
    ⟨fun _ ↦ .inr ⟨hne, _, htracked.tipWork, by decide⟩, fun _ ↦ hheader⟩
  have hcall : (manager.validateAndApplyBlock 1790000000 1 blockZero).run exec afterGenesis = _ :=
    run_validateAndApplyBlock_of_ok (checkBlock_blockZero hunstored)
  cases hconnect : (Manager.connectBlock 1 blockZero).run exec afterGenesis with
  | mk r n =>
    obtain ⟨-, rfl, hstore⟩ := htracked.connectBlock_of_zero hstart.genesis hne htracked.tipWork
      (by decide) hheader rfl (blockZero_unknown hunstored) hconnect
    rw [hconnect] at hcall
    have htip : DB.tip n.store = DB.tip afterGenesis.store := by rw [hstore, DB.tip_putTotalWork]
    have hrun := Run.call hstart hsafe hcall nofun
    rw [tipsAfter, if_neg fun hnew ↦ hnew.1 (htip ▸ hnew.2)] at hrun
    refine ⟨n, hcall, hrun, ?_⟩
    rw [hstore, DB.lookup_putTotalWork (by simp)]
    exact blockA_unstored

end Regtest

/-- In every state of a run of harmless blocks genesis has its place in the height index, and the
work of the chain of the tip is recorded. One more call with a harmless block keeps this chain or
adds to it, and so neither its work nor the recorded work gets smaller. -/
theorem genesis_final_and_work_kept {m : Manager} {g : Block} {tips : List Block} {n : Node}
    (h : Run m (Harmless m) g tips n) :
    DB.blockHashByHeight n.store 0 = .ok g.hash ∧ Ancestry g tips n.store ∧
      DB.tipWork n.store = .ok (chainWork tips) ∧
      ∀ now fuel b r n', Harmless m n now b →
        (m.validateAndApplyBlock now fuel b).run exec n = (r, n') →
          ∃ chain', Ancestry g chain' n'.store ∧ DB.tipWork n'.store = .ok (chainWork chain') ∧
            tips <:+ chain' ∧ chainWork tips ≤ chainWork chain' := by
  have htracked := h.tracked
  have hg := h.genesis
  have hindex := htracked.holds.index g (List.mem_of_getLast? htracked.rules.getLast?_eq)
  rw [hg.height] at hindex
  refine ⟨hindex, htracked.ancestry hg.height, htracked.tipWork,
    fun now fuel b r n' hsafe hcall ↦ ?_⟩
  obtain ⟨htracked', hsuffix⟩ := htracked.call hg hsafe hcall
  exact ⟨_, htracked'.ancestry hg.height, htracked'.tipWork, hsuffix,
    chainWork_le_of_suffix hsuffix⟩

/-- Block A becomes the tip after a block of height 0 that is not on top of the tip. -/
theorem genesis_final_and_work_kept_regtest :
    ∃ n n', (Regtest.manager.validateAndApplyBlock 1790000000 1 Regtest.blockZero).run exec
        Regtest.afterGenesis = (.ok (), n) ∧
      (Regtest.manager.validateAndApplyBlock 1790000000 1 Regtest.blockA).run exec n =
        (.ok (), n') ∧
      DB.blockHashByHeight n'.store 0 = .ok Regtest.genesis.hash ∧
      DB.tipWork n'.store = .ok (chainWork [Regtest.blockA, Regtest.genesis]) := by
  obtain ⟨n, hzero, hrun, hunstored⟩ := Regtest.exists_afterZero
  have htracked := hrun.tracked
  have hsafe : Harmless Regtest.manager n 1790000000 Regtest.blockA :=
    ⟨fun _ ↦ .inl (by decide), fun _ t ht ↦ by rw [hunstored] at ht; cases ht⟩
  obtain ⟨n', hcall, hstore, -⟩ := Regtest.validOn_blockA.deliver htracked.rules
    hrun.genesis.height htracked.holds.toStores Regtest.genesis_inLimits
    (List.forall_mem_singleton.mpr (Regtest.hash_ne_blockA _ List.mem_cons_self)) 1
  have hbefore : DB.tip n.store ≠ .ok Regtest.blockA.hash := by
    rw [htracked.holds.tip rfl]
    exact fun heq ↦ Regtest.hash_ne_blockA _ List.mem_cons_self (Except.ok.inj heq)
  have hafter : DB.tip n'.store = .ok Regtest.blockA.hash := by rw [hstore, DB.tip_extend]
  have hrun' := Run.call hrun hsafe hcall nofun
  rw [tipsAfter, if_pos ⟨hbefore, hafter⟩] at hrun'
  obtain ⟨hindex, -, hwork, -⟩ := genesis_final_and_work_kept hrun'
  exact ⟨n, n', hzero, hcall, hindex, hwork⟩

namespace Regtest

theorem blockA_harmless : Harmless manager afterGenesis 1790000000 blockA where
  height _ := .inl (by decide)
  header _ t ht := by
    rw [blockA_unstored] at ht
    cases ht

/-- The block is accepted, takes the place of genesis, and the recorded work gets smaller. -/
theorem blockZero_replaces_genesis :
    Run manager (fun _ _ _ ↦ True) genesis [blockA, genesis] afterA ∧
      compactToBig blockZero.header.bits ≤ manager.network.powLimit ∧
      ∃ n', (manager.validateAndApplyBlock 1790000000 1 blockZero).run exec afterA = (.ok (), n') ∧
        DB.blockHashByHeight n'.store 0 ≠ .ok genesis.hash ∧
        ∃ work work', DB.tipWork afterA.store = .ok work ∧ DB.tipWork n'.store = .ok work' ∧
          work' < work := by
  have htip : DB.tip afterA.store = .ok blockZero.header.prevHash := by
    rw [tip_afterA, blockA_hash]
    rfl
  obtain ⟨n', hcall, hstore, -⟩ := run_validateAndApplyBlock_of_tip 1
    (checkBlock_blockZero blockZero_unstored.2) htip
  have hwork := (Run.tracked (runA blockA_harmless)).tipWork
  have hwork' : DB.tipWork n'.store = .ok (workForBits blockZero.header.bits) := by
    rw [hstore, DB.tipWork_extend, DB.workOn_of_zero _ rfl]
  refine ⟨runA trivial, by decide, n', hcall, ?_, _, _, hwork, hwork', by decide⟩
  rw [hstore, DB.blockHashByHeight_extend, if_pos (by rfl)]
  exact fun heq ↦ hash_ne_blockZero genesis (by simp) (Except.ok.inj heq).symm

end Regtest

end NevelCore
