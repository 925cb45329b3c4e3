import NevelCore.Chain.ForkChoice
import NevelCore.Consensus.Commitment

/-!
# Agreement

The hash of a tip stands for everything a node has. A header commits to the transactions of its
block by the Merkle root and to the block before it by its hash, so two chains with one tip hash are
the same chain, unless two different strings that were hashed for them have the same double SHA-256
hash (`Chain.eq_of_hash_eq`). Two nodes that were started and fed in any way, and whose tips have
one hash, therefore hold the same blocks and the same unspent outputs, and check every further block
alike (`tips_agree`).
-/

set_option autoImplicit false
set_option relaxedAutoImplicit false

namespace NevelCore

open Foundations

/-- The byte strings that are hashed twice for the blocks of a chain: the headers, and what the
Merkle roots are made from. -/
def chainStrings (chain : List Block) : List (List UInt8) :=
  chain.flatMap fun b ↦ b.header.preimage :: hashedStrings b.transactions.toList

/-- The header of a block commits to its transactions. -/
structure Sealed (b : Block) : Prop where
  body : Body b.transactions.toList
  root : b.header.merkleRoot = buildMerkleRoot b.transactions.toList

/-! ### The blocks of a run are sealed -/

section Sealed

variable {m : Manager} {allowed : Node → ℤ → Block → Prop} {g : Block} {tips : List Block}
  {n : Node}

theorem IsGenesis.isSealed {net : Network} (h : IsGenesis net g) : Sealed g := by
  obtain ⟨nonce, rfl⟩ := h
  refine ⟨⟨⟨_, [], rfl, by decide, List.forall_mem_nil _⟩, ?_, List.nodup_nil⟩, rfl⟩
  exact List.forall_mem_singleton.mpr (inputs_ne_nil_of_isCoinbase (by decide))

theorem Passes.isSealed {now : ℤ} {b prev : Block} (h : Passes m now b prev n) : Sealed b :=
  ⟨Body.of_validateBlockTransactionsAt h.transactions, (validateBlockHeader_ok_iff.mp h.header).1⟩

theorem Run.isSealed (h : Run m allowed g tips n)
    (hallowed : ∀ n now b, allowed n now b → 0 < b.header.height) : ∀ b ∈ tips, Sealed b := by
  induction h with
  | start starts => exact List.forall_mem_singleton.mpr starts.spec.1.isSealed
  | @call tips n n' now fuel b r run allows returns fueled ih =>
    rw [tipsAfter]
    split
    · next hnew =>
      refine List.forall_mem_cons.mpr ⟨?_, ih⟩
      -- a block that fails the checks does not become the tip
      rcases validateAndApplyBlock_cases returns with ⟨e, -, -, rfl⟩ | ⟨hcheck, -⟩
      · exact absurd hnew.2 hnew.1
      · obtain ⟨prev, hpasses⟩ := (checkBlock_ok_iff (hallowed _ _ _ allows)).mp hcheck
        exact hpasses.isSealed
    · exact ih

end Sealed

/-! ### One tip hash, one chain -/

theorem preimage_injective : Function.Injective BlockHeader.preimage := by
  intro h h' heq
  rw [← writeHeader_eq_preimage, ← writeHeader_eq_preimage] at heq
  have hread := readHeader_write h []
  rw [heq, readHeader_write h' []] at hread
  exact (Prod.mk.inj (Except.ok.inj hread)).1.symm

section Chains

variable {m m' : Manager} {g g' : Block} {chain chain' : List Block}

theorem mem_chainStrings_preimage {b : Block} (hb : b ∈ chain) :
    b.header.preimage ∈ chainStrings chain :=
  List.mem_flatMap.mpr ⟨b, hb, List.mem_cons_self⟩

theorem mem_chainStrings_hashed {b : Block} (hb : b ∈ chain) {x : List UInt8}
    (hx : x ∈ hashedStrings b.transactions.toList) : x ∈ chainStrings chain :=
  List.mem_flatMap.mpr ⟨b, hb, List.mem_cons_of_mem _ hx⟩

/-- Without a collision a block is determined by its hash. -/
theorem Sealed.eq_of_hash_eq {b b' : Block} (h : Sealed b) (h' : Sealed b') (hb : b ∈ chain)
    (hb' : b' ∈ chain')
    (hinj : Set.InjOn doubleSha256 {x | x ∈ chainStrings chain ++ chainStrings chain'})
    (hhash : b.hash = b'.hash) : b = b' := by
  have hheader : b.header = b'.header := preimage_injective
    (hinj (List.mem_append_left _ (mem_chainStrings_preimage hb))
      (List.mem_append_right _ (mem_chainStrings_preimage hb')) hhash)
  have hfree : CollisionFree b.transactions.toList b'.transactions.toList := by
    refine hinj.mono fun x hx ↦ ?_
    rcases List.mem_append.mp hx with hx | hx
    · exact List.mem_append_left _ (mem_chainStrings_hashed hb hx)
    · exact List.mem_append_right _ (mem_chainStrings_hashed hb' hx)
  have hroot : buildMerkleRoot b.transactions.toList = buildMerkleRoot b'.transactions.toList := by
    rw [← h.root, ← h'.root, hheader]
  have htransactions : b.transactions = b'.transactions :=
    Slice.ext (hfree.eq_of_root h.body h'.body hroot)
  obtain ⟨header, transactions⟩ := b
  obtain ⟨header', transactions'⟩ := b'
  exact congrArg₂ Block.mk hheader htransactions

/-- Without a collision a chain is determined by the hash of its tip. -/
theorem Chain.eq_of_hash_eq (h : Chain m g chain) (h' : Chain m' g' chain')
    (hg : g.header.height = 0) (hg' : g'.header.height = 0)
    (hsealed : ∀ b ∈ chain, Sealed b) (hsealed' : ∀ b ∈ chain', Sealed b)
    (hinj : Set.InjOn doubleSha256 {x | x ∈ chainStrings chain ++ chainStrings chain'})
    (hhash : chain.head?.map Block.hash = chain'.head?.map Block.hash) : chain = chain' := by
  -- down both chains at once: equal blocks have equal parents
  induction h generalizing chain' with
  | genesis =>
    cases h' with
    | genesis =>
      rw [(hsealed g List.mem_cons_self).eq_of_hash_eq (hsealed' g' List.mem_cons_self)
        List.mem_cons_self List.mem_cons_self hinj (Option.some.inj hhash)]
    | @extend b' p' rest' h' step' =>
      have heq := (hsealed g List.mem_cons_self).eq_of_hash_eq (hsealed' b' List.mem_cons_self)
        List.mem_cons_self List.mem_cons_self hinj (Option.some.inj hhash)
      have hheight := step'.height
      rw [← heq, hg] at hheight
      exact absurd hheight.symm (Nat.succ_ne_zero _)
  | @extend b p rest h step ih =>
    cases h' with
    | genesis =>
      have heq := (hsealed b List.mem_cons_self).eq_of_hash_eq (hsealed' g' List.mem_cons_self)
        List.mem_cons_self List.mem_cons_self hinj (Option.some.inj hhash)
      have hheight := step.height
      rw [heq, hg'] at hheight
      exact absurd hheight.symm (Nat.succ_ne_zero _)
    | @extend b' p' rest' h' step' =>
      have heq := (hsealed b List.mem_cons_self).eq_of_hash_eq (hsealed' b' List.mem_cons_self)
        List.mem_cons_self List.mem_cons_self hinj (Option.some.inj hhash)
      have hparent : p.hash = p'.hash := by rw [← step.link, ← step'.link, heq]
      have hbelow : p :: rest = p' :: rest' := by
        refine ih h' (fun x hx ↦ hsealed x (List.mem_cons_of_mem _ hx))
          (fun x hx ↦ hsealed' x (List.mem_cons_of_mem _ hx)) (hinj.mono fun x hx ↦ ?_)
          (congrArg some hparent)
        rcases List.mem_append.mp hx with hx | hx
        · exact List.mem_append_left _ (List.mem_append_right _ hx)
        · exact List.mem_append_right _ (List.mem_append_right _ hx)
      rw [heq, hbelow]

end Chains

/-! ### What nodes with one chain have in common -/

section Nodes

variable {m : Manager} {g : Block} {chain : List Block} {n n' : Node}

/-- Stores of one chain hold the same blocks. -/
theorem Stores.getBlock_eq {d d' : Store} (h : Stores chain d) (h' : Stores chain d')
    (hash : Hash) : DB.getBlock d hash = DB.getBlock d' hash := by
  have hlookup : d.lookup (Key.blockHash hash) = d'.lookup (Key.blockHash hash) := by
    by_cases hmem : ∃ b ∈ chain, b.hash = hash
    · obtain ⟨b, hb, rfl⟩ := hmem
      rw [h.stored b hb, h'.stored b hb]
    · have hnone {d : Store} (h : Stores chain d) : d.lookup (Key.blockHash hash) = none :=
        Option.eq_none_iff_forall_not_mem.mpr fun data hdata ↦ hmem (h.only hash data hdata)
      rw [hnone h, hnone h']
  rw [DB.getBlock, DB.getBlock, hlookup]

/-- Nodes with one chain expect the same bits behind a block of it. -/
theorem Stores.run_expectedBits_eq (h : Stores chain n.store) (h' : Stores chain n'.store)
    (hchain : Chain m g chain) (hg : g.header.height = 0) {p : Block} (hp : p ∈ chain)
    (hlimits : p.InLimits) (net : Network) :
    ∃ r, (expectedBits p.header net Manager.headerByHeight).run exec n = (r, n) ∧
      (expectedBits p.header net Manager.headerByHeight).run exec n' = (r, n') := by
  obtain ⟨above, rest, rfl⟩ := List.append_of_mem hp
  have hsuffix : p :: rest <:+ above ++ p :: rest := List.suffix_append _ _
  refine ⟨((expectedBits p.header net (ancestorHeader (p :: rest))).run exec n).1, ?_, ?_⟩
  · exact (h.run_expectedBits hchain hg hsuffix hlimits net n.mempool).trans
      (run_expectedBits_ancestorHeader _ _ _ n n)
  · exact (h'.run_expectedBits hchain hg hsuffix hlimits net n'.mempool).trans
      (run_expectedBits_ancestorHeader _ _ _ n' n)

theorem Stores.run_validateBlockHeaderWithDifficulty_eq (h : Stores chain n.store)
    (h' : Stores chain n'.store) (hchain : Chain m g chain) (hg : g.header.height = 0) {p : Block}
    (hp : p ∈ chain) (hlimits : p.InLimits) (now : ℤ) (b : Block) (net : Network) :
    ∃ r, (validateBlockHeaderWithDifficulty now b (some p.header) net
        Manager.headerByHeight).run exec n = (r, n) ∧
      (validateBlockHeaderWithDifficulty now b (some p.header) net
        Manager.headerByHeight).run exec n' = (r, n') := by
  rw [validateBlockHeaderWithDifficulty]
  cases validateBlockHeader now b (some p.header) net with
  | error e => exact ⟨_, rfl, rfl⟩
  | ok _ =>
    obtain ⟨r, hr, hr'⟩ := h.run_expectedBits_eq h' hchain hg hp hlimits net
    dsimp only [attempt_ok, Prog.pure_bind]
    rw [Prog.run_bind, Prog.run_bind, hr, hr']
    cases r with
    | error e => exact ⟨_, rfl, rfl⟩
    | ok expected =>
      dsimp only
      split
      · exact ⟨_, rfl, rfl⟩
      · exact ⟨_, rfl, rfl⟩

/-- Nodes with one chain check a block alike. -/
theorem Stores.run_checkBlock_eq (h : Stores chain n.store) (h' : Stores chain n'.store)
    (hchain : Chain m g chain) (hg : g.header.height = 0) (now : ℤ) {b : Block}
    (hheight : 0 < b.header.height) :
    ((m.checkBlock now b).run exec n).1 = ((m.checkBlock now b).run exec n').1 := by
  rw [Manager.checkBlock, run_getBlock_bind, run_getBlock_bind, h.getBlock_eq h']
  cases DB.getBlock n'.store b.hash with
  | ok _ => rfl
  | error e =>
    dsimp only
    rw [Prog.run_bind, Prog.run_bind, run_previousHeader hheight, run_previousHeader hheight,
      h.getBlock_eq h']
    cases hprev : DB.getBlock n'.store b.header.prevHash with
    | error e => rfl
    | ok prev =>
      obtain ⟨hmem, -, hlimits⟩ := h'.mem_of_getBlock hprev
      obtain ⟨r, hr, hr'⟩ := h.run_validateBlockHeaderWithDifficulty_eq h' hchain hg hmem hlimits
        now b m.network
      dsimp only
      rw [Prog.run_bind, Prog.run_bind, hr, hr']
      cases r with
      | error e => rfl
      | ok _ => exact run_validateBlockTransactions_congr (h.ledger.trans h'.ledger.symm)

end Nodes

/-! ### Agreement -/

/-- Two nodes after runs of blocks of positive height whose tips have one hash hold the same main
chain, the same blocks and the same unspent outputs, and check every further such block alike, or
two different strings among those that were hashed for their chains have the same double SHA-256
hash. -/
theorem tips_agree {m m' : Manager} {allowed allowed' : Node → ℤ → Block → Prop} {g g' : Block}
    {tips tips' : List Block} {n n' : Node}
    (hrun : Run m allowed g tips n) (hrun' : Run m' allowed' g' tips' n')
    (hallowed : ∀ n now b, allowed n now b → 0 < b.header.height)
    (hallowed' : ∀ n now b, allowed' n now b → 0 < b.header.height)
    (htip : DB.tip n.store = DB.tip n'.store) :
    (tips = tips' ∧ (∀ hash, DB.getBlock n.store hash = DB.getBlock n'.store hash) ∧
      DB.utxos n.store = DB.utxos n'.store ∧
      ∀ now b, 0 < b.header.height →
        ((m.checkBlock now b).run exec n).1 = ((m.checkBlock now b).run exec n').1) ∨
    ∃ x ∈ chainStrings tips ++ chainStrings tips', ∃ y ∈ chainStrings tips ++ chainStrings tips',
      x ≠ y ∧ doubleSha256 x = doubleSha256 y := by
  obtain ⟨hchain, hholds⟩ := hrun.holds hallowed
  obtain ⟨hchain', hholds'⟩ := hrun'.holds hallowed'
  have hg := hrun.genesis.height
  have hg' := hrun'.genesis.height
  refine or_iff_not_imp_right.mpr fun hfree ↦ ?_
  have hinj : Set.InjOn doubleSha256 {x | x ∈ chainStrings tips ++ chainStrings tips'} := by
    intro x hx y hy heq
    by_contra hne
    exact hfree ⟨x, hx, y, hy, hne, heq⟩
  have hhash : tips.head?.map Block.hash = tips'.head?.map Block.hash := by
    obtain ⟨b, rest, rfl⟩ := hchain.exists_cons
    obtain ⟨b', rest', rfl⟩ := hchain'.exists_cons
    rw [hholds.tip rfl, hholds'.tip rfl] at htip
    exact congrArg some (Except.ok.inj htip)
  have heq : tips = tips' := hchain.eq_of_hash_eq hchain' hg hg' (hrun.isSealed hallowed)
    (hrun'.isSealed hallowed') hinj hhash
  subst heq
  exact ⟨rfl, hholds.getBlock_eq hholds'.toStores, hholds.ledger.trans hholds'.ledger.symm,
    fun now b hheight ↦ hholds.run_checkBlock_eq hholds'.toStores hchain hg now hheight⟩

/-- A node that has also been sent a block of another branch agrees with one that has not. -/
theorem tips_agree_regtest :
    ∃ tips' n', Run Regtest.manager PositiveHeight Regtest.genesis tips' n' ∧
      DB.tip Regtest.afterA.store = DB.tip n'.store ∧
      (([Regtest.blockA, Regtest.genesis] = tips' ∧
        (∀ hash, DB.getBlock Regtest.afterA.store hash = DB.getBlock n'.store hash) ∧
        DB.utxos Regtest.afterA.store = DB.utxos n'.store ∧
        ∀ now b, 0 < b.header.height →
          ((Regtest.manager.checkBlock now b).run exec Regtest.afterA).1 =
            ((Regtest.manager.checkBlock now b).run exec n').1) ∨
      ∃ x ∈ chainStrings [Regtest.blockA, Regtest.genesis] ++ chainStrings tips',
        ∃ y ∈ chainStrings [Regtest.blockA, Regtest.genesis] ++ chainStrings tips',
          x ≠ y ∧ doubleSha256 x = doubleSha256 y) := by
  have hrun : Run Regtest.manager PositiveHeight Regtest.genesis
      [Regtest.blockA, Regtest.genesis] Regtest.afterA := Regtest.runA Regtest.validOn_blockA.height
  obtain ⟨hchain, hholds⟩ := hrun.holds fun _ _ _ h ↦ h
  obtain ⟨-, -, hAG⟩ := Regtest.hashes_ne
  obtain ⟨r, n', hcall, hfueled, hholds'⟩ := call_off_tip 1790000000 hchain hrun.genesis.height
    hholds Regtest.validOn_blockB.height (by rw [Regtest.validOn_blockB.link]; exact Ne.symm hAG)
  have hrun' : Run Regtest.manager PositiveHeight Regtest.genesis _ n' :=
    .call hrun Regtest.validOn_blockB.height hcall hfueled
  have htip : DB.tip Regtest.afterA.store = DB.tip n'.store := by
    rw [hholds.tip rfl, hholds'.tip rfl]
  exact ⟨_, n', hrun', htip,
    tips_agree hrun hrun' (fun _ _ _ h ↦ h) (fun _ _ _ h ↦ h) htip⟩

end NevelCore
