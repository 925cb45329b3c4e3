import NevelCore.Chain.ForkChoice
import NevelCore.Chain.Reorg

/-!
# Rejected blocks

A block that `ValidateAndApplyBlock` refuses changes neither the store nor the memory pool. Most
errors come from the checks, which only read. The others come from `reorg`: its first loop only
reads as well, and its second and third have no errors of their own. What is left is the rollback
between them, which has disconnected blocks by the time a later round could fail.

`Unwindable` says that the blocks from a hash down to one of height 0 can be read and have undo
records. It survives `DisconnectTip` (`Unwindable.disconnect`), and therefore the rollback of an
unwindable tip has no error at all (`rollbackToHeight_noError`). `rejected_unchanged` is the result
for stores whose tip is unwindable and whose stored blocks are one higher than their parents, for
which the call also returns.
-/

set_option autoImplicit false
set_option relaxedAutoImplicit false

namespace NevelCore

open Foundations

/-- From a hash down to a block of height 0, every block can be read and has an undo record. -/
inductive Unwindable (d : Store) : Hash → Prop where
  | base {hash : Hash} {b : Block} {log : List UTXO} (read : DB.getBlock d hash = .ok b)
      (undo : DB.undo d hash = .ok log) (height : b.header.height = 0) : Unwindable d hash
  | up {hash : Hash} {b : Block} {log : List UTXO} (read : DB.getBlock d hash = .ok b)
      (undo : DB.undo d hash = .ok log) (below : Unwindable d b.header.prevHash) :
      Unwindable d hash

/-- The tip can be unwound, and stored blocks of positive height are one higher than their
parents. -/
structure Intact (d : Store) : Prop where
  tip : ∀ {hash}, DB.tip d = .ok hash → Unwindable d hash
  height : ∀ {hash b p}, DB.getBlock d hash = .ok b → 0 < b.header.height →
    DB.getBlock d b.header.prevHash = .ok p → b.header.height = p.header.height + 1

section Frame

variable {d d' : Store}

/-- Being unwindable depends on the stored blocks and the undo records only. -/
theorem Unwindable.congr (hblock : ∀ hash, DB.getBlock d' hash = DB.getBlock d hash)
    (hundo : ∀ hash, DB.undo d' hash = DB.undo d hash) {hash : Hash} (h : Unwindable d hash) :
    Unwindable d' hash := by
  induction h with
  | base read undo height => exact .base ((hblock _).trans read) ((hundo _).trans undo) height
  | up read undo _ ih => exact .up ((hblock _).trans read) ((hundo _).trans undo) ih

theorem Unwindable.read {hash : Hash} (h : Unwindable d hash) :
    ∃ b log, DB.getBlock d hash = .ok b ∧ DB.undo d hash = .ok log ∧
      (b.header.height = 0 ∨ Unwindable d b.header.prevHash) := by
  cases h with
  | base read undo height => exact ⟨_, _, read, undo, Or.inl height⟩
  | up read undo below => exact ⟨_, _, read, undo, Or.inr below⟩

end Frame

/-- Disconnecting the tip, a block of positive height, leaves its parent as a tip that can be
unwound, and all stored blocks and undo records. -/
theorem disconnectTip_of_unwindable {d : Store} {hash : Hash} {b : Block}
    (htip : DB.tip d = .ok hash) (h : Unwindable d hash) (hread : DB.getBlock d hash = .ok b)
    (hheight : b.header.height ≠ 0) :
    ∃ d', DB.disconnectTip d = (.ok b, d') ∧ DB.tip d' = .ok b.header.prevHash ∧
      Unwindable d' b.header.prevHash ∧ ∀ hash, DB.getBlock d' hash = DB.getBlock d hash := by
  obtain ⟨b', log, hread', hundo, hbelow⟩ := h.read
  obtain rfl : b = b' := Except.ok.inj (hread.symm.trans hread')
  have hframe (k : Key) (hk : k.OfChain) (hne : k ≠ .tip) :=
    DB.lookup_disconnect hk hne d b log
  have hblock (hash : Hash) : DB.getBlock (commit (DB.disconnectOps b log) d) hash =
      DB.getBlock d hash := by
    rw [DB.getBlock, DB.getBlock, hframe (.blockHash hash) trivial (by simp)]
  have hundos (hash : Hash) : DB.undo (commit (DB.disconnectOps b log) d) hash =
      DB.undo d hash := by
    rw [DB.undo, DB.undo, hframe (.undo hash) trivial (by simp)]
  refine ⟨_, DB.disconnectTip_eq htip hread hundo, DB.tip_disconnect hheight d log, ?_, hblock⟩
  exact (hbelow.resolve_left hheight).congr hblock hundos

/-- The rollback of a tip that can be unwound has no error. The round that finds a block of height 0
is the last one, so that this block is never disconnected. -/
theorem rollbackToHeight_noError {n : Node} {hash : Hash} (htip : DB.tip n.store = .ok hash)
    (h : Unwindable n.store hash) (fuel : ℕ) (height : UInt64) (e : Err) :
    ((Manager.rollbackToHeight fuel height).run exec n).1 ≠ .error (.error e) := by
  induction fuel generalizing n hash with
  | zero =>
    intro heq
    cases heq
  | succ fuel ih =>
    obtain ⟨b, log, hread, -, -⟩ := h.read
    rw [Manager.rollbackToHeight, Prog.run_bind_of_ok (run_tipBlock htip hread)]
    split_ifs with hle
    · intro heq
      cases heq
    have hheight : b.header.height ≠ 0 := fun hzero ↦ hle (hzero ▸ UInt64.zero_le)
    obtain ⟨d', hdisconnect, htip', hbelow, -⟩ := disconnectTip_of_unwindable htip h hread hheight
    rw [run_disconnectTip_bind, hdisconnect]
    exact @ih { n with store := d' } _ htip' hbelow

theorem run_mapError_eq_error {α : Type} {p : Routine α} {f : Err → Err} {n n' : Node} {e : Err}
    (h : (p.mapError (Halt.map f)).run exec n = (.error (.error e), n')) :
    ∃ cause, (p.run exec n).1 = .error (.error cause) := by
  rw [Prog.run_mapError] at h
  cases hp : (p.run exec n).1 with
  | ok a =>
    rw [hp] at h
    cases h
  | error halt =>
    cases halt with
    | error cause => exact ⟨cause, rfl⟩
    | outOfFuel =>
      rw [hp] at h
      cases h

/-- The errors of the first loop of `reorg` come before any change. -/
theorem collectSideChain_error {fuel : ℕ} {cur : Block} {sideChain : List Block} {n n' : Node}
    {halt : Halt}
    (h : (Manager.collectSideChain fuel cur sideChain).run exec n = (.error halt, n')) :
    n' = n := by
  induction fuel generalizing cur sideChain with
  | zero =>
    cases h
    rfl
  | succ fuel ih =>
    rw [Manager.collectSideChain] at h
    split at h
    · cases h
    rw [run_blockHashByHeight_bind] at h
    split at h
    · cases h
      rfl
    split at h
    · cases h
    rw [run_getBlock_bind] at h
    split at h
    · cases h
      rfl
    · exact ih h

/-- What is behind the rollback of `reorg` has no error. -/
theorem applyAndRemove_noError (sideChain : List Block) (n : Node) (halt : Halt) :
    ((do
      Manager.applySideChain sideChain.reverse
      Manager.removeMinedBlocks sideChain).run exec n).1 ≠ .error halt := by
  rw [Prog.run_bind_of_ok (Manager.run_applySideChain _ n)]
  obtain ⟨mempool, hremove⟩ := Manager.run_removeMinedBlocks sideChain
    { n with store := sideChain.reverse.foldl DB.extend n.store }
  rw [hremove]
  exact nofun

/-- An error of `reorg` comes before any change. -/
theorem reorg_error {fuel : ℕ} {b : Block} {n n' : Node} {e : Err} {hash : Hash}
    (htip : DB.tip n.store = .ok hash) (hunwind : Unwindable n.store hash)
    (h : (Manager.reorg fuel b).run exec n = (.error (.error e), n')) : n' = n := by
  rw [Manager.reorg] at h
  rcases Prog.run_bind_eq_error h with hcollect | ⟨⟨sideChain, cur⟩, mid, hcollect, hrest⟩
  · exact collectSideChain_error hcollect
  obtain ⟨-, -, rfl⟩ := Manager.collectSideChain_ok hcollect
  rcases Prog.run_bind_eq_error hrest with hroll | ⟨_, mid', -, hlast⟩
  · obtain ⟨cause, hcause⟩ := run_mapError_eq_error hroll
    exact absurd hcause (rollbackToHeight_noError htip hunwind _ _ cause)
  · exact absurd (congrArg Prod.fst hlast) (applyAndRemove_noError sideChain mid' (.error e))

/-! ### The loops of `reorg` come to an end -/

/-- A block is one higher than its parent in the store, if it has one. -/
def Above (d : Store) (b : Block) : Prop :=
  ∀ {p}, 0 < b.header.height → DB.getBlock d b.header.prevHash = .ok p →
    b.header.height = p.header.height + 1

theorem toNat_lt_of_above {height below : UInt64} (hpos : 0 < height) (h : height = below + 1) :
    below.toNat < height.toNat := by
  have hbelow := below.toNat_lt
  rw [UInt64.lt_iff_toNat_lt, h, UInt64.toNat_add] at hpos
  rw [h, UInt64.toNat_add]
  change 0 < (below.toNat + 1) % 2 ^ 64 at hpos
  change below.toNat < (below.toNat + 1) % 2 ^ 64
  omega

/-- The first loop of `reorg` goes down one height in each round. -/
theorem collectSideChain_fueled {n : Node}
    (hstored : ∀ {hash b}, DB.getBlock n.store hash = .ok b → Above n.store b) {fuel : ℕ}
    {cur : Block} (hcur : Above n.store cur) (hfuel : cur.header.height.toNat < fuel)
    (sideChain : List Block) :
    ((Manager.collectSideChain fuel cur sideChain).run exec n).1 ≠ .error .outOfFuel := by
  induction fuel generalizing cur sideChain with
  | zero => exact absurd hfuel (Nat.not_lt_zero _)
  | succ fuel ih =>
    rw [Manager.collectSideChain]
    split
    · intro heq
      cases heq
    next hheight =>
    rw [run_blockHashByHeight_bind]
    split
    · intro heq
      cases heq
    split
    · intro heq
      cases heq
    rw [run_getBlock_bind]
    split
    · intro heq
      cases heq
    next parentBlock hparent =>
    have hpos : 0 < cur.header.height := UInt64.pos_iff_ne_zero.mpr hheight
    have hlt := toNat_lt_of_above hpos (hcur hpos hparent)
    exact ih (hstored hparent) (by omega) _

/-- The rollback goes down one height in each round. -/
theorem rollbackToHeight_fueled {n : Node} {hash : Hash} {b : Block}
    (hstored : ∀ {hash b}, DB.getBlock n.store hash = .ok b → Above n.store b)
    (htip : DB.tip n.store = .ok hash) (h : Unwindable n.store hash)
    (hread : DB.getBlock n.store hash = .ok b) {fuel : ℕ} (hfuel : b.header.height.toNat < fuel)
    (height : UInt64) :
    ((Manager.rollbackToHeight fuel height).run exec n).1 ≠ .error .outOfFuel := by
  induction fuel generalizing n hash b with
  | zero => exact absurd hfuel (Nat.not_lt_zero _)
  | succ fuel ih =>
    rw [Manager.rollbackToHeight, Prog.run_bind_of_ok (run_tipBlock htip hread)]
    split_ifs with hle
    · intro heq
      cases heq
    have hheight : b.header.height ≠ 0 := fun hzero ↦ hle (hzero ▸ UInt64.zero_le)
    obtain ⟨d', hdisconnect, htip', hbelow, hblock⟩ :=
      disconnectTip_of_unwindable htip h hread hheight
    obtain ⟨p, -, hp, -, -⟩ := hbelow.read
    have hpos : 0 < b.header.height := UInt64.pos_iff_ne_zero.mpr hheight
    have hlt := toNat_lt_of_above hpos (hstored hread hpos (hblock _ ▸ hp))
    have hstored' : ∀ {hash b}, DB.getBlock d' hash = .ok b → Above d' b := by
      intro hash b hget p hpos hparent
      rw [hblock] at hget hparent
      exact hstored hget hpos hparent
    rw [run_disconnectTip_bind, hdisconnect]
    exact @ih { n with store := d' } _ p hstored' htip' hbelow hp (by omega)

theorem run_mapError_outOfFuel {α : Type} {p : Routine α} {f : Err → Err} {n n' : Node}
    (h : (p.mapError (Halt.map f)).run exec n = (.error .outOfFuel, n')) :
    (p.run exec n).1 = .error .outOfFuel := by
  rw [Prog.run_mapError] at h
  cases hp : (p.run exec n).1 with
  | ok a =>
    rw [hp] at h
    cases h
  | error halt =>
    cases halt with
    | error cause =>
      rw [hp] at h
      cases h
    | outOfFuel => rfl

theorem reorg_fueled {n : Node} {hash : Hash} {b : Block} (hintact : Intact n.store)
    (htip : DB.tip n.store = .ok hash) (hb : Above n.store b) {fuel : ℕ} (hfuel : 2 ^ 64 ≤ fuel) :
    ((Manager.reorg fuel b).run exec n).1 ≠ .error .outOfFuel := by
  have hstored : ∀ {hash b}, DB.getBlock n.store hash = .ok b → Above n.store b :=
    fun hget _ hpos hparent ↦ hintact.height hget hpos hparent
  intro h
  rw [Manager.reorg] at h
  rcases Prog.run_bind_eq_error (Prod.ext h rfl) with
    hcollect | ⟨⟨sideChain, cur⟩, mid, hcollect, hrest⟩
  · exact collectSideChain_fueled hstored hb (lt_of_lt_of_le b.header.height.toNat_lt hfuel) _
      (congrArg Prod.fst hcollect)
  obtain ⟨-, -, rfl⟩ := Manager.collectSideChain_ok hcollect
  rcases Prog.run_bind_eq_error hrest with hroll | ⟨_, mid', -, hlast⟩
  · obtain ⟨t, -, hread, -, -⟩ := (hintact.tip htip).read
    exact rollbackToHeight_fueled hstored htip (hintact.tip htip) hread
      (lt_of_lt_of_le t.header.height.toNat_lt hfuel) _ (run_mapError_outOfFuel hroll)
  · exact absurd (congrArg Prod.fst hlast) (applyAndRemove_noError sideChain mid' .outOfFuel)

/-! ### The call -/

section Call

variable {m : Manager} {now : ℤ} {b : Block} {n : Node}

/-- A block that passes the checks is one higher than its parent. -/
theorem above_of_checkBlock (h : (m.checkBlock now b).run exec n = (.ok (), n)) :
    Above n.store b := by
  intro p hpos hparent
  obtain ⟨prev, hpasses⟩ := (checkBlock_ok_iff hpos).mp h
  obtain rfl : prev = p := Except.ok.inj (hpasses.previous.symm.trans hparent)
  exact ((validateBlockHeader_ok_iff.mp hpasses.header).2.2.2 _ rfl).1

theorem connectBlock_error {fuel : ℕ} {n' : Node} {halt : Halt}
    (h : (Manager.connectBlock fuel b).run exec n = (.error halt, n')) :
    ∃ hash, DB.tip n.store = .ok hash ∧ (Manager.reorg fuel b).run exec n = (.error halt, n') := by
  rw [run_connectBlock] at h
  cases htip : DB.tip n.store with
  | error e =>
    rw [htip] at h
    cases h
  | ok hash =>
    rw [htip] at h
    dsimp only at h
    split_ifs at h
    · cases h
    · cases h
    · exact ⟨hash, rfl, h⟩

theorem run_validateAndApplyBlock_of_known {x : Block} {fuel : ℕ}
    (h : DB.getBlock n.store b.hash = .ok x) :
    (m.validateAndApplyBlock now fuel b).run exec n = (.error (.error .blockAlreadyKnown), n) := by
  rw [Manager.validateAndApplyBlock, Manager.checkBlock, Prog.run_bind, run_getBlock_bind, h]
  rfl

/-- A rejected block changes nothing. On a store whose tip can be unwound, an error of
`ValidateAndApplyBlock` leaves the node, store and memory pool, as it was, and the call returns. -/
theorem rejected_unchanged (hintact : Intact n.store) :
    (∀ fuel e n', (m.validateAndApplyBlock now fuel b).run exec n = (.error (.error e), n') →
      n' = n) ∧
    ∀ fuel, 2 ^ 64 ≤ fuel →
      ((m.validateAndApplyBlock now fuel b).run exec n).1 ≠ .error .outOfFuel := by
  constructor
  · intro fuel e n' h
    rcases validateAndApplyBlock_cases h with ⟨_, -, -, hsame⟩ | ⟨-, hconnect⟩
    · exact hsame
    · obtain ⟨hash, htip, hreorg⟩ := connectBlock_error hconnect
      exact reorg_error htip (hintact.tip htip) hreorg
  · intro fuel hfuel h
    rcases validateAndApplyBlock_cases (Prod.ext h rfl) with
      ⟨halt, hcheck, hhalt, -⟩ | ⟨hcheck, hconnect⟩
    · cases hhalt
      exact Prog.raised_of_run (only_checkBlock m now b) hcheck
    · obtain ⟨hash, htip, hreorg⟩ := connectBlock_error hconnect
      exact reorg_fueled hintact htip (above_of_checkBlock hcheck) hfuel (congrArg Prod.fst hreorg)

end Call

/-- The store after `InitGenesis` is intact. -/
theorem Intact.genesis {g : Block} (hheight : g.header.height = 0) (hlimits : g.InLimits) :
    Intact (DB.extend ∅ g) where
  tip htip := by
    obtain rfl := Except.ok.inj ((DB.tip_extend ∅ g).symm.trans htip)
    have hundo := DB.undo_extend ∅ g g.hash
    rw [if_pos rfl] at hundo
    refine .base (getBlock_eq_ok.mpr ⟨serializeBlock g, ?_, ?_⟩) hundo hheight
    · rw [DB.lookup_blockHash_extend, if_pos rfl]
    · exact deserializeBlock_serializeBlock hlimits
  height hget hpos _ := by
    obtain ⟨hmem, -⟩ := (Holds.genesis hheight).mem_of_getBlock hget
    rw [List.mem_singleton.mp hmem, hheight] at hpos
    exact absurd hpos UInt64.not_lt_zero

namespace Regtest

/-- Genesis as the main chain, a memory pool, and block B with its work, which is stored but not on
the main chain. -/
def besideB : Node where
  store := DB.putTotalWork
    (afterGenesis.store.insert (.blockHash blockB.hash) (serializeBlock blockB))
    blockB.hash (chainWork [blockB, genesis])
  mempool := some (.new 1000)

theorem lookup_besideB {k : Key} (hblock : k ≠ .blockHash blockB.hash)
    (hwork : k ≠ .totalWork blockB.hash) :
    besideB.store.lookup k = afterGenesis.store.lookup k :=
  (DB.lookup_putTotalWork hwork _ _).trans (Finmap.lookup_insert_of_ne _ hblock)

theorem getBlock_besideB (hash : Hash) : DB.getBlock besideB.store hash =
    if hash = blockB.hash then .ok blockB else DB.getBlock afterGenesis.store hash := by
  split_ifs with h
  · refine getBlock_eq_ok.mpr ⟨serializeBlock blockB, ?_, ?_⟩
    · rw [h, besideB, DB.lookup_putTotalWork (by simp)]
      exact Finmap.lookup_insert _
    · exact deserializeBlock_serializeBlock (by decide +kernel)
  · rw [DB.getBlock, DB.getBlock, lookup_besideB (by simpa using h) (by simp)]

theorem intact_besideB : Intact besideB.store := by
  have hgenesis : Intact afterGenesis.store := .genesis rfl genesis_inLimits
  have hblocks := hashes_ne.2.1.2
  constructor
  · intro hash htip
    rw [DB.tip, lookup_besideB (by simp) (by simp), ← DB.tip, tip_afterGenesis] at htip
    obtain rfl := Except.ok.inj htip
    obtain ⟨b, log, hread, hundo, -⟩ := (hgenesis.tip tip_afterGenesis).read
    obtain rfl := Except.ok.inj (getBlock_genesis.symm.trans hread)
    rw [DB.undo, ← lookup_besideB (by simp) (by simp), ← DB.undo] at hundo
    refine .base (b := genesis) ?_ hundo rfl
    rw [getBlock_besideB, if_neg hblocks.symm, hread]
  · intro hash b p hget hpos hparent
    rw [getBlock_besideB] at hget hparent
    split_ifs at hget with hhash
    · cases hget
      rw [show blockB.header.prevHash = genesis.hash from genesis_hash.symm, if_neg hblocks.symm,
        getBlock_genesis] at hparent
      cases hparent
      rfl
    · obtain ⟨hmem, -⟩ := (Holds.genesis rfl).mem_of_getBlock hget
      rw [List.mem_singleton.mp hmem] at hpos
      exact absurd hpos (by decide)

/-- Block C passes the checks, since its parent is stored. -/
theorem passes_blockC : Passes manager 1790000000 blockC blockB besideB where
  unknown := by
    obtain ⟨hB, -, hgenesis⟩ := hashes_ne.1
    refine ⟨.notFound, ?_⟩
    rw [getBlock_besideB, if_neg hB, DB.getBlock, afterGenesis, DB.lookup_blockHash_extend,
      if_neg hgenesis]
    rfl
  previous := by rw [getBlock_besideB, validOn_blockC.link, if_pos rfl]
  header := validOn_blockC.header
  bits := by
    rw [expectedBits, if_pos (.inl (by decide))]
    rfl
  transactions := run_validateBlockTransactions_of_coinbase rfl rfl (by decide)

/-- The main chain has no block of the height of block B. -/
theorem blockHashByHeight_besideB : DB.blockHashByHeight besideB.store 1 = .error .notFound := by
  rw [DB.blockHashByHeight, lookup_besideB (by simp) (by simp), ← DB.blockHashByHeight,
    afterGenesis, DB.blockHashByHeight_extend, if_neg (by decide)]
  rfl

/-- With block B below it, block C is heavier than genesis. -/
theorem work_besideB : ¬ DB.workOn besideB.store blockC ≤
    (DB.totalWork besideB.store genesis.hash).toOption.getD 0 := by
  have hne := hashes_ne.2.1.2
  have hB : DB.totalWork besideB.store blockB.hash = .ok (chainWork [blockB, genesis]) := by
    rw [besideB, DB.totalWork_putTotalWork, if_pos rfl]
  have hgenesis : DB.totalWork besideB.store genesis.hash = .ok (DB.workOn ∅ genesis) := by
    rw [DB.totalWork, lookup_besideB (by simp) (by simpa using hne.symm), ← DB.totalWork,
      afterGenesis, DB.totalWork_extend, if_pos rfl]
  rw [DB.workOn, validOn_blockC.link, hB, hgenesis]
  decide

/-- The first round of `reorg` finds no block to compare block B with. -/
theorem run_blockC_besideB (fuel : ℕ) :
    ∃ n', (manager.validateAndApplyBlock 1790000000 (fuel + 1) blockC).run exec besideB =
      (.error (.error (.reorgMissingHeight 1 .notFound)), n') := by
  have htip : DB.tip besideB.store = .ok genesis.hash := by
    rw [DB.tip, lookup_besideB (by simp) (by simp), ← DB.tip, tip_afterGenesis]
  have hcheck := (checkBlock_ok_iff validOn_blockC.height).mpr ⟨_, passes_blockC⟩
  have hindex : DB.blockHashByHeight besideB.store (blockC.header.height - 1) =
    .error .notFound := blockHashByHeight_besideB
  have hcollect := run_collectSideChain_of_missing (by decide) hindex fuel [blockC]
  rw [run_validateAndApplyBlock_of_ok hcheck, run_connectBlock, htip]
  dsimp only
  rw [validOn_blockC.link, if_neg hashes_ne.2.1.2, if_neg work_besideB, Manager.reorg,
    Prog.run_bind, hcollect]
  exact ⟨besideB, rfl⟩

end Regtest

/-- A heavier branch is rejected by `reorg`, since the main chain is too short to compare with. -/
theorem rejected_unchanged_regtest :
    Intact Regtest.besideB.store ∧
      (Regtest.manager.validateAndApplyBlock 1790000000 2 Regtest.blockC).run exec
        Regtest.besideB =
          (.error (.error (.reorgMissingHeight 1 .notFound)), Regtest.besideB) := by
  obtain ⟨n', hrun⟩ := Regtest.run_blockC_besideB 1
  rw [hrun, (rejected_unchanged Regtest.intact_besideB).1 2 _ n' hrun]
  exact ⟨Regtest.intact_besideB, rfl⟩

end NevelCore
