import NevelCore.Chain.Branch
import NevelCore.Chain.Outcomes

/-!
# The main chain and the store that holds it

A chain is a list of blocks, newest first. `Chain` says that its blocks extend each other by the
rules, down to a genesis block, and `Holds` that a store has exactly this chain: the tip, the
blocks, the height index, the recorded work and the ledger; `Stores` says this without the work.

`call_returned` is the inversion of `ValidateAndApplyBlock` on such a store for a block of positive
height, and `call_outcome` says what it means for the store: that stays as it is, or the work of a
side block is recorded, or the block extends the chain. `reorg` never switches: a side block has its
parent on the main chain, the rules give it the same bits as the main block above that parent, and
so it is not heavier than the tip. For the same reason the loops of `reorg` take at most one round,
and the call returns (`call_spec`).
-/

set_option autoImplicit false
set_option relaxedAutoImplicit false

namespace NevelCore

open Foundations

/-! ### Chains -/

/-- `HeaderByHeight` on the blocks of a chain. -/
def ancestorHeader (chain : List Block) (height : UInt64) : Routine BlockHeader :=
  attempt (found ((chain.find? fun b ↦ b.header.height = height).map Block.header))

/-- Block `b` extends the chain `p :: rest` by the rules. -/
structure Extends (m : Manager) (b p : Block) (rest : List Block) : Prop extends Parent b p where
  proofOfWork : checkProofOfWork b.header m.network.powLimit = .ok ()
  bits : ∀ n, (expectedBits p.header m.network (ancestorHeader (p :: rest))).run exec n =
    (.ok b.header.bits, n)
  transactions : TransactionsValid (Ledger.replay (p :: rest)) b
  parentInLimits : p.InLimits
  unknown : ∀ x ∈ p :: rest, x.hash ≠ b.hash

/-- A chain on a genesis block. -/
inductive Chain (m : Manager) (g : Block) : List Block → Prop
  | genesis : Chain m g [g]
  | extend {b p : Block} {rest : List Block} (chain : Chain m g (p :: rest))
      (step : Extends m b p rest) : Chain m g (b :: p :: rest)

namespace Chain

variable {m : Manager} {g : Block} {chain : List Block}

theorem exists_cons (h : Chain m g chain) : ∃ b rest, chain = b :: rest := by
  cases h <;> exact ⟨_, _, rfl⟩

/-- The chain below a block of a chain is a chain. -/
theorem of_suffix (h : Chain m g chain) {b : Block} {rest : List Block}
    (hsuffix : b :: rest <:+ chain) : Chain m g (b :: rest) := by
  induction h with
  | genesis =>
    rcases List.suffix_cons_iff.mp hsuffix with heq | hnil
    · rw [heq]
      exact genesis
    · exact absurd (List.suffix_nil.mp hnil) (List.cons_ne_nil _ _)
  | extend below step ih =>
    rcases List.suffix_cons_iff.mp hsuffix with heq | hsuffix
    · rw [heq]
      exact extend below step
    · exact ih hsuffix

theorem branch (h : Chain m g chain) (hg : g.header.height = 0) : Branch chain := by
  induction h with
  | genesis => exact .bottom hg
  | extend below step ih => exact .above ih step.toParent

/-- The blocks below the tip of a chain are within the limits of the decoder. -/
theorem inLimits_of_mem_tail {b : Block} {rest : List Block} (h : Chain m g (b :: rest)) {x : Block}
    (hx : x ∈ rest) : x.InLimits := by
  generalize hlist : b :: rest = list at h
  induction h generalizing b rest with
  | genesis =>
    cases hlist
    cases hx
  | extend below step ih =>
    cases hlist
    rcases List.mem_cons.mp hx with rfl | hx
    · exact step.parentInLimits
    · exact ih hx rfl

/-- The block of a chain is known by its hash. -/
theorem hash_inj (h : Chain m g chain) {x y : Block} (hx : x ∈ chain) (hy : y ∈ chain)
    (heq : x.hash = y.hash) : x = y := by
  induction h with
  | genesis => rw [List.mem_singleton.mp hx, List.mem_singleton.mp hy]
  | extend below step ih =>
    rcases List.mem_cons.mp hx with rfl | hbelow <;> rcases List.mem_cons.mp hy with rfl | hbelow'
    · rfl
    · exact absurd heq.symm (step.unknown y hbelow')
    · exact absurd heq (step.unknown x hbelow)
    · exact ih hbelow hbelow'

/-- No block below the tip has its hash. -/
theorem hash_ne_of_mem_tail {b : Block} {rest : List Block} (h : Chain m g (b :: rest)) {x : Block}
    (hx : x ∈ rest) : x.hash ≠ b.hash := by
  cases h with
  | genesis => cases hx
  | extend below step => exact step.unknown x hx

theorem getLast?_eq (h : Chain m g chain) : chain.getLast? = some g := by
  induction h with
  | genesis => rfl
  | extend below step ih => rw [List.getLast?_cons_cons, ih]

/-- Below a readable block every height has its ancestor. -/
theorem exists_ancestor {p : Block} {rest : List Block} (h : Chain m g (p :: rest))
    (hg : g.header.height = 0) (hlimits : p.InLimits) {height : UInt64}
    (hle : height ≤ p.header.height) :
    ∃ x ∈ p :: rest, x.InLimits ∧ x.header.height = height ∧
      ancestorHeader (p :: rest) height = pure x.header := by
  obtain ⟨x, hx, hheight⟩ := (h.branch hg).exists_of_height_le hle
  have hlimits' : x.InLimits := by
    rcases List.mem_cons.mp hx with rfl | hx
    · exact hlimits
    · exact h.inLimits_of_mem_tail hx
  have hfind : (p :: rest).find? (fun b ↦ b.header.height = height) = some x := by
    cases hfound : (p :: rest).find? (fun b ↦ b.header.height = height) with
    | none => exact absurd hheight (by simpa using List.find?_eq_none.mp hfound x hx)
    | some y =>
      have hy : y.header.height = height := by simpa using List.find?_some hfound
      rw [(h.branch hg).height_inj (List.mem_of_find?_eq_some hfound) hx (hy.trans hheight.symm)]
  refine ⟨x, hx, hlimits', hheight, ?_⟩
  rw [ancestorHeader, hfind]
  rfl

end Chain

/-- The header that a retarget looks up is not above the parent. -/
theorem retarget_height_le {height : UInt64}
    (h : ¬ ((height + 1) % difficultyWindow ≠ 0 ∨ height + 1 = 0)) :
    height + 1 - difficultyWindow ≤ height := by
  rw [not_or, not_not] at h
  have hwindow : difficultyWindow.toNat = 720 := rfl
  have hmod : (height + 1).toNat % 720 = 0 := by
    have := congrArg UInt64.toNat h.1
    rwa [UInt64.toNat_mod, hwindow] at this
  have hne : (height + 1).toNat ≠ 0 := fun h0 ↦ h.2 (UInt64.toNat_inj.mp h0)
  have hheight := height.toNat_lt
  have hnext : (height + 1).toNat = (height.toNat + 1) % 2 ^ 64 := UInt64.toNat_add height 1
  rw [UInt64.le_iff_toNat_le, UInt64.toNat_sub_of_le _ _ (by
    rw [UInt64.le_iff_toNat_le, hwindow]
    omega), hwindow]
  omega

/-! ### Stores that hold a chain -/

/-- A store has a chain as its main chain, and no other blocks. -/
structure Stores (chain : List Block) (d : Store) : Prop where
  tip : ∀ {b rest}, chain = b :: rest → DB.tip d = .ok b.hash
  stored : ∀ b ∈ chain, d.lookup (Key.blockHash b.hash) = some (serializeBlock b)
  only : ∀ hash data, d.lookup (Key.blockHash hash) = some data → ∃ b ∈ chain, b.hash = hash
  index : ∀ b ∈ chain, DB.blockHashByHeight d b.header.height = .ok b.hash
  ledger : DB.utxos d = Ledger.replay chain

/-- The store has also the work of every readable block on record. -/
structure Holds (chain : List Block) (d : Store) : Prop extends Stores chain d where
  work : ∀ {b rest}, b :: rest <:+ chain → b.InLimits →
    DB.totalWork d b.hash = .ok (chainWork (b :: rest))

namespace Stores

variable {m : Manager} {g : Block} {chain : List Block} {d : Store}

theorem getBlock_of_mem (h : Stores chain d) {b : Block} (hb : b ∈ chain) (hlimits : b.InLimits) :
    DB.getBlock d b.hash = .ok b :=
  getBlock_eq_ok.mpr ⟨_, h.stored b hb, deserializeBlock_serializeBlock hlimits⟩

/-- A block that can be read is one of the chain. -/
theorem mem_of_getBlock (h : Stores chain d) {hash : Hash} {b : Block}
    (hget : DB.getBlock d hash = .ok b) : b ∈ chain ∧ b.hash = hash ∧ b.InLimits := by
  obtain ⟨data, hlookup, hdata⟩ := getBlock_eq_ok.mp hget
  obtain ⟨x, hx, rfl⟩ := h.only hash data hlookup
  rw [h.stored x hx] at hlookup
  cases hlookup
  obtain ⟨rfl, hlimits⟩ := eq_of_deserializeBlock_serializeBlock hdata
  exact ⟨hx, rfl, hlimits⟩

/-- A block that cannot be read is no block of the chain within the limits of the decoder. -/
theorem hash_ne_of_unknown (h : Stores chain d) {hash : Hash} {e : Err}
    (hunknown : DB.getBlock d hash = .error e) {x : Block} (hx : x ∈ chain)
    (hlimits : x.InLimits) : x.hash ≠ hash := by
  rintro rfl
  rw [h.getBlock_of_mem hx hlimits] at hunknown
  cases hunknown

/-- A hash that no block of the chain has is unknown. -/
theorem unknown_of_new (h : Stores chain d) {hash : Hash} (hnew : ∀ x ∈ chain, x.hash ≠ hash) :
    ∃ e, DB.getBlock d hash = .error e := by
  cases hget : DB.getBlock d hash with
  | error e => exact ⟨e, rfl⟩
  | ok x =>
    obtain ⟨hx, hhash, -⟩ := h.mem_of_getBlock hget
    exact absurd hhash (hnew x hx)

/-- Up to the height of a readable block of the chain, the headers of the store are those of the
chain below it. -/
theorem run_headerByHeight (h : Stores chain d) (hchain : Chain m g chain)
    (hg : g.header.height = 0) {p : Block} {rest : List Block} (hsuffix : p :: rest <:+ chain)
    (hlimits : p.InLimits) {height : UInt64} (hle : height ≤ p.header.height)
    (mempool : Option Mempool) :
    (Manager.headerByHeight height).run exec ⟨d, mempool⟩ =
      (ancestorHeader (p :: rest) height).run exec ⟨d, mempool⟩ := by
  obtain ⟨x, hx, hlimits', hheight, hancestor⟩ :=
    (hchain.of_suffix hsuffix).exists_ancestor hg hlimits hle
  have hmem : x ∈ chain := hsuffix.subset hx
  have hindex := h.index x hmem
  rw [hheight] at hindex
  rw [Manager.headerByHeight, run_blockHashByHeight_bind, hindex, attempt_ok, Prog.pure_bind,
    run_getBlock_bind, h.getBlock_of_mem hmem hlimits', hancestor]
  rfl

theorem run_expectedBits (h : Stores chain d) (hchain : Chain m g chain)
    (hg : g.header.height = 0) {p : Block} {rest : List Block} (hsuffix : p :: rest <:+ chain)
    (hlimits : p.InLimits) (net : Network) (mempool : Option Mempool) :
    (expectedBits p.header net Manager.headerByHeight).run exec ⟨d, mempool⟩ =
      (expectedBits p.header net (ancestorHeader (p :: rest))).run exec ⟨d, mempool⟩ := by
  rw [expectedBits, expectedBits]
  split
  · rfl
  · next hretarget =>
    rw [Prog.run_bind, Prog.run_bind,
      h.run_headerByHeight hchain hg hsuffix hlimits (retarget_height_le hretarget)]

end Stores

/-- What a chain asks for does not depend on the store. -/
theorem run_expectedBits_ancestorHeader (p : BlockHeader) (net : Network) (chain : List Block)
    (n n' : Node) :
    (expectedBits p net (ancestorHeader chain)).run exec n =
      (((expectedBits p net (ancestorHeader chain)).run exec n').1, n) := by
  have honly : (expectedBits p net (ancestorHeader chain)).Only (fun _ ↦ False) Halt.Raised :=
    only_expectedBits (fun _ ↦ only_attempt _) p net
  rw [Prog.run_of_only (fun _ hc ↦ hc.elim) honly,
    Prog.run_congr (fun _ hc ↦ hc.elim) honly fun _ hc ↦ hc.elim]

/-! ### What keeps a chain held -/

section Outcome

variable {m : Manager} {g b p : Block} {chain rest : List Block} {d : Store}

theorem Stores.putTotalWork (h : Stores chain d) (hash : Hash) (work : ℕ) :
    Stores chain (DB.putTotalWork d hash work) where
  tip hcons := (DB.tip_putTotalWork d hash work).trans (h.tip hcons)
  stored x hx := (DB.lookup_putTotalWork (by simp) d work).trans (h.stored x hx)
  only hash' data hlookup :=
    h.only hash' data ((DB.lookup_putTotalWork (by simp) d work).symm.trans hlookup)
  index x hx := (DB.blockHashByHeight_putTotalWork d hash _ work).trans (h.index x hx)
  ledger := (DB.utxos_putTotalWork d hash work).trans h.ledger

/-- Recording work for a hash that no readable block of the chain has. -/
theorem Holds.putTotalWork (h : Holds chain d) {hash : Hash}
    (hne : ∀ x ∈ chain, x.InLimits → x.hash ≠ hash) (work : ℕ) :
    Holds chain (DB.putTotalWork d hash work) where
  toStores := h.toStores.putTotalWork hash work
  work hsuffix hlimits := by
    rw [DB.totalWork_putTotalWork, if_neg (hne _ (hsuffix.subset List.mem_cons_self) hlimits)]
    exact h.work hsuffix hlimits

theorem Holds.workOn (h : Holds chain d) (hsuffix : p :: rest <:+ chain) (hlimits : p.InLimits)
    (hlink : b.header.prevHash = p.hash) (hheight : 0 < b.header.height) :
    DB.workOn d b = chainWork (b :: p :: rest) := by
  rw [DB.workOn, if_pos hheight, hlink, h.work hsuffix hlimits]
  rfl

/-- Applying a block that extends the chain. -/
theorem Stores.applyBlock (h : Stores (p :: rest) d) (hchain : Chain m g (p :: rest))
    (hg : g.header.height = 0) (step : Extends m b p rest) :
    Stores (b :: p :: rest) (DB.applyBlock d b) where
  tip hcons := by
    cases hcons
    exact DB.tip_applyBlock d _
  stored x hx := by
    rw [DB.lookup_blockHash_applyBlock]
    rcases List.mem_cons.mp hx with rfl | hx
    · exact if_pos rfl
    · rw [if_neg (step.unknown x hx)]
      exact h.stored x hx
  only hash data hlookup := by
    rw [DB.lookup_blockHash_applyBlock] at hlookup
    split at hlookup
    · next heq => exact ⟨b, List.mem_cons_self, heq.symm⟩
    · obtain ⟨x, hx, hhash⟩ := h.only hash data hlookup
      exact ⟨x, List.mem_cons_of_mem _ hx, hhash⟩
  index x hx := by
    rw [DB.blockHashByHeight_applyBlock]
    rcases List.mem_cons.mp hx with rfl | hbelow
    · exact if_pos rfl
    · rw [if_neg, h.index x hbelow]
      intro heq
      have hb := ((hchain.extend step).branch hg).height_inj hx List.mem_cons_self heq
      exact step.unknown x hbelow (congrArg Block.hash hb)
  ledger := by rw [DB.utxos_applyBlock, h.ledger, replay_cons b]

/-- Applying a block that extends the chain, and recording its work. -/
theorem Holds.extend (h : Holds (p :: rest) d) (hchain : Chain m g (p :: rest))
    (hg : g.header.height = 0) (step : Extends m b p rest) :
    Holds (b :: p :: rest) (DB.extend d b) where
  toStores := (h.toStores.applyBlock hchain hg step).putTotalWork b.hash (DB.workOn d b)
  work hsuffix hlimits := by
    rw [DB.totalWork_extend]
    rcases List.suffix_cons_iff.mp hsuffix with heq | hsuffix
    · cases heq
      rw [if_pos rfl,
        h.workOn (List.suffix_refl _) step.parentInLimits step.link step.height_pos]
    · rw [if_neg (step.unknown _ (hsuffix.subset List.mem_cons_self))]
      exact h.work hsuffix hlimits

/-- A block whose parent is on the chain, but below the tip, is not heavier than the tip. -/
theorem Chain.work_le (h : Chain m g chain) {t : Block} (hsuffix : t :: p :: rest <:+ chain)
    (hbits : ∀ n, (expectedBits p.header m.network (ancestorHeader (p :: rest))).run exec n =
      (.ok b.header.bits, n)) : chainWork (b :: p :: rest) ≤ chainWork chain := by
  refine le_trans (Nat.le_of_eq ?_) (chainWork_le_of_suffix hsuffix)
  cases h.of_suffix hsuffix with
  | extend below step =>
    have hsame := (step.bits ⟨∅, none⟩).symm.trans (hbits ⟨∅, none⟩)
    have heq : t.header.bits = b.header.bits := Except.ok.inj (Prod.ext_iff.mp hsame).1
    exact congrArg (workForBits · + chainWork (p :: rest)) heq.symm

/-- Without a readable tip, `reorg` changes nothing. -/
theorem run_reorg_of_unreadable {n : Node} {fuel : ℕ} {t : Block} {e : Err}
    (hheight : 0 < b.header.height)
    (hindex : DB.blockHashByHeight n.store (b.header.height - 1) = .ok b.header.prevHash)
    (htip : DB.tip n.store = .ok t.hash) (hget : DB.getBlock n.store t.hash = .error e) :
    ∃ halt, (Manager.reorg fuel b).run exec n = (.error halt, n) ∧ (0 < fuel → halt.Raised) := by
  cases fuel with
  | zero => exact ⟨_, rfl, fun h ↦ absurd h (Nat.lt_irrefl 0)⟩
  | succ fuel =>
    have hne : b.header.height ≠ 0 := (UInt64.pos_iff_ne_zero.mp hheight)
    have hcollect : (Manager.collectSideChain (fuel + 1) b [b]).run exec n = (.ok ([b], b), n) := by
      rw [Manager.collectSideChain, if_neg hne, run_blockHashByHeight_bind, hindex]
      dsimp only
      rw [if_pos rfl]
      rfl
    have hroll (height : UInt64) : (Manager.rollbackToHeight (fuel + 1) height).run exec n =
        (.error (.error e), n) := by
      rw [Manager.rollbackToHeight, Manager.tipBlock]
      refine Prog.run_bind_of_error ?_
      rw [run_tip_bind, htip]
      dsimp only
      rw [run_getBlock_bind, hget]
      rfl
    refine ⟨.error (.reorgRollback e), ?_, fun _ ↦ trivial⟩
    rw [Manager.reorg, Prog.run_bind_of_ok hcollect]
    refine Prog.run_bind_of_error ?_
    rw [Prog.run_mapError, hroll]
    rfl

/-- What a call with a block of positive height does to a store that holds a chain. -/
inductive Outcome (m : Manager) (chain : List Block) (d : Store) (b : Block) :
    List Block → Store → Prop
  | unchanged : Outcome m chain d b chain d
  | recorded {p : Block} {rest : List Block} (suffix : p :: rest <:+ chain)
      (inLimits : p.InLimits) (link : b.header.prevHash = p.hash)
      (unknown : ∃ e, DB.getBlock d b.hash = .error e) :
      Outcome m chain d b chain (DB.putTotalWork d b.hash (chainWork (b :: p :: rest)))
  | extended {p : Block} {rest : List Block} (eq : chain = p :: rest)
      (step : Extends m b p rest) : Outcome m chain d b (b :: chain) (DB.extend d b)

theorem Outcome.holds {chain' : List Block} {d' : Store} (h : Outcome m chain d b chain' d')
    (hchain : Chain m g chain) (hg : g.header.height = 0) (hholds : Holds chain d) :
    Chain m g chain' ∧ Holds chain' d' := by
  cases h with
  | unchanged => exact ⟨hchain, hholds⟩
  | recorded suffix inLimits link unknown =>
    obtain ⟨e, hunknown⟩ := unknown
    exact ⟨hchain, hholds.putTotalWork (fun x hx ↦ hholds.hash_ne_of_unknown hunknown hx) _⟩
  | extended eq step =>
    subst eq
    exact ⟨hchain.extend step, hholds.extend hchain hg step⟩

/-- A block of positive height that passes the checks has its parent on the chain, and extends the
chain if that is the tip. -/
theorem Passes.parent {n : Node} {now : ℤ} {prev : Block} (h : Passes m now b prev n)
    (hheight : 0 < b.header.height) (hchain : Chain m g chain) (hg : g.header.height = 0)
    (hstores : Stores chain n.store) :
    ∃ rest, prev :: rest <:+ chain ∧ prev.InLimits ∧ b.header.prevHash = prev.hash ∧
      b.header.height.toNat = prev.header.height.toNat + 1 ∧
      (∀ n, (expectedBits prev.header m.network (ancestorHeader (prev :: rest))).run exec n =
        (.ok b.header.bits, n)) ∧
      (chain = prev :: rest → Extends m b prev rest) := by
  obtain ⟨hmem, hhash, hlimits⟩ := hstores.mem_of_getBlock h.previous
  obtain ⟨rest, hsuffix⟩ := exists_suffix_of_mem hmem
  obtain ⟨-, hwork, -, hparent⟩ := validateBlockHeader_ok_iff.mp h.header
  obtain ⟨hnext, hlink⟩ := hparent prev.header rfl
  have hnat : b.header.height.toNat = prev.header.height.toNat + 1 := by
    have hlt := prev.header.height.toNat_lt
    have hadd : (prev.header.height + 1).toNat = (prev.header.height.toNat + 1) % 2 ^ 64 :=
      UInt64.toNat_add _ 1
    rw [UInt64.lt_iff_toNat_lt, hnext, hadd, UInt64.toNat_zero] at hheight
    rw [hnext, hadd]
    omega
  have hbits : ∀ n,
      (expectedBits prev.header m.network (ancestorHeader (prev :: rest))).run exec n =
        (.ok b.header.bits, n) := fun n' ↦ by
    rw [run_expectedBits_ancestorHeader _ _ _ n' n,
      ← hstores.run_expectedBits hchain hg hsuffix hlimits m.network n.mempool, h.bits]
  refine ⟨rest, hsuffix, hlimits, hlink, hnat, hbits, fun heq ↦ ?_⟩
  obtain ⟨e, hunknown⟩ := h.unknown
  refine ⟨⟨hlink, hnat⟩, hwork, hbits, ?_, hlimits, fun x hx ↦ ?_⟩
  · rw [← heq, ← hstores.ledger]
    exact validateBlockTransactions_ok h.transactions
  · refine hstores.hash_ne_of_unknown hunknown (heq ▸ hx) ?_
    rcases List.mem_cons.mp hx with rfl | hx
    · exact hlimits
    · exact (heq ▸ hchain).inLimits_of_mem_tail hx

/-- Block `b` is valid on top of the chain `p :: rest`, at a clock reading. -/
structure ValidOn (m : Manager) (now : ℤ) (b p : Block) (rest : List Block) : Prop where
  height : 0 < b.header.height
  header : validateBlockHeader now b (some p.header) m.network = .ok ()
  bits : ∀ n, (expectedBits p.header m.network (ancestorHeader (p :: rest))).run exec n =
    (.ok b.header.bits, n)
  transactions : ∀ n, DB.utxos n.store = Ledger.replay (p :: rest) →
    (validateBlockTransactions b Store.get m.verifier).run exec n = (.ok (), n)

theorem ValidOn.link {now : ℤ} (h : ValidOn m now b p rest) : b.header.prevHash = p.hash :=
  ((validateBlockHeader_ok_iff.mp h.header).2.2.2 p.header rfl).2

/-- An unknown block that is valid on top of the main chain passes the checks, and extends it. -/
theorem ValidOn.passes {now : ℤ} {n : Node} (h : ValidOn m now b p rest)
    (hchain : Chain m g (p :: rest)) (hg : g.header.height = 0)
    (hstores : Stores (p :: rest) n.store)
    (hlimits : p.InLimits) {e : Err} (hunknown : DB.getBlock n.store b.hash = .error e) :
    (m.checkBlock now b).run exec n = (.ok (), n) ∧ Extends m b p rest := by
  have hpasses : Passes m now b p n := by
    refine ⟨⟨e, hunknown⟩, ?_, h.header, ?_, h.transactions n hstores.ledger⟩
    · rw [h.link]
      exact hstores.getBlock_of_mem List.mem_cons_self hlimits
    · rw [hstores.run_expectedBits hchain hg (List.suffix_refl _) hlimits]
      exact h.bits n
  obtain ⟨rest', hsuffix, -, -, -, -, hextends⟩ := hpasses.parent h.height hchain hg hstores
  have hsame := (hchain.branch hg).suffix_inj hsuffix (List.suffix_refl _) rfl
  refine ⟨(checkBlock_ok_iff h.height).mpr ⟨p, hpasses⟩, ?_⟩
  rw [← (List.cons.inj hsame).2]
  exact hextends hsame.symm

/-- A block that is valid on top of the main chain, with a new hash, is applied. -/
theorem ValidOn.deliver {now : ℤ} {n : Node} (h : ValidOn m now b p rest)
    (hchain : Chain m g (p :: rest)) (hg : g.header.height = 0)
    (hstores : Stores (p :: rest) n.store)
    (hlimits : p.InLimits) (hnew : ∀ x ∈ p :: rest, x.hash ≠ b.hash) (fuel : ℕ) :
    ∃ n', (m.validateAndApplyBlock now fuel b).run exec n = (.ok (), n') ∧
      n'.store = DB.extend n.store b ∧ n'.mempool = n.mempool.map (·.removeMinedBlock b) := by
  obtain ⟨e, hunknown⟩ := hstores.unknown_of_new hnew
  obtain ⟨hcheck, -⟩ := h.passes hchain hg hstores hlimits hunknown
  have htip : DB.tip n.store = .ok b.header.prevHash := by rw [hstores.tip rfl, h.link]
  exact run_validateAndApplyBlock_of_tip fuel hcheck htip

/-- What a call with a block of positive height returns and leaves, on a store that holds a chain.
An error leaves everything as it was. -/
inductive Returned (m : Manager) (chain : List Block) (n : Node) (fuel : ℕ) (b : Block) :
    Except Halt Unit → Node → Prop
  | failed {halt : Halt} (raised : 0 < fuel → halt.Raised) :
      Returned m chain n fuel b (.error halt) n
  | recorded {p : Block} {rest : List Block} (suffix : p :: rest <:+ chain)
      (inLimits : p.InLimits) (link : b.header.prevHash = p.hash)
      (unknown : ∃ e, DB.getBlock n.store b.hash = .error e) :
      Returned m chain n fuel b (.ok ())
        { n with store := DB.putTotalWork n.store b.hash (chainWork (b :: p :: rest)) }
  | extended {p : Block} {rest : List Block} (eq : chain = p :: rest) (step : Extends m b p rest) :
      Returned m chain n fuel b (.ok ()) (Node.mined { n with store := DB.extend n.store b } b)

/-- The inversion of `ValidateAndApplyBlock` on a store that holds a chain, for a block of positive
height. -/
theorem call_returned {n n' : Node} {now : ℤ} {fuel : ℕ} {r : Except Halt Unit}
    (h : (m.validateAndApplyBlock now fuel b).run exec n = (r, n')) (hheight : 0 < b.header.height)
    (hchain : Chain m g chain) (hg : g.header.height = 0) (hholds : Holds chain n.store) :
    Returned m chain n fuel b r n' := by
  rcases validateAndApplyBlock_cases h with ⟨e, hcheck, rfl, rfl⟩ | ⟨hcheck, hconnect⟩
  · exact .failed fun _ ↦ Prog.raised_of_run (only_checkBlock m now b) hcheck
  obtain ⟨prev, hpasses⟩ := (checkBlock_ok_iff hheight).mp hcheck
  obtain ⟨rest, hsuffix, hlimits, hlink, hnat, hbits, hextends⟩ :=
    hpasses.parent hheight hchain hg hholds.toStores
  obtain ⟨t, below, rfl⟩ := hchain.exists_cons
  have htip := hholds.tip rfl
  have hwork := hholds.workOn hsuffix hlimits hlink hheight
  rw [run_connectBlock, htip] at hconnect
  dsimp only at hconnect
  rcases eq_or_exists_of_suffix hsuffix with heq | ⟨above, habove⟩
  · -- the parent is the tip
    rw [if_pos (hlink.trans (congrArg Block.hash (List.cons.inj heq).1).symm)] at hconnect
    cases hconnect
    exact .extended heq (hextends heq)
  · -- the parent is below the tip
    have hbelow : prev ∈ below := mem_tail_of_suffix habove
    have hne : b.header.prevHash ≠ t.hash := by
      rw [hlink]
      exact hchain.hash_ne_of_mem_tail hbelow
    rw [if_neg hne, hwork] at hconnect
    split at hconnect
    · cases hconnect
      exact .recorded hsuffix hlimits hlink hpasses.unknown
    · next hheavier =>
      have htlimits : ¬ t.InLimits := fun htlimits ↦ by
        rw [hholds.work (List.suffix_refl _) htlimits] at hheavier
        exact hheavier (hchain.work_le habove hbits)
      obtain ⟨e, he⟩ := deserializeBlock_serializeBlock_error htlimits
      have hget : DB.getBlock n.store t.hash = .error e := by
        rw [DB.getBlock, hholds.stored t List.mem_cons_self]
        exact he
      have hpred := Parent.height_sub_one ⟨hlink, hnat⟩
      have hindex := hholds.index prev (List.mem_cons_of_mem _ hbelow)
      rw [← hpred, ← hlink] at hindex
      obtain ⟨halt, hreorg, hraised⟩ := run_reorg_of_unreadable hheight hindex htip hget
      rw [hreorg] at hconnect
      cases hconnect
      exact .failed hraised

/-- The store after such a call. -/
theorem Returned.outcome {n n' : Node} {fuel : ℕ} {r : Except Halt Unit}
    (h : Returned m chain n fuel b r n') : ∃ chain', Outcome m chain n.store b chain' n'.store := by
  cases h with
  | failed raised => exact ⟨chain, .unchanged⟩
  | recorded suffix inLimits link unknown => exact ⟨chain, .recorded suffix inLimits link unknown⟩
  | extended eq step => exact ⟨b :: chain, .extended eq step⟩

/-- What a call with a block of positive height does to a store that holds a chain, and that it
returns. -/
theorem call_spec {n n' : Node} {now : ℤ} {fuel : ℕ} {r : Except Halt Unit}
    (h : (m.validateAndApplyBlock now fuel b).run exec n = (r, n')) (hheight : 0 < b.header.height)
    (hchain : Chain m g chain) (hg : g.header.height = 0) (hholds : Holds chain n.store) :
    (∃ chain', Outcome m chain n.store b chain' n'.store) ∧
      ∀ halt, r = .error halt → 0 < fuel → halt.Raised := by
  have hreturned := call_returned h hheight hchain hg hholds
  refine ⟨hreturned.outcome, ?_⟩
  rintro halt rfl
  cases hreturned with
  | failed raised => exact raised

/-- The store after a call with a block of positive height. -/
theorem call_outcome {n n' : Node} {now : ℤ} {fuel : ℕ} {r : Except Halt Unit}
    (h : (m.validateAndApplyBlock now fuel b).run exec n = (r, n')) (hheight : 0 < b.header.height)
    (hchain : Chain m g chain) (hg : g.header.height = 0) (hholds : Holds chain n.store) :
    ∃ chain', Outcome m chain n.store b chain' n'.store :=
  (call_spec h hheight hchain hg hholds).1

end Outcome

end NevelCore
