import NevelCore.Chain.ForkChoice
import NevelCore.Chain.Rollback

/-!
# The height index

`ApplyBlock` writes the height index and `DisconnectTip` leaves it alone. So after blocks on top of
each other and rollbacks in any order (`IndexRun`), the index has an entry for every height up to
the greatest one that a tip ever had, not only up to the tip (`Indexed.answers`). The entries up to
the tip are its ancestors (`Indexed.index`): each was written when that ancestor was applied, and
what is written later at the same height is on another branch, which by then is the chain.

`indexExact_iff` puts the two together. The index is the active chain exactly while the tip is as
high as any tip before.
-/

set_option autoImplicit false
set_option relaxedAutoImplicit false

namespace NevelCore

open Foundations

/-- What is left of a chain, given newest first, from the tip of a store down. -/
def fromTip (d : Store) (chain : List Block) : List Block :=
  chain.dropWhile fun b ↦ DB.tip d ≠ .ok b.hash

/-- The stores reached from a genesis block by calls of `ApplyBlock` on blocks that extend the tip,
of `DisconnectTip` above genesis, and of `RollbackToHeight`. With each comes its active chain,
newest block first, and the greatest height that a tip has had. -/
inductive IndexRun (g : Block) : List Block → ℕ → Store → Prop
  | genesis (height : g.header.height = 0) : IndexRun g [g] 0 (DB.applyBlock ∅ g)
  | apply {b p : Block} {rest : List Block} {peak : ℕ} {d : Store}
      (run : IndexRun g (p :: rest) peak d) (parent : Parent b p)
      (new : ∀ x ∈ p :: rest, x.hash ≠ b.hash) :
      IndexRun g (b :: p :: rest) (max peak b.header.height.toNat) (DB.applyBlock d b)
  | disconnect {b p : Block} {rest : List Block} {peak : ℕ} {d : Store}
      (run : IndexRun g (b :: p :: rest) peak d) :
      IndexRun g (fromTip (DB.disconnectTip d).2 (b :: p :: rest)) peak (DB.disconnectTip d).2
  | rollback {chain : List Block} {peak : ℕ} {height : UInt64} {d : Store} {fuel : ℕ}
      {r : Except Halt Unit} {mempool : Option Mempool} {n : Node} (run : IndexRun g chain peak d)
      (returns : (Manager.rollbackToHeight fuel height).run exec ⟨d, mempool⟩ = (r, n))
      (fueled : r ≠ .error .outOfFuel) : IndexRun g (fromTip n.store chain) peak n.store

/-- What the height index of a store has, for an active chain and the greatest height so far. -/
structure Indexed (chain : List Block) (peak : ℕ) (d : Store) : Prop where
  branch : Branch chain
  distinct : chain.Pairwise fun b x ↦ x.hash ≠ b.hash
  tip : ∀ {b rest}, chain = b :: rest → DB.tip d = .ok b.hash
  stored : ∀ b ∈ chain, d.lookup (Key.blockHash b.hash) = some (serializeBlock b)
  le_peak : ∀ b ∈ chain, b.header.height.toNat ≤ peak
  peak_lt : peak < 2 ^ 64
  index : ∀ b ∈ chain, DB.blockHashByHeight d b.header.height = .ok b.hash
  answers : ∀ height, (∃ hash, DB.blockHashByHeight d height = .ok hash) ↔ height.toNat ≤ peak

/-- The height index is exactly the active chain: it answers up to the height of the tip, with the
ancestors of the tip. -/
def IndexExact (chain : List Block) (d : Store) : Prop :=
  ∀ t rest, chain = t :: rest → ∀ height,
    ((∃ hash, DB.blockHashByHeight d height = .ok hash) ↔ height ≤ t.header.height) ∧
      ∀ hash, DB.blockHashByHeight d height = .ok hash →
        ∃ b ∈ chain, b.header.height = height ∧ b.hash = hash

namespace Indexed

variable {g b p : Block} {rest chain : List Block} {peak : ℕ} {d d' : Store}

theorem genesis (h : g.header.height = 0) : Indexed [g] 0 (DB.applyBlock ∅ g) where
  branch := .bottom h
  distinct := List.pairwise_singleton _ _
  tip hcons := by
    cases hcons
    exact DB.tip_applyBlock ∅ g
  stored x hx := by
    rw [List.mem_singleton.mp hx, DB.lookup_blockHash_applyBlock, if_pos rfl]
  le_peak x hx := by
    rw [List.mem_singleton.mp hx, h]
    exact Nat.le_refl 0
  peak_lt := Nat.two_pow_pos 64
  index x hx := by
    rw [List.mem_singleton.mp hx, DB.blockHashByHeight_applyBlock, if_pos rfl]
  answers height := by
    have hzero : height.toNat ≤ 0 ↔ height = 0 := by
      rw [Nat.le_zero, ← UInt64.toNat_inj]
      rfl
    rw [DB.blockHashByHeight_applyBlock, h, hzero]
    split
    · next heq => exact ⟨fun _ ↦ heq, fun _ ↦ ⟨_, rfl⟩⟩
    · next hne =>
      refine ⟨fun ⟨hash, hhash⟩ ↦ ?_, fun heq ↦ absurd heq hne⟩
      cases hhash

/-- There is no gap between the greatest height so far and a block on top of the tip. -/
theorem le_max_iff_eq_or_le (hp : p.header.height.toNat ≤ peak) (hparent : Parent b p)
    (height : UInt64) :
    height.toNat ≤ max peak b.header.height.toNat ↔
      height = b.header.height ∨ height.toNat ≤ peak := by
  rw [le_max_iff, ← UInt64.toNat_inj, hparent.height]
  omega

/-- `ApplyBlock` on top of the chain. -/
theorem push (h : Indexed (p :: rest) peak d) (hparent : Parent b p)
    (hnew : ∀ x ∈ p :: rest, x.hash ≠ b.hash) :
    Indexed (b :: p :: rest) (max peak b.header.height.toNat) (DB.applyBlock d b) := by
  have hbranch : Branch (b :: p :: rest) := .above h.branch hparent
  refine ⟨hbranch, List.pairwise_cons.mpr ⟨hnew, h.distinct⟩, fun hcons ↦ ?_, fun x hx ↦ ?_,
    fun x hx ↦ ?_, max_lt h.peak_lt b.header.height.toNat_lt, fun x hx ↦ ?_, fun height ↦ ?_⟩
  · cases hcons
    exact DB.tip_applyBlock d b
  · rw [DB.lookup_blockHash_applyBlock]
    rcases List.mem_cons.mp hx with rfl | hx
    · exact if_pos rfl
    · rw [if_neg (hnew x hx)]
      exact h.stored x hx
  · rcases List.mem_cons.mp hx with rfl | hx
    · exact le_max_right _ _
    · exact le_max_of_le_left (h.le_peak x hx)
  · rw [DB.blockHashByHeight_applyBlock]
    split
    · next heq => rw [hbranch.height_inj hx List.mem_cons_self heq]
    · next hne =>
      rcases List.mem_cons.mp hx with rfl | hx
      · exact absurd rfl hne
      · exact h.index x hx
  · rw [DB.blockHashByHeight_applyBlock,
      le_max_iff_eq_or_le (h.le_peak p List.mem_cons_self) hparent]
    split
    · next heq => exact ⟨fun _ ↦ .inl heq, fun _ ↦ ⟨_, rfl⟩⟩
    · next hne =>
      rw [h.answers]
      exact ⟨.inr, fun h ↦ h.resolve_left hne⟩

/-- A store that differs from another in its tip, which is now the next block of the chain. -/
theorem below (h : Indexed (b :: p :: rest) peak d) (htip : DB.tip d' = .ok p.hash)
    (hframe : ∀ k : Key, k.OfChain → k ≠ .tip → d'.lookup k = d.lookup k) :
    Indexed (p :: rest) peak d' := by
  have hindex (height : UInt64) :
      DB.blockHashByHeight d' height = DB.blockHashByHeight d height := by
    rw [DB.blockHashByHeight, hframe (.blockHeight height) trivial (by simp), DB.blockHashByHeight]
  refine ⟨h.branch.tail (List.cons_ne_nil _ _), (List.pairwise_cons.mp h.distinct).2,
    fun hcons ↦ ?_, fun x hx ↦ ?_, fun x hx ↦ h.le_peak x (List.mem_cons_of_mem _ hx),
    h.peak_lt, fun x hx ↦ ?_, fun height ↦ ?_⟩
  · cases hcons
    exact htip
  · rw [hframe (.blockHash x.hash) trivial (by simp)]
    exact h.stored x (List.mem_cons_of_mem _ hx)
  · rw [hindex]
    exact h.index x (List.mem_cons_of_mem _ hx)
  · rw [hindex]
    exact h.answers height

/-- What the chain reads back from the store is the chain. -/
theorem eq_of_getBlock (h : Indexed chain peak d) (hb : b ∈ chain) {x : Block}
    (hread : DB.getBlock d b.hash = .ok x) : x = b := by
  rw [DB.getBlock, h.stored b hb] at hread
  exact (eq_of_deserializeBlock_serializeBlock hread).1

/-- `DisconnectTip` above genesis fails and changes nothing, or goes to the next block of the
chain. -/
theorem pop (h : Indexed (b :: p :: rest) peak d) :
    (∃ e, DB.disconnectTip d = (.error e, d)) ∨
      ∃ d', DB.disconnectTip d = (.ok b, d') ∧ Indexed (p :: rest) peak d' := by
  have htip := h.tip rfl
  cases hread : DB.getBlock d b.hash with
  | error e =>
    refine .inl ⟨e, ?_⟩
    simp only [DB.disconnectTip, htip, hread, bind, Except.bind]
  | ok x =>
    obtain rfl := h.eq_of_getBlock List.mem_cons_self hread
    cases hundo : DB.undo d x.hash with
    | error e =>
      refine .inl ⟨e, ?_⟩
      simp only [DB.disconnectTip, htip, hread, hundo, bind, Except.bind]
    | ok log =>
      refine .inr ⟨_, DB.disconnectTip_eq htip hread hundo, ?_⟩
      cases h.branch with
      | above branch parent =>
        refine h.below ?_ fun k hk hne ↦ DB.lookup_disconnect hk hne d x log
        rw [DB.tip_disconnect (UInt64.pos_iff_ne_zero.mp parent.height_pos), parent.link]

/-- `RollbackToHeight` stops at a block of the chain, with or without an error. -/
theorem rollback {fuel : ℕ} {height : UInt64} {r : Except Halt Unit} {mempool : Option Mempool}
    {n : Node} (h : Indexed chain peak d)
    (hrun : (Manager.rollbackToHeight fuel height).run exec ⟨d, mempool⟩ = (r, n)) :
    ∃ t below, t :: below <:+ chain ∧ Indexed (t :: below) peak n.store := by
  induction fuel generalizing chain d with
  | zero =>
    cases hrun
    obtain ⟨t, below, rfl⟩ := h.branch.exists_cons
    exact ⟨t, below, List.suffix_refl _, h⟩
  | succ fuel ih =>
    obtain ⟨t, below, rfl⟩ := h.branch.exists_cons
    have hstay : n.store = d →
        ∃ x rest, x :: rest <:+ t :: below ∧ Indexed (x :: rest) peak n.store :=
      fun heq ↦ ⟨t, below, List.suffix_refl _, heq ▸ h⟩
    cases hread : DB.getBlock d t.hash with
    | error e =>
      rw [Manager.rollbackToHeight, Manager.tipBlock, Prog.run_bind, run_tip_bind, h.tip rfl,
        run_getBlock_bind, hread] at hrun
      cases hrun
      exact hstay rfl
    | ok x =>
      obtain rfl := h.eq_of_getBlock List.mem_cons_self hread
      have htip : Manager.tipBlock.run exec ⟨d, mempool⟩ = (.ok x, ⟨d, mempool⟩) :=
        run_tipBlock (h.tip rfl) hread
      rw [Manager.rollbackToHeight, Prog.run_bind_of_ok htip] at hrun
      split_ifs at hrun with hle
      · cases hrun
        exact hstay rfl
      · cases below with
        | nil =>
          -- genesis is not above any height
          cases h.branch with
          | bottom height => exact absurd (height ▸ UInt64.zero_le) hle
        | cons p rest =>
          rw [run_disconnectTip_bind] at hrun
          rcases h.pop with ⟨e, hfails⟩ | ⟨d', hpops, hbelow⟩
          · rw [hfails] at hrun
            cases hrun
            exact hstay rfl
          · rw [hpops] at hrun
            obtain ⟨t', below', hsuffix, hindexed⟩ := ih hbelow hrun
            exact ⟨t', below', hsuffix.trans (List.suffix_cons _ _), hindexed⟩

/-- The part of the chain from the tip of a store down. -/
theorem fromTip_eq {t : Block} {below : List Block} (h : Indexed chain peak d)
    (hsuffix : t :: below <:+ chain) (htip : DB.tip d' = .ok t.hash) :
    fromTip d' chain = t :: below := by
  obtain ⟨front, rfl⟩ := hsuffix
  have hfront : ∀ x ∈ front, decide (DB.tip d' ≠ .ok x.hash) = true := by
    intro x hx
    have hne := (List.pairwise_append.mp h.distinct).2.2 x hx t List.mem_cons_self
    rw [htip, decide_eq_true_eq]
    exact fun heq ↦ hne (Except.ok.inj heq)
  have hstop : decide (DB.tip d' ≠ .ok t.hash) = false := by
    rw [htip, decide_eq_false_iff_not]
    exact fun hne ↦ hne rfl
  rw [fromTip, List.dropWhile_append_of_pos hfront,
    List.dropWhile_cons_of_neg (by rw [hstop]; simp)]

end Indexed

namespace IndexRun

variable {g t : Block} {chain rest : List Block} {peak : ℕ} {d : Store}

theorem indexed (h : IndexRun g chain peak d) : Indexed chain peak d := by
  induction h with
  | genesis height => exact .genesis height
  | apply run parent new ih => exact ih.push parent new
  | disconnect run ih =>
    rcases ih.pop with ⟨e, hfails⟩ | ⟨d', hpops, hbelow⟩
    · rw [hfails, ih.fromTip_eq (List.suffix_refl _) (ih.tip rfl)]
      exact ih
    · rw [hpops, ih.fromTip_eq (List.suffix_cons _ _) (hbelow.tip rfl)]
      exact hbelow
  | rollback run returns fueled ih =>
    obtain ⟨t, below, hsuffix, hindexed⟩ := ih.rollback returns
    rw [ih.fromTip_eq hsuffix (hindexed.tip rfl)]
    exact hindexed

/-- The height index is exactly the active chain if and only if no tip was ever higher than the
one now. -/
theorem indexExact_iff (h : IndexRun g (t :: rest) peak d) :
    IndexExact (t :: rest) d ↔ peak = t.header.height.toNat := by
  have hindexed := h.indexed
  constructor
  · intro hexact
    have hpeak : (UInt64.ofNat peak).toNat = peak := UInt64.toNat_ofNat_of_lt' hindexed.peak_lt
    have hanswers := (hindexed.answers (UInt64.ofNat peak)).mpr hpeak.le
    have hle := (hexact t rest rfl _).1.mp hanswers
    rw [UInt64.le_iff_toNat_le, hpeak] at hle
    exact le_antisymm hle (hindexed.le_peak t List.mem_cons_self)
  · rintro rfl t' rest' hcons height
    obtain ⟨rfl, rfl⟩ := List.cons.inj hcons
    have hanswers := hindexed.answers height
    rw [← UInt64.le_iff_toNat_le] at hanswers
    refine ⟨hanswers, fun hash hhash ↦ ?_⟩
    obtain ⟨b, hb, hheight⟩ := hindexed.branch.exists_of_height_le (hanswers.mp ⟨hash, hhash⟩)
    refine ⟨b, hb, hheight, ?_⟩
    have hindex := hindexed.index b hb
    rw [hheight, hhash] at hindex
    exact (Except.ok.inj hindex).symm

end IndexRun

namespace Regtest

/-- Genesis and one block on top of it, without the records of their work. -/
def indexedA : Store := DB.applyBlock (DB.applyBlock ∅ genesis) blockA

theorem indexRun_indexedA : IndexRun genesis [blockA, genesis] 1 indexedA :=
  .apply (.genesis rfl) ⟨validOn_blockA.link, rfl⟩ hash_ne_blockA

/-- The block can be taken back, with what the ledger had for it before. -/
theorem disconnectTip_indexedA : ∃ log, DB.disconnectTip indexedA =
    (.ok blockA, commit (DB.disconnectOps blockA log) indexedA) := by
  have hread : DB.getBlock indexedA blockA.hash = .ok blockA := by
    rw [indexedA, DB.getBlock_applyBlock_self]
    exact deserializeBlock_serializeBlock blockA_inLimits
  have hundo := DB.undo_applyBlock (DB.applyBlock ∅ genesis) blockA blockA.hash
  rw [if_pos rfl] at hundo
  exact ⟨_, DB.disconnectTip_eq (DB.tip_applyBlock _ _) hread hundo⟩

/-- Block A was on top of genesis and is taken back. -/
theorem exists_indexRun_takenBack :
    ∃ d, IndexRun genesis [genesis] 1 d ∧ DB.tip d = .ok genesis.hash ∧
      DB.blockHashByHeight d 1 = .ok blockA.hash := by
  have hA := indexRun_indexedA.indexed
  obtain ⟨log, hdisconnect⟩ := disconnectTip_indexedA
  have hrun := IndexRun.disconnect indexRun_indexedA
  rcases hA.pop with ⟨e, hfails⟩ | ⟨d, hpops, hindexed⟩
  · rw [hdisconnect] at hfails
    cases hfails
  have htip := hindexed.tip rfl
  have hd := congrArg Prod.snd (hdisconnect.symm.trans hpops)
  dsimp only at hd
  rw [hpops, hA.fromTip_eq (List.suffix_cons _ _) htip] at hrun
  refine ⟨d, hrun, htip, ?_⟩
  rw [← hd, DB.blockHashByHeight, DB.lookup_disconnect (by trivial) (by simp)]
  exact hA.index blockA List.mem_cons_self

end Regtest

/-- Block B takes the place of block A, which is taken back: the index has block B instead. -/
theorem indexExact_regtest :
    ∃ d, IndexRun Regtest.genesis [Regtest.genesis] 1 d ∧
      DB.blockHashByHeight d 1 = .ok Regtest.blockA.hash ∧
      IndexExact [Regtest.blockB, Regtest.genesis] (DB.applyBlock d Regtest.blockB) := by
  obtain ⟨d, hrun, -, hindex⟩ := Regtest.exists_indexRun_takenBack
  have hparent : Parent Regtest.blockB Regtest.genesis := ⟨Regtest.validOn_blockB.link, rfl⟩
  have hnew : ∀ x ∈ [Regtest.genesis], x.hash ≠ Regtest.blockB.hash :=
    List.forall_mem_singleton.mpr Regtest.hashes_ne.2.1.2.symm
  exact ⟨d, hrun, hindex, (hrun.apply hparent hnew).indexExact_iff.mpr rfl⟩

/-- After the block is taken back, the index still has it above the tip. -/
theorem indexExact_fails :
    ∃ d, IndexRun Regtest.genesis [Regtest.genesis] 1 d ∧
      DB.tip d = .ok Regtest.genesis.hash ∧ Regtest.genesis.header.height = 0 ∧
      DB.blockHashByHeight d 1 = .ok Regtest.blockA.hash ∧ ¬ IndexExact [Regtest.genesis] d := by
  obtain ⟨d, hrun, htip, hindex⟩ := Regtest.exists_indexRun_takenBack
  refine ⟨d, hrun, htip, rfl, hindex, fun hexact ↦ ?_⟩
  exact absurd ((hexact Regtest.genesis [] rfl 1).1.mp ⟨_, hindex⟩) (by decide)

end NevelCore
