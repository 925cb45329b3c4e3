import NevelCore.Chain.Rollback

/-!
# Switching branches

A store is `Consistent` with a main chain if it has the blocks, the height index, the undo logs, the
recorded work and the ledger of exactly this chain. Runs of blocks that are within the limits of the
decoder and create only new outpoints lead to such stores (`Run.consistent`).

On such a store `reorg` finds the point where the new branch leaves the main chain, takes back the
blocks above it and applies those of the branch. It asks the height index for the heights of the
branch, and so succeeds exactly for branches up to one above the tip (`reorg_ok_iff`). If it
succeeds, the store is what applying the blocks of the branch from the beginning leads to
(`reorg_eq_replay`).
-/

set_option autoImplicit false
set_option relaxedAutoImplicit false

namespace NevelCore

open Foundations

/-- A store has the records of the blocks of a chain, given newest first, and of no other in the
height index and the ledger. -/
structure Records (chain : List Block) (d : Store) : Prop where
  read : ∀ b ∈ chain, DB.getBlock d b.hash = .ok b
  index : ∀ height hash, DB.blockHashByHeight d height = .ok hash ↔
    ∃ b ∈ chain, b.header.height = height ∧ b.hash = hash
  undo : ∀ {b rest}, b :: rest <:+ chain →
    DB.undo d b.hash = .ok ((Ledger.replay rest).undoLog b)
  work : ∀ {b rest}, b :: rest <:+ chain → DB.totalWork d b.hash = .ok (chainWork (b :: rest))
  new : ∀ {b rest}, b :: rest <:+ chain → (Ledger.replay rest).CreatesNew b
  ledger : DB.utxos d = Ledger.replay chain

/-- A store has a main chain, given newest first, with all that belongs to it. -/
structure Consistent (chain : List Block) (d : Store) : Prop extends Records chain d where
  branch : Branch chain
  tip : ∀ {b rest}, chain = b :: rest → DB.tip d = .ok b.hash

/-- A store has a main chain, given newest first, that can be read and taken back, and its height
index is exactly this chain. -/
structure ActiveChain (chain : List Block) (d : Store) : Prop where
  branch : Branch chain
  tip : ∀ {b rest}, chain = b :: rest → DB.tip d = .ok b.hash
  read : ∀ b ∈ chain, DB.getBlock d b.hash = .ok b
  index : ∀ height hash, DB.blockHashByHeight d height = .ok hash ↔
    ∃ b ∈ chain, b.header.height = height ∧ b.hash = hash
  undo : ∀ b ∈ chain, ∃ log, DB.undo d b.hash = .ok log

theorem Consistent.activeChain {chain : List Block} {d : Store} (h : Consistent chain d) :
    ActiveChain chain d where
  branch := h.branch
  tip := h.tip
  read := h.read
  index := h.index
  undo b hb := by
    obtain ⟨rest, hsuffix⟩ := exists_suffix_of_mem hb
    exact ⟨_, h.undo hsuffix⟩

theorem replay_append (side common : List Block) :
    Ledger.replay (side ++ common) = (Ledger.replay common).replayFrom side := by
  induction side with
  | nil => rfl
  | cons b side ih => exact congrArg (Ledger.apply · b) ih

theorem utxos_applyAll (d : Store) (blocks : List Block) :
    DB.utxos (applyAll d blocks) = (DB.utxos d).replayFrom blocks := by
  induction blocks with
  | nil => rfl
  | cons b below ih =>
    rw [applyAll, DB.utxos_applyBlock, ih]
    rfl

namespace Records

variable {d : Store} {b : Block} {chain : List Block}

theorem empty : Records [] ∅ where
  read := nofun
  index height hash := by
    change found none = _ ↔ _
    simp
  undo hsuffix := absurd (List.suffix_nil.mp hsuffix) (List.cons_ne_nil _ _)
  work hsuffix := absurd (List.suffix_nil.mp hsuffix) (List.cons_ne_nil _ _)
  new hsuffix := absurd (List.suffix_nil.mp hsuffix) (List.cons_ne_nil _ _)
  ledger := rfl

theorem workOn (h : Records chain d) (hbranch : Branch (b :: chain)) :
    DB.workOn d b = chainWork (b :: chain) := by
  cases hbranch with
  | bottom height =>
    rw [DB.workOn, height]
    rfl
  | above branch parent =>
    rw [DB.workOn, if_pos parent.height_pos, parent.link, h.work (List.suffix_refl _)]
    rfl

/-- Applying a new block on top of the chain. -/
theorem extend (h : Records chain d) (hbranch : Branch (b :: chain)) (hlimits : b.InLimits)
    (hunknown : ∀ x ∈ chain, x.hash ≠ b.hash) (hnew : (Ledger.replay chain).CreatesNew b) :
    Records (b :: chain) (DB.extend d b) where
  read x hx := by
    rw [DB.getBlock, DB.lookup_blockHash_extend]
    rcases List.mem_cons.mp hx with rfl | hx
    · rw [if_pos rfl]
      exact deserializeBlock_serializeBlock hlimits
    · rw [if_neg (hunknown x hx)]
      exact h.read x hx
  index height hash := by
    rw [DB.blockHashByHeight_extend]
    split
    · next heq =>
      constructor
      · intro hhash
        exact ⟨b, List.mem_cons_self, heq.symm, Except.ok.inj hhash⟩
      · rintro ⟨x, hx, hheight, rfl⟩
        rw [hbranch.height_inj hx List.mem_cons_self (hheight.trans heq)]
    · next hne =>
      rw [h.index]
      constructor
      · rintro ⟨x, hx, hboth⟩
        exact ⟨x, List.mem_cons_of_mem _ hx, hboth⟩
      · rintro ⟨x, hx, hheight, hhash⟩
        rcases List.mem_cons.mp hx with rfl | hx
        · exact absurd hheight.symm hne
        · exact ⟨x, hx, hheight, hhash⟩
  undo hsuffix := by
    rw [DB.undo_extend]
    rcases List.suffix_cons_iff.mp hsuffix with heq | hsuffix
    · cases heq
      rw [if_pos rfl, h.ledger]
    · rw [if_neg (hunknown _ (hsuffix.subset List.mem_cons_self)), h.undo hsuffix]
  work hsuffix := by
    rw [DB.totalWork_extend]
    rcases List.suffix_cons_iff.mp hsuffix with heq | hsuffix
    · cases heq
      rw [if_pos rfl, h.workOn hbranch]
    · rw [if_neg (hunknown _ (hsuffix.subset List.mem_cons_self)), h.work hsuffix]
  new hsuffix := by
    rcases List.suffix_cons_iff.mp hsuffix with heq | hsuffix
    · cases heq
      exact hnew
    · exact h.new hsuffix
  ledger := by rw [DB.utxos_extend, h.ledger, replay_cons b]

/-- Recording work for a hash that is not on the chain. -/
theorem putTotalWork (h : Records chain d) {hash : Hash} (hne : ∀ x ∈ chain, x.hash ≠ hash)
    (work : ℕ) : Records chain (DB.putTotalWork d hash work) where
  read x hx := (DB.getBlock_putTotalWork d hash _ work).trans (h.read x hx)
  index height hash' := by rw [DB.blockHashByHeight_putTotalWork, h.index]
  undo hsuffix := (DB.undo_putTotalWork d hash _ work).trans (h.undo hsuffix)
  work hsuffix := by
    rw [DB.totalWork_putTotalWork, if_neg (hne _ (hsuffix.subset List.mem_cons_self))]
    exact h.work hsuffix
  new := h.new
  ledger := (DB.utxos_putTotalWork d hash work).trans h.ledger

end Records

/-- Blocks of positive height, within the limits of the decoder, that create only new outpoints. -/
def CreatingNew : Node → ℤ → Block → Prop := fun n _ b ↦
  0 < b.header.height ∧ b.InLimits ∧ (DB.utxos n.store).CreatesNew b

/-- A run of such blocks leads to a store that is consistent with the blocks that became the tip. -/
theorem Run.consistent {m : Manager} {g : Block} {chain : List Block} {n : Node}
    (h : Run m CreatingNew g chain n) : Consistent chain n.store := by
  have hall := h.holds fun _ _ _ hallowed ↦ hallowed.1
  suffices hrecords : Records chain n.store from
    ⟨hrecords, hall.1.branch h.genesis.height, hall.2.tip⟩
  clear hall
  induction h with
  | start starts =>
    obtain ⟨hgenesis, hstore⟩ := starts.spec
    rw [hstore]
    exact Records.empty.extend (.bottom hgenesis.height) hgenesis.inLimits nofun fun _ _ ↦ .inl rfl
  | @call tips n n' now fuel b r run allows returns fueled ih =>
    have hg := run.genesis.height
    obtain ⟨hchain, hholds⟩ := run.holds fun _ _ _ hallowed ↦ hallowed.1
    obtain ⟨chain', houtcome⟩ := call_outcome returns allows.1 hchain hg hholds
    obtain ⟨hchain', hholds'⟩ := houtcome.holds hchain hg hholds
    rw [houtcome.tipsAfter hholds hholds']
    generalize n'.store = d at houtcome
    cases houtcome with
    | unchanged => exact ih
    | recorded suffix inLimits link unknown =>
      obtain ⟨e, hunknown⟩ := unknown
      refine ih.putTotalWork (fun x hx heq ↦ ?_) _
      rw [← heq, ih.read x hx] at hunknown
      cases hunknown
    | extended eq step =>
      rw [eq] at ih hholds ⊢
      refine ih.extend (eq ▸ hchain'.branch hg) allows.2.1 step.unknown ?_
      rw [← hholds.ledger]
      exact allows.2.2

/-! ### The side chain -/

section SideChain

variable {chain common side : List Block} {n n' : Node}

/-- Two branches of readable blocks with the same tip are the same. -/
theorem Branch.eq_of_read {d : Store} {b : Block} {rest rest' : List Block}
    (h : Branch (b :: rest)) (h' : Branch (b :: rest'))
    (hread : ∀ x ∈ rest, DB.getBlock d x.hash = .ok x)
    (hread' : ∀ x ∈ rest', DB.getBlock d x.hash = .ok x) : rest = rest' := by
  generalize hlist : b :: rest = list at h
  induction h generalizing b rest rest' with
  | bottom height =>
    cases hlist
    cases h' with
    | bottom height' => rfl
    | above branch' parent' => exact absurd height (UInt64.pos_iff_ne_zero.mp parent'.height_pos)
  | @above _ p below branch parent ih =>
    cases hlist
    cases h' with
    | bottom height' => exact absurd height' (UInt64.pos_iff_ne_zero.mp parent.height_pos)
    | @above _ p' below' branch' parent' =>
      have hp := hread p List.mem_cons_self
      rw [← parent.link, parent'.link, hread' p' List.mem_cons_self] at hp
      cases hp
      rw [ih branch' (fun x hx ↦ hread x (List.mem_cons_of_mem _ hx))
        (fun x hx ↦ hread' x (List.mem_cons_of_mem _ hx)) rfl]

/-- A block of a branch whose parent is on the main chain by its hash has all that is below on
it. -/
theorem ActiveChain.suffix_of_hash {d : Store} {x b : Block} (h : ActiveChain chain d)
    (hbranch : Branch (b :: (side ++ common))) (hcommon : common <:+ chain)
    (hside : ∀ x ∈ b :: side, DB.getBlock d x.hash = .ok x) (hx : x ∈ chain)
    (hhash : x.hash = b.hash) : b :: (side ++ common) <:+ chain := by
  have hread := h.read x hx
  rw [hhash, hside b List.mem_cons_self] at hread
  obtain rfl := Except.ok.inj hread
  obtain ⟨rest, hsuffix⟩ := exists_suffix_of_mem hx
  have hbelow (y : Block) (hy : y ∈ side ++ common) : DB.getBlock d y.hash = .ok y :=
    (List.mem_append.mp hy).elim (fun hy ↦ hside y (List.mem_cons_of_mem _ hy))
      fun hy ↦ h.read y (hcommon.subset hy)
  have hrest : side ++ common = rest :=
    hbranch.eq_of_read (h.branch.of_suffix hsuffix) hbelow fun y hy ↦
      h.read y (hsuffix.subset (List.mem_cons_of_mem _ hy))
  rwa [hrest]

/-- The side chain that is collected, from a block of a branch at most one above the tip, is the
part of the branch above a block of the main chain. It takes one round more than it has blocks. -/
theorem ActiveChain.run_collectSideChain {t cur : Block} {below : List Block}
    (hmain : ActiveChain (t :: below) n.store) (hcommon : common <:+ t :: below)
    (hne : common ≠ []) (hbranch : Branch (cur :: (side ++ common)))
    (hside : ∀ b ∈ side, DB.getBlock n.store b.hash = .ok b)
    (hle : cur.header.height.toNat ≤ t.header.height.toNat + 1) :
    ∃ taken p rest last, side ++ common = taken ++ p :: rest ∧ p :: rest <:+ t :: below ∧
      Parent last p ∧ taken.length ≤ side.length ∧
      ∀ fuel acc, (taken.length < fuel →
          (Manager.collectSideChain fuel cur acc).run exec n = (.ok (acc ++ taken, last), n)) ∧
        (fuel ≤ taken.length →
          (Manager.collectSideChain fuel cur acc).run exec n = (.error .outOfFuel, n)) := by
  -- one round, when the parent is on the main chain
  have hlast {cur p : Block} {rest : List Block} (hsuffix : p :: rest <:+ t :: below)
      (parent : Parent cur p) (fuel : ℕ) (acc : List Block) :
      (0 < fuel → (Manager.collectSideChain fuel cur acc).run exec n = (.ok (acc ++ [], cur), n)) ∧
        (fuel ≤ 0 →
          (Manager.collectSideChain fuel cur acc).run exec n = (.error .outOfFuel, n)) := by
    cases fuel with
    | zero => exact ⟨fun h ↦ absurd h (Nat.not_lt_zero _), fun _ ↦ rfl⟩
    | succ fuel =>
      have hindex : DB.blockHashByHeight n.store (cur.header.height - 1) =
          .ok cur.header.prevHash :=
        (hmain.index _ _).mpr ⟨p, hsuffix.subset List.mem_cons_self, parent.height_sub_one.symm,
          parent.link.symm⟩
      refine ⟨fun _ ↦ ?_, fun h ↦ absurd h (Nat.not_succ_le_zero _)⟩
      rw [Manager.collectSideChain, if_neg (UInt64.pos_iff_ne_zero.mp parent.height_pos),
        run_blockHashByHeight_bind, hindex]
      dsimp only
      rw [if_pos rfl, List.append_nil]
      rfl
  induction side generalizing cur with
  | nil =>
    obtain ⟨p, rest, rfl⟩ := List.exists_cons_of_ne_nil hne
    cases hbranch with
    | above branch parent =>
      exact ⟨[], p, rest, cur, rfl, hcommon, parent, Nat.le_refl 0, hlast hcommon parent⟩
  | cons b side ih =>
    cases hbranch with
    | above branch parent =>
      have hb : b.header.height.toNat ≤ t.header.height.toNat := by
        have := parent.height
        omega
      obtain ⟨x, hx, hheight⟩ :=
        hmain.branch.exists_of_height_le (UInt64.le_iff_toNat_le.mpr hb)
      by_cases hhash : x.hash = b.hash
      · have hsuffix := hmain.suffix_of_hash branch hcommon hside hx hhash
        exact ⟨[], b, side ++ common, cur, rfl, hsuffix, parent, Nat.zero_le _,
          hlast hsuffix parent⟩
      · have hindex : DB.blockHashByHeight n.store (cur.header.height - 1) = .ok x.hash :=
          (hmain.index _ _).mpr ⟨x, hx, hheight.trans parent.height_sub_one.symm, rfl⟩
        have hround (fuel : ℕ) (acc : List Block) :
            (Manager.collectSideChain (fuel + 1) cur acc).run exec n =
              (Manager.collectSideChain fuel b (acc ++ [b])).run exec n := by
          have hother : x.hash ≠ cur.header.prevHash := by
            rw [parent.link]
            exact hhash
          rw [Manager.collectSideChain, if_neg (UInt64.pos_iff_ne_zero.mp parent.height_pos),
            run_blockHashByHeight_bind, hindex]
          dsimp only
          rw [if_neg hother, run_getBlock_bind, parent.link, hside b List.mem_cons_self]
        obtain ⟨taken, p, rest, last, heq, hsuffix, hparent, hlength, hfuels⟩ :=
          ih branch (fun y hy ↦ hside y (List.mem_cons_of_mem _ hy)) (by omega)
        refine ⟨b :: taken, p, rest, last, congrArg (b :: ·) heq, hsuffix, hparent,
          Nat.succ_le_succ hlength, fun fuel acc ↦ ?_⟩
        cases fuel with
        | zero => exact ⟨fun h ↦ absurd h (Nat.not_lt_zero _), fun _ ↦ rfl⟩
        | succ fuel =>
          rw [hround, List.append_cons acc b taken]
          exact ⟨fun h ↦ (hfuels fuel _).1 (Nat.lt_of_succ_lt_succ h),
            fun h ↦ (hfuels fuel _).2 (Nat.le_of_succ_le_succ h)⟩

theorem run_collectSideChain_of_missing {cur : Block} {e : Err} (hne : cur.header.height ≠ 0)
    (h : DB.blockHashByHeight n.store (cur.header.height - 1) = .error e) (fuel : ℕ)
    (acc : List Block) :
    (Manager.collectSideChain (fuel + 1) cur acc).run exec n =
      (.error (.error (.reorgMissingHeight (cur.header.height - 1) e)), n) := by
  rw [Manager.collectSideChain, if_neg hne, run_blockHashByHeight_bind, h]
  exact run_raise n _

/-- The first loop of `reorg` fails from a block more than one above the tip. -/
theorem ActiveChain.collectSideChain_missing {t cur : Block} {below : List Block}
    (hmain : ActiveChain (t :: below) n.store)
    (hgt : t.header.height.toNat + 1 < cur.header.height.toNat) (fuel : ℕ) (acc : List Block) :
    ∃ halt, (Manager.collectSideChain fuel cur acc).run exec n = (.error halt, n) := by
  cases fuel with
  | zero => exact ⟨.outOfFuel, rfl⟩
  | succ fuel =>
    have hpos : (1 : UInt64) ≤ cur.header.height := by
      rw [UInt64.le_iff_toNat_le]
      exact le_trans (Nat.le_add_left 1 _) hgt.le
    have hne : cur.header.height ≠ 0 := UInt64.pos_iff_ne_zero.mp hpos
    cases hindex : DB.blockHashByHeight n.store (cur.header.height - 1) with
    | error e => exact ⟨_, run_collectSideChain_of_missing hne hindex fuel acc⟩
    | ok hash =>
      -- no block of the main chain is that high
      obtain ⟨x, hx, hheight, -⟩ := (hmain.index _ _).mp hindex
      obtain ⟨rest, hsuffix⟩ := exists_suffix_of_mem hx
      have hxheight := hmain.branch.height_eq hsuffix
      have htheight := hmain.branch.height_eq (List.suffix_refl _)
      have hlength := hsuffix.length_le
      rw [List.length_cons, List.length_cons] at hlength
      have hsub : (cur.header.height - 1).toNat = cur.header.height.toNat - 1 :=
        UInt64.toNat_sub_of_le _ _ hpos
      rw [hheight, hsub] at hxheight
      omega

/-- What is collected, if the loop succeeds. -/
theorem ActiveChain.collectSideChain_spec {t cur last : Block} {below acc r : List Block} {fuel : ℕ}
    (hmain : ActiveChain (t :: below) n.store) (hcommon : common <:+ t :: below)
    (hne : common ≠ []) (hbranch : Branch (cur :: (side ++ common)))
    (hside : ∀ b ∈ side, DB.getBlock n.store b.hash = .ok b)
    (h : (Manager.collectSideChain fuel cur acc).run exec n = (.ok (r, last), n')) :
    ∃ taken p rest, side ++ common = taken ++ p :: rest ∧ p :: rest <:+ t :: below ∧
      r = acc ++ taken ∧ Parent last p := by
  have hle : cur.header.height.toNat ≤ t.header.height.toNat + 1 := by
    by_contra hgt
    obtain ⟨halt, hmissing⟩ := hmain.collectSideChain_missing (Nat.lt_of_not_le hgt) fuel acc
    rw [hmissing] at h
    cases h
  obtain ⟨taken, p, rest, last', heq, hsuffix, hparent, -, hfuels⟩ :=
    hmain.run_collectSideChain hcommon hne hbranch hside hle
  rcases Nat.lt_or_ge taken.length fuel with hlt | hge
  · rw [(hfuels fuel acc).1 hlt] at h
    cases h
    exact ⟨taken, p, rest, heq, hsuffix, rfl, hparent⟩
  · rw [(hfuels fuel acc).2 hge] at h
    cases h

end SideChain

/-! ### Taking back and applying -/

/-- The blocks of a branch above one of them have each other, and at the end that one, as
parents. -/
theorem Branch.link_topHash {front rest below : List Block} {b p : Block}
    (h : Branch (front ++ p :: rest)) (hx : b :: below <:+ front) :
    b.header.prevHash = topHash p.hash below := by
  have hbranch : Branch (b :: (below ++ p :: rest)) := h.of_suffix (append_suffix_append hx _)
  cases below with
  | nil =>
    cases hbranch with
    | above branch parent => exact parent.link
  | cons x below =>
    cases hbranch with
    | above branch parent => exact parent.link

/-- The main chain above one of its blocks can be taken back. -/
theorem Consistent.stacked {d : Store} {front rest : List Block} {p : Block}
    (h : Consistent (front ++ p :: rest) d) :
    Stacked (Ledger.replay (p :: rest)) p.hash front d where
  tip := by
    cases front with
    | nil => exact h.tip rfl
    | cons b front => exact h.tip rfl
  ledger := by rw [h.ledger, replay_append]
  read hx := h.read _ (List.mem_append_left _ (hx.subset List.mem_cons_self))
  undo hx := by
    rw [← replay_append]
    exact h.undo (append_suffix_append hx _)
  link hx := h.branch.link_topHash hx
  new hx := by
    rw [← replay_append]
    exact h.new (append_suffix_append hx _)

/-- What applying the blocks of a branch keeps. -/
structure Replayed (blocks : List Block) (d : Store) : Prop where
  tip : ∀ {b rest}, blocks = b :: rest → DB.tip d = .ok b.hash
  index : ∀ b ∈ blocks, DB.blockHashByHeight d b.header.height = .ok b.hash
  work : ∀ {b rest}, blocks = b :: rest → DB.totalWork d b.hash = .ok (chainWork (b :: rest))
  ledger : DB.utxos d = Ledger.replay blocks

theorem Replayed.extend {d : Store} {b : Block} {blocks : List Block} (h : Replayed blocks d)
    (hne : blocks ≠ []) (hbranch : Branch (b :: blocks)) :
    Replayed (b :: blocks) (DB.extend d b) where
  tip hcons := by
    cases hcons
    exact DB.tip_extend d b
  index x hx := by
    rw [DB.blockHashByHeight_extend]
    split
    · next heq => rw [hbranch.height_inj hx List.mem_cons_self heq]
    · next hother =>
      rcases List.mem_cons.mp hx with rfl | hx
      · exact absurd rfl hother
      · exact h.index x hx
  work hcons := by
    cases hcons
    cases hbranch with
    | bottom height => exact absurd rfl hne
    | above branch parent =>
      rw [DB.totalWork_extend, if_pos rfl, DB.workOn, if_pos parent.height_pos, parent.link,
        h.work rfl]
      rfl
  ledger := by rw [DB.utxos_extend, h.ledger, replay_cons b]

/-- Applying a side chain on top of a branch. -/
theorem Replayed.extendAll {d : Store} {p : Block} {rest : List Block} (h : Replayed (p :: rest) d)
    (side : List Block) (hbranch : Branch (side ++ p :: rest)) :
    Replayed (side ++ p :: rest) (side.reverse.foldl DB.extend d) := by
  induction side with
  | nil => exact h
  | cons b side ih =>
    have hne : side ++ p :: rest ≠ [] := by simp
    rw [List.reverse_cons, List.foldl_append]
    exact (ih (Branch.tail hbranch hne)).extend hne hbranch

/-- What the chain has below one of its blocks, after all above is taken back. -/
theorem Consistent.replayed {d d' : Store} {chain rest : List Block} {p : Block}
    (h : Consistent chain d) (hsuffix : p :: rest <:+ chain)
    (hstacked : Stacked (Ledger.replay (p :: rest)) p.hash [] d')
    (hframe : ∀ k : Key, k.OfChain → k ≠ .tip → d'.lookup k = d.lookup k) :
    Replayed (p :: rest) d' where
  tip hcons := by
    cases hcons
    exact hstacked.tip
  index x hx := by
    rw [DB.blockHashByHeight, hframe (.blockHeight x.header.height) trivial (by simp)]
    exact (h.index _ _).mpr ⟨x, hsuffix.subset hx, rfl, rfl⟩
  work hcons := by
    cases hcons
    rw [DB.totalWork, hframe (.totalWork p.hash) trivial (by simp)]
    exact h.work hsuffix
  ledger := hstacked.ledger

/-- The blocks of a branch above one of its blocks have greater heights. -/
theorem Branch.height_lt {front rest : List Block} {p x : Block}
    (h : Branch (front ++ p :: rest)) (hx : x ∈ front) : p.header.height < x.header.height := by
  obtain ⟨below, hbelow⟩ := exists_suffix_of_mem hx
  have hsuffix : x :: (below ++ p :: rest) <:+ front ++ p :: rest := append_suffix_append hbelow _
  rw [UInt64.lt_iff_toNat_lt, h.height_eq (List.suffix_append front _), h.height_eq hsuffix,
    List.length_append, List.length_cons]
  omega

/-! ### Reaching a branch -/

/-- Blocks, given newest first, on top of a tip that can be read and have an undo log. -/
structure Removable (hash : Hash) (blocks : List Block) (d : Store) : Prop where
  tip : DB.tip d = .ok (topHash hash blocks)
  read : ∀ b ∈ blocks, DB.getBlock d b.hash = .ok b
  undo : ∀ b ∈ blocks, ∃ log, DB.undo d b.hash = .ok log
  link : ∀ {b below}, b :: below <:+ blocks → b.header.prevHash = topHash hash below

theorem Removable.takesBack (hash : Hash) : TakesBack hash (Removable hash) where
  tip h := h.tip
  read h := h.read _ List.mem_cons_self
  pop {b blocks d} h hheight := by
    obtain ⟨log, hundo⟩ := h.undo b List.mem_cons_self
    have hframe (k : Key) (hk : k.OfChain) (hne : k ≠ .tip) := DB.lookup_disconnect hk hne d b log
    refine ⟨_, DB.disconnectTip_eq h.tip (h.read b List.mem_cons_self) hundo,
      ⟨?_, fun x hx ↦ ?_, fun x hx ↦ ?_, ?_⟩, hframe⟩
    · rw [DB.tip_disconnect hheight, h.link (List.suffix_refl _)]
    · rw [← h.read x (List.mem_cons_of_mem _ hx), DB.getBlock, DB.getBlock,
        hframe (.blockHash x.hash) trivial (by simp)]
    · obtain ⟨log', hlog⟩ := h.undo x (List.mem_cons_of_mem _ hx)
      exact ⟨log', by rw [← hlog, DB.undo, DB.undo, hframe (.undo x.hash) trivial (by simp)]⟩
    · exact fun hx ↦ h.link (hx.trans (List.suffix_cons b blocks))

/-- The main chain above one of its blocks can be taken back. -/
theorem ActiveChain.removable {d : Store} {front rest : List Block} {p : Block}
    (h : ActiveChain (front ++ p :: rest) d) : Removable p.hash front d where
  tip := by
    cases front with
    | nil => exact h.tip rfl
    | cons b front => exact h.tip rfl
  read b hb := h.read b (List.mem_append_left _ hb)
  undo b hb := h.undo b (List.mem_append_left _ hb)
  link hx := h.branch.link_topHash hx

section Reach

variable {common side below : List Block} {newTip t : Block} {n : Node} {fuel : ℕ}

/-- `reorg` succeeds if the new tip is at most one above the tip. -/
theorem ActiveChain.reorg_ok (hmain : ActiveChain (t :: below) n.store)
    (hcommon : common <:+ t :: below) (hne : common ≠ [])
    (hbranch : Branch (newTip :: (side ++ common)))
    (hside : ∀ b ∈ side, DB.getBlock n.store b.hash = .ok b)
    (hnew : newTip.header.height.toNat < fuel) (htip : t.header.height.toNat < fuel)
    (hle : newTip.header.height.toNat ≤ t.header.height.toNat + 1) :
    ∃ n', (Manager.reorg fuel newTip).run exec n = (.ok (), n') := by
  obtain ⟨taken, p, rest, last, heq, hsuffix, hparent, hlength, hfuels⟩ :=
    hmain.run_collectSideChain hcommon hne hbranch hside hle
  have hcollect : (Manager.collectSideChain fuel newTip [newTip]).run exec n =
      (.ok ([newTip] ++ taken, last), n) := by
    have hheight := hbranch.height_eq (List.suffix_refl _)
    rw [List.length_append] at hheight
    exact (hfuels fuel [newTip]).1 (by omega)
  have htheight := hmain.branch.height_eq (List.suffix_refl _)
  obtain ⟨front, hfront⟩ := hsuffix
  have hlengths := congrArg List.length hfront
  rw [List.length_append, List.length_cons, List.length_cons] at hlengths
  rw [← hfront] at hmain
  have hp := hmain.read p (List.mem_append_right _ List.mem_cons_self)
  obtain ⟨d', -, -, hruns⟩ := (Removable.takesBack _).run_rollbackToHeight
    hmain.removable hp (UInt64.le_refl _) (fun x hx ↦ hmain.branch.height_lt hx) n.mempool
  have hroll := (hruns fuel).1 (by omega)
  rw [Manager.reorg, Prog.run_bind_of_ok hcollect]
  dsimp only
  have hmap : ((Manager.rollbackToHeight fuel p.header.height).mapError
      (Halt.map .reorgRollback)).run exec n = (.ok (), ⟨d', n.mempool⟩) := by
    rw [Prog.run_mapError, hroll]
    rfl
  rw [if_neg (UInt64.pos_iff_ne_zero.mp hparent.height_pos), hparent.height_sub_one,
    Prog.run_bind_of_ok hmap, Prog.run_bind_of_ok (Manager.run_applySideChain _ _)]
  obtain ⟨mempool, hremove⟩ := Manager.run_removeMinedBlocks ([newTip] ++ taken) _
  exact ⟨_, hremove⟩

/-- `reorg` reaches a stored branch, with enough rounds for both chains, if and only if the new tip
is at most one above the tip. -/
theorem reorg_ok_iff (hmain : ActiveChain (t :: below) n.store) (hcommon : common <:+ t :: below)
    (hne : common ≠ []) (hbranch : Branch (newTip :: (side ++ common)))
    (hside : ∀ b ∈ side, DB.getBlock n.store b.hash = .ok b)
    (hnew : newTip.header.height.toNat < fuel) (htip : t.header.height.toNat < fuel) :
    ((Manager.reorg fuel newTip).run exec n).1 = .ok () ↔
      newTip.header.height.toNat ≤ t.header.height.toNat + 1 := by
  constructor
  · intro h
    by_contra hgt
    obtain ⟨halt, hmissing⟩ :=
      hmain.collectSideChain_missing (Nat.lt_of_not_le hgt) fuel [newTip]
    obtain ⟨sideChain, cur, mid, hcollect, -⟩ := Manager.reorg_ok (Prod.ext h rfl)
    rw [hmissing] at hcollect
    cases hcollect
  · intro hle
    obtain ⟨n', hreorg⟩ := hmain.reorg_ok hcommon hne hbranch hside hnew htip hle
    rw [hreorg]

end Reach

namespace Regtest

theorem consistent_afterA : Consistent [blockA, genesis] afterA.store :=
  (runA ⟨by decide, blockA_inLimits, blockA_new⟩ : Run manager CreatingNew genesis _ _).consistent

theorem branch_blockB : Branch (blockB :: ([] ++ [genesis])) :=
  .above (.bottom rfl) ⟨genesis_hash.symm, rfl⟩

/-- A block two above genesis. -/
def blockAbove : Block :=
  { blockA with header := { blockA.header with prevHash := blockA.hash, height := 2 } }

/-- Genesis as the main chain, and one more block that is stored but not on it. -/
def besideGenesis : Node :=
  { afterGenesis with
    store := afterGenesis.store.insert (.blockHash blockA.hash) (serializeBlock blockA) }

theorem activeChain_besideGenesis : ActiveChain [genesis] besideGenesis.store := by
  have hlookup {k : Key} (hk : k ≠ .blockHash blockA.hash) :
      besideGenesis.store.lookup k = afterGenesis.store.lookup k :=
    Finmap.lookup_insert_of_ne _ hk
  have hmain := (Run.start starts : Run manager CreatingNew genesis _ _).consistent.activeChain
  refine ⟨hmain.branch, fun hcons ↦ ?_, fun b hb ↦ ?_, fun height hash ↦ ?_, fun b hb ↦ ?_⟩
  · rw [DB.tip, hlookup (by simp)]
    exact hmain.tip hcons
  · have hne : b.hash ≠ blockA.hash := hash_ne_blockA b hb
    rw [DB.getBlock, hlookup (by simpa using hne)]
    exact hmain.read b hb
  · rw [DB.blockHashByHeight, hlookup (by simp)]
    exact hmain.index height hash
  · rw [DB.undo, hlookup (by simp)]
    exact hmain.undo b hb

theorem branch_blockAbove : Branch (blockAbove :: ([blockA] ++ [genesis])) :=
  .above (.above (.bottom rfl) ⟨validOn_blockA.link, rfl⟩) ⟨rfl, rfl⟩

theorem getBlock_besideGenesis : DB.getBlock besideGenesis.store blockA.hash = .ok blockA := by
  refine getBlock_eq_ok.mpr ⟨serializeBlock blockA, ?_, ?_⟩
  · exact Finmap.lookup_insert _
  · exact deserializeBlock_serializeBlock blockA_inLimits

end Regtest

theorem reorg_ok_regtest :
    ((Manager.reorg 2 Regtest.blockB).run exec Regtest.afterA).1 = .ok () :=
  (reorg_ok_iff Regtest.consistent_afterA.activeChain (List.suffix_cons _ _)
    (List.cons_ne_nil _ _) Regtest.branch_blockB nofun (by decide) (by decide)).mpr
    (by decide)

/-- The branch is stored down to the main chain, but two above its tip. -/
theorem reorg_missing_height :
    ActiveChain [Regtest.genesis] Regtest.besideGenesis.store ∧
      Branch (Regtest.blockAbove :: ([Regtest.blockA] ++ [Regtest.genesis])) ∧
      DB.getBlock Regtest.besideGenesis.store Regtest.blockA.hash = .ok Regtest.blockA ∧
      ∀ fuel, (Manager.reorg (fuel + 1) Regtest.blockAbove).run exec Regtest.besideGenesis =
        (.error (.error (.reorgMissingHeight 1 .notFound)), Regtest.besideGenesis) := by
  refine ⟨Regtest.activeChain_besideGenesis, Regtest.branch_blockAbove,
    Regtest.getBlock_besideGenesis, fun fuel ↦ ?_⟩
  have hindex : DB.blockHashByHeight Regtest.besideGenesis.store 1 = .error .notFound := by
    cases hlookup : Regtest.besideGenesis.store.lookup (Key.blockHeight 1) with
    | none =>
      rw [DB.blockHashByHeight, hlookup]
      rfl
    | some hash =>
      have hfound := found_eq_ok.mpr hlookup
      obtain ⟨b, hb, hheight, -⟩ := (Regtest.activeChain_besideGenesis.index 1 hash).mp hfound
      rw [List.mem_singleton.mp hb] at hheight
      exact absurd hheight (by decide)
  have hbelow : Regtest.blockAbove.header.height - 1 = 1 := rfl
  rw [← hbelow] at hindex
  have hcollect := run_collectSideChain_of_missing (by decide) hindex fuel [Regtest.blockAbove]
  rw [hbelow] at hcollect
  rw [Manager.reorg, Prog.run_bind, hcollect]

/-- A reorganisation that succeeds leads to the tip, the ledger, the height index and the work of
the new branch. The new tip need not be stored before. -/
theorem reorg_eq_replay {chain common side : List Block} {newTip : Block} {n n' : Node} {fuel : ℕ}
    (hmain : Consistent chain n.store) (hcommon : common <:+ chain) (hne : common ≠ [])
    (hbranch : Branch (newTip :: (side ++ common)))
    (hside : ∀ b ∈ side, DB.getBlock n.store b.hash = .ok b)
    (h : (Manager.reorg fuel newTip).run exec n = (.ok (), n')) :
    DB.tip n'.store = .ok newTip.hash ∧
      DB.utxos n'.store = DB.utxos (applyAll ∅ (newTip :: (side ++ common))) ∧
      (∀ height ≤ newTip.header.height, ∃ b ∈ newTip :: (side ++ common),
        b.header.height = height ∧ DB.blockHashByHeight n'.store height = .ok b.hash) ∧
      DB.totalWork n'.store newTip.hash = .ok (chainWork (newTip :: (side ++ common))) := by
  obtain ⟨sideChain, cur, mid, hcollect, hroll, hstore⟩ := Manager.reorg_ok h
  obtain ⟨t, below, rfl⟩ := hmain.branch.exists_cons
  obtain ⟨taken, p, rest, heq, hsuffix, rfl, hparent⟩ :=
    hmain.activeChain.collectSideChain_spec hcommon hne hbranch hside hcollect
  obtain ⟨front, hfront⟩ := hsuffix
  rw [← hfront] at hmain
  rw [if_neg (UInt64.pos_iff_ne_zero.mp hparent.height_pos), hparent.height_sub_one] at hroll
  have hp := hmain.read p (List.mem_append_right _ List.mem_cons_self)
  obtain ⟨d', hstacked, hframe, hruns⟩ := (Stacked.takesBack _ _).run_rollbackToHeight
    hmain.stacked hp (UInt64.le_refl _) (fun x hx ↦ hmain.branch.height_lt hx) n.mempool
  -- the rollback has not run out of rounds
  have hfuel : front.length < fuel := by
    refine Nat.lt_of_not_le fun hle ↦ ?_
    have hout := (hruns fuel).2 hle
    rw [hroll] at hout
    cases hout
  have hmid : mid.store = d' := by
    have hok := (hruns fuel).1 hfuel
    rw [hroll] at hok
    cases hok
    rfl
  rw [heq] at hbranch ⊢
  have hreplayed : Replayed (newTip :: (taken ++ p :: rest)) n'.store := by
    rw [hstore, hmid]
    exact (hmain.replayed (List.suffix_append front _) hstacked hframe).extendAll
      (newTip :: taken) hbranch
  refine ⟨hreplayed.tip rfl, ?_, fun height hle ↦ ?_, hreplayed.work rfl⟩
  · rw [hreplayed.ledger, utxos_applyAll, ← List.append_nil (newTip :: (taken ++ p :: rest)),
      replay_append, List.append_nil]
    rfl
  · obtain ⟨b, hb, hheight⟩ := hbranch.exists_of_height_le hle
    exact ⟨b, hb, hheight, hheight ▸ hreplayed.index b hb⟩

theorem reorg_eq_replay_regtest :
    ∃ n', (Manager.reorg 2 Regtest.blockB).run exec
        Regtest.afterA = (.ok (), n') ∧
      DB.tip n'.store = .ok Regtest.blockB.hash ∧
      DB.utxos n'.store = DB.utxos (applyAll ∅ [Regtest.blockB, Regtest.genesis]) := by
  obtain ⟨n', hreorg⟩ : ∃ n', (Manager.reorg 2 Regtest.blockB).run exec Regtest.afterA =
      (.ok (), n') :=
    Regtest.consistent_afterA.activeChain.reorg_ok (List.suffix_cons _ _) (List.cons_ne_nil _ _)
      Regtest.branch_blockB nofun (by decide) (by decide) (by decide)
  obtain ⟨htip, hledger, -, -⟩ := reorg_eq_replay Regtest.consistent_afterA
    (List.suffix_cons _ _) (List.cons_ne_nil _ _) Regtest.branch_blockB nofun hreorg
  exact ⟨n', hreorg, htip, hledger⟩

end NevelCore
