import NevelCore.Chain.ForkChoice
import NevelCore.Sync.Progress

/-!
# Synchronisation across a fork

`HeaderFirstSync` names only the tip of the node in its request. If the peer does not have that
block, it answers with the headers from genesis on, and the first of these ends the call. Nothing is
applied, so nothing changes for the next call (`run_headerFirstSync_off_chain`). However much work
the peer's chain has, two nodes that have diverged stay apart (`fork_persists`).

`Converges` says that calls in a row, as long as they apply blocks, come to an end with the tip of
the peer. That is so exactly if the node's tip is a block of the peer's chain, and both tips can be
read, or they are the same already (`converges_iff`).
-/

set_option autoImplicit false
set_option relaxedAutoImplicit false

namespace NevelCore.Sync

open Foundations

/-- The clock accepts the timestamps of some blocks. -/
def Accepts (blocks : List Block) (now : ℤ) : Prop :=
  ∀ x ∈ blocks, x.header.timestamp.toInt ≤ now + 2 * 60 * 60

/-- Calls against a peer that are repeated until one applies no more blocks end with the tip of the
peer, at all readings of the clock that are accepted. -/
inductive Converges (m : Manager) (peer : Node) (accepts : ℤ → Prop) (fuel : ℕ) : Node → Prop
  | intro {n : Node}
      (done : ∀ now result err n', (∀ k, accepts (now k)) →
        (headerFirstSync (peerSource peer) now fuel (some m)).run exec n = (.ok (result, err), n') →
        result.blocks = 0 → DB.tip n'.store = DB.tip peer.store)
      (again : ∀ now result err n', (∀ k, accepts (now k)) →
        (headerFirstSync (peerSource peer) now fuel (some m)).run exec n = (.ok (result, err), n') →
        result.blocks ≠ 0 → Converges m peer accepts fuel n') : Converges m peer accepts fuel n

section Convergence

variable {m : Manager} {g t top : Block} {rest below : List Block} {n peer : Node}

/-- A clock that is late enough accepts all timestamps. -/
theorem exists_accepts (blocks : List Block) : ∃ now, Accepts blocks now := by
  refine ⟨2 ^ 63, fun x _ ↦ ?_⟩
  have hlt := x.header.timestamp.toInt_lt
  omega

/-- The answer of a peer that does not have the tip begins with the header of genesis. -/
theorem headers_peerSource_unknown {hash : Hash} (hchain : Chain m g (top :: below))
    (hg : g.header.height = 0) (hstores : Stores (top :: below) peer.store)
    (hlimits : ∀ x ∈ top :: below, x.InLimits) (hnew : ∀ x ∈ top :: below, x.hash ≠ hash)
    (stop : Hash) : ∃ more, (peerSource peer).headers [hash] stop = .ok (g.header :: more) := by
  have htip := run_tipBlock (hstores.tip rfl)
    (hstores.getBlock_of_mem List.mem_cons_self (hlimits top List.mem_cons_self))
  obtain ⟨e, hunknown⟩ := hstores.unknown_of_new hnew
  have hstart : (P2P.startHeight [hash]).run exec peer = (.ok 0, peer) := by
    rw [P2P.startHeight, run_getBlock_bind, hunknown]
    rfl
  have hmem : g ∈ top :: below := List.mem_of_getLast? hchain.getLast?_eq
  have hheader := run_headerByHeight_of_mem hstores hmem (hlimits g hmem)
  rw [hg] at hheader
  change ∃ more, ((P2P.gatherHeaders [hash] stop).run exec peer).1 = .ok (g.header :: more)
  rw [P2P.gatherHeaders, Prog.run_bind_of_ok htip, Prog.run_bind_of_ok hstart, P2P.maxHeaders,
    run_collectHeaders_succ UInt64.zero_le hheader]
  split
  · exact ⟨[], rfl⟩
  · obtain ⟨more, hmore⟩ := collectHeaders_appends top.header.height stop 1999 (0 + 1)
      ([] ++ [g.header]) peer
    exact ⟨more, congrArg Prod.fst hmore⟩

/-- A peer whose tip cannot be read does not answer. -/
theorem headers_peerSource_unreadable (hstores : Stores (top :: below) peer.store)
    (hlimits : ¬ top.InLimits) (locator : List Hash) (stop : Hash) :
    ∃ halt, (peerSource peer).headers locator stop = .error halt := by
  obtain ⟨e, he⟩ := TipStored.run_tipBlock_error
    ⟨hstores.tip rfl, hstores.stored top List.mem_cons_self⟩ hlimits
  refine ⟨.error e, ?_⟩
  change ((P2P.gatherHeaders locator stop).run exec peer).1 = _
  rw [P2P.gatherHeaders, Prog.run_bind_of_error he]

/-- A call changes nothing if one of the tips cannot be read, or the peer does not have the tip. -/
theorem run_headerFirstSync_off_chain (hlocal : Run m PositiveHeight g (t :: rest) n)
    (hpeer : Run m PositiveHeight g (top :: below) peer)
    (hoff : ¬ (t.InLimits ∧ top.InLimits ∧ ∃ x ∈ top :: below, x.hash = t.hash)) (now : ℕ → ℤ)
    (fuel : ℕ) :
    ∃ result err, (headerFirstSync (peerSource peer) now fuel (some m)).run exec n =
      (.ok (result, some err), n) ∧ result.blocks = 0 := by
  have hstored := tipStored_of_run hlocal fun _ _ _ h ↦ h
  obtain ⟨hchain, hholds⟩ := hpeer.holds fun _ _ _ h ↦ h
  by_cases hlimits : t.InLimits ∧ top.InLimits
  · have hall : ∀ x ∈ top :: below, x.InLimits :=
      List.forall_mem_cons.mpr ⟨hlimits.2, fun x hx ↦ hchain.inLimits_of_mem_tail hx⟩
    have hnew : ∀ x ∈ top :: below, x.hash ≠ t.hash :=
      fun x hx hhash ↦ hoff ⟨hlimits.1, hlimits.2, x, hx, hhash⟩
    obtain ⟨more, hmore⟩ := headers_peerSource_unknown hchain hpeer.genesis.height
      hholds.toStores hall hnew Bytes32.zero
    have hgmem : g ∈ top :: below := List.mem_of_getLast? hchain.getLast?_eq
    obtain ⟨hchain', hholds'⟩ := hlocal.holds fun _ _ _ h ↦ h
    have hknown := hholds'.getBlock_of_mem (List.mem_of_getLast? hchain'.getLast?_eq)
      hlocal.genesis.inLimits
    obtain ⟨err, hends⟩ := run_syncBlocks_genesis fuel more t.hash
      (block_peerSource hholds.toStores hgmem (hall g hgmem) 0) hknown
    exact ⟨_, err, (run_headerFirstSync_of_headers m now fuel hstored hlimits.1 hmore).trans hends,
      rfl⟩
  · have hnone : ¬ (t.InLimits ∧
        ∃ headers, (peerSource peer).headers [t.hash] Bytes32.zero = .ok headers) := by
      rintro ⟨ht, headers, hheaders⟩
      obtain ⟨halt, hhalt⟩ := headers_peerSource_unreadable hholds.toStores
        (fun htop ↦ hlimits ⟨ht, htop⟩) [t.hash] Bytes32.zero
      rw [hhalt] at hheaders
      cases hheaders
    obtain ⟨err, hrun⟩ := run_headerFirstSync_of_none hstored hnone
    exact ⟨_, err, hrun, rfl⟩

/-- If a call changes nothing, calls in a row end there. -/
theorem converges_of_stuck {accepts : ℤ → Prop} {fuel : ℕ}
    (hstuck : ∀ now, ∃ result err, (headerFirstSync (peerSource peer) now fuel (some m)).run exec n =
      (.ok (result, some err), n) ∧ result.blocks = 0)
    (htip : DB.tip n.store = DB.tip peer.store) : Converges m peer accepts fuel n := by
  refine .intro (fun now result err n' _ hrun _ ↦ ?_) (fun now result err n' _ hrun hblocks ↦ ?_)
  all_goals
    obtain ⟨result', err', hrun', hzero⟩ := hstuck now
    rw [hrun'] at hrun
    cases hrun
  · exact htip
  · exact absurd hzero hblocks

/-- Nodes with different tips stay apart if one of the tips cannot be read, or the peer does not
have the tip. -/
theorem not_converges_off_chain (hlocal : Run m PositiveHeight g (t :: rest) n)
    (hpeer : Run m PositiveHeight g (top :: below) peer)
    (hoff : ¬ (t.InLimits ∧ top.InLimits ∧ ∃ x ∈ top :: below, x.hash = t.hash))
    (hne : t.hash ≠ top.hash) (fuel : ℕ) :
    ¬ Converges m peer (Accepts (top :: below)) fuel n := by
  rintro ⟨done, -⟩
  obtain ⟨-, hholds⟩ := hlocal.holds fun _ _ _ h ↦ h
  obtain ⟨-, hholds'⟩ := hpeer.holds fun _ _ _ h ↦ h
  obtain ⟨late, hlate⟩ := exists_accepts (top :: below)
  obtain ⟨result, err, hrun, hzero⟩ :=
    run_headerFirstSync_off_chain hlocal hpeer hoff (fun _ ↦ late) fuel
  have htip := done _ _ _ _ (fun _ ↦ hlate) hrun hzero
  rw [hholds.tip rfl, hholds'.tip rfl] at htip
  exact hne (Except.ok.inj htip)

/-- A node whose chain is the lower part of the peer's chain reaches the tip of the peer. -/
theorem converges_of_behind {up : List Block} {accepts : ℤ → Prop} {fuel : ℕ}
    (hlocal : Run m PositiveHeight g (t :: rest) n)
    (hpeer : Run m PositiveHeight g (up.reverse ++ t :: rest) peer)
    (hlimits : ∀ x ∈ up.reverse ++ t :: rest, x.InLimits)
    (haccepts : ∀ now, accepts now → Accepts up now) : Converges m peer accepts fuel n := by
  generalize hlength : up.length = length
  induction length using Nat.strong_induction_on generalizing t rest up n with
  | h length ih =>
    obtain ⟨hchain, hholds⟩ := hpeer.holds fun _ _ _ h ↦ h
    have hstep (now : ℕ → ℤ) (hclock : ∀ k, accepts (now k)) :=
      sync_step hlocal hpeer (fun _ _ _ h ↦ h) (fun _ _ _ h ↦ h) hlimits
        (fun x hx _ _ ↦ height_pos_of_mem_up hchain hpeer.genesis.height hx)
        (fun x hx k ↦ haccepts _ (hclock k) x hx) fuel
    refine .intro (fun now result err n' hclock hrun hzero ↦ ?_)
      (fun now result err n' hclock hrun hblocks ↦ ?_)
    all_goals
      obtain ⟨j, result', err', n₁, hrun', hcount, hlocal', hprogress, -, -⟩ := hstep now hclock
      rw [hrun'] at hrun
      cases hrun
    · have hnil : up = [] := by
        by_contra hne
        have hpos := hprogress hne
        rw [hzero, List.length_take] at hcount
        have hlength := List.length_pos_iff.mpr hne
        omega
      subst hnil
      obtain ⟨-, hholds'⟩ := hlocal'.holds fun _ _ _ h ↦ h
      rw [List.take_nil] at hholds'
      rw [hholds'.tip rfl, hholds.tip rfl]
    · obtain ⟨below, htop⟩ := exists_reverse_append_eq t (up.take j) rest
      rw [htop] at hlocal'
      rw [reverse_append_eq up j, htop] at hpeer hlimits
      refine ih _ ?_ hlocal' hpeer hlimits
        (fun now hnow x hx ↦ haccepts now hnow x (List.mem_of_mem_drop hx)) rfl
      rw [hcount, List.length_take] at hblocks
      rw [List.length_drop]
      omega

/-- Chains with one tip are the same if different blocks have different hashes. -/
theorem eq_of_hash_inj {b : Block} {rest rest' : List Block} (h : Chain m g (b :: rest))
    (h' : Chain m g (b :: rest')) (hg : g.header.height = 0)
    (hinj : ∀ x ∈ rest, ∀ y ∈ rest', x.hash = y.hash → x = y) : rest = rest' := by
  have hlength : rest.length = rest'.length := by
    rw [← (h.branch hg).height_eq (List.suffix_refl _),
      ← (h'.branch hg).height_eq (List.suffix_refl _)]
  induction rest generalizing b rest' with
  | nil => exact (List.length_eq_zero_iff.mp hlength.symm).symm
  | cons p rest ih =>
    cases rest' with
    | nil => exact absurd hlength (Nat.succ_ne_zero _)
    | cons p' rest' =>
      cases h with
      | extend below step =>
        cases h' with
        | extend below' step' =>
          obtain rfl : p = p' := hinj p List.mem_cons_self p' List.mem_cons_self
            (step.link.symm.trans step'.link)
          rw [ih below below' (fun x hx y hy ↦ hinj x (List.mem_cons_of_mem _ hx) y
            (List.mem_cons_of_mem _ hy)) (Nat.succ.inj hlength)]

/-- A chain whose tip is on another chain is the lower part of that. -/
theorem exists_up_of_hash (h : Chain m g (t :: rest)) (h' : Chain m g (top :: below))
    (hg : g.header.height = 0)
    (hinj : ∀ x ∈ t :: rest, ∀ y ∈ top :: below, x.hash = y.hash → x = y) {x : Block}
    (hx : x ∈ top :: below) (hhash : x.hash = t.hash) :
    ∃ up : List Block, top :: below = up.reverse ++ t :: rest := by
  obtain rfl := hinj t List.mem_cons_self x hx hhash.symm
  obtain ⟨rest', hsuffix⟩ := exists_suffix_of_mem hx
  obtain rfl := eq_of_hash_inj h (h'.of_suffix hsuffix) hg fun y hy z hz ↦
    hinj y (List.mem_cons_of_mem _ hy) z (hsuffix.subset (List.mem_cons_of_mem _ hz))
  obtain ⟨front, hfront⟩ := hsuffix
  exact ⟨front.reverse, by rw [List.reverse_reverse, hfront]⟩

/-- For two nodes with one genesis: calls in a row end with the tip of the peer exactly if that is
the tip already, or the tip of the node is a block of the peer's chain and both tips can be read. -/
theorem converges_iff (hlocal : Run m PositiveHeight g (t :: rest) n)
    (hpeer : Run m PositiveHeight g (top :: below) peer)
    (hinj : ∀ x ∈ t :: rest, ∀ y ∈ top :: below, x.hash = y.hash → x = y) (fuel : ℕ) :
    Converges m peer (Accepts (top :: below)) fuel n ↔
      t.hash = top.hash ∨
        t.InLimits ∧ top.InLimits ∧ ∃ x ∈ top :: below, x.hash = t.hash := by
  obtain ⟨hchain, hholds⟩ := hlocal.holds fun _ _ _ h ↦ h
  obtain ⟨hchain', hholds'⟩ := hpeer.holds fun _ _ _ h ↦ h
  constructor
  · intro hconverges
    by_contra hcondition
    obtain ⟨hne, hoff⟩ := not_or.mp hcondition
    exact not_converges_off_chain hlocal hpeer hoff hne fuel hconverges
  · intro hcondition
    by_cases hon : t.InLimits ∧ top.InLimits ∧ ∃ x ∈ top :: below, x.hash = t.hash
    · obtain ⟨ht, htop, x, hx, hhash⟩ := hon
      have hlimits : ∀ x ∈ top :: below, x.InLimits :=
        List.forall_mem_cons.mpr ⟨htop, fun x hx ↦ hchain'.inLimits_of_mem_tail hx⟩
      obtain ⟨up, hup⟩ := exists_up_of_hash hchain hchain' hlocal.genesis.height hinj hx hhash
      rw [hup] at hpeer hlimits ⊢
      refine converges_of_behind hlocal hpeer hlimits fun now hnow x hx ↦ hnow x ?_
      exact List.mem_append_left _ (List.mem_reverse.mpr hx)
    · have hsame := hcondition.resolve_right hon
      refine converges_of_stuck
        (fun now ↦ run_headerFirstSync_off_chain hlocal hpeer hon now fuel) ?_
      rw [hholds.tip rfl, hholds'.tip rfl, hsame]

end Convergence

theorem converges_regtest :
    Converges Regtest.manager Regtest.afterA (Accepts [Regtest.blockA, Regtest.genesis]) 1
      Regtest.afterGenesis := by
  have hlocal : Run Regtest.manager PositiveHeight Regtest.genesis [Regtest.genesis]
    Regtest.afterGenesis := .start Regtest.starts
  have hpeer : Run Regtest.manager PositiveHeight Regtest.genesis
      [Regtest.blockA, Regtest.genesis] Regtest.afterA :=
    Regtest.runA Regtest.validOn_blockA.height
  have hinj : ∀ x ∈ [Regtest.genesis], ∀ y ∈ [Regtest.blockA, Regtest.genesis],
      x.hash = y.hash → x = y := by
    intro x hx y hy hhash
    have hne := Regtest.hash_ne_blockA x hx
    rw [List.mem_singleton.mp hx] at hne hhash ⊢
    rcases List.mem_cons.mp hy with rfl | hy
    · exact absurd hhash hne
    · exact (List.mem_singleton.mp hy).symm
  exact (converges_iff hlocal hpeer hinj 1).mpr (.inr ⟨Regtest.genesis_inLimits,
    Regtest.blockA_inLimits, Regtest.genesis, List.mem_cons_of_mem _ List.mem_cons_self, rfl⟩)

open Regtest in
theorem exists_runC : ∃ n, Run manager PositiveHeight genesis [blockC, blockB, genesis] n := by
  have hrun : Run manager PositiveHeight genesis [genesis] afterGenesis := .start starts
  obtain ⟨⟨hCB, -, hCG⟩, ⟨-, hBG⟩, -⟩ := hashes_ne
  obtain ⟨n₁, -, -, -, hrun₁⟩ := hrun.extend (fun _ _ _ h ↦ h) validOn_blockB.height
    validOn_blockB genesis_inLimits
    (List.forall_mem_cons.mpr ⟨Ne.symm hBG, List.forall_mem_nil _⟩) 1
  have hlimits : blockB.InLimits := by decide +kernel
  obtain ⟨n₂, -, -, -, hrun₂⟩ := hrun₁.extend (fun _ _ _ h ↦ h) validOn_blockC.height
    validOn_blockC hlimits (List.forall_mem_cons.mpr ⟨Ne.symm hCB, List.forall_mem_cons.mpr
      ⟨Ne.symm hCG, List.forall_mem_nil _⟩⟩) 1
  exact ⟨n₂, hrun₂⟩

/-- The node has block A, the peer has blocks B and C and so more work. They stay apart. -/
theorem fork_persists :
    ∃ peer, Run Regtest.manager PositiveHeight Regtest.genesis [Regtest.blockA, Regtest.genesis]
        Regtest.afterA ∧
      Run Regtest.manager PositiveHeight Regtest.genesis
        [Regtest.blockC, Regtest.blockB, Regtest.genesis] peer ∧
      chainWork [Regtest.blockA, Regtest.genesis] <
        chainWork [Regtest.blockC, Regtest.blockB, Regtest.genesis] ∧
      (∀ now, ∃ result err, (headerFirstSync (peerSource peer) now 1 (some Regtest.manager)).run exec
        Regtest.afterA = (.ok (result, some err), Regtest.afterA) ∧ result.blocks = 0) ∧
      ¬ Converges Regtest.manager peer
        (Accepts [Regtest.blockC, Regtest.blockB, Regtest.genesis]) 1 Regtest.afterA := by
  obtain ⟨peer, hpeer⟩ := exists_runC
  have hlocal : Run Regtest.manager PositiveHeight Regtest.genesis
      [Regtest.blockA, Regtest.genesis] Regtest.afterA :=
    Regtest.runA Regtest.validOn_blockA.height
  obtain ⟨⟨-, hCA, -⟩, ⟨hBA, -⟩, hAG⟩ := Regtest.hashes_ne
  have hoff : ¬ (Regtest.blockA.InLimits ∧ Regtest.blockC.InLimits ∧
      ∃ x ∈ [Regtest.blockC, Regtest.blockB, Regtest.genesis], x.hash = Regtest.blockA.hash) := by
    rintro ⟨-, -, x, hx, hhash⟩
    simp only [List.mem_cons, List.not_mem_nil, or_false] at hx
    rcases hx with rfl | rfl | rfl
    · exact hCA hhash
    · exact hBA hhash
    · exact hAG hhash.symm
  exact ⟨peer, hlocal, hpeer, by decide,
    fun now ↦ run_headerFirstSync_off_chain hlocal hpeer hoff now 1,
    not_converges_off_chain hlocal hpeer hoff (Ne.symm hCA) 1⟩

end NevelCore.Sync
