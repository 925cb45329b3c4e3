import NevelCore.Chain.ArrivalOrder
import NevelCore.Chain.Rejection
import NevelCore.P2P.Handler
import NevelCore.Sync.HeaderFirstSync

/-!
# Synchronisation from a peer

The source is now a peer: it answers with its own `gatherHeaders` and `GetBlock` (`peerSource`). The
peer's chain continues the chain of the node by some blocks.

A block of a run is valid on top of the blocks below it for every node, once the clock of that node
accepts its timestamp (`Run.validOn`). The peer answers with the headers of its next blocks
(`run_collectHeaders`), so a call applies these (`sync_step`): as many as there are, up to 2000.
Calls in a row reach the tip of the peer (`sync_exact_progress`). At the greatest height, where the
loop of the peer wraps around, the call applies the same blocks and then ends with an error, because
the headers go on with that of genesis.
-/

set_option autoImplicit false
set_option relaxedAutoImplicit false

namespace NevelCore

open Foundations

/-! ### Blocks of a run are valid for every node -/

section Valid

variable {m : Manager} {g b p : Block} {rest tips : List Block} {n : Node} {now : ℤ}

theorem Passes.validOn (h : Passes m now b p n) (hheight : 0 < b.header.height)
    (hchain : Chain m g (p :: rest)) (hg : g.header.height = 0)
    (hstores : Stores (p :: rest) n.store) : ValidOn m now b p rest where
  height := hheight
  header := h.header
  bits := by
    obtain ⟨rest', hsuffix, -, -, -, hbits, -⟩ := h.parent hheight hchain hg hstores
    have hsame := (hchain.branch hg).suffix_inj hsuffix (List.suffix_refl _) rfl
    rw [← (List.cons.inj hsame).2]
    exact hbits
  transactions n' hledger := by
    rw [run_validateBlockTransactions_iff, hledger, ← hstores.ledger,
      ← run_validateBlockTransactions_iff]
    exact h.transactions

/-- Only the clock matters for a block that was valid at another time. -/
theorem ValidOn.at (h : ValidOn m now b p rest) {now' : ℤ}
    (htime : b.header.timestamp.toInt ≤ now' + 2 * 60 * 60) : ValidOn m now' b p rest where
  height := h.height
  header := by
    obtain ⟨hroot, hwork, -, hparent⟩ := validateBlockHeader_ok_iff.mp h.header
    exact validateBlockHeader_ok_iff.mpr ⟨hroot, hwork, htime, hparent⟩
  bits := h.bits
  transactions := h.transactions

/-- Every block of a run, genesis apart, was valid on top of the blocks below it. -/
theorem Run.validOn {allowed : Node → ℤ → Block → Prop} (h : Run m allowed g tips n)
    (hallowed : ∀ n now b, allowed n now b → 0 < b.header.height)
    (hsuffix : b :: p :: rest <:+ tips) : ∃ now, ValidOn m now b p rest := by
  induction h with
  | start =>
    have hlength := hsuffix.length_le
    simp only [List.length_cons, List.length_nil] at hlength
    omega
  | @call tips n n' now fuel b' r run allows returns fueled ih =>
    rw [tipsAfter] at hsuffix
    split at hsuffix
    · next hnew =>
      have hheight := hallowed _ _ _ allows
      obtain ⟨p', rest', rfl, hextends, -, -⟩ :=
        run.newTip hallowed hheight returns hnew.1 hnew.2
      rcases List.suffix_cons_iff.mp hsuffix with heq | hsuffix
      · -- the block has just passed the checks
        cases heq
        obtain ⟨hchain, hholds⟩ := run.holds hallowed
        rcases validateAndApplyBlock_cases returns with ⟨e, -, -, rfl⟩ | ⟨hcheck, -⟩
        · exact absurd hnew.2 hnew.1
        · obtain ⟨prev, hpasses⟩ := (checkBlock_ok_iff hheight).mp hcheck
          have hprev := hpasses.previous
          rw [hextends.link,
            hholds.getBlock_of_mem List.mem_cons_self hextends.parentInLimits] at hprev
          cases hprev
          exact ⟨now, hpasses.validOn hheight hchain run.genesis.height hholds.toStores⟩
      · exact ih hsuffix
    · exact ih hsuffix

end Valid

namespace Sync

/-! ### The answers of a peer -/

/-- A source that answers with the peer's `gatherHeaders` and `GetBlock`. -/
def peerSource (n : Node) : HeaderSource Halt where
  headers locator stop := ((P2P.gatherHeaders locator stop).run exec n).1
  block _ hash := (DB.getBlock n.store hash).mapError .error

section Peer

variable {m : Manager} {g : Block} {chain : List Block} {n : Node} {tipHeight h : UInt64}
  {stop : Hash} {left : ℕ} {headers : List BlockHeader}

theorem run_headerByHeight_of_mem {x : Block} (hstores : Stores chain n.store) (hx : x ∈ chain)
    (hlimits : x.InLimits) :
    (Manager.headerByHeight x.header.height).run exec n = (.ok x.header, n) := by
  rw [Manager.headerByHeight, run_blockHashByHeight_bind, hstores.index x hx, attempt_ok,
    Prog.pure_bind, run_getBlock_bind, hstores.getBlock_of_mem hx hlimits]
  rfl

theorem block_peerSource {x : Block} (hstores : Stores chain n.store) (hx : x ∈ chain)
    (hlimits : x.InLimits) (k : ℕ) : (peerSource n).block k x.hash = .ok x := by
  change (DB.getBlock n.store x.hash).mapError _ = _
  rw [hstores.getBlock_of_mem hx hlimits]
  rfl

theorem run_collectHeaders_succ {header : BlockHeader} (hle : h ≤ tipHeight)
    (hheader : (Manager.headerByHeight h).run exec n = (.ok header, n)) :
    (P2P.collectHeaders tipHeight stop (left + 1) h headers).run exec n =
      if header.hash = stop then (.ok (headers ++ [header]), n)
      else (P2P.collectHeaders tipHeight stop left (h + 1) (headers ++ [header])).run exec n := by
  rw [P2P.collectHeaders, if_pos hle, Prog.run_bind, Prog.run_result, hheader]
  dsimp only
  split
  · rfl
  · rfl

/-- The loop only reads, and adds headers at the end. -/
theorem collectHeaders_appends (tipHeight : UInt64) (stop : Hash) (left : ℕ) (h : UInt64)
    (headers : List BlockHeader) (n : Node) : ∃ more,
    (P2P.collectHeaders tipHeight stop left h headers).run exec n = (.ok (headers ++ more), n) := by
  induction left generalizing h headers with
  | zero => exact ⟨[], by rw [List.append_nil]; rfl⟩
  | succ left ih =>
    by_cases hle : h ≤ tipHeight
    · have hreads := run_of_reads (Prog.only_mono Call.ReadsHeaders.reads (only_headerByHeight h)) n
      cases hheader : ((Manager.headerByHeight h).run exec n).1 with
      | error e =>
        rw [hheader] at hreads
        rw [P2P.collectHeaders, if_pos hle, Prog.run_bind, Prog.run_result, hreads]
        exact ⟨[], by rw [List.append_nil]; rfl⟩
      | ok header =>
        rw [hheader] at hreads
        rw [run_collectHeaders_succ hle hreads]
        split
        · exact ⟨[header], rfl⟩
        · obtain ⟨more, hmore⟩ := ih (h + 1) (headers ++ [header])
          exact ⟨header :: more, by rw [hmore, List.append_assoc, List.singleton_append]⟩
    · rw [P2P.collectHeaders, if_neg hle]
      exact ⟨[], by rw [List.append_nil]; rfl⟩

/-- Above the tip there is nothing to collect. Only at the greatest height the loop wraps around and
begins again with the header of genesis. -/
theorem collectHeaders_above_tip {p : Block} {below : List Block} (hchain : Chain m g (p :: below))
    (hg : g.header.height = 0) (hstores : Stores (p :: below) n.store)
    (hlimits : ∀ x ∈ p :: below, x.InLimits) (left : ℕ) (headers : List BlockHeader) :
    ∃ tail,
      (P2P.collectHeaders p.header.height stop left (p.header.height + 1) headers).run exec n =
        (.ok (headers ++ tail), n) ∧
      (tail = [] ∨ ∃ more, tail = g.header :: more) ∧
      (p.header.height.toNat + 1 < 2 ^ 64 → tail = []) := by
  have hadd : (p.header.height + 1).toNat = (p.header.height.toNat + 1) % 2 ^ 64 :=
    UInt64.toNat_add _ 1
  cases left with
  | zero => exact ⟨[], by rw [List.append_nil]; rfl, .inl rfl, fun _ ↦ rfl⟩
  | succ left =>
    by_cases hle : p.header.height + 1 ≤ p.header.height
    · have hlt := p.header.height.toNat_lt
      have hwrap : p.header.height.toNat + 1 = 2 ^ 64 := by
        rw [UInt64.le_iff_toNat_le, hadd] at hle
        omega
      have hzero : p.header.height + 1 = g.header.height := by
        rw [hg, ← UInt64.toNat_inj, hadd, hwrap]
        rfl
      have hmem : g ∈ p :: below := List.mem_of_getLast? hchain.getLast?_eq
      have hgenesis := run_headerByHeight_of_mem hstores hmem (hlimits g hmem)
      rw [← hzero] at hgenesis
      rw [run_collectHeaders_succ hle hgenesis]
      split
      · exact ⟨[g.header], rfl, .inr ⟨[], rfl⟩, fun h ↦ absurd hwrap h.ne⟩
      · obtain ⟨more, hmore⟩ := collectHeaders_appends p.header.height stop left
          (p.header.height + 1 + 1) (headers ++ [g.header]) n
        refine ⟨g.header :: more, ?_, .inr ⟨more, rfl⟩, fun h ↦ absurd hwrap h.ne⟩
        rw [hmore, List.append_assoc, List.singleton_append]
    · rw [P2P.collectHeaders, if_neg hle]
      exact ⟨[], by rw [List.append_nil]; rfl, .inl rfl, fun _ ↦ rfl⟩

/-- What a peer that may answer with so many headers collects of its next blocks, oldest first: the
headers of `j` of them, and what follows these. -/
structure Collected (g : Block) (tipHeight : UInt64) (stop : Hash) (left : ℕ) (up : List Block)
    (j : ℕ) (tail : List BlockHeader) : Prop where
  progress : 0 < left → up ≠ [] → 0 < j
  all : (∀ x ∈ up, x.hash ≠ stop) → up.take j = up.take left
  genesis : tail = [] ∨ ∃ more, tail = g.header :: more
  ends : tipHeight.toNat + 1 < 2 ^ 64 → tail = []

/-- Behind block `p` of its chain the peer collects the headers of its next blocks. -/
theorem run_collectHeaders {up below : List Block} {p top : Block} {rest : List Block}
    (hchain : Chain m g (top :: rest)) (hg : g.header.height = 0)
    (hstores : Stores (top :: rest) n.store) (hlimits : ∀ x ∈ top :: rest, x.InLimits)
    (hparts : top :: rest = up.reverse ++ p :: below) (left : ℕ) (headers : List BlockHeader) :
    ∃ j tail, (P2P.collectHeaders top.header.height stop left (p.header.height + 1)
        headers).run exec n = (.ok (headers ++ ((up.take j).map Block.header ++ tail)), n) ∧
      Collected g top.header.height stop left up j tail := by
  have hbranch := hchain.branch hg
  induction up generalizing p below left headers with
  | nil =>
    cases hparts
    obtain ⟨tail, hrun, hgenesis, hends⟩ :=
      collectHeaders_above_tip hchain hg hstores hlimits left headers
    exact ⟨0, tail, hrun, fun _ hne ↦ absurd rfl hne, fun _ ↦ List.take_nil.symm, hgenesis, hends⟩
  | cons b up ih =>
    have hparts' : top :: rest = up.reverse ++ b :: p :: below := by
      rw [hparts, List.reverse_cons, List.append_assoc, List.singleton_append]
    have hsuffix : b :: p :: below <:+ top :: rest := hparts' ▸ List.suffix_append _ _
    have hmem : b ∈ top :: rest := hsuffix.subset List.mem_cons_self
    cases left with
    | zero =>
      refine ⟨0, [], ?_, nofun, fun _ ↦ rfl, .inl rfl, fun _ ↦ rfl⟩
      rw [List.take_zero, List.map_nil, List.append_nil, List.append_nil]
      rfl
    | succ left =>
      have hnext : p.header.height + 1 = b.header.height := by
        cases hbranch.of_suffix hsuffix with
        | above branch parent => rw [← parent.height_sub_one, UInt64.sub_add_cancel]
      have hle : b.header.height ≤ top.header.height := by
        rw [UInt64.le_iff_toNat_le, hbranch.height_eq hsuffix,
          hbranch.height_eq (List.suffix_refl _)]
        have hlength := hsuffix.length_le
        simp only [List.length_cons] at hlength ⊢
        omega
      have hheader := run_headerByHeight_of_mem hstores hmem (hlimits b hmem)
      rw [hnext, run_collectHeaders_succ hle hheader]
      split
      · next hstop =>
        refine ⟨1, [], rfl, fun _ _ ↦ Nat.one_pos, fun hne ↦ ?_, .inl rfl, fun _ ↦ rfl⟩
        exact absurd hstop (hne b List.mem_cons_self)
      · obtain ⟨j, tail, hrun, hcollected⟩ := ih hparts' left (headers ++ [b.header])
        refine ⟨j + 1, tail, ?_, fun _ _ ↦ Nat.succ_pos j, fun hne ↦ ?_, hcollected.genesis,
          hcollected.ends⟩
        · rw [hrun, List.append_assoc, List.singleton_append, List.take_succ_cons, List.map_cons,
            List.cons_append]
        · rw [List.take_succ_cons, List.take_succ_cons,
            hcollected.all fun x hx ↦ hne x (List.mem_cons_of_mem _ hx)]

/-- The answer of a peer to a node whose tip is block `p` of the peer's chain. -/
theorem headers_peerSource {up below : List Block} {p top : Block} {rest : List Block}
    (hchain : Chain m g (top :: rest)) (hg : g.header.height = 0)
    (hstores : Stores (top :: rest) n.store) (hlimits : ∀ x ∈ top :: rest, x.InLimits)
    (hparts : top :: rest = up.reverse ++ p :: below) (stop : Hash) :
    ∃ j tail, (peerSource n).headers [p.hash] stop = .ok ((up.take j).map Block.header ++ tail) ∧
      Collected g top.header.height stop P2P.maxHeaders up j tail := by
  have hp : p ∈ top :: rest := hparts ▸ List.mem_append_right _ List.mem_cons_self
  have htip := run_tipBlock (hstores.tip rfl)
    (hstores.getBlock_of_mem List.mem_cons_self (hlimits top List.mem_cons_self))
  have hstart : (P2P.startHeight [p.hash]).run exec n = (.ok (p.header.height + 1), n) := by
    rw [P2P.startHeight, run_getBlock_bind, hstores.getBlock_of_mem hp (hlimits p hp)]
    dsimp only
    rw [run_getBlock_bind, hstores.getBlock_of_mem hp (hlimits p hp)]
    rfl
  obtain ⟨j, tail, hrun, hcollected⟩ :=
    run_collectHeaders hchain hg hstores hlimits hparts P2P.maxHeaders []
  refine ⟨j, tail, ?_, hcollected⟩
  change ((P2P.gatherHeaders [p.hash] stop).run exec n).1 = _
  rw [P2P.gatherHeaders, Prog.run_bind_of_ok htip, Prog.run_bind_of_ok hstart, hrun,
    List.nil_append]

end Peer

/-! ### One call -/

section Step

variable {ε : Type} {m : Manager} {allowed : Node → ℤ → Block → Prop} {g t : Block}
  {source : HeaderSource ε} {now : ℕ → ℤ} {rest up chain : List Block} {n : Node} {k : ℕ}
  {result : Result}

/-- The loop applies blocks that continue the chain. -/
theorem run_syncBlocks_up (source : HeaderSource ε) (fuel k : ℕ) (result : Result)
    (tail : List BlockHeader) (hlocal : Run m allowed g (t :: rest) n)
    (hallowed : ∀ n now b, allowed n now b → 0 < b.header.height)
    (hchain : Chain m g (up.reverse ++ t :: rest))
    (hvalid : ∀ b p below, b :: p :: below <:+ up.reverse ++ t :: rest →
      ∃ now, ValidOn m now b p below)
    (hlimits : ∀ x ∈ up.reverse ++ t :: rest, x.InLimits)
    (hallows : ∀ x ∈ up, ∀ n now, allowed n now x)
    (hblock : ∀ x ∈ up, ∀ k, source.block k x.hash = .ok x)
    (hclock : ∀ x ∈ up, ∀ k, x.header.timestamp.toInt ≤ now k + 2 * 60 * 60)
    (hheight : result.tipHeight = t.header.height) :
    ∃ n', (syncBlocks m source now fuel k (up.map Block.header ++ tail) result t.hash).run exec n =
        (syncBlocks m source now fuel (k + up.length) tail
          { result with
            blocks := result.blocks + up.length, tipHeight := (topOf t up).header.height }
          (topOf t up).hash).run exec n' ∧
      Run m allowed g (up.reverse ++ t :: rest) n' := by
  induction up generalizing t rest n k result with
  | nil => exact ⟨n, by rw [topOf, List.getLastD_nil, ← hheight]; rfl, hlocal⟩
  | cons b up ih =>
    have hparts : (b :: up).reverse ++ t :: rest = up.reverse ++ b :: t :: rest := by
      rw [List.reverse_cons, List.append_assoc, List.singleton_append]
    rw [hparts] at hchain hvalid hlimits ⊢
    have hsuffix : b :: t :: rest <:+ up.reverse ++ b :: t :: rest := List.suffix_append _ _
    have ht : t ∈ up.reverse ++ b :: t :: rest :=
      hsuffix.subset (List.mem_cons_of_mem _ List.mem_cons_self)
    obtain ⟨_, hvalidb⟩ := hvalid b t rest hsuffix
    have hnow := hvalidb.at (hclock b List.mem_cons_self k)
    have hunknown : ∀ x ∈ t :: rest, x.hash ≠ b.hash :=
      fun x hx ↦ (hchain.of_suffix hsuffix).hash_ne_of_mem_tail hx
    obtain ⟨n₁, hcall, -, -, hrun₁⟩ := hlocal.extend hallowed (hallows b List.mem_cons_self n _)
      hnow (hlimits t ht) hunknown fuel
    obtain ⟨n', hgoes, hrun'⟩ := ih (k + 1)
      { result with blocks := result.blocks + 1, tipHeight := b.header.height } hrun₁ hchain hvalid
      hlimits (fun x hx ↦ hallows x (List.mem_cons_of_mem _ hx))
      (fun x hx ↦ hblock x (List.mem_cons_of_mem _ hx))
      (fun x hx ↦ hclock x (List.mem_cons_of_mem _ hx)) rfl
    refine ⟨n', ?_, hrun'⟩
    rw [List.map_cons, List.cons_append,
      run_syncBlocks_of_block hvalidb.link (hblock b List.mem_cons_self k) rfl, hcall]
    dsimp only
    refine hgoes.trans ?_
    rw [topOf, topOf, List.getLastD_cons, List.length_cons, Nat.add_comm up.length 1,
      ← Nat.add_assoc, ← Nat.add_assoc]

/-- The header of genesis ends the loop with an error, on a node that has genesis. -/
theorem run_syncBlocks_genesis (fuel : ℕ) (more : List BlockHeader) (expectedPrev : Hash)
    (hblock : source.block k g.hash = .ok g) (hknown : DB.getBlock n.store g.hash = .ok g) :
    ∃ err, (syncBlocks m source now fuel k (g.header :: more) result expectedPrev).run exec n =
      (.ok (result, some err), n) := by
  by_cases hprev : g.header.prevHash = expectedPrev
  · rw [run_syncBlocks_of_block hprev hblock rfl, run_validateAndApplyBlock_of_known hknown]
    exact ⟨_, rfl⟩
  · rw [syncBlocks, if_pos hprev]
    exact ⟨_, rfl⟩

/-- The top of a chain that goes on. -/
theorem exists_reverse_append_eq (t : Block) (up rest : List Block) :
    ∃ below, up.reverse ++ t :: rest = topOf t up :: below := by
  rcases List.eq_nil_or_concat up with rfl | ⟨front, b, rfl⟩
  · exact ⟨rest, rfl⟩
  · refine ⟨front.reverse ++ t :: rest, ?_⟩
    rw [topOf, List.concat_eq_append, List.reverse_append, List.getLastD_concat]
    rfl

/-- A chain that goes on, cut in two. -/
theorem reverse_append_eq (up : List Block) (j : ℕ) (chain : List Block) :
    up.reverse ++ chain = (up.drop j).reverse ++ ((up.take j).reverse ++ chain) := by
  rw [← List.append_assoc, ← List.reverse_append, List.take_append_drop]

theorem reverse_take_suffix (up : List Block) (j : ℕ) (chain : List Block) :
    (up.take j).reverse ++ chain <:+ up.reverse ++ chain := by
  rw [reverse_append_eq up j chain]
  exact List.suffix_append _ _

/-- A call against a peer whose chain goes on by some blocks, oldest first, applies the first `j` of
these, and at least one if there is one. Then the node has the chain that the peer had at that
height. -/
theorem sync_step {allowed' : Node → ℤ → Block → Prop} {peer : Node}
    (hlocal : Run m allowed g (t :: rest) n)
    (hpeer : Run m allowed' g (up.reverse ++ t :: rest) peer)
    (hallowed : ∀ n now b, allowed n now b → 0 < b.header.height)
    (hallowed' : ∀ n now b, allowed' n now b → 0 < b.header.height)
    (hlimits : ∀ x ∈ up.reverse ++ t :: rest, x.InLimits)
    (hallows : ∀ x ∈ up, ∀ n now, allowed n now x)
    (hclock : ∀ x ∈ up, ∀ k, x.header.timestamp.toInt ≤ now k + 2 * 60 * 60) (fuel : ℕ) :
    ∃ j result err n', (headerFirstSync (peerSource peer) now fuel (some m)).run exec n =
        (.ok (result, err), n') ∧
      result.blocks = (up.take j).length ∧ Run m allowed g ((up.take j).reverse ++ t :: rest) n' ∧
      (up ≠ [] → 0 < j) ∧
      ((∀ x ∈ up, x.hash ≠ Bytes32.zero) → up.take j = up.take P2P.maxHeaders) ∧
      ((topOf t up).header.height.toNat + 1 < 2 ^ 64 → err = none) := by
  obtain ⟨hchain, hholds⟩ := hpeer.holds hallowed'
  have hg := hpeer.genesis.height
  have ht : t ∈ up.reverse ++ t :: rest := List.mem_append_right _ List.mem_cons_self
  have hgmem : g ∈ up.reverse ++ t :: rest := List.mem_of_getLast? hchain.getLast?_eq
  obtain ⟨below, htop⟩ := exists_reverse_append_eq t up rest
  obtain ⟨j, tail, hheaders, hcollected⟩ := headers_peerSource (htop ▸ hchain) hg
    (htop ▸ hholds.toStores) (htop ▸ hlimits) htop.symm Bytes32.zero
  have hsuffix := reverse_take_suffix up j (t :: rest)
  have hmem : ∀ x ∈ up.take j, x ∈ up.reverse ++ t :: rest := fun x hx ↦
    List.mem_append_left _ (List.mem_reverse.mpr (List.mem_of_mem_take hx))
  obtain ⟨below', htop'⟩ := exists_reverse_append_eq t (up.take j) rest
  have hchain' : Chain m g ((up.take j).reverse ++ t :: rest) := by
    rw [htop'] at hsuffix ⊢
    exact hchain.of_suffix hsuffix
  have hstart := run_headerFirstSync_of_headers m now fuel (tipStored_of_run hlocal hallowed)
    (hlimits t ht) hheaders
  obtain ⟨n', hloop, hrun'⟩ := run_syncBlocks_up (peerSource peer) fuel 0
    ⟨((up.take j).map Block.header ++ tail).length, 0, t.header.height⟩ tail
    hlocal hallowed hchain' (fun b p below hb ↦ hpeer.validOn hallowed' (hb.trans hsuffix))
    (fun x hx ↦ hlimits x (hsuffix.subset hx))
    (fun x hx ↦ hallows x (List.mem_of_mem_take hx))
    (fun x hx k ↦ block_peerSource hholds.toStores (hmem x hx) (hlimits x (hmem x hx)) k)
    (fun x hx ↦ hclock x (List.mem_of_mem_take hx)) rfl
  rw [hloop] at hstart
  have hprogress := hcollected.progress (by decide)
  rcases hcollected.genesis with rfl | ⟨more, rfl⟩
  · exact ⟨j, _, _, n', hstart, Nat.zero_add _, hrun', hprogress, hcollected.all, fun _ ↦ rfl⟩
  · -- behind the greatest height
    obtain ⟨-, hholds'⟩ := hrun'.holds hallowed
    have hknown := hholds'.getBlock_of_mem
      (List.mem_of_getLast? hchain'.getLast?_eq) (hlimits g hgmem)
    obtain ⟨err, hends⟩ := run_syncBlocks_genesis fuel more (topOf t (up.take j)).hash
      (block_peerSource hholds.toStores hgmem (hlimits g hgmem) _) hknown
    rw [hends] at hstart
    refine ⟨j, _, _, n', hstart, Nat.zero_add _, hrun', hprogress, hcollected.all, fun hlow ↦ ?_⟩
    exact absurd (hcollected.ends hlow) (List.cons_ne_nil _ _)

end Step

/-! ### Calls in a row -/

/-- The condition that blocks have positive height and are within the limits of the decoder. -/
def Readable : Node → ℤ → Block → Prop := fun _ _ b ↦ 0 < b.header.height ∧ b.InLimits

/-- So many calls against a peer, each with its own readings of the clock. -/
def syncCalls (m : Manager) (peer : Node) (now : ℕ → ℕ → ℤ) (fuel : ℕ) : ℕ → Node → Node
  | 0, n => n
  | c + 1, n =>
    ((headerFirstSync (peerSource peer) (now c) fuel (some m)).run exec
      (syncCalls m peer now fuel c n)).2

section Progress

variable {m : Manager} {g t : Block} {rest up : List Block} {n peer : Node} {now : ℕ → ℕ → ℤ}

theorem Readable.inLimits_of_mem {chain : List Block} (h : Run m Readable g chain n) :
    ∀ x ∈ chain, x.InLimits := by
  intro x hx
  rcases h.allowed_of_mem hx with rfl | ⟨n, now, -, hlimits⟩
  · exact h.genesis.inLimits
  · exact hlimits

theorem height_pos_of_mem_up (hchain : Chain m g (up.reverse ++ t :: rest))
    (hg : g.header.height = 0) {x : Block} (hx : x ∈ up) : 0 < x.header.height := by
  obtain ⟨below, hsuffix⟩ := exists_suffix_of_mem (List.mem_reverse.mpr hx)
  have hheight : x.header.height.toNat = (below ++ t :: rest).length :=
    (hchain.branch hg).height_eq (append_suffix_append hsuffix (t :: rest))
  rw [UInt64.lt_iff_toNat_lt, hheight, List.length_append, List.length_cons]
  exact Nat.succ_pos _

theorem Readable.of_mem_up (h : Run m Readable g (up.reverse ++ t :: rest) peer) :
    ∀ x ∈ up, ∀ n now, Readable n now x := by
  intro x hx n now
  obtain ⟨hchain, -⟩ := h.holds fun _ _ _ h ↦ h.1
  refine ⟨height_pos_of_mem_up hchain h.genesis.height hx, ?_⟩
  exact Readable.inLimits_of_mem h x (List.mem_append_left _ (List.mem_reverse.mpr hx))

/-- After each call the node has up to 2000 blocks more of the peer's chain. -/
theorem run_syncCalls (hlocal : Run m Readable g (t :: rest) n)
    (hpeer : Run m Readable g (up.reverse ++ t :: rest) peer)
    (hstop : ∀ x ∈ up, x.hash ≠ Bytes32.zero)
    (hclock : ∀ x ∈ up, ∀ c k, x.header.timestamp.toInt ≤ now c k + 2 * 60 * 60) (fuel c : ℕ) :
    Run m Readable g ((up.take (P2P.maxHeaders * c)).reverse ++ t :: rest)
      (syncCalls m peer now fuel c n) := by
  induction c with
  | zero => exact hlocal
  | succ c ih =>
    obtain ⟨below, htop⟩ := exists_reverse_append_eq t (up.take (P2P.maxHeaders * c)) rest
    rw [htop] at ih
    rw [reverse_append_eq up (P2P.maxHeaders * c), htop] at hpeer
    obtain ⟨j, result, err, n', hcall, -, hrun', -, hall, -⟩ := sync_step ih hpeer
      (fun _ _ _ h ↦ h.1) (fun _ _ _ h ↦ h.1) (Readable.inLimits_of_mem hpeer)
      (Readable.of_mem_up hpeer)
      (fun x hx ↦ hclock x (List.mem_of_mem_drop hx) c) fuel
    rw [hall fun x hx ↦ hstop x (List.mem_of_mem_drop hx), ← htop, ← List.append_assoc,
      ← List.reverse_append, ← List.take_add] at hrun'
    rw [syncCalls, hcall]
    exact hrun'

/-- A node of a run stores its blocks by height. -/
theorem blockHashByHeight_topOf (h : Run m Readable g (up.reverse ++ t :: rest) peer) (j : ℕ) :
    DB.blockHashByHeight peer.store (t.header.height + .ofNat (min up.length j)) =
      .ok (topOf t (up.take j)).hash := by
  obtain ⟨hchain, hholds⟩ := h.holds fun _ _ _ h ↦ h.1
  have hbranch := hchain.branch h.genesis.height
  have hsuffix := reverse_take_suffix up j (t :: rest)
  obtain ⟨below, htop⟩ := exists_reverse_append_eq t (up.take j) rest
  have hbelow : below.length = min up.length j + rest.length := by
    have hlength := congrArg List.length htop
    rw [List.length_append, List.length_reverse, List.length_take, List.length_cons,
      List.length_cons] at hlength
    omega
  have hheight := hbranch.height_eq (htop ▸ hsuffix)
  have ht := hbranch.height_eq (List.suffix_append up.reverse (t :: rest))
  have hsame : t.header.height + .ofNat (min up.length j) =
      (topOf t (up.take j)).header.height := by
    have hlt := (topOf t (up.take j)).header.height.toNat_lt
    rw [← UInt64.toNat_inj, UInt64.toNat_add, UInt64.toNat_ofNat', ht, hheight]
    omega
  rw [hsame]
  exact hholds.index _ (hsuffix.subset (htop ▸ List.mem_cons_self))

/-- Against a peer whose chain goes on by some blocks, a call applies as many as there are, up to
2000. The tip is then that of the peer at the new height, and so are the unspent outputs. The call
ends without an error, unless the peer is at the greatest height. So many calls as are needed for
all blocks reach the peer's tip. -/
theorem sync_exact_progress (hlocal : Run m Readable g (t :: rest) n)
    (hpeer : Run m Readable g (up.reverse ++ t :: rest) peer)
    (hstop : ∀ x ∈ up, x.hash ≠ Bytes32.zero)
    (hclock : ∀ x ∈ up, ∀ c k, x.header.timestamp.toInt ≤ now c k + 2 * 60 * 60) (fuel : ℕ) :
    (∃ result err n', (headerFirstSync (peerSource peer) (now 0) fuel (some m)).run exec n =
        (.ok (result, err), n') ∧
      ((topOf t up).header.height.toNat + 1 < 2 ^ 64 → err = none) ∧
      result.blocks = min up.length 2000 ∧
      DB.tip n'.store =
        DB.blockHashByHeight peer.store (t.header.height + .ofNat (min up.length 2000)) ∧
      DB.utxos n'.store = Ledger.replay ((up.take 2000).reverse ++ t :: rest) ∧
      ∀ peer', Run m Readable g ((up.take 2000).reverse ++ t :: rest) peer' →
        DB.utxos n'.store = DB.utxos peer'.store) ∧
    DB.tip (syncCalls m peer now fuel ((up.length + 1999) / 2000) n).store = DB.tip peer.store ∧
    DB.utxos (syncCalls m peer now fuel ((up.length + 1999) / 2000) n).store =
      DB.utxos peer.store := by
  refine ⟨?_, ?_⟩
  · obtain ⟨j, result, err, n', hcall, hblocks, hrun', -, hall, hends⟩ := sync_step hlocal hpeer
      (fun _ _ _ h ↦ h.1) (fun _ _ _ h ↦ h.1) (Readable.inLimits_of_mem hpeer)
      (Readable.of_mem_up hpeer) (fun x hx ↦ hclock x hx 0) fuel
    rw [hall hstop, P2P.maxHeaders] at hrun' hblocks
    obtain ⟨-, hholds'⟩ := hrun'.holds fun _ _ _ h ↦ h.1
    obtain ⟨below, htop⟩ := exists_reverse_append_eq t (up.take 2000) rest
    refine ⟨result, err, n', hcall, hends, ?_, ?_, hholds'.ledger, fun peer' hpeer' ↦ ?_⟩
    · rw [hblocks, List.length_take, Nat.min_comm]
    · rw [hholds'.tip htop, blockHashByHeight_topOf hpeer 2000]
    · obtain ⟨-, hholds⟩ := hpeer'.holds fun _ _ _ h ↦ h.1
      rw [hholds'.ledger, hholds.ledger]
  · have hrun := run_syncCalls hlocal hpeer hstop hclock fuel ((up.length + 1999) / 2000)
    have hall : up.take (P2P.maxHeaders * ((up.length + 1999) / 2000)) = up := by
      refine List.take_of_length_le ?_
      rw [P2P.maxHeaders]
      omega
    rw [hall] at hrun
    obtain ⟨-, hholds⟩ := hpeer.holds fun _ _ _ h ↦ h.1
    obtain ⟨-, hholds'⟩ := hrun.holds fun _ _ _ h ↦ h.1
    obtain ⟨below, htop⟩ := exists_reverse_append_eq t up rest
    rw [hholds'.tip htop, hholds.tip htop, hholds'.ledger, hholds.ledger]
    exact ⟨rfl, rfl⟩

end Progress

/-- A node at genesis catches up with a node that has block A. -/
theorem sync_exact_progress_regtest :
    ∃ result n', (headerFirstSync (peerSource Regtest.afterA) (fun _ ↦ 1790000000) 1
        (some Regtest.manager)).run exec Regtest.afterGenesis = (.ok (result, none), n') ∧
      result.blocks = 1 ∧ DB.tip n'.store = DB.blockHashByHeight Regtest.afterA.store 1 ∧
      DB.utxos n'.store = DB.utxos Regtest.afterA.store := by
  have hlocal : Run Regtest.manager Readable Regtest.genesis [Regtest.genesis]
    Regtest.afterGenesis := .start Regtest.starts
  have hpeer : Run Regtest.manager Readable Regtest.genesis
      ([Regtest.blockA].reverse ++ [Regtest.genesis]) Regtest.afterA :=
    Regtest.runA ⟨Regtest.validOn_blockA.height, Regtest.blockA_inLimits⟩
  have hstop : ∀ x ∈ [Regtest.blockA], x.hash ≠ Bytes32.zero := by
    intro x hx
    rw [List.mem_singleton.mp hx, Regtest.blockA_hash]
    decide
  have hclock : ∀ x ∈ [Regtest.blockA], ∀ c k : ℕ,
      x.header.timestamp.toInt ≤ (fun _ _ ↦ 1790000000 : ℕ → ℕ → ℤ) c k + 2 * 60 * 60 := by
    intro x hx c k
    rw [List.mem_singleton.mp hx]
    change Regtest.blockA.header.timestamp.toInt ≤ 1790000000 + 2 * 60 * 60
    decide
  obtain ⟨⟨result, err, n', hcall, hends, hblocks, htip, -, hutxos⟩, -⟩ :=
    sync_exact_progress hlocal hpeer hstop hclock 1
  obtain rfl := hends (by decide)
  exact ⟨result, n', hcall, hblocks, htip, hutxos _ hpeer⟩

end Sync

end NevelCore
