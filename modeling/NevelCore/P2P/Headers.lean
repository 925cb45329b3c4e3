import NevelCore.Sync.Progress

/-!
# The answer to a request of headers

`gatherHeaders` looks for the first hash of the locator that it has a block for and answers with the
headers after that block. On every chain that a node can reach by blocks of positive height these
are the headers of the main chain from there on, oldest first, up to the block that the request
stops at, and at most 2000 of them (`gatherHeaders_eq`): a block that is stored is on the main
chain, so that the answer always continues the chain of whoever has the block.
-/

set_option autoImplicit false
set_option relaxedAutoImplicit false

namespace NevelCore.P2P

open Foundations

/-- The headers up to the first one that has a hash. -/
def upTo (stop : Hash) : List BlockHeader → List BlockHeader
  | [] => []
  | header :: headers => if header.hash = stop then [header] else header :: upTo stop headers

/-- One above the height of the first block of the locator that is on a chain. -/
def forkHeight (chain : List Block) : List Hash → ℕ
  | [] => 0
  | hash :: locator =>
    match chain.find? (·.hash = hash) with
    | some b => b.header.height.toNat + 1
    | none => forkHeight chain locator

section Gather

variable {m : Manager} {g top : Block} {rest : List Block} {n : NevelCore.Node}

/-- The locator leads to a height of the chain, or to the one above the tip. -/
theorem run_startHeight (hchain : Chain m g (top :: rest)) (hg : g.header.height = 0)
    (hstores : Stores (top :: rest) n.store) (hlimits : ∀ x ∈ top :: rest, x.InLimits)
    (locator : List Hash) :
    (startHeight locator).run exec n =
        (.ok (UInt64.ofNat (forkHeight (top :: rest) locator)), n) ∧
      forkHeight (top :: rest) locator ≤ (top :: rest).length := by
  induction locator with
  | nil => exact ⟨rfl, Nat.zero_le _⟩
  | cons hash locator ih =>
    rw [startHeight, run_getBlock_bind, forkHeight]
    cases hfind : (top :: rest).find? (·.hash = hash) with
    | none =>
      have hnew : ∀ x ∈ top :: rest, x.hash ≠ hash :=
        fun x hx heq ↦ List.find?_eq_none.mp hfind x hx (decide_eq_true heq)
      obtain ⟨e, hunknown⟩ := hstores.unknown_of_new hnew
      rw [hunknown]
      exact ih
    | some b =>
      have hb : b ∈ top :: rest := List.mem_of_find?_eq_some hfind
      have hfound := List.find?_some hfind
      obtain rfl : b.hash = hash := of_decide_eq_true hfound
      have hget := hstores.getBlock_of_mem hb (hlimits b hb)
      obtain ⟨above, below, hsplit⟩ := List.append_of_mem hb
      have hheight : b.header.height.toNat = below.length :=
        (hchain.branch hg).height_eq (hsplit ▸ List.suffix_append _ _)
      have hle : below.length + 1 ≤ (top :: rest).length := by
        rw [hsplit, List.length_append, List.length_cons]
        omega
      rw [hget]
      dsimp only
      rw [run_getBlock_bind, hget, hheight]
      refine ⟨?_, hle⟩
      have hadd : b.header.height + 1 = UInt64.ofNat (below.length + 1) := by
        rw [UInt64.ofNat_add, ← hheight, UInt64.ofNat_toNat]
        rfl
      exact congrArg (fun height ↦ (Except.ok height, n)) hadd

/-- The block of a chain at a height. -/
theorem header_getElem (hchain : Chain m g (top :: rest)) (hg : g.header.height = 0) {height : ℕ}
    (hlt : height < (top :: rest).reverse.length) :
    ((top :: rest).reverse[height]).header.height = UInt64.ofNat height := by
  have hsplit : (top :: rest).reverse = (top :: rest).reverse.take height ++
      (top :: rest).reverse[height] :: (top :: rest).reverse.drop (height + 1) := by
    rw [← List.drop_eq_getElem_cons hlt, List.take_append_drop]
  have hreverse := congrArg List.reverse hsplit
  rw [List.reverse_reverse, List.reverse_append, List.reverse_cons, List.append_assoc,
    List.singleton_append] at hreverse
  have hheight := (hchain.branch hg).height_eq (hreverse ▸ List.suffix_append _ _)
  rw [List.length_reverse, List.length_take, Nat.min_eq_left hlt.le] at hheight
  exact (UInt64.ofNat_toNat).symm.trans (congrArg UInt64.ofNat hheight)

/-- From a height on, the loop collects the headers of the chain. -/
theorem run_collectHeaders_eq (hchain : Chain m g (top :: rest)) (hg : g.header.height = 0)
    (hstores : Stores (top :: rest) n.store) (hlimits : ∀ x ∈ top :: rest, x.InLimits)
    (hlength : (top :: rest).length < 2 ^ 64) (stop : Hash) (left : ℕ) {height : ℕ}
    (hheight : height ≤ (top :: rest).length) (headers : List BlockHeader) :
    (collectHeaders top.header.height stop left (UInt64.ofNat height) headers).run exec n =
      (.ok (headers ++ upTo stop
        ((((top :: rest).reverse.map Block.header).drop height).take left)), n) := by
  have htop : top.header.height.toNat = rest.length :=
    (hchain.branch hg).height_eq (List.suffix_refl _)
  have htoNat : (UInt64.ofNat height).toNat = height :=
    UInt64.toNat_ofNat_of_lt' (lt_of_le_of_lt hheight hlength)
  induction left generalizing height headers with
  | zero =>
    rw [List.take_zero, upTo, List.append_nil]
    rfl
  | succ left ih =>
    have hbound : UInt64.ofNat height ≤ top.header.height ↔ height < (top :: rest).length := by
      rw [UInt64.le_iff_toNat_le, htoNat, htop, List.length_cons, Nat.lt_succ_iff]
    by_cases hlt : height < (top :: rest).length
    · have hlt' : height < (top :: rest).reverse.length := by rwa [List.length_reverse]
      have hmem : (top :: rest).reverse[height] ∈ top :: rest :=
        List.mem_reverse.mp (List.getElem_mem hlt')
      have hheader := Sync.run_headerByHeight_of_mem hstores hmem (hlimits _ hmem)
      rw [header_getElem hchain hg hlt'] at hheader
      have hdrop : ((top :: rest).reverse.map Block.header).drop height =
          ((top :: rest).reverse[height]).header ::
            ((top :: rest).reverse.map Block.header).drop (height + 1) := by
        rw [List.drop_eq_getElem_cons (by rwa [List.length_map]), List.getElem_map]
      rw [Sync.run_collectHeaders_succ (hbound.mpr hlt) hheader, hdrop, List.take_succ_cons, upTo]
      split_ifs
      · rfl
      · have hnext : UInt64.ofNat height + 1 = UInt64.ofNat (height + 1) :=
          (UInt64.ofNat_add height 1).symm
        rw [hnext, ih hlt, List.append_assoc, List.singleton_append]
        exact UInt64.toNat_ofNat_of_lt' (lt_of_le_of_lt hlt hlength)
    · have hnil : ((top :: rest).reverse.map Block.header).drop height = [] := by
        refine List.drop_of_length_le ?_
        rw [List.length_map, List.length_reverse]
        exact Nat.le_of_not_lt hlt
      rw [collectHeaders, if_neg (mt hbound.mp hlt), hnil, List.take_nil, upTo, List.append_nil]
      rfl

/-- In every state that is reached by blocks of positive height, `gatherHeaders` answers with the
headers of the main chain after the first block of the locator that is on it, up to the one it is to
stop at, and at most 2000. The tip must be in the limits of the reader. -/
theorem gatherHeaders_eq (h : NevelCore.Run m PositiveHeight g (top :: rest) n)
    (hlimits : top.InLimits) (hlength : (top :: rest).length < 2 ^ 64) (locator : List Hash)
    (stop : Hash) :
    (gatherHeaders locator stop).run exec n =
      (.ok (upTo stop ((((top :: rest).reverse.map Block.header).drop
        (forkHeight (top :: rest) locator)).take maxHeaders)), n) := by
  obtain ⟨hchain, hholds⟩ := h.holds fun _ _ _ hheight ↦ hheight
  have hstores := hholds.toStores
  have hall : ∀ x ∈ top :: rest, x.InLimits :=
    List.forall_mem_cons.mpr ⟨hlimits, fun x hx ↦ hchain.inLimits_of_mem_tail hx⟩
  have htip := run_tipBlock (hstores.tip rfl) (hstores.getBlock_of_mem List.mem_cons_self hlimits)
  obtain ⟨hstart, hle⟩ := run_startHeight hchain h.genesis.height hstores hall locator
  rw [gatherHeaders, Prog.run_bind_of_ok htip, Prog.run_bind_of_ok hstart,
    run_collectHeaders_eq hchain h.genesis.height hstores hall hlength stop maxHeaders hle,
    List.nil_append]

end Gather

/-- A node that is asked by one with an unknown block and genesis answers with block A. -/
theorem gatherHeaders_regtest :
    (gatherHeaders [Regtest.blockB.hash, Regtest.genesis.hash] Bytes32.zero).run exec
      Regtest.afterA = (.ok [Regtest.blockA.header], Regtest.afterA) := by
  have hrun : NevelCore.Run Regtest.manager PositiveHeight Regtest.genesis
      [Regtest.blockA, Regtest.genesis] Regtest.afterA :=
    Regtest.runA Regtest.validOn_blockA.height
  have hfork : forkHeight [Regtest.blockA, Regtest.genesis]
      [Regtest.blockB.hash, Regtest.genesis.hash] = 1 := by
    obtain ⟨-, ⟨hBA, hBG⟩, hAG⟩ := Regtest.hashes_ne
    simp only [forkHeight, List.find?_cons, hBA.symm, hBG.symm, hAG, decide_false, decide_true,
      List.find?_nil]
    rfl
  rw [gatherHeaders_eq hrun Regtest.blockA_inLimits (by decide), hfork]
  change (Except.ok (if _ then [Regtest.blockA.header] else [Regtest.blockA.header]), _) = _
  rw [ite_self]

end NevelCore.P2P
