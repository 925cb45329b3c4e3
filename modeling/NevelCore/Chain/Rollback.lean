import NevelCore.Chain.Runs

/-!
# Rolling back

Where `DisconnectTip` can take blocks back one by one (`TakesBack`), `RollbackToHeight` takes back
all that are above a height (`TakesBack.run_rollbackToHeight`).

`Stacked` says that a store has some blocks on top of a ledger and a tip, with all that is needed
for this: they can be read, and each has the undo log of its turn. Applying a block pushes one more,
and `DisconnectTip` pops the newest. So `RollbackToHeight` takes back exactly what `ApplyBlock` did
(`rollbackToHeight_applyAll`).
-/

set_option autoImplicit false
set_option relaxedAutoImplicit false

namespace NevelCore

open Foundations

/-- The ledger after blocks, given newest first, on top of another. -/
def Ledger.replayFrom (l : Ledger) : List Block → Ledger
  | [] => l
  | b :: below => (replayFrom l below).apply b

/-- The hash of the newest block, or of the tip below all blocks. -/
def topHash (hash : Hash) : List Block → Hash
  | [] => hash
  | b :: _ => b.hash

/-- A condition on blocks, given newest first, and a store, under which the blocks are on top of a
tip and `DisconnectTip` takes them back one by one. -/
structure TakesBack (hash : Hash) (P : List Block → Store → Prop) : Prop where
  tip : ∀ {blocks d}, P blocks d → DB.tip d = .ok (topHash hash blocks)
  read : ∀ {b blocks d}, P (b :: blocks) d → DB.getBlock d b.hash = .ok b
  pop : ∀ {b blocks d}, P (b :: blocks) d → b.header.height ≠ 0 →
    ∃ d', DB.disconnectTip d = (.ok b, d') ∧ P blocks d' ∧
      ∀ k : Key, k.OfChain → k ≠ .tip → d'.lookup k = d.lookup k

/-- `RollbackToHeight` takes back all blocks, if they are above the height and the tip below them
is not. It takes one round more than there are blocks. -/
theorem TakesBack.run_rollbackToHeight {P : List Block → Store → Prop} {hash : Hash}
    {blocks : List Block} {d : Store} {t : Block} {height : UInt64} (hP : TakesBack hash P)
    (h : P blocks d) (hread : DB.getBlock d hash = .ok t) (hle : t.header.height ≤ height)
    (habove : ∀ b ∈ blocks, height < b.header.height) (mempool : Option Mempool) :
    ∃ d', P [] d' ∧
      (∀ k : Key, k.OfChain → k ≠ .tip → d'.lookup k = d.lookup k) ∧
      ∀ fuel, (blocks.length < fuel →
          (Manager.rollbackToHeight fuel height).run exec ⟨d, mempool⟩ = (.ok (), ⟨d', mempool⟩)) ∧
        (fuel ≤ blocks.length →
          ((Manager.rollbackToHeight fuel height).run exec ⟨d, mempool⟩).1 =
            .error .outOfFuel) := by
  induction blocks generalizing d with
  | nil =>
    refine ⟨d, h, fun _ _ _ ↦ rfl, fun fuel ↦ ⟨fun hfuel ↦ ?_, fun hfuel ↦ ?_⟩⟩
    · obtain ⟨fuel, rfl⟩ := Nat.exists_eq_succ_of_ne_zero (Nat.ne_of_gt hfuel)
      have htip : Manager.tipBlock.run exec ⟨d, mempool⟩ = (.ok t, ⟨d, mempool⟩) :=
        run_tipBlock (hP.tip h) hread
      rw [Manager.rollbackToHeight, Prog.run_bind_of_ok htip, if_pos hle]
      rfl
    · rw [Nat.le_zero.mp hfuel]
      rfl
  | cons b blocks ih =>
    have hgt := habove b List.mem_cons_self
    obtain ⟨d₁, hdisconnect, hbelow, hframe⟩ := hP.pop h fun h0 ↦ by
      rw [h0] at hgt
      exact UInt64.not_lt_zero hgt
    have hread₁ : DB.getBlock d₁ hash = .ok t := by
      rw [← hread, DB.getBlock, DB.getBlock, hframe (.blockHash hash) trivial (by simp)]
    obtain ⟨d', hnone, hframe', hfuels⟩ := ih hbelow hread₁ fun x hx ↦
      habove x (List.mem_cons_of_mem _ hx)
    have hround (fuel : ℕ) :
        (Manager.rollbackToHeight (fuel + 1) height).run exec ⟨d, mempool⟩ =
          (Manager.rollbackToHeight fuel height).run exec ⟨d₁, mempool⟩ := by
      have htip : Manager.tipBlock.run exec ⟨d, mempool⟩ = (.ok b, ⟨d, mempool⟩) :=
        run_tipBlock (hP.tip h) (hP.read h)
      rw [Manager.rollbackToHeight, Prog.run_bind_of_ok htip, if_neg (UInt64.not_le.mpr hgt),
        run_disconnectTip_bind, hdisconnect]
      rfl
    refine ⟨d', hnone, fun k hk hne ↦ (hframe' k hk hne).trans (hframe k hk hne),
      fun fuel ↦ ?_⟩
    cases fuel with
    | zero => exact ⟨fun hfuel ↦ absurd hfuel (Nat.not_lt_zero _), fun _ ↦ rfl⟩
    | succ fuel =>
      rw [hround]
      exact ⟨fun hfuel ↦ (hfuels fuel).1 (Nat.lt_of_succ_lt_succ hfuel),
        fun hfuel ↦ (hfuels fuel).2 (Nat.le_of_succ_le_succ hfuel)⟩

/-- A store has blocks, given newest first, on top of a ledger and a tip, and can take them back. -/
structure Stacked (l : Ledger) (hash : Hash) (blocks : List Block) (d : Store) : Prop where
  tip : DB.tip d = .ok (topHash hash blocks)
  ledger : DB.utxos d = l.replayFrom blocks
  read : ∀ {b below}, b :: below <:+ blocks → DB.getBlock d b.hash = .ok b
  undo : ∀ {b below}, b :: below <:+ blocks →
    DB.undo d b.hash = .ok ((l.replayFrom below).undoLog b)
  link : ∀ {b below}, b :: below <:+ blocks → b.header.prevHash = topHash hash below
  new : ∀ {b below}, b :: below <:+ blocks → (l.replayFrom below).CreatesNew b

namespace Stacked

variable {l : Ledger} {hash : Hash} {b t : Block} {blocks : List Block} {d : Store}

theorem nil (htip : DB.tip d = .ok hash) : Stacked (DB.utxos d) hash [] d where
  tip := htip
  ledger := rfl
  read h := absurd (List.suffix_nil.mp h) (List.cons_ne_nil _ _)
  undo h := absurd (List.suffix_nil.mp h) (List.cons_ne_nil _ _)
  link h := absurd (List.suffix_nil.mp h) (List.cons_ne_nil _ _)
  new h := absurd (List.suffix_nil.mp h) (List.cons_ne_nil _ _)

/-- `DisconnectTip` takes the newest block back and keeps the rest of the store. -/
theorem pop (h : Stacked l hash (b :: blocks) d) (hheight : b.header.height ≠ 0) :
    ∃ d', DB.disconnectTip d = (.ok b, d') ∧ Stacked l hash blocks d' ∧
      ∀ k : Key, k.OfChain → k ≠ .tip → d'.lookup k = d.lookup k := by
  have hself : b :: blocks <:+ b :: blocks := List.suffix_refl _
  have hframe (k : Key) (hk : k.OfChain) (hne : k ≠ .tip) :=
    DB.lookup_disconnect hk hne d b ((l.replayFrom blocks).undoLog b)
  refine ⟨_, ?_, ⟨?_, ?_, ?_, ?_, ?_, ?_⟩, hframe⟩
  · exact DB.disconnectTip_eq h.tip (h.read hself) (h.undo hself)
  · rw [DB.tip_disconnect hheight, h.link hself]
  · rw [DB.utxos_disconnect, h.ledger]
    exact Ledger.disconnect_apply (h.new hself)
  · intro x below hx
    rw [← h.read (hx.trans (List.suffix_cons b blocks)), DB.getBlock, DB.getBlock,
      hframe (.blockHash x.hash) trivial (by simp)]
  · intro x below hx
    rw [← h.undo (hx.trans (List.suffix_cons b blocks)), DB.undo, DB.undo,
      hframe (.undo x.hash) trivial (by simp)]
  · exact fun hx ↦ h.link (hx.trans (List.suffix_cons b blocks))
  · exact fun hx ↦ h.new (hx.trans (List.suffix_cons b blocks))

theorem takesBack (l : Ledger) (hash : Hash) : TakesBack hash (Stacked l hash) where
  tip h := h.tip
  read h := h.read (List.suffix_refl _)
  pop h hheight := h.pop hheight

end Stacked

/-! ### Applying and taking back -/

/-- A block is next on a store, within the limits of the decoder and unknown to the store, and
creates only new outpoints. -/
structure Next (d : Store) (b : Block) : Prop where
  inLimits : b.InLimits
  unstored : d.lookup (Key.blockHash b.hash) = none
  link : DB.tip d = .ok b.header.prevHash
  height : ∃ t, DB.getBlock d b.header.prevHash = .ok t ∧
    b.header.height.toNat = t.header.height.toNat + 1
  new : (DB.utxos d).CreatesNew b

theorem Next.hash_ne {d : Store} {b x : Block} {hash : Hash} (h : Next d b)
    (hx : DB.getBlock d hash = .ok x) : hash ≠ b.hash := by
  rintro rfl
  rw [DB.getBlock, h.unstored] at hx
  cases hx

/-- `ApplyBlock` on blocks given newest first, the oldest one at first. -/
def applyAll (d : Store) : List Block → Store
  | [] => d
  | b :: below => DB.applyBlock (applyAll d below) b

/-- Each of the blocks, given newest first, is next at its turn. -/
def Follow (d : Store) : List Block → Prop
  | [] => True
  | b :: below => Follow d below ∧ Next (applyAll d below) b

section Apply

variable {l : Ledger} {hash : Hash} {b t : Block} {blocks : List Block} {d : Store}

/-- `ApplyBlock` puts the next block on top. -/
theorem Stacked.push (h : Stacked l hash blocks d) (hnext : Next d b) :
    Stacked l hash (b :: blocks) (DB.applyBlock d b) where
  tip := DB.tip_applyBlock d b
  ledger := by
    rw [DB.utxos_applyBlock, h.ledger]
    rfl
  read hx := by
    rcases List.suffix_cons_iff.mp hx with heq | hx
    · cases heq
      rw [DB.getBlock_applyBlock_self, deserializeBlock_serializeBlock hnext.inLimits]
    · rw [DB.getBlock_applyBlock_of_ne, h.read hx]
      exact hnext.hash_ne (h.read hx)
  undo hx := by
    rw [DB.undo_applyBlock]
    rcases List.suffix_cons_iff.mp hx with heq | hx
    · cases heq
      rw [if_pos rfl, h.ledger]
    · rw [if_neg (hnext.hash_ne (h.read hx)), h.undo hx]
  link hx := by
    rcases List.suffix_cons_iff.mp hx with heq | hx
    · cases heq
      exact Except.ok.inj (hnext.link.symm.trans h.tip)
    · exact h.link hx
  new hx := by
    rcases List.suffix_cons_iff.mp hx with heq | hx
    · cases heq
      rw [← h.ledger]
      exact hnext.new
    · exact h.new hx

/-- Blocks that follow each other on a tip lie on top of it, and above it in height. -/
theorem Follow.stacked (h : Follow d blocks) (htip : DB.tip d = .ok hash)
    (hread : DB.getBlock d hash = .ok t) :
    Stacked (DB.utxos d) hash blocks (applyAll d blocks) ∧
      DB.getBlock (applyAll d blocks) hash = .ok t ∧
      ∀ b ∈ blocks, t.header.height < b.header.height := by
  induction blocks with
  | nil => exact ⟨.nil htip, hread, by simp⟩
  | cons b below ih =>
    obtain ⟨hbelow, hnext⟩ := h
    obtain ⟨hstacked, hread', habove⟩ := ih hbelow
    have hle : t.header.height < b.header.height := by
      obtain ⟨t', ht', hheight⟩ := hnext.height
      rw [Except.ok.inj (hnext.link.symm.trans hstacked.tip)] at ht'
      rw [UInt64.lt_iff_toNat_lt, hheight]
      cases below with
      | nil =>
        rw [Except.ok.inj (ht'.symm.trans hread')]
        exact Nat.lt_succ_self _
      | cons b' below =>
        rw [Except.ok.inj (ht'.symm.trans (hstacked.read (List.suffix_refl _)))]
        exact Nat.lt_succ_of_lt (UInt64.lt_iff_toNat_lt.mp (habove b' List.mem_cons_self))
    refine ⟨hstacked.push hnext, ?_, fun x hx ↦ ?_⟩
    · exact (DB.getBlock_applyBlock_of_ne (hnext.hash_ne hread')).trans hread'
    · rcases List.mem_cons.mp hx with rfl | hx
      · exact hle
      · exact habove x hx

/-- Rolling back to the height of the tip after any number of blocks brings back the ledger and
the tip. -/
theorem rollbackToHeight_applyAll (htip : DB.tip d = .ok hash) (hread : DB.getBlock d hash = .ok t)
    (hfollow : Follow d blocks) {fuel : ℕ} (hfuel : blocks.length < fuel)
    (mempool : Option Mempool) :
    ∃ d', (Manager.rollbackToHeight fuel t.header.height).run exec ⟨applyAll d blocks, mempool⟩ =
        (.ok (), ⟨d', mempool⟩) ∧
      DB.utxos d' = DB.utxos d ∧ DB.tip d' = DB.tip d := by
  obtain ⟨hstacked, hread', habove⟩ := hfollow.stacked htip hread
  obtain ⟨d', hbase, -, hruns⟩ :=
    (Stacked.takesBack _ _).run_rollbackToHeight hstacked hread' (UInt64.le_refl _) habove mempool
  exact ⟨d', (hruns fuel).1 hfuel, hbase.ledger, hbase.tip.trans htip.symm⟩

end Apply

namespace Regtest

theorem blockA_new : (DB.utxos afterGenesis.store).CreatesNew blockA :=
  fun outpoint hmem ↦ .inl (blockA_absent outpoint hmem)

theorem blockA_next : Next afterGenesis.store blockA where
  inLimits := blockA_inLimits
  unstored := blockA_unstored
  link := by rw [validOn_blockA.link, tip_afterGenesis]
  height := ⟨genesis, by rw [validOn_blockA.link]; exact getBlock_genesis, rfl⟩
  new := blockA_new

/-- Spends the coinbases of genesis and of block A. -/
def spendBoth : Transaction where
  version := 1
  inputs := .ofList [
    { prevTxHash := genesisCoin.txHash
      outputIdx := 0
      signature := .ofList []
      publicKey := .ofList [] },
    { prevTxHash := blockA.header.merkleRoot
      outputIdx := 0
      signature := .ofList []
      publicKey := .ofList [] }]
  outputs := .ofList [{ amount := initialReward, lockingScript := script 0x22 }]
  lockTime := 0

def spendBothHash : Hash := hash 0xffa187f5107325aecfcb2a848eec58d3ae46ff1a1df7b40b9aec345335677689

def coinbaseD : Transaction := newCoinbase (Manager.minedAt 1790000000) initialReward (script 0x33)

def coinbaseDHash : Hash := hash 0x6875d01ccac1c7addf705550f022b57c9036523c4f0510a011f49581a7dfc683

/-- A block on top of block A that spends all outputs there. -/
def blockD : Block where
  header := {
    version := 1
    prevHash := blockAHash
    merkleRoot := hash 0x5a942a614535f143985d82e7481a10aa96434dda73401d21998bada899aeed60
    timestamp := 1790000000
    bits := regtestPowBits
    nonce := 4
    height := 2 }
  transactions := .ofList [coinbaseD, spendBoth]

theorem spendBoth_hash : spendBoth.hash = spendBothHash := doubleSha256_eq (by decide +kernel)

theorem coinbaseD_hash : coinbaseD.hash = coinbaseDHash := doubleSha256_eq (by decide +kernel)

theorem blockD_hash : blockD.hash =
    hash 0x09a3618ae8232f8888e90d2b5b1e0d5db5bc8966ab460e387e366a5fa42fd8f8 :=
  doubleSha256_eq (by decide +kernel)

theorem created_blockD : Ledger.created blockD = [⟨coinbaseDHash, 0⟩, ⟨spendBothHash, 0⟩] := by
  rw [← coinbaseD_hash, ← spendBoth_hash]
  rfl

theorem blockD_next : Next (DB.applyBlock afterGenesis.store blockA) blockD where
  inLimits := by decide +kernel
  unstored := by
    have hA : blockD.hash ≠ blockA.hash := by
      rw [blockD_hash, blockA_hash]
      decide
    have hgenesis : blockD.hash ≠ genesis.hash := by
      rw [blockD_hash, genesis_hash]
      decide
    rw [DB.lookup_blockHash_applyBlock, if_neg hA, afterGenesis, DB.lookup_blockHash_extend,
      if_neg hgenesis]
    rfl
  link := by
    rw [DB.tip_applyBlock, blockA_hash]
    rfl
  height := by
    refine ⟨blockA, ?_, rfl⟩
    rw [show blockD.header.prevHash = blockA.hash from blockA_hash.symm,
      DB.getBlock_applyBlock_self]
    exact deserializeBlock_serializeBlock blockA_inLimits
  new := by
    intro outpoint hmem
    have hnew : outpoint.hash ≠ genesis.header.merkleRoot ∧
        outpoint ∉ Ledger.created blockA := by
      rw [created_blockA]
      rw [created_blockD] at hmem
      revert outpoint
      decide
    refine .inl ?_
    rw [DB.utxos_applyBlock]
    exact lookup_commit_of_none (Ledger.written_blockOps blockA ▸ hnew.2) (lookup_genesis hnew.1)

/-- The undo log of block D has both outputs. -/
theorem undo_blockD :
    DB.undo (DB.applyBlock (DB.applyBlock afterGenesis.store blockA) blockD) blockD.hash =
      .ok [genesisCoin, coin blockA.header.merkleRoot 1 0x11] := by
  have hspent : Ledger.spent blockD =
    [genesisCoin.outpoint, (coin blockA.header.merkleRoot 1 0x11).outpoint] := rfl
  have hledger : DB.utxos (DB.applyBlock afterGenesis.store blockA) =
      ((∅ : Ledger).insert genesisCoin.outpoint ⟨genesisCoin, rfl⟩).insert
        (coin blockA.header.merkleRoot 1 0x11).outpoint ⟨_, rfl⟩ := by
    rw [DB.utxos_applyBlock, afterGenesis, utxos_genesis, replay_genesis, Ledger.apply,
      blockOps_blockA]
    rfl
  have hne : genesisCoin.outpoint ≠ (coin blockA.header.merkleRoot 1 0x11).outpoint := by decide
  rw [DB.undo_applyBlock, if_pos rfl, Ledger.undoLog, hspent, hledger, List.filterMap_cons,
    Finmap.lookup_insert_of_ne _ hne, Finmap.lookup_insert, Option.map_some,
    List.filterMap_cons, Finmap.lookup_insert]
  rfl

end Regtest

/-- Two blocks are taken back, of which the second one spends what genesis and the first one
create. -/
theorem rollbackToHeight_applyAll_regtest :
    ∃ d', (Manager.rollbackToHeight 3 0).run exec
        ⟨applyAll Regtest.afterGenesis.store [Regtest.blockD, Regtest.blockA], none⟩ =
          (.ok (), ⟨d', none⟩) ∧
      DB.undo (applyAll Regtest.afterGenesis.store [Regtest.blockD, Regtest.blockA])
          Regtest.blockD.hash =
        .ok [Regtest.genesisCoin, Regtest.coin Regtest.blockA.header.merkleRoot 1 0x11] ∧
      DB.utxos d' = DB.utxos Regtest.afterGenesis.store ∧
      DB.tip d' = DB.tip Regtest.afterGenesis.store := by
  have hfollow : Follow Regtest.afterGenesis.store [Regtest.blockD, Regtest.blockA] :=
    ⟨⟨trivial, Regtest.blockA_next⟩, Regtest.blockD_next⟩
  obtain ⟨d', hrun, hutxos, htip⟩ := rollbackToHeight_applyAll Regtest.tip_afterGenesis
    Regtest.getBlock_genesis hfollow (show _ < 3 by decide) none
  exact ⟨d', hrun, Regtest.undo_blockD, hutxos, htip⟩

end NevelCore
