import NevelCore.Chain.MainChain

/-!
# Runs

A run starts with `InitGenesis` on an empty store and goes on with calls of
`ValidateAndApplyBlock` that return, each allowed by a condition on the state, the clock and the
block. It keeps the list of the blocks that became the tip.

`Run.holds` is the invariant of the runs whose blocks all have positive height: the blocks that
became the tip are the main chain, and the store holds it. In every state of such a run a call with
one more such block returns (`Run.returns`).
-/

set_option autoImplicit false
set_option relaxedAutoImplicit false

namespace NevelCore

open Foundations

/-! ### Genesis -/

/-- A block mined from the genesis block of a network. -/
def IsGenesis (net : Network) (g : Block) : Prop :=
  ∃ nonce, g = (createGenesisBlock net).withNonce nonce

theorem mine_eq_some {polls : ℕ} {b b' : Block} {target : ℤ} (h : mine polls b target = some b') :
    ∃ nonce, b' = b.withNonce nonce := by
  induction polls generalizing b with
  | zero => cases h
  | succ polls ih =>
    rw [mine] at h
    split at h
    · exact ⟨b.header.nonce, (Option.some.inj h).symm⟩
    · obtain ⟨nonce, rfl⟩ := ih h
      exact ⟨nonce, rfl⟩

/-- `InitGenesis` on an empty store leads to a state with a genesis block. -/
def Starts (m : Manager) (g : Block) (n : Node) : Prop :=
  ∃ polls mempool, (m.initGenesis polls).run exec ⟨∅, mempool⟩ = (.ok g, n)

namespace IsGenesis

variable {net : Network} {g : Block}

theorem height (h : IsGenesis net g) : g.header.height = 0 := by
  obtain ⟨nonce, rfl⟩ := h
  rfl

/-- The transactions are the same on every network. -/
theorem transactions (h : IsGenesis net g) :
    g.transactions = (createGenesisBlock mainnet).transactions := by
  obtain ⟨nonce, rfl⟩ := h
  rfl

theorem inLimits (h : IsGenesis net g) : g.InLimits := by
  have hmainnet : (createGenesisBlock mainnet).InLimits := by decide +kernel
  rw [Block.InLimits, h.transactions]
  exact hmainnet

end IsGenesis

theorem Holds.genesis {g : Block} (hg : g.header.height = 0) : Holds [g] (DB.extend ∅ g) where
  tip hcons := by
    cases hcons
    exact DB.tip_extend ∅ g
  stored x hx := by
    rw [List.mem_singleton.mp hx, DB.lookup_blockHash_extend, if_pos rfl]
  only hash data hlookup := by
    rw [DB.lookup_blockHash_extend] at hlookup
    split at hlookup
    · next heq => exact ⟨g, List.mem_singleton_self g, heq.symm⟩
    · cases hlookup
  index x hx := by
    rw [List.mem_singleton.mp hx, DB.blockHashByHeight_extend, if_pos rfl]
  work hsuffix _ := by
    rcases List.suffix_cons_iff.mp hsuffix with heq | hnil
    · cases heq
      rw [DB.totalWork_extend, if_pos rfl, DB.workOn, hg]
      rfl
    · cases List.suffix_nil.mp hnil
  ledger := DB.utxos_extend ∅ g

theorem tip_empty : DB.tip ∅ = .error .notFound := rfl

theorem run_initGenesis {m : Manager} {g : Block} {polls : ℕ}
    (h : mine polls (createGenesisBlock m.network) m.network.powLimit = some g)
    (mempool : Option Mempool) :
    (m.initGenesis polls).run exec ⟨∅, mempool⟩ = (.ok g, ⟨DB.extend ∅ g, mempool⟩) := by
  obtain ⟨nonce, rfl⟩ : IsGenesis m.network g := mine_eq_some h
  rw [Manager.initGenesis, run_tip_bind, tip_empty]
  dsimp only
  rw [h]
  rfl

/-- The state after `InitGenesis` on an empty store. -/
theorem Starts.spec {m : Manager} {g : Block} {n : Node} (h : Starts m g n) :
    IsGenesis m.network g ∧ n.store = DB.extend ∅ g := by
  obtain ⟨polls, mempool, h⟩ := h
  cases hmine : mine polls (createGenesisBlock m.network) m.network.powLimit with
  | none =>
    rw [Manager.initGenesis, run_tip_bind, tip_empty] at h
    dsimp only at h
    rw [hmine] at h
    cases h
  | some g' =>
    rw [run_initGenesis hmine] at h
    cases h
    exact ⟨mine_eq_some hmine, rfl⟩

/-! ### Runs -/

/-- The blocks that became the tip, after a call with one more block. -/
def tipsAfter (n n' : Node) (b : Block) (tips : List Block) : List Block :=
  if DB.tip n.store ≠ .ok b.hash ∧ DB.tip n'.store = .ok b.hash then b :: tips else tips

/-- The states reached from `InitGenesis` on an empty store by calls of `ValidateAndApplyBlock` that
return, with the blocks that became the tip on the way, newest first. -/
inductive Run (m : Manager) (allowed : Node → ℤ → Block → Prop) (g : Block) :
    List Block → Node → Prop
  | start {n : Node} (starts : Starts m g n) : Run m allowed g [g] n
  | call {tips : List Block} {n n' : Node} {now : ℤ} {fuel : ℕ} {b : Block} {r : Except Halt Unit}
      (run : Run m allowed g tips n) (allows : allowed n now b)
      (returns : (m.validateAndApplyBlock now fuel b).run exec n = (r, n'))
      (fueled : r ≠ .error .outOfFuel) : Run m allowed g (tipsAfter n n' b tips) n'

/-- The condition that blocks have positive height. -/
def PositiveHeight : Node → ℤ → Block → Prop := fun _ _ b ↦ 0 < b.header.height

section Invariant

variable {m : Manager} {g b : Block} {chain chain' : List Block} {n n' : Node}

/-- The blocks that became the tip stay the chain. -/
theorem Outcome.tipsAfter (h : Outcome m chain n.store b chain' n'.store)
    (hholds : Holds chain n.store) (hholds' : Holds chain' n'.store) :
    tipsAfter n n' b chain = chain' := by
  generalize hd : n'.store = d at h hholds'
  cases h with
  | unchanged => exact if_neg fun h ↦ h.1 (hd ▸ h.2)
  | recorded suffix inLimits link unknown =>
    refine if_neg fun h ↦ h.1 ?_
    rw [← DB.tip_putTotalWork, ← hd]
    exact h.2
  | extended eq step =>
    refine if_pos ⟨?_, by rw [hd]; exact hholds'.tip rfl⟩
    rw [hholds.tip eq]
    exact fun h ↦ step.unknown _ List.mem_cons_self (Except.ok.inj h)

theorem Run.genesis {allowed : Node → ℤ → Block → Prop} (h : Run m allowed g chain n) :
    IsGenesis m.network g := by
  induction h with
  | start starts => exact starts.spec.1
  | call _ _ _ _ ih => exact ih

/-- A block that became the tip is genesis or was allowed. -/
theorem Run.allowed_of_mem {allowed : Node → ℤ → Block → Prop} {tips : List Block}
    (h : Run m allowed g tips n) {x : Block} (hx : x ∈ tips) :
    x = g ∨ ∃ n now, allowed n now x := by
  induction h with
  | start => exact .inl (List.mem_singleton.mp hx)
  | call _ allows _ _ ih =>
    unfold NevelCore.tipsAfter at hx
    split at hx
    · rcases List.mem_cons.mp hx with rfl | hx
      · exact .inr ⟨_, _, allows⟩
      · exact ih hx
    · exact ih hx

/-- In a run of blocks of positive height, the blocks that became the tip are a chain by the rules,
and the store holds it. -/
theorem Run.holds {allowed : Node → ℤ → Block → Prop} (h : Run m allowed g chain n)
    (hallowed : ∀ n now b, allowed n now b → 0 < b.header.height) :
    Chain m g chain ∧ Holds chain n.store := by
  induction h with
  | start starts =>
    obtain ⟨hgenesis, hstore⟩ := starts.spec
    exact ⟨.genesis, hstore ▸ Holds.genesis hgenesis.height⟩
  | call run allows returns fueled ih =>
    obtain ⟨hchain, hholds⟩ := ih
    have hg := run.genesis.height
    obtain ⟨chain', houtcome⟩ := call_outcome returns (hallowed _ _ _ allows) hchain hg hholds
    obtain ⟨hchain', hholds'⟩ := houtcome.holds hchain hg hholds
    rw [houtcome.tipsAfter hholds hholds']
    exact ⟨hchain', hholds'⟩

section Positive

variable {allowed : Node → ℤ → Block → Prop} {tips : List Block} {now : ℤ}

/-- In such a run one more call returns. -/
theorem Run.returns (h : Run m allowed g tips n)
    (hallowed : ∀ n now b, allowed n now b → 0 < b.header.height) (hheight : 0 < b.header.height)
    {fuel : ℕ} (hfuel : 0 < fuel) :
    ((m.validateAndApplyBlock now fuel b).run exec n).1 ≠ .error .outOfFuel := by
  obtain ⟨hchain, hholds⟩ := h.holds hallowed
  intro hout
  exact (call_spec rfl hheight hchain h.genesis.height hholds).2 _ hout hfuel

/-- In such a run a new tip has extended the old one. -/
theorem Run.newTip (h : Run m allowed g tips n)
    (hallowed : ∀ n now b, allowed n now b → 0 < b.header.height) (hheight : 0 < b.header.height)
    {fuel : ℕ} {r : Except Halt Unit}
    (hcall : (m.validateAndApplyBlock now fuel b).run exec n = (r, n'))
    (hbefore : DB.tip n.store ≠ .ok b.hash) (hafter : DB.tip n'.store = .ok b.hash) :
    ∃ p rest, tips = p :: rest ∧ Extends m b p rest ∧
      DB.tip n.store = .ok b.header.prevHash ∧ n'.store = DB.extend n.store b := by
  obtain ⟨hchain, hholds⟩ := h.holds hallowed
  obtain ⟨chain', houtcome⟩ := call_outcome hcall hheight hchain h.genesis.height hholds
  generalize n'.store = d at houtcome hafter
  cases houtcome with
  | unchanged => exact absurd hafter hbefore
  | recorded suffix inLimits link unknown =>
    rw [DB.tip_putTotalWork] at hafter
    exact absurd hafter hbefore
  | extended eq step =>
    exact ⟨_, _, eq, step, by rw [hholds.tip eq, step.link], rfl⟩

/-- In such a run a block that is valid on top of the tip, with a new hash, becomes the tip. -/
theorem Run.extend {p : Block} {rest : List Block} (h : Run m allowed g (p :: rest) n)
    (hallowed : ∀ n now b, allowed n now b → 0 < b.header.height) (allows : allowed n now b)
    (hvalid : ValidOn m now b p rest) (hlimits : p.InLimits)
    (hnew : ∀ x ∈ p :: rest, x.hash ≠ b.hash) (fuel : ℕ) :
    ∃ n', (m.validateAndApplyBlock now fuel b).run exec n = (.ok (), n') ∧
      n'.store = DB.extend n.store b ∧ n'.mempool = n.mempool.map (·.removeMinedBlock b) ∧
      Run m allowed g (b :: p :: rest) n' := by
  obtain ⟨hchain, hholds⟩ := h.holds hallowed
  obtain ⟨n', hcall, hstore, hmempool⟩ :=
    hvalid.deliver hchain h.genesis.height hholds.toStores hlimits hnew fuel
  refine ⟨n', hcall, hstore, hmempool, ?_⟩
  have hrun := Run.call h allows hcall nofun
  have hbefore : DB.tip n.store ≠ .ok b.hash := by
    rw [hholds.tip rfl]
    exact fun heq ↦ hnew p List.mem_cons_self (Except.ok.inj heq)
  have hafter : DB.tip n'.store = .ok b.hash := by rw [hstore, DB.tip_extend]
  rwa [NevelCore.tipsAfter, if_pos ⟨hbefore, hafter⟩] at hrun

end Positive

end Invariant

/-! ### A run on the regression test network -/

namespace Regtest

/-- A manager of the regression test network that checks no signatures. -/
def manager : Manager where
  network := regtest
  verifier := none

/-- A hash, given as a number. -/
def hash (value : ℕ) : Hash := ⟨beBytes 32 value, length_beBytes 32 value⟩

/-- The script of an address whose hash repeats one byte. -/
def script (byte : UInt8) : Bytes := .ofList ("p2pkh:".toUTF8.toList ++ List.replicate 20 byte)

/-- A block with the coinbase of `BuildTemplate` and no other transactions. -/
def block (prevHash merkleRoot : Hash) (height : UInt64) (now : Int64) (byte : UInt8)
    (nonce : UInt64) : Block where
  header := {
    version := 1
    prevHash := prevHash
    merkleRoot := merkleRoot
    timestamp := now
    bits := regtestPowBits
    nonce := nonce
    height := height }
  transactions := .ofList [newCoinbase (Manager.minedAt now) initialReward (script byte)]

def genesis : Block where
  header := { (createGenesisBlock regtest).header with
    merkleRoot := hash 0x0a6608f5f8d94ac72ecb3e0b0416af3675df35f6558117210b32bdf6323e4666
    nonce := 1 }
  transactions := (createGenesisBlock regtest).transactions

def genesisHash : Hash := hash 0x502a0f3951b534514cb7ee43f068aeb40287d79c38516f993d40821c12ed0287

def blockA : Block :=
  block genesisHash (hash 0xc5855049a928bc717d5a1dd464640b4484f90e9818f1c119229e83806852c094)
    1 1790000000 0x11 0

def blockAHash : Hash := hash 0x45e153983d91cb412b66c06ad65c9d1b6872c33e817a9be15c7b7a72450fba61

/-- Another block on top of genesis. -/
def blockB : Block :=
  block genesisHash (hash 0x6af1dc88e918a25d55a9aadebc8aa11c52ec485874aea88d7a794ab33124712e)
    1 1790000000 0x22 1

def afterGenesis : Node := ⟨DB.extend ∅ genesis, none⟩

def afterA : Node := ⟨DB.extend afterGenesis.store blockA, none⟩

/-- A double hash is known as soon as it is computed on numbers. -/
theorem doubleSha256_eq {bytes : List UInt8} {value : ℕ}
    (h : packedSha256 32 (packedSha256 bytes.length (beValue bytes)) = value) :
    doubleSha256 bytes = hash value := by
  refine Bytes32.ext ?_
  rw [toList_doubleSha256, h]
  rfl

theorem hash_hashValue (h : Hash) : hash (hashValue h) = h := by
  refine Bytes32.ext ?_
  change beBytes 32 (beValue h.toList) = h.toList
  rw [← h.length_eq, beBytes_beValue]

theorem hashValue_hash {v : ℕ} (h : v < 256 ^ 32) : hashValue (hash v) = v := by
  change beValue (beBytes 32 v) = v
  rw [beValue_beBytes, Nat.mod_eq_of_lt h]

/-- The coinbase of genesis. -/
def genesisCoinbase : Transaction :=
  newCoinbase genesisMessage initialReward (.ofList "genesis".toUTF8.toList)

theorem hash_genesisCoinbase : genesisCoinbase.hash = genesis.header.merkleRoot :=
  doubleSha256_eq (by decide +kernel)

theorem genesis_hash : genesis.hash = genesisHash := doubleSha256_eq (by decide +kernel)

/-- The first nonce misses the target. -/
theorem hash_genesis_firstNonce : (genesis.withNonce 0).hash =
    hash 0xf8b4336b09bbdbf9a4d02de552c39084b507875023d84ffddccacc9f165cc362 :=
  doubleSha256_eq (by decide +kernel)

theorem startsWith (mempool : Option Mempool) :
    Starts manager genesis ⟨DB.extend ∅ genesis, mempool⟩ := by
  have hcreate : createGenesisBlock regtest = genesis.withNonce 0 := by
    have hroot : buildMerkleRoot [genesisCoinbase] = genesis.header.merkleRoot :=
      hash_genesisCoinbase
    rw [createGenesisBlock, ← genesisCoinbase, hroot]
    rfl
  have hmiss : ¬ (hashValue (genesis.withNonce 0).header.hash : ℤ) < regtest.powLimit := by
    change ¬ (hashValue (genesis.withNonce 0).hash : ℤ) < _
    rw [hash_genesis_firstNonce, hashValue_hash (by decide)]
    decide
  have hmeets : (hashValue genesis.header.hash : ℤ) < regtest.powLimit := by
    change (hashValue genesis.hash : ℤ) < _
    rw [genesis_hash, genesisHash, hashValue_hash (by decide)]
    decide
  refine ⟨2, mempool, run_initGenesis ?_ mempool⟩
  change mine 2 (createGenesisBlock regtest) regtest.powLimit = some genesis
  rw [hcreate, mine, if_neg hmiss, mine]
  exact if_pos hmeets

theorem starts : Starts manager genesis afterGenesis := startsWith none

theorem genesis_inLimits : genesis.InLimits := starts.spec.1.inLimits

theorem getBlock_genesis : DB.getBlock afterGenesis.store genesis.hash = .ok genesis :=
  (Holds.genesis rfl).getBlock_of_mem List.mem_cons_self genesis_inLimits

/-- A block with the coinbase of `BuildTemplate` is valid on top of a block of low height as soon as
its hashes are in order. -/
theorem validOn_block {p : Block} {rest : List Block} {prevHash root : Hash} {height : UInt64}
    {now : Int64} {byte : UInt8} {nonce : UInt64} (hlink : p.hash = prevHash)
    (hbits : p.header.bits = regtestPowBits) (hheight : height = p.header.height + 1)
    (hpos : 0 < height.toNat) (hlow : height.toNat < 720)
    (hroot : (newCoinbase (Manager.minedAt now) initialReward (script byte)).hash = root)
    (hvalue : (hashValue (block prevHash root height now byte nonce).hash : ℤ) ≤
      compactToBig regtestPowBits) (htime : now.toInt ≤ 1790000000 + 2 * 60 * 60) :
    ValidOn manager 1790000000 (block prevHash root height now byte nonce) p rest where
  height := UInt64.lt_iff_toNat_lt.mpr hpos
  header := by
    refine validateBlockHeader_ok_iff.mpr ⟨hroot.symm, checkProofOfWork_ok_iff.mpr ⟨?_, ?_, hvalue⟩,
      htime, ?_⟩
    · change 0 < compactToBig regtestPowBits
      decide
    · change compactToBig regtestPowBits ≤ compactToBig regtestPowBits
      exact le_rfl
    · rintro _ ⟨⟩
      exact ⟨hheight, hlink.symm⟩
  bits n := by
    have hwindow : (p.header.height + 1) % difficultyWindow ≠ 0 := by
      rw [← hheight]
      intro hzero
      have hnat := congrArg UInt64.toNat hzero
      rw [UInt64.toNat_mod] at hnat
      change height.toNat % 720 = 0 at hnat
      omega
    rw [expectedBits, if_pos (.inl hwindow), hbits]
    rfl
  transactions n _ := by
    have hhalvings : height / halvingInterval = 0 := by
      rw [← UInt64.toNat_inj, UInt64.toNat_div]
      exact Nat.div_eq_of_lt (lt_trans hlow (by decide))
    have hreward : blockReward height = initialReward := by
      rw [blockReward, hhalvings]
      rfl
    refine run_validateBlockTransactions_of_coinbase rfl rfl ?_
    change _ ≤ (blockReward height).toNat
    rw [hreward]
    exact le_of_eq List.sum_singleton

theorem blockA_hash : blockA.hash = blockAHash := doubleSha256_eq (by decide +kernel)

theorem hash_coinbaseA :
    (newCoinbase (Manager.minedAt 1790000000) initialReward (script 0x11)).hash =
      blockA.header.merkleRoot :=
  doubleSha256_eq (by decide +kernel)

theorem validOn_blockA : ValidOn manager 1790000000 blockA genesis [] := by
  refine validOn_block genesis_hash rfl rfl (by decide) (by decide) hash_coinbaseA ?_ (by decide)
  change (hashValue blockA.hash : ℤ) ≤ _
  rw [blockA_hash, blockAHash, hashValue_hash (by decide)]
  decide

theorem hash_ne_blockA : ∀ x ∈ [genesis], x.hash ≠ blockA.hash := by
  intro x hx
  rw [List.mem_singleton.mp hx, genesis_hash, blockA_hash]
  decide

theorem blockA_unstored : afterGenesis.store.lookup (Key.blockHash blockA.hash) = none := by
  have hne := hash_ne_blockA genesis List.mem_cons_self
  rw [afterGenesis, DB.lookup_blockHash_extend, if_neg hne.symm]
  rfl

theorem tip_afterGenesis : DB.tip afterGenesis.store = .ok genesis.hash := DB.tip_extend ∅ genesis

theorem tip_ne_blockA : DB.tip afterGenesis.store ≠ .ok blockA.hash := by
  rw [tip_afterGenesis]
  exact fun heq ↦ hash_ne_blockA genesis List.mem_cons_self (Except.ok.inj heq)

theorem tip_afterA : DB.tip afterA.store = .ok blockA.hash := DB.tip_extend _ blockA

theorem blockA_returns :
    (manager.validateAndApplyBlock 1790000000 1 blockA).run exec afterGenesis =
      (.ok (), afterA) := by
  have hstart : Run manager PositiveHeight genesis [genesis] afterGenesis := .start starts
  obtain ⟨n', hcall, hstore, hmempool, -⟩ := hstart.extend (fun _ _ _ h ↦ h)
    validOn_blockA.height validOn_blockA genesis_inLimits hash_ne_blockA 1
  have hn' : n' = ⟨n'.store, none⟩ := congrArg (Node.mk n'.store) hmempool
  rw [hcall, afterA, ← hstore, ← hn']

/-- The run that delivers one block. -/
theorem runA {allowed : Node → ℤ → Block → Prop} (h : allowed afterGenesis 1790000000 blockA) :
    Run manager allowed genesis [blockA, genesis] afterA := by
  have hrun := Run.call (.start starts) h blockA_returns nofun
  rwa [tipsAfter, if_pos ⟨tip_ne_blockA, tip_afterA⟩] at hrun

theorem blockA_inLimits : blockA.InLimits := by decide +kernel

theorem getBlock_blockA : DB.getBlock afterA.store blockA.hash = .ok blockA := by
  have hrun : Run manager PositiveHeight genesis [blockA, genesis] afterA :=
    runA validOn_blockA.height
  obtain ⟨-, hholds⟩ := hrun.holds fun _ _ _ h ↦ h
  exact hholds.getBlock_of_mem List.mem_cons_self blockA_inLimits

/-- The record that a coinbase with some hash leaves. -/
def coin (root : Hash) (height : UInt64) (byte : UInt8) : UTXO where
  txHash := root
  outputIdx := 0
  amount := initialReward
  script := script byte
  height := height
  coinbase := true

/-- A block with nothing but a coinbase sets one record. -/
theorem blockOps_block {prevHash root : Hash} {height : UInt64} {now : Int64} {byte : UInt8}
    {nonce : UInt64}
    (hroot : (newCoinbase (Manager.minedAt now) initialReward (script byte)).hash = root) :
    Ledger.blockOps (block prevHash root height now byte nonce) =
      [Ledger.setRecord (coin root height byte)] := by
  subst hroot
  rfl

theorem created_block {prevHash root : Hash} {height : UInt64} {now : Int64} {byte : UInt8}
    {nonce : UInt64}
    (hroot : (newCoinbase (Manager.minedAt now) initialReward (script byte)).hash = root) :
    Ledger.created (block prevHash root height now byte nonce) = [⟨root, 0⟩] := by
  subst hroot
  rfl

theorem created_blockA : Ledger.created blockA = [⟨blockA.header.merkleRoot, 0⟩] :=
  created_block hash_coinbaseA

theorem blockOps_blockA : Ledger.blockOps blockA =
    [Ledger.setRecord (coin blockA.header.merkleRoot 1 0x11)] :=
  blockOps_block hash_coinbaseA

/-- The output of genesis as a record. -/
def genesisCoin : UTXO where
  txHash := genesis.header.merkleRoot
  outputIdx := 0
  amount := initialReward
  script := .ofList "genesis".toUTF8.toList
  height := 0
  coinbase := true

theorem replay_genesis :
    Ledger.replay [genesis] = (∅ : Ledger).insert genesisCoin.outpoint ⟨genesisCoin, rfl⟩ := by
  have hops : Ledger.blockOps genesis = [Ledger.setRecord
      { genesisCoin with txHash := genesisCoinbase.hash }] := rfl
  rw [Ledger.replay, Ledger.apply, hops, hash_genesisCoinbase]
  rfl

theorem utxos_genesis : DB.utxos (DB.extend ∅ genesis) = Ledger.replay [genesis] :=
  DB.utxos_extend ∅ genesis

/-- Only the output of genesis is there on top of it. -/
theorem lookup_genesis {outpoint : Outpoint} (h : outpoint.hash ≠ genesis.header.merkleRoot) :
    (DB.utxos afterGenesis.store).lookup outpoint = none := by
  have hne : outpoint ≠ genesisCoin.outpoint := fun heq ↦ h (congrArg Outpoint.hash heq)
  rw [afterGenesis, utxos_genesis, replay_genesis, Finmap.lookup_insert_of_ne _ hne]
  rfl

/-- Block A creates an outpoint that is new on top of genesis. -/
theorem blockA_absent : ∀ outpoint ∈ Ledger.created blockA,
    (DB.utxos afterGenesis.store).lookup outpoint = none := by
  rw [created_blockA]
  intro outpoint hmem
  rw [List.mem_singleton.mp hmem]
  exact lookup_genesis (by decide)

end Regtest

end NevelCore
