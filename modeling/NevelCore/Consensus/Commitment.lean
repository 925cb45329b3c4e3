import NevelCore.Consensus.Passing
import NevelCore.Foundations.PairTree

/-!
# What the Merkle root commits to

The root of `BuildMerkleRoot` alone does not determine the transactions: the last hash of an odd
level is paired with itself, and leaves and inner nodes are hashed alike. The transaction rules
exclude both. They do so for any reader of unspent outputs, so that nothing is asked of the machine
the rules run on.

`Body.of_validateBlockTransactionsAt` is what passing the rules says about the transactions
themselves: a coinbase in front and no other, at least one input each, and no outpoint spent twice.
Therefore no transaction is repeated (`Body.nodup`) and every wire form is longer than an inner node
(`Body.length_le`). `root_buildMerkleRoot` says that the root is that of the tree of paired hashes.
`buildMerkleRoot_commits` puts this together: two lists of transactions that pass have different
roots or are equal, unless two of the byte strings hashed for them collide.
-/

set_option autoImplicit false
set_option relaxedAutoImplicit false

namespace NevelCore

open Foundations

/-! ### The transactions of a block that passes -/

/-- Transactions as the rules leave them: a coinbase and others that have inputs and spend nothing
twice. -/
structure Body (txs : List Transaction) : Prop where
  coinbase : ∃ coinbase others, txs = coinbase :: others ∧ coinbase.isCoinbase = true ∧
    ∀ t ∈ others, t.isCoinbase = false
  inputs : ∀ t ∈ txs, t.inputs.toList ≠ []
  spent : (txs.tail.flatMap Transaction.spent).Nodup

theorem inputs_ne_nil_of_isCoinbase {t : Transaction} (h : t.isCoinbase = true) :
    t.inputs.toList ≠ [] := by
  intro hnil
  rw [Transaction.isCoinbase, hnil] at h
  cases h

theorem Body.of_validateBlockTransactionsAt {S : Signature} {σ : Type} {exec : Machine S σ}
    {s s' : σ} {utxos : UTXOReader S} {verifier : Option SignatureVerifier} {spendHeight : UInt64}
    {b : Block}
    (h : (validateBlockTransactionsAt b utxos verifier spendHeight).run exec s = (.ok (), s')) :
    Body b.transactions.toList := by
  unfold validateBlockTransactionsAt at h
  split at h
  · cases h
  next coinbase txs htxs =>
  split_ifs at h with hcoinbase
  · cases h
  obtain ⟨fees, mid, hfees, -⟩ := Prog.run_bind_eq_ok h
  obtain ⟨hall, hnodup⟩ := validateFees_spent hfees
  have hcoinbase : coinbase.isCoinbase = true := by simpa using hcoinbase
  refine ⟨⟨coinbase, txs, htxs, hcoinbase, fun t ht ↦ (hall t ht).1⟩, ?_, ?_⟩
  · rw [htxs, List.forall_mem_cons]
    exact ⟨inputs_ne_nil_of_isCoinbase hcoinbase, fun t ht ↦ (hall t ht).2⟩
  · rw [htxs, List.tail_cons]
    exact (List.nodup_append.mp (hnodup List.nodup_nil)).1

/-- Transactions that have inputs and spend nothing twice are distinct. -/
theorem nodup_of_spent {txs : List Transaction} (hinputs : ∀ t ∈ txs, t.inputs.toList ≠ [])
    (hspent : (txs.flatMap Transaction.spent).Nodup) : txs.Nodup := by
  induction txs with
  | nil => exact List.nodup_nil
  | cons t txs ih =>
    obtain ⟨ht, htxs⟩ := List.forall_mem_cons.mp hinputs
    rw [List.flatMap_cons, List.nodup_append] at hspent
    refine List.nodup_cons.mpr ⟨fun hmem ↦ ?_, ih htxs hspent.2.1⟩
    -- An outpoint of the transaction would be spent by its second occurrence as well.
    obtain ⟨input, hinput⟩ := List.exists_mem_of_ne_nil _ ht
    have hmap : input.outpoint ∈ t.spent := List.mem_map_of_mem hinput
    exact hspent.2.2 _ hmap _ (List.mem_flatMap.mpr ⟨t, hmem, hmap⟩) rfl

theorem Body.nodup {txs : List Transaction} (h : Body txs) : txs.Nodup := by
  obtain ⟨coinbase, others, rfl, hcoinbase, hothers⟩ := h.coinbase
  refine List.nodup_cons.mpr ⟨fun hmem ↦ ?_, nodup_of_spent ?_ h.spent⟩
  · rw [hothers coinbase hmem] at hcoinbase
    cases hcoinbase
  · exact fun t ht ↦ h.inputs t (List.mem_cons_of_mem coinbase ht)

/-- The wire form of a transaction with an input is longer than two hashes. -/
theorem Body.length_le {txs : List Transaction} (h : Body txs) {t : Transaction} (ht : t ∈ txs) :
    80 ≤ (serializeTransaction t).length := by
  obtain ⟨input, inputs, hinputs⟩ := List.exists_cons_of_ne_nil (h.inputs t ht)
  rw [serializeTransaction, hinputs, List.flatMap_cons, writeInput]
  simp only [writeUInt32, writeVarBytesList, writeUInt64, writeBytes, List.length_append,
    length_leBytes, input.prevTxHash.length_eq]
  omega

/-! ### The tree of hashes -/

/-- The 64 bytes hashed for a pair of nodes. -/
def pairString (p : Hash × Hash) : List UInt8 := p.1.toList ++ p.2.toList

/-- The hash of a pair of nodes. -/
def hashPair (p : Hash × Hash) : Hash := doubleSha256 (pairString p)

/-- The pairs whose hashes `merkleLoop` computes. -/
def merklePairs : ℕ → List Hash → List (Hash × Hash)
  | 0, _ => []
  | fuel + 1, hashes =>
    if hashes.length > 1 then PairTree.pairUp hashes ++ merklePairs fuel (merkleLevel hashes)
    else []

/-- The byte strings that `BuildMerkleRoot` hashes twice: the wire forms of the transactions, and
the pairs of nodes of every level. -/
def hashedStrings (txs : List Transaction) : List (List UInt8) :=
  txs.map serializeTransaction ++
    (merklePairs txs.length (txs.map Transaction.hash)).map pairString

theorem pairString_injective : Function.Injective pairString := by
  rintro ⟨a, b⟩ ⟨a', b'⟩ h
  obtain ⟨ha, hb⟩ := List.append_inj h (a.length_eq.trans a'.length_eq.symm)
  exact Prod.ext (Bytes32.ext ha) (Bytes32.ext hb)

theorem length_pairString (p : Hash × Hash) : (pairString p).length = 64 := by
  rw [pairString, List.length_append, p.1.length_eq, p.2.length_eq]

theorem merkleLevel_eq_level (hashes : List Hash) :
    merkleLevel hashes = PairTree.level hashPair hashes := by
  induction hashes using merkleLevel.induct with
  | case1 first second rest ih =>
    rw [merkleLevel, ih]
    rfl
  | case2 last => rfl
  | case3 => rfl

/-- Every level is shorter than the one below it. -/
theorem length_merkleLevel_lt {hashes : List Hash} (h : 1 < hashes.length) :
    0 < (merkleLevel hashes).length ∧ (merkleLevel hashes).length < hashes.length := by
  rw [merkleLevel_eq_level, PairTree.length_level]
  omega

/-- With as many rounds as there are hashes the loop ends at the root of the tree. -/
theorem root_merkleLoop {fuel : ℕ} {hashes : List Hash} (hpos : 0 < hashes.length)
    (hfuel : hashes.length ≤ fuel) :
    PairTree.Root hashPair hashes (merkleLoop fuel hashes) := by
  induction fuel generalizing hashes with
  | zero => omega
  | succ fuel ih =>
    rw [merkleLoop]
    split_ifs with hlength
    · obtain ⟨hlevelPos, hlevel⟩ := length_merkleLevel_lt hlength
      have hroot := ih hlevelPos (by omega)
      rw [merkleLevel_eq_level] at hroot
      exact .up hlength (merkleLevel_eq_level hashes ▸ hroot)
    · obtain ⟨hash, rfl⟩ := List.length_eq_one_iff.mp (by omega : hashes.length = 1)
      exact .leaf hash

/-- The pairs combined in the tree are those that the loop hashes. -/
theorem mem_merklePairs {fuel : ℕ} {hashes : List Hash} {p : Hash × Hash}
    (h : PairTree.Inner hashPair hashes p) (hfuel : hashes.length ≤ fuel) :
    p ∈ merklePairs fuel hashes := by
  induction fuel generalizing hashes with
  | zero =>
    cases h with
    | here hlength _ => omega
    | up hlength _ => omega
  | succ fuel ih =>
    cases h with
    | here hlength h =>
      rw [merklePairs, if_pos hlength]
      exact List.mem_append_left _ h
    | up hlength h =>
      obtain ⟨-, hlevel⟩ := length_merkleLevel_lt hlength
      rw [merklePairs, if_pos hlength]
      rw [← merkleLevel_eq_level] at h
      exact List.mem_append_right _ (ih h (by omega))

theorem root_buildMerkleRoot {txs : List Transaction} (h : Body txs) :
    PairTree.Root hashPair (txs.map Transaction.hash) (buildMerkleRoot txs) := by
  obtain ⟨coinbase, others, rfl, -⟩ := h.coinbase
  refine root_merkleLoop ?_ ?_
  · rw [List.length_map, List.length_cons]
    exact Nat.succ_pos _
  · rw [List.length_map]

theorem serializeTransaction_mem_hashedStrings {txs : List Transaction} {t : Transaction}
    (h : t ∈ txs) : serializeTransaction t ∈ hashedStrings txs :=
  List.mem_append_left _ (List.mem_map_of_mem h)

theorem pairString_mem_hashedStrings {txs : List Transaction} {p : Hash × Hash}
    (h : PairTree.Inner hashPair (txs.map Transaction.hash) p) :
    pairString p ∈ hashedStrings txs := by
  refine List.mem_append_right _ (List.mem_map_of_mem (mem_merklePairs h ?_))
  rw [List.length_map]

/-! ### The commitment -/

section Commitment

variable {txs txs' : List Transaction}

/-- No two of the strings hashed for two lists of transactions collide. -/
def CollisionFree (txs txs' : List Transaction) : Prop :=
  Set.InjOn doubleSha256 {x | x ∈ hashedStrings txs ++ hashedStrings txs'}

theorem CollisionFree.symm (h : CollisionFree txs txs') : CollisionFree txs' txs := by
  refine Set.InjOn.mono (fun x hx ↦ ?_) h
  exact List.mem_append.mpr (List.mem_append.mp hx).symm

/-- Without a collision the hashes determine the transactions. -/
theorem CollisionFree.hash_injOn (h : CollisionFree txs txs') :
    Set.InjOn Transaction.hash {t | t ∈ txs ∨ t ∈ txs'} := by
  intro t ht t' ht' heq
  have hmem : ∀ t, t ∈ txs ∨ t ∈ txs' →
      serializeTransaction t ∈ hashedStrings txs ++ hashedStrings txs' := by
    intro t ht
    exact List.mem_append.mpr
      (ht.imp serializeTransaction_mem_hashedStrings serializeTransaction_mem_hashedStrings)
  exact serializeTransaction_injective (h (hmem t ht) (hmem t' ht') heq)

/-- Without a collision the hashes determine the pairs of nodes. -/
theorem CollisionFree.hashPair_injOn (h : CollisionFree txs txs') :
    Set.InjOn hashPair {p | PairTree.Inner hashPair (txs.map Transaction.hash) p ∨
      PairTree.Inner hashPair (txs'.map Transaction.hash) p} := by
  intro p hp q hq heq
  have hmem : ∀ p, PairTree.Inner hashPair (txs.map Transaction.hash) p ∨
      PairTree.Inner hashPair (txs'.map Transaction.hash) p →
        pairString p ∈ hashedStrings txs ++ hashedStrings txs' := by
    intro p hp
    exact List.mem_append.mpr (hp.imp pairString_mem_hashedStrings pairString_mem_hashedStrings)
  exact pairString_injective (h (hmem p hp) (hmem q hq) heq)

/-- Without a collision no transaction is taken for a pair of nodes: its wire form is longer. -/
theorem CollisionFree.not_combined (h : CollisionFree txs txs') (hbody : Body txs) {hash : Hash}
    (hhash : hash ∈ txs.map Transaction.hash) :
    ¬ PairTree.Combined hashPair (txs'.map Transaction.hash) hash := by
  rintro ⟨p, hp, heq⟩
  obtain ⟨t, ht, rfl⟩ := List.mem_map.mp hhash
  have hstrings : pairString p = serializeTransaction t :=
    h (List.mem_append_right _ (pairString_mem_hashedStrings hp))
      (List.mem_append_left _ (serializeTransaction_mem_hashedStrings ht)) heq
  have hlength := hbody.length_le ht
  rw [← hstrings, length_pairString] at hlength
  omega

/-- Without a collision the root determines the transactions. -/
theorem CollisionFree.eq_of_root (h : CollisionFree txs txs') (hbody : Body txs)
    (hbody' : Body txs') (hroot : buildMerkleRoot txs = buildMerkleRoot txs') : txs = txs' := by
  have hinj := h.hash_injOn
  have hnodup : (txs.map Transaction.hash).Nodup :=
    hbody.nodup.map_on fun t ht t' ht' heq ↦ hinj (Or.inl ht) (Or.inl ht') heq
  have hnodup' : (txs'.map Transaction.hash).Nodup :=
    hbody'.nodup.map_on fun t ht t' ht' heq ↦ hinj (Or.inr ht) (Or.inr ht') heq
  have htree := root_buildMerkleRoot hbody
  rw [hroot] at htree
  have hhashes : txs.map Transaction.hash = txs'.map Transaction.hash :=
    htree.inj (root_buildMerkleRoot hbody') hnodup hnodup' h.hashPair_injOn
      (fun _ hmem ↦ h.not_combined hbody hmem) fun _ hmem ↦ h.symm.not_combined hbody' hmem
  exact PairTree.map_injOn hinj (fun _ ht ↦ Or.inl ht) (fun _ ht ↦ Or.inr ht) hhashes

end Commitment

/-- The Merkle root commits to the transactions of a block that passes the transaction rules. Two
blocks that pass, against whatever unspent outputs and at whatever heights, with the same root have
the same transactions, or two different strings hashed for them have the same hash. -/
theorem buildMerkleRoot_commits {S S' : Signature} {σ σ' : Type} {exec : Machine S σ}
    {exec' : Machine S' σ'} {utxos : UTXOReader S} {utxos' : UTXOReader S'}
    {verifier verifier' : Option SignatureVerifier} {spendHeight spendHeight' : UInt64}
    {s s₁ : σ} {s' s₁' : σ'} {b b' : Block}
    (h : (validateBlockTransactionsAt b utxos verifier spendHeight).run exec s = (.ok (), s₁))
    (h' : (validateBlockTransactionsAt b' utxos' verifier' spendHeight').run exec' s' =
      (.ok (), s₁'))
    (hroot : buildMerkleRoot b.transactions.toList = buildMerkleRoot b'.transactions.toList) :
    b.transactions.toList = b'.transactions.toList ∨
      ∃ x ∈ hashedStrings b.transactions.toList ++ hashedStrings b'.transactions.toList,
        ∃ y ∈ hashedStrings b.transactions.toList ++ hashedStrings b'.transactions.toList,
          x ≠ y ∧ doubleSha256 x = doubleSha256 y := by
  by_cases hfree : CollisionFree b.transactions.toList b'.transactions.toList
  · exact Or.inl (hfree.eq_of_root (.of_validateBlockTransactionsAt h)
      (.of_validateBlockTransactionsAt h') hroot)
  · right
    unfold CollisionFree Set.InjOn at hfree
    push Not at hfree
    obtain ⟨x, hx, y, hy, heq, hne⟩ := hfree
    exact ⟨x, hx, y, hy, hne, heq⟩

namespace Sample

/-- Spends one of the outputs under the zero hash. -/
def spendOf (idx : UInt32) : Transaction where
  version := 1
  inputs := .ofList [⟨Bytes32.zero, idx, .ofList [], .ofList []⟩]
  outputs := .ofList [⟨1800, .ofList []⟩]
  lockTime := 0

/-- The reader that knows two outputs under the zero hash. -/
def twoOutputs (height : UInt64) (coinbase : Bool) : UTXOReader ⟨Empty, fun _ ↦ Unit⟩ :=
  fun hash idx ↦ pure (if hash = Bytes32.zero ∧ idx < 2 then
    .ok ⟨hash, idx, 2000, .ofList [], height, coinbase⟩ else .error .notFound)

/-- A block with a coinbase and transactions that spend outputs under the zero hash. -/
def spending (height : UInt64) (idxs : List UInt32) : Block where
  header := ⟨1, Bytes32.zero, Bytes32.zero, 0, 0, 0, height⟩
  transactions := .ofList (newCoinbase "" 50_000_000_000 (.ofList []) :: idxs.map spendOf)

end Sample

/-- Two blocks with the same three transactions pass at different heights, against different outputs
and with different verifiers. -/
theorem buildMerkleRoot_commits_sample :
    (validateBlockTransactionsAt (Sample.spending 101 [0, 1]) (Sample.twoOutputs 1 true) none
        101).run noCalls () = (.ok (), ()) ∧
      (validateBlockTransactionsAt (Sample.spending 500 [0, 1]) (Sample.twoOutputs 400 false)
        (some fun _ _ _ ↦ true) 501).run noCalls () = (.ok (), ()) ∧
      ((Sample.spending 101 [0, 1]).transactions.toList =
          (Sample.spending 500 [0, 1]).transactions.toList ∨
        ∃ x ∈ hashedStrings (Sample.spending 101 [0, 1]).transactions.toList ++
            hashedStrings (Sample.spending 500 [0, 1]).transactions.toList,
          ∃ y ∈ hashedStrings (Sample.spending 101 [0, 1]).transactions.toList ++
              hashedStrings (Sample.spending 500 [0, 1]).transactions.toList,
            x ≠ y ∧ doubleSha256 x = doubleSha256 y) := by
  have hfirst : (validateBlockTransactionsAt (Sample.spending 101 [0, 1]) (Sample.twoOutputs 1 true)
      none 101).run noCalls () = (.ok (), ()) := rfl
  have hsecond : (validateBlockTransactionsAt (Sample.spending 500 [0, 1])
      (Sample.twoOutputs 400 false) (some fun _ _ _ ↦ true) 501).run noCalls () = (.ok (), ()) :=
    rfl
  exact ⟨hfirst, hsecond, buildMerkleRoot_commits hfirst hsecond rfl⟩

-- With its last transaction twice the block has the same root, but does not pass.
example : buildMerkleRoot (Sample.spending 101 [0, 1]).transactions.toList =
      buildMerkleRoot (Sample.spending 101 [0, 1, 1]).transactions.toList ∧
    (validateBlockTransactionsAt (Sample.spending 101 [0, 1, 1]) (Sample.twoOutputs 1 true) none
      101).run noCalls () = (.error (.error .doubleSpend), ()) := ⟨rfl, rfl⟩

end NevelCore
