import NevelCore.Tx.Transaction
import NevelCore.Params.Network

/-!
# Blocks and their wire form

The block type of `blockchain/block.go`: the header hash, the Merkle root of the transactions and
the wire form of a block, and the genesis block of `blockchain/genesis.go`. The clock is an argument
of `newBlock`. `readBlock_inverts` is the exact relation of reader and writer, and
`deserializeBlock_serializeBlock` says what a stored block reads back as.

The two main results are about the wire form as a whole. `readBlock_serializeBlock` says that every
block within the limits is read back with the following bytes untouched and starts with the 96 bytes
that are hashed. `readBlock_consumes` says of arbitrary bytes that what is taken is the one wire
form of what is returned.
-/

set_option autoImplicit false
set_option relaxedAutoImplicit false

namespace NevelCore

open Foundations

structure BlockHeader where
  version : UInt32
  prevHash : Hash
  merkleRoot : Hash
  timestamp : Int64
  bits : UInt32
  nonce : UInt64
  height : UInt64
deriving DecidableEq

structure Block where
  header : BlockHeader
  transactions : Slice Transaction
deriving DecidableEq

/-- The bytes that `BlockHeader.Hash` puts together and hashes twice. -/
def BlockHeader.preimage (h : BlockHeader) : List UInt8 :=
  leBytes 4 h.version.toNat ++ h.prevHash.toList ++ h.merkleRoot.toList ++
    leBytes 8 h.timestamp.toUInt64.toNat ++ leBytes 4 h.bits.toNat ++ leBytes 8 h.nonce.toNat ++
    leBytes 8 h.height.toNat

def BlockHeader.hash (h : BlockHeader) : Hash := doubleSha256 h.preimage

def Block.hash (b : Block) : Hash := b.header.hash

/-- `WriteHeader`. -/
def writeHeader (h : BlockHeader) : List UInt8 :=
  writeUInt32 h.version ++ (h.prevHash.toList ++ (h.merkleRoot.toList ++
    (writeInt64 h.timestamp ++ (writeUInt32 h.bits ++
      (writeUInt64 h.nonce ++ writeUInt64 h.height)))))

/-! ### The Merkle root -/

/-- The next level of the Merkle tree. A last hash without partner is paired with itself. -/
def merkleLevel : List Hash → List Hash
  | first :: second :: rest => doubleSha256 (first.toList ++ second.toList) :: merkleLevel rest
  | [last] => [doubleSha256 (last.toList ++ last.toList)]
  | [] => []

/-- Replaces the hashes by the next level, at most `fuel` times, until one is left. -/
def merkleLoop : ℕ → List Hash → Hash
  | 0, hashes => hashes.headD Bytes32.zero
  | fuel + 1, hashes =>
    if hashes.length > 1 then merkleLoop fuel (merkleLevel hashes) else hashes.headD Bytes32.zero

/-- `BuildMerkleRoot`. Every level is shorter than the one below it, so that as many levels as there
are transactions are enough. -/
def buildMerkleRoot (txs : List Transaction) : Hash :=
  merkleLoop txs.length (txs.map Transaction.hash)

/-- `NewBlock`, at a clock reading. -/
def newBlock (now : Int64) (prev : Hash) (height : UInt64) (bits : UInt32)
    (txs : Slice Transaction) : Block where
  header := {
    version := 1
    prevHash := prev
    merkleRoot := buildMerkleRoot txs.toList
    timestamp := now
    bits := bits
    nonce := 0
    height := height }
  transactions := txs

def genesisMessage : String := "NEVEL: The global money network begins."

/-- `CreateGenesisBlock`. -/
def createGenesisBlock (net : Network) : Block :=
  let coinbase := newCoinbase genesisMessage initialReward (.ofList "genesis".toUTF8.toList)
  { header := {
      version := 1
      prevHash := Bytes32.zero
      merkleRoot := buildMerkleRoot [coinbase]
      timestamp := 1780000000
      bits := net.genesisBits
      nonce := 0
      height := 0 }
    transactions := .ofList [coinbase] }

/-! ### The wire form -/

/-- `SerializeBlock`. -/
def serializeBlock (b : Block) : List UInt8 :=
  writeHeader b.header ++ (writeUInt64 (UInt64.ofNat b.transactions.toList.length) ++
    b.transactions.toList.flatMap serializeTransaction)

def readHeader : Reader BlockHeader := do
  let version ← readUInt32
  let prevHash ← readBytes32
  let merkleRoot ← readBytes32
  let timestamp ← readInt64
  let bits ← readUInt32
  let nonce ← readUInt64
  let height ← readUInt64
  pure { version, prevHash, merkleRoot, timestamp, bits, nonce, height }

/-- `ReadBlock`. -/
def readBlock : Reader Block := do
  let header ← readHeader
  let n ← readUInt64
  if h : n.toNat > 100_000 then .fail (.limit "too many block transactions" n.toNat)
  else
    let transactions ← readMany readTransaction n.toNat
    pure { header, transactions := ⟨transactions.val, by rw [transactions.property]; omega⟩ }

/-- `DeserializeBlock`: bytes after the block are not looked at. -/
def deserializeBlock (data : List UInt8) : Except Err Block :=
  match readBlock.run data with
  | .ok (b, _) => .ok b
  | .error e => .error (.decode e)

/-- The blocks the reader accepts. -/
def Block.InLimits (b : Block) : Prop :=
  b.transactions.toList.length ≤ 100_000 ∧ ∀ t ∈ b.transactions.toList, t.InLimits

instance (b : Block) : Decidable b.InLimits := inferInstanceAs (Decidable (_ ∧ _))

theorem readHeader_write (h : BlockHeader) (rest : List UInt8) :
    readHeader.run (writeHeader h ++ rest) = .ok (h, rest) := by
  rw [writeHeader, readHeader, List.append_assoc, Reader.bind_of_ok (readUInt32_write _ _),
    List.append_assoc, Reader.bind_of_ok (readBytes32_append _ _), List.append_assoc,
    Reader.bind_of_ok (readBytes32_append _ _), List.append_assoc,
    Reader.bind_of_ok (readInt64_write _ _), List.append_assoc,
    Reader.bind_of_ok (readUInt32_write _ _), List.append_assoc,
    Reader.bind_of_ok (readUInt64_write _ _), Reader.bind_of_ok (readUInt64_write _ _)]
  rfl

/-- The reader of blocks inverts their writer exactly within its limits. -/
theorem readBlock_inverts : Inverts serializeBlock readBlock Block.InLimits := by
  have hmany : ∀ {count : ℕ} {txs : List Transaction} (_ : txs.length = count) (rest : List UInt8),
      (∀ t ∈ txs, t.InLimits) → ∃ h, (readMany readTransaction count).run
        (txs.flatMap serializeTransaction ++ rest) = .ok (⟨txs, h⟩, rest) := by
    rintro count txs rfl rest htxs
    exact ⟨rfl, readMany_accepts readTransaction_inverts htxs rest⟩
  constructor
  · rintro b rest ⟨hcount, htxs⟩
    obtain ⟨hlength, hread⟩ := hmany (toNat_ofNat_length b.transactions).symm rest htxs
    rw [serializeBlock, readBlock, List.append_assoc, Reader.bind_of_ok (readHeader_write _ _),
      List.append_assoc, Reader.bind_of_ok (readUInt64_write _ _),
      dif_neg (by rw [toNat_ofNat_length]; omega), Reader.bind_of_ok hread]
    rfl
  · intro b rest hlimits
    rw [serializeBlock, readBlock, List.append_assoc, Reader.bind_of_ok (readHeader_write _ _),
      List.append_assoc, Reader.bind_of_ok (readUInt64_write _ _)]
    by_cases hcount : b.transactions.toList.length ≤ 100_000
    · have htxs : ¬ ∀ t ∈ b.transactions.toList, t.InLimits := fun htxs ↦ hlimits ⟨hcount, htxs⟩
      obtain ⟨e, he⟩ := readMany_refuses readTransaction_inverts htxs rest
      rw [dif_neg (by rw [toNat_ofNat_length]; omega)]
      rw [← toNat_ofNat_length b.transactions] at he
      exact ⟨e, Reader.bind_of_error he⟩
    · rw [dif_pos (by rw [toNat_ofNat_length]; omega)]
      exact ⟨_, rfl⟩

/-- A block within the limits reads back as itself. -/
theorem deserializeBlock_serializeBlock {b : Block} (h : b.InLimits) :
    deserializeBlock (serializeBlock b) = .ok b := by
  have hread := readBlock_inverts.accepts b [] h
  rw [List.append_nil] at hread
  rw [deserializeBlock, hread]

/-- A block outside the limits does not read back. -/
theorem deserializeBlock_serializeBlock_error {b : Block} (h : ¬ b.InLimits) :
    ∃ e, deserializeBlock (serializeBlock b) = .error e := by
  obtain ⟨e, he⟩ := readBlock_inverts.refuses b [] h
  rw [List.append_nil] at he
  exact ⟨.decode e, by rw [deserializeBlock, he]⟩

/-- What a stored block reads back as, if it does, is the block itself. -/
theorem eq_of_deserializeBlock_serializeBlock {b b' : Block}
    (h : deserializeBlock (serializeBlock b) = .ok b') : b' = b ∧ b.InLimits := by
  by_cases hlimits : b.InLimits
  · rw [deserializeBlock_serializeBlock hlimits] at h
    exact ⟨(Except.ok.inj h).symm, hlimits⟩
  · obtain ⟨e, he⟩ := deserializeBlock_serializeBlock_error hlimits
    rw [he] at h
    cases h

/-- The two routines that put a header together write the same bytes. -/
theorem writeHeader_eq_preimage (h : BlockHeader) : writeHeader h = h.preimage := by
  rw [writeHeader, BlockHeader.preimage]
  simp only [writeUInt32, writeInt64, writeUInt64, List.append_assoc]

theorem length_preimage (h : BlockHeader) : h.preimage.length = 96 := by
  unfold BlockHeader.preimage
  simp only [List.length_append, length_leBytes, h.prevHash.length_eq, h.merkleRoot.length_eq]

/-- Decoding undoes encoding for every block and every transaction within the limits, whatever
bytes follow, and the encoding of a block starts with the bytes that its hash is taken of. -/
theorem readBlock_serializeBlock {b : Block} (hb : b.InLimits) {t : Transaction}
    (ht : t.InLimits) (rest : List UInt8) :
    readBlock.run (serializeBlock b ++ rest) = .ok (b, rest) ∧
      readTransaction.run (serializeTransaction t ++ rest) = .ok (t, rest) ∧
      (serializeBlock b).take 96 = b.header.preimage ∧
      b.hash = doubleSha256 ((serializeBlock b).take 96) := by
  have htake : (serializeBlock b).take 96 = b.header.preimage := by
    rw [serializeBlock, writeHeader_eq_preimage, ← length_preimage b.header, List.take_left]
  refine ⟨readBlock_inverts.accepts b rest hb, readTransaction_inverts.accepts t rest ht, htake, ?_⟩
  rw [htake]
  rfl

/-- The genesis block and its transaction are within the limits. -/
theorem genesis_withinLimits : (createGenesisBlock mainnet).InLimits ∧
    (newCoinbase genesisMessage initialReward (.ofList "genesis".toUTF8.toList)).InLimits := by
  decide +kernel

theorem readBlock_serializeBlock_genesis :
    (createGenesisBlock mainnet).InLimits ∧
      readBlock.run (serializeBlock (createGenesisBlock mainnet) ++ [7]) =
        .ok (createGenesisBlock mainnet, [7]) :=
  ⟨genesis_withinLimits.1,
    (readBlock_serializeBlock genesis_withinLimits.1 genesis_withinLimits.2 [7]).1⟩

/-! ### What the reader accepts -/

theorem readHeader_canonical : Canonical writeHeader readHeader fun _ ↦ True := by
  intro input header rest h
  obtain ⟨version, _, hversion, h⟩ := Reader.bind_eq_ok h
  obtain ⟨prevHash, _, hprev, h⟩ := Reader.bind_eq_ok h
  obtain ⟨merkleRoot, _, hroot, h⟩ := Reader.bind_eq_ok h
  obtain ⟨timestamp, _, htime, h⟩ := Reader.bind_eq_ok h
  obtain ⟨bits, _, hbits, h⟩ := Reader.bind_eq_ok h
  obtain ⟨nonce, _, hnonce, h⟩ := Reader.bind_eq_ok h
  obtain ⟨height, _, hheight, h⟩ := Reader.bind_eq_ok h
  cases h
  refine ⟨?_, trivial⟩
  rw [(readUInt32_canonical hversion).1, (readBytes32_canonical hprev).1,
    (readBytes32_canonical hroot).1, (readInt64_canonical htime).1, (readUInt32_canonical hbits).1,
    (readUInt64_canonical hnonce).1, (readUInt64_canonical hheight).1, writeHeader]
  simp only [List.append_assoc]

/-- Whatever the reader of blocks takes is the wire form of what it returns. -/
theorem readBlock_canonical : Canonical serializeBlock readBlock Block.InLimits := by
  intro input b rest h
  obtain ⟨header, _, hheader, h⟩ := Reader.bind_eq_ok h
  obtain ⟨n, _, hcount, h⟩ := Reader.bind_eq_ok h
  split_ifs at h with hn
  · cases h
  obtain ⟨⟨txs, hlength⟩, _, htxs, h⟩ := Reader.bind_eq_ok h
  cases h
  obtain ⟨htxsBytes, hlimits⟩ := readMany_canonical readTransaction_canonical htxs
  have hn' : UInt64.ofNat txs.length = n := by rw [hlength, UInt64.ofNat_toNat]
  constructor
  · rw [(readHeader_canonical hheader).1, (readUInt64_canonical hcount).1, htxsBytes,
      serializeBlock, hn']
    simp only [List.append_assoc]
  · exact ⟨le_of_eq_of_le hlength (Nat.le_of_not_lt hn), hlimits⟩

/-- What `deserializeBlock` succeeds on. -/
theorem deserializeBlock_eq_ok {data : List UInt8} {b : Block}
    (h : deserializeBlock data = .ok b) : ∃ rest, readBlock.run data = .ok (b, rest) := by
  unfold deserializeBlock at h
  split at h
  · rename_i b' rest hread
    cases h
    exact ⟨rest, hread⟩
  · cases h

/-- The wire form is canonical. Bytes that decode to a block or a transaction start with its
encoding, which is what was consumed; the result is within every limit; and a block has only one
encoding with nothing left over. -/
theorem readBlock_consumes :
    (∀ data b, deserializeBlock data = .ok b → ∃ rest, readBlock.run data = .ok (b, rest) ∧
      data = serializeBlock b ++ rest ∧ b.InLimits) ∧
    (∀ data t, deserializeTransaction data = .ok t → ∃ rest,
      readTransaction.run data = .ok (t, rest) ∧ data = serializeTransaction t ++ rest ∧
        t.InLimits) ∧
    ∀ data data' b, data.length = data'.length → readBlock.run data = .ok (b, []) →
      readBlock.run data' = .ok (b, []) → data = data' := by
  refine ⟨?_, ?_, ?_⟩
  · intro data b h
    obtain ⟨rest, hread⟩ := deserializeBlock_eq_ok h
    obtain ⟨hdata, hlimits⟩ := readBlock_canonical hread
    exact ⟨rest, hread, hdata, hlimits⟩
  · intro data t h
    obtain ⟨rest, hread⟩ := deserializeTransaction_eq_ok h
    obtain ⟨hdata, hlimits⟩ := readTransaction_canonical hread
    exact ⟨rest, hread, hdata, hlimits⟩
  · intro data data' b _ hread hread'
    rw [(readBlock_canonical hread).1, (readBlock_canonical hread').1]

theorem readBlock_consumes_genesis :
    ∃ rest, readBlock.run (serializeBlock (createGenesisBlock mainnet)) =
        .ok (createGenesisBlock mainnet, rest) ∧
      serializeBlock (createGenesisBlock mainnet) =
        serializeBlock (createGenesisBlock mainnet) ++ rest ∧
      (createGenesisBlock mainnet).InLimits :=
  readBlock_consumes.1 _ _ (deserializeBlock_serializeBlock genesis_withinLimits.1)

end NevelCore
