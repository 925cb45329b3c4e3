import NevelCore.Consensus.Rules
import NevelCore.Foundations.SliceSort
import Mathlib.Data.Finmap

/-!
# The memory pool

`mempool.Mempool`: the transactions waiting for a block, an index of the outpoints they spend, and
the bytes they take. The fields `utxos` and `verifier` are arguments of `add`, which is a program
over the calls of the reader. The time at which an entry was added is not read by any function and
is left out. A loop over a map meets its entries in an order that is not specified: a `MapOrder` is
an argument wherever there is such a loop. The sorting function of the standard library is an
argument of `entriesByFeeRate`: any one that sorts by a strict weak order.
-/

set_option autoImplicit false
set_option relaxedAutoImplicit false

namespace NevelCore

open Foundations

/-- `mempool.Entry`. -/
structure Entry where
  tx : Transaction
  fee : UInt64
  size : Int64
deriving DecidableEq

structure Mempool where
  txs : Finmap fun _ : Hash ↦ Entry
  spends : Finmap fun _ : Outpoint ↦ Hash
  maxBytes : Int64
  bytes : Int64

/-- An order in which loops meet the entries of maps: every entry once. -/
structure MapOrder {κ : Type} (V : κ → Type) where
  list : Finmap V → List (Sigma V)
  list_eq : ∀ m : Finmap V, (list m : Multiset (Sigma V)) = m.entries

/-- The orders of the loops of one call of `Add`: of the one over `spends`, and of those over `txs`,
one for each eviction. -/
structure AddOrders where
  spends : MapOrder fun _ : Outpoint ↦ Hash
  txs : ℕ → MapOrder fun _ : Hash ↦ Entry

namespace Mempool

/-- `New`. -/
def new (maxBytes : Int64) : Mempool where
  txs := ∅
  spends := ∅
  maxBytes := maxBytes
  bytes := 0

/-- `Remove`. -/
def remove (m : Mempool) (hash : Hash) : Mempool :=
  match m.txs.lookup hash with
  | none => m
  | some e =>
    { m with
      txs := m.txs.erase hash
      bytes := m.bytes - e.size
      spends := e.tx.inputs.toList.foldl (fun spends input ↦ spends.erase input.outpoint) m.spends }

/-- `RemoveMinedBlock`. -/
def removeMinedBlock (m : Mempool) (b : Block) : Mempool :=
  b.transactions.toList.foldl (fun m t ↦ if t.isCoinbase then m else m.remove t.hash) m

/-- One round of the loop of `evictLowest`: the entry with the lower fee rate so far. The products
are those of `uint64`. -/
def lower (low : Option (Σ _ : Hash, Entry)) (entry : Σ _ : Hash, Entry) :
    Option (Σ _ : Hash, Entry) :=
  match low with
  | none => some entry
  | some low =>
    if entry.2.fee * low.2.size.toUInt64 < low.2.fee * entry.2.size.toUInt64 then some entry
    else some low

/-- `evictLowest`, in an order of the loop over the entries. Without an entry it returns `false`,
and here nothing. -/
def evictLowest (m : Mempool) (order : MapOrder fun _ : Hash ↦ Entry) : Option Mempool :=
  ((order.list m.txs).foldl lower none).map fun low ↦ m.remove low.1

/-- The loop of `Add` that evicts entries until there is room for some bytes. Every round takes an
entry away, so that as many rounds as there are entries are enough. -/
def makeRoom (orders : ℕ → MapOrder fun _ : Hash ↦ Entry) (size : Int64) : ℕ → Mempool → Mempool
  | 0, m => m
  | rounds + 1, m =>
    if m.bytes + size > m.maxBytes then
      match m.evictLowest (orders rounds) with
      | none => m
      | some m => makeRoom orders size rounds m
    else m

/-- What `Add` does with a transaction that has passed and for which there is room. -/
def insert (m : Mempool) (t : Transaction) (fee : UInt64) (size : Int64) : Mempool :=
  { m with
    txs := m.txs.insert t.hash ⟨t, fee, size⟩
    bytes := m.bytes + size
    spends := t.inputs.toList.foldl (fun spends input ↦ spends.insert input.outpoint t.hash)
      m.spends }

/-- `Add`. Returns the pool with the transaction. -/
def add {S : Signature} (m : Mempool) (orders : AddOrders) (t : Transaction) (utxos : UTXOReader S)
    (verifier : Option SignatureVerifier) : Prog S Halt Mempool := do
  let spent := (orders.spends.list m.spends).map Sigma.fst
  let (fee, _) ← validateTransaction t utxos verifier spent
  let size := Int64.ofNat (serializeTransaction t).length
  pure ((m.makeRoom orders.txs size m.txs.entries.card).insert t fee size)

/-- The comparison of `EntriesByFeeRate`. The products are those of `uint64`. -/
def higherRate (a b : Entry) : Bool := a.fee * b.size.toUInt64 > b.fee * a.size.toUInt64

/-- `EntriesByFeeRate`, with the sorting function of the standard library. -/
def entriesByFeeRate (m : Mempool) (order : MapOrder fun _ : Hash ↦ Entry)
    (sort : SliceSort Entry) : List Entry :=
  sort.sort higherRate ((order.list m.txs).map Sigma.snd)

/-- `Snapshot`. -/
def snapshot (m : Mempool) (order : MapOrder fun _ : Hash ↦ Entry) (sort : SliceSort Entry) :
    List Transaction :=
  (m.entriesByFeeRate order sort).map Entry.tx

/-- The transactions of `Snapshot`: those of all entries. The order, by the fee rates as computed in
`uint64` and otherwise not specified, is left open. -/
def IsSnapshot (m : Mempool) (txs : List Transaction) : Prop :=
  (txs : Multiset Transaction) = m.txs.entries.map fun entry ↦ entry.2.tx

end Mempool

end NevelCore
