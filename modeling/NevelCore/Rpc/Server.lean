import NevelCore.Chain.Manager
import NevelCore.Wallet.Builder

/-!
# Two handlers of the server

`genesisTrade` and `buildTx` of `rpc/server.go`. Both build a payment from a private key with
outputs that the store lists, and add it to the memory pool. `buildTx` answers with the error of
`Add`. `genesisTrade` drops it, and reports the payment as if it had been added.

A request is what the JSON decoder makes of it, without the members that no handler reads, and an
answer stands for the members of the JSON object. A hash stands for its hexadecimal text, and the
members `success`, `type`, `chain`, `fallback` and `explorerUrl` follow from the constructor and the
hash. `serveAll` serves requests one after the other and keeps what they are answered and the state
they leave.
-/

set_option autoImplicit false
set_option relaxedAutoImplicit false

namespace NevelCore.Rpc

open Foundations Wallet

/-! ### Requests and answers -/

/-- What the handlers read of the server besides the store and the pool: the address prefix of the
chain's network, if there is a chain, and the verifier of the pool. -/
structure Server where
  maps : CaseMaps
  chainPrefix : Option (List UInt8)
  verifier : Option SignatureVerifier

/-- The prefix of addresses, by default `nevel`. -/
def Server.addressPrefix (s : Server) : List UInt8 :=
  s.chainPrefix.getD [0x6e, 0x65, 0x76, 0x65, 0x6c]

/-- What the code leaves open when a request is served: the order in which the store lists its
records, the orders of the loops of the pool, and the signing function for each input. -/
structure Environment where
  listed : List UTXO
  orders : AddOrders
  sign : ℕ → Sign

/-- `ListUTXOsByScript` of the store. -/
def Environment.outputs (env : Environment) (script : Bytes) : Slice UTXO :=
  .ofList (env.listed.filter fun u ↦ u.script = script)

/-- The store as a `UTXOProvider`. -/
def Environment.provider (env : Environment) : UTXOProvider := fun script ↦ .ok (env.outputs script)

/-- A request, with nothing as its body if that is not JSON of the right form. -/
structure Request (β : Type) where
  method : String
  body : Option β

inductive Response (α : Type) where
  | error (text : String) (status : ℕ)
  | json (value : α)
  /-- The handler panics, and the connection is closed without an answer. -/
  | aborted

structure TradeRequest where
  privateKeyHex : List UInt8
  poolAddress : List UInt8
  amount : UInt64
  side : List UInt8
  ticker : List UInt8
  launchId : List UInt8
  tradeId : List UInt8

/-- The answers of `genesisTrade`, of the types `genesis_meta` and `genesis_utxo`. -/
inductive TradeAnswer where
  | genesisMeta (txHash : Hash) (side ticker : List UInt8) (fallbackReason : Option String)
  | genesisUtxo (txHash : Hash) (side ticker fromAddress toAddress : List UInt8)
      (amount fee : UInt64)

structure BuildRequest where
  privateKeyHex : List UInt8
  toAddress : List UInt8
  amount : UInt64
  fee : UInt64

structure BuildAnswer where
  txHash : Hash
  fromAddress : List UInt8
  toAddress : List UInt8
  amount : UInt64
  fee : UInt64
  raw : List UInt8

/-! ### The handlers -/

/-- `metaHash`. -/
def metaHash (launchId tradeId side ticker : List UInt8) : Hash :=
  sha256 (launchId ++ 0x3a :: tradeId ++ 0x3a :: side ++ 0x3a :: ticker)

/-- The text of an error. A bound on rounds is not reached in `Add`. -/
def haltText : Halt → String
  | .error e => e.message
  | .outOfFuel => ""

/-- `Add` on the pool of a node. -/
def addTransaction (s : Server) (orders : AddOrders) (pool : Mempool) (t : Transaction) (n : Node) :
    Except Halt Unit × Node :=
  match (pool.add orders t Store.get s.verifier).run exec n with
  | (.ok pool', n') => (.ok (), { n' with mempool := some pool' })
  | (.error halt, n') => (.error halt, n')

/-- The fee of a trade. -/
def tradeFee : UInt64 := 1000

/-- `genesisTrade`. -/
def genesisTrade (s : Server) (env : Environment) (r : Request TradeRequest) (n : Node) :
    Response TradeAnswer × Node :=
  if r.method ≠ "POST" then (.error "method not allowed" 405, n)
  else
    match r.body with
    | none => (.error "bad json" 400, n)
    | some req =>
      let h := metaHash req.launchId req.tradeId req.side req.ticker
      if req.privateKeyHex ≠ [] ∧ req.poolAddress ≠ [] ∧ req.amount > 0 then
        match fromHexPrivateKey s.maps req.privateKeyHex s.addressPrefix with
        | .error .panic => (.aborted, n)
        | .error (.error e) => (.error ("bad private key: " ++ e.message) 400, n)
        | .ok wlt =>
          match buildTransaction s.maps wlt env.sign env.provider req.poolAddress req.amount
            tradeFee with
          | .error .panic => (.aborted, n)
          | .error (.error e) => (.json (.genesisMeta h req.side req.ticker (some e.message)), n)
          | .ok t =>
            let answer := .json (.genesisUtxo t.hash req.side req.ticker wlt.address
              req.poolAddress req.amount tradeFee)
            match n.mempool with
            | none => (answer, n)
            -- The error of `Add` is not looked at.
            | some pool => (answer, (addTransaction s env.orders pool t n).2)
      else (.json (.genesisMeta h req.side req.ticker none), n)

/-- `buildTx`. -/
def buildTx (s : Server) (env : Environment) (r : Request BuildRequest) (n : Node) :
    Response BuildAnswer × Node :=
  if r.method ≠ "POST" then (.error "method not allowed" 405, n)
  else
    match r.body with
    | none => (.error "bad json" 400, n)
    | some req =>
      if req.privateKeyHex = [] ∨ req.toAddress = [] ∨ req.amount = 0 then
        (.error "privateKeyHex, toAddress, and amount are required" 400, n)
      else
        let fee := if req.fee = 0 then 1000 else req.fee
        match fromHexPrivateKey s.maps req.privateKeyHex s.addressPrefix with
        | .error .panic => (.aborted, n)
        | .error (.error e) => (.error ("bad private key: " ++ e.message) 400, n)
        | .ok w2 =>
          match buildTransaction s.maps w2 env.sign env.provider req.toAddress req.amount fee with
          | .error .panic => (.aborted, n)
          | .error (.error e) => (.error e.message 400, n)
          | .ok t =>
            match n.mempool with
            | none => (.error "mempool unavailable" 503, n)
            | some pool =>
              match addTransaction s env.orders pool t n with
              | (.error halt, n') => (.error (haltText halt) 400, n')
              | (.ok (), n') =>
                (.json ⟨t.hash, w2.address, req.toAddress, req.amount, fee,
                  serializeTransaction t⟩, n')

/-! ### What the two do -/

/-- A trade is not answered with a payment and changes nothing, or its payment is built, answered
with, and offered to the pool if there is one. -/
theorem genesisTrade_spec (s : Server) (env : Environment) (r : Request TradeRequest) (n : Node) :
    (∀ hash side ticker fromAddress toAddress amount fee, (genesisTrade s env r n).1 ≠
        .json (.genesisUtxo hash side ticker fromAddress toAddress amount fee)) ∧
        (genesisTrade s env r n).2 = n ∨
      ∃ req wlt t, r.body = some req ∧
        (req.privateKeyHex ≠ [] ∧ req.poolAddress ≠ [] ∧ req.amount > 0) ∧
        fromHexPrivateKey s.maps req.privateKeyHex s.addressPrefix = .ok wlt ∧
        buildTransaction s.maps wlt env.sign env.provider req.poolAddress req.amount tradeFee =
          .ok t ∧
        genesisTrade s env r n = (.json (.genesisUtxo t.hash req.side req.ticker wlt.address
          req.poolAddress req.amount tradeFee),
          n.mempool.elim n fun pool ↦ (addTransaction s env.orders pool t n).2) := by
  rw [genesisTrade]
  split
  · exact .inl ⟨nofun, rfl⟩
  split
  · exact .inl ⟨nofun, rfl⟩
  next req hbody =>
  dsimp only
  split
  · next hgiven =>
    split
    · exact .inl ⟨nofun, rfl⟩
    · exact .inl ⟨nofun, rfl⟩
    next wlt hwallet =>
    split
    · exact .inl ⟨nofun, rfl⟩
    · exact .inl ⟨nofun, rfl⟩
    next t hbuild =>
    refine .inr ⟨req, wlt, t, hbody, hgiven, hwallet, hbuild, ?_⟩
    cases n.mempool <;> rfl
  · exact .inl ⟨nofun, rfl⟩

/-- `buildTx` changes nothing, or its payment is built and offered to the pool. -/
theorem buildTx_spec (s : Server) (env : Environment) (r : Request BuildRequest) (n : Node) :
    (buildTx s env r n).2 = n ∨
      ∃ req w2 t pool, r.body = some req ∧
        fromHexPrivateKey s.maps req.privateKeyHex s.addressPrefix = .ok w2 ∧
        buildTransaction s.maps w2 env.sign env.provider req.toAddress req.amount
          (if req.fee = 0 then 1000 else req.fee) = .ok t ∧
        n.mempool = some pool ∧
        (buildTx s env r n).2 = (addTransaction s env.orders pool t n).2 := by
  rw [buildTx]
  split
  · exact .inl rfl
  split
  · exact .inl rfl
  next req hbody =>
  split
  · exact .inl rfl
  dsimp only
  split
  · exact .inl rfl
  · exact .inl rfl
  next w2 hwallet =>
  split
  · exact .inl rfl
  · exact .inl rfl
  next t hbuild =>
  split
  · exact .inl rfl
  next pool hpool =>
  refine .inr ⟨req, w2, t, pool, hbody, hwallet, hbuild, hpool, ?_⟩
  split
  · next hadd => rw [hadd]
  · next hadd => rw [hadd]

/-! ### Serving requests -/

inductive Incoming where
  | genesisTrade (r : Request TradeRequest)
  | buildTx (r : Request BuildRequest)

inductive Answer where
  | genesisTrade (r : Response TradeAnswer)
  | buildTx (r : Response BuildAnswer)

/-- An answer, with the node after it. -/
structure Served where
  answer : Answer
  after : Node

def serve (s : Server) (env : Environment) (n : Node) : Incoming → Served
  | .genesisTrade r =>
    let (answer, n') := genesisTrade s env r n
    ⟨.genesisTrade answer, n'⟩
  | .buildTx r =>
    let (answer, n') := buildTx s env r n
    ⟨.buildTx answer, n'⟩

/-- Serves requests one after the other. -/
def serveAll (s : Server) : List (Environment × Incoming) → Node → List Served
  | [], _ => []
  | (env, incoming) :: rest, n =>
    serve s env n incoming :: serveAll s rest (serve s env n incoming).after

end NevelCore.Rpc
