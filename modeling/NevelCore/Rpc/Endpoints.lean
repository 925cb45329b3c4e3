import NevelCore.Chain.MiningRuns
import NevelCore.Foundations.HttpMux
import NevelCore.Pay.Store
import NevelCore.Rpc.Server
import NevelCore.Storage.FileStore
import NevelCore.Wallet.Store

/-!
# The whole server

`Handler` of `rpc/server.go`: the check of the token, the multiplexer, and a handler for each of the
seventeen patterns. A request is served in one step. It works on the node, which is the store and
the memory pool, and on the payment requests.

What the JSON decoder makes of a body is a parameter, with the bound on what it may read. As for the
handlers of trades, an answer stands for the members of the JSON object and a hash for its
hexadecimal text. A number of the type `float64` is its bits. The headers of the answers, the links
to the explorer and the age of the tip in seconds, which goes through `float64`, are left out.
-/

set_option autoImplicit false
set_option relaxedAutoImplicit false

namespace NevelCore.Rpc

open Foundations Wallet
open SlashPath (slash)
open HttpMux (Pattern)

/-! ### Servers and requests -/

/-- The fields of `Server` that requests do not change. With a chain manager, addresses have the
prefix of its network. -/
structure Service extends Server where
  chain : Option Manager
  chainPrefix_isSome : chainPrefix.isSome = chain.isSome
  authToken : List UInt8

/-- What requests work on. -/
structure State where
  node : Node
  payments : Pay.Store

/-- What is left open when a request is served: what the clocks show, the random sources give and
`Peers` returns, if it is set. -/
structure Moment extends Environment, Round where
  instant : ℤ
  idBytes : Except String (Vector UInt8 16)
  key : Except String PrivateKey
  peers : Option ℤ

/-- A request. The path of its URL is given with its percent signs and without them. -/
structure HttpRequest where
  method : String
  escapedPath : List UInt8
  path : List UInt8
  path_eq : HttpMux.unescape escapedPath = some path
  authorization : List UInt8
  address : List UInt8
  body : List UInt8

/-- The amounts, which are numbers of type `float64` and only copied, are given by their bits. -/
structure PoolRequest where
  launchId : List UInt8
  ticker : List UInt8
  nevelLiquidity : UInt64
  tokenLiquidity : UInt64

structure InvoiceRequest where
  merchant : List UInt8
  address : List UInt8
  amount : UInt64
  memo : List UInt8
  ttlSeconds : Int64

/-- `encoding/json`: what `Decode` makes of a body of which it may read so many bytes, and what
`Marshal` makes of the request for a pool. -/
structure Json where
  decodeHex : ℕ → List UInt8 → Option (List UInt8)
  decodeBuild : ℕ → List UInt8 → Option BuildRequest
  decodeTrade : ℕ → List UInt8 → Option TradeRequest
  decodePool : ℕ → List UInt8 → Option PoolRequest
  decodeInvoice : ℕ → List UInt8 → Option InvoiceRequest
  marshalPool : PoolRequest → List UInt8

/-! ### Answers -/

/-- `HealthReport`, without the age of the tip. -/
structure HealthReport where
  tipHeight : UInt64
  peerCount : ℤ
  alerts : List String

structure BlockDTO where
  hash : Hash
  height : UInt64
  previous : Hash
  merkleRoot : Hash
  timestamp : Int64
  bits : UInt32
  nonce : UInt64
  transactions : List Hash
deriving DecidableEq

structure TxDTO where
  hash : Hash
  version : UInt32
  inputs : List (Hash × UInt32)
  outputs : List (UInt64 × Bytes)
  lockTime : UInt64
  coinbase : Bool
deriving DecidableEq

/-- `MiningTemplate`. The target is given as a number. -/
structure MiningTemplate where
  previousHash : Hash
  height : UInt64
  bits : UInt32
  target : ℤ
  transactions : List Hash
  coinbase : UInt64

structure PoolAnswer where
  poolAddress : List UInt8
  txHash : Hash
  ticker : List UInt8
  nevelLiquidity : UInt64
  tokenLiquidity : UInt64

inductive Payload where
  | health
  | alert (peerCount : ℤ) (alert : String)
  | metrics (report : HealthReport)
  | tip (tip : Tip)
  | storeTip (hash : Hash) (height : UInt64) (bits : UInt32)
  | block (dto : BlockDTO)
  | transaction (dto : TxDTO)
  | balance (address : List UInt8) (balance : UInt64)
  | utxos (utxos : List UTXO)
  | mempool (hashes : List Hash)
  | txHash (hash : Hash)
  | built (answer : BuildAnswer)
  | trade (answer : TradeAnswer)
  | pool (answer : PoolAnswer)
  | wallet (address privateKeyHex publicKeyHex : List UInt8)
  | template (tmpl : MiningTemplate)
  | submitted (hash : Hash) (height : UInt64)
  | invoice (request : Pay.PaymentRequest)

inductive Reply where
  | response (response : Response Payload)
  | redirect (path : List UInt8)

/-- An answer with its value in place. -/
def Response.map {α β : Type} (f : α → β) : Response α → Response β
  | .error text status => .error text status
  | .json value => .json (f value)
  | .aborted => .aborted

/-! ### Reading the chain -/

/-- `TrimPrefix` of the standard library's package `strings`. -/
def trimPrefix (text start : List UInt8) : List UInt8 :=
  if start <+: text then text.drop start.length else text

/-- `ParseUint` of the standard library's package `strconv`, for base ten and 64 bits. -/
def parseUint (text : List UInt8) : Option UInt64 :=
  (readDecimal text).bind fun value ↦ if value < 2 ^ 64 then some (UInt64.ofNat value) else none

/-- `parseHash`. -/
def parseHash (raw : List UInt8) : Option Hash :=
  match decodeHex raw with
  | .error _ => none
  | .ok b => if b.length = 32 then some (copyHash b) else none

/-- `blockDTO`. -/
def blockDTO (b : Block) : BlockDTO where
  hash := b.hash
  height := b.header.height
  previous := b.header.prevHash
  merkleRoot := b.header.merkleRoot
  timestamp := b.header.timestamp
  bits := b.header.bits
  nonce := b.header.nonce
  transactions := b.transactions.toList.map Transaction.hash

/-- `txDTO`. -/
def txDTO (t : Transaction) : TxDTO where
  hash := t.hash
  version := t.version
  inputs := t.inputs.toList.map fun input ↦ (input.prevTxHash, input.outputIdx)
  outputs := t.outputs.toList.map fun output ↦ (output.amount, output.lockingScript)
  lockTime := t.lockTime
  coinbase := t.isCoinbase

/-- `Tip` of `chain.Manager`. -/
def chainTip (d : Store) : Except Err Tip :=
  match DB.tip d with
  | .error _ => .error .chainUninitialized
  | .ok hash => do
    let b ← DB.getBlock d hash
    pure ⟨encodeHex hash.toList, b.header.height, b.header.bits, b.header.timestamp⟩

/-- `AssessHealth`, with the thresholds that it looks at. -/
def assessHealth (tip : Tip) (peers maxTipAge minPeerCount now : ℤ) : HealthReport where
  tipHeight := tip.height
  peerCount := peers
  alerts :=
    let age := max 0 (now - tip.timestamp.toInt * 1_000_000_000)
    (if 0 < maxTipAge ∧ maxTipAge < age then ["stale_tip"] else []) ++
      if 0 < minPeerCount ∧ peers < minPeerCount then ["low_peer_count"] else []

/-- An answer that may be an error of the store. -/
def orStatus {α : Type} (status : ℕ) (result : Except Err α) (next : α → Response Payload) :
    Response Payload :=
  match result with
  | .error e => .error e.message status
  | .ok value => next value

/-- `securityMetrics`. -/
def securityMetrics (s : Service) (moment : Moment) (d : Store) : Response Payload :=
  let peers := moment.peers.getD 0
  match s.chain, chainTip d with
  | none, _ => .json (.alert peers "chain_manager_unavailable")
  | some _, .error _ => .json (.alert peers "tip_unavailable")
  | some _, .ok tip =>
    .json (.metrics (assessHealth tip peers (5 * 60 * 1_000_000_000) 1 moment.instant))

/-- `tip`. -/
def tip (s : Service) (d : Store) : Response Payload :=
  match s.chain with
  | some _ => orStatus 404 (chainTip d) fun tip ↦ .json (.tip tip)
  | none =>
    orStatus 404 (DB.tip d) fun h ↦
      orStatus 404 (DB.getBlock d h) fun b ↦
        .json (.storeTip h b.header.height b.header.bits)

/-- `writeBlock`. -/
def writeBlock (d : Store) (h : Hash) : Response Payload :=
  orStatus 404 (DB.getBlock d h) fun b ↦ .json (.block (blockDTO b))

/-- `blockHeight`. -/
def blockHeight (r : HttpRequest) (d : Store) : Response Payload :=
  match parseUint (trimPrefix r.path (bytesOf "/block/height/")) with
  | none => .error "bad height" 400
  | some height => orStatus 404 (DB.blockHashByHeight d height) (writeBlock d)

/-- `blockHash`. -/
def blockHash (r : HttpRequest) (d : Store) : Response Payload :=
  match parseHash (trimPrefix r.path (bytesOf "/block/")) with
  | none => .error "bad hash" 400
  | some h => writeBlock d h

/-- `txByHash`. -/
def txByHash (r : HttpRequest) (d : Store) : Response Payload :=
  match parseHash (trimPrefix r.path (bytesOf "/tx/")) with
  | none => .error "bad hash" 400
  | some h => orStatus 404 (DB.getTx d h) fun t ↦ .json (.transaction (txDTO t))

/-- `address`. -/
def address (s : Service) (moment : Moment) (r : HttpRequest) : Response Payload :=
  let notFound : Response Payload :=
    .error "expected /address/\x7baddress\x7d/balance or /address/\x7baddress\x7d/utxos" 404
  match (trimPrefix r.path (bytesOf "/address/")).splitOn slash with
  | [addr, view] =>
    if view ≠ bytesOf "balance" ∧ view ≠ bytesOf "utxos" then notFound
    else
      match lockingScriptForAddress s.maps addr s.addressPrefix with
      | .error e => .error e.message 400
      | .ok script =>
        if view = bytesOf "balance" then
          orStatus 500 (DB.balanceByScript moment.listed script) fun balance ↦
            .json (.balance addr balance)
        else .json (.utxos (moment.outputs script).toList)
  | _ => notFound

/-- `mempool`. -/
def mempool (moment : Moment) (n : Node) : Response Payload :=
  .json (.mempool ((moment.snapshot n).map Transaction.hash))

/-! ### Requests that build, add and create -/

section Handlers

variable (s : Service) (json : Json) (moment : Moment) (r : HttpRequest) (st : State)

/-- Serves requests with the method `POST`. -/
def onlyPost (next : Response Payload × State) : Response Payload × State :=
  if r.method ≠ "POST" then (.error "method not allowed" 405, st) else next

/-- Serves requests whose body can be decoded. -/
def withBody {β : Type} (body : Option β) (next : β → Response Payload × State) :
    Response Payload × State :=
  match body with
  | none => (.error "bad json" 400, st)
  | some req => next req

/-- `broadcastTx`. -/
def broadcastTx : Response Payload × State :=
  onlyPost r st <| withBody st (json.decodeHex (1 <<< 20) r.body) fun text ↦
    match decodeHex text with
    | .error _ => (.error "bad transaction hex" 400, st)
    | .ok data =>
      match deserializeTransaction data with
      | .error e => (.error e.message 400, st)
      | .ok t =>
        match st.node.mempool with
        | none => (.error "mempool unavailable" 503, st)
        | some pool =>
          match addTransaction s.toServer moment.orders pool t st.node with
          | (.error halt, n') => (.error (haltText halt) 400, { st with node := n' })
          | (.ok (), n') => (.json (.txHash t.hash), { st with node := n' })

/-- `genesisWalletNew`, with `New` of the package `wallet`. -/
def genesisWalletNew : Response Payload × State :=
  onlyPost r st <|
    match moment.key with
    | .error message => (.error message 500, st)
    | .ok priv =>
      match fromPrivateKey s.maps priv s.addressPrefix with
      | .error .panic => (.aborted, st)
      | .error (.error e) => (.error e.message 500, st)
      | .ok wlt =>
        (.json (.wallet wlt.address (privateKeyHex wlt.privateKey)
          (encodeHex wlt.publicKey.toList)), st)

/-- The address of a pool. -/
def poolAddress (maps : CaseMaps) (launchId ticker : List UInt8) : List UInt8 :=
  let poolHash := sha256 (bytesOf "genesis-pool:" ++ launchId ++ bytesOf ":" ++ ticker)
  bytesOf "nevel1pool" ++ toLower maps ticker ++ (encodeHex poolHash.toList).take 8

/-- `genesisPool`. -/
def genesisPool : Response Payload × State :=
  onlyPost r st <| withBody st (json.decodePool (1 <<< 20) r.body) fun req ↦
    (.json (.pool {
      poolAddress := poolAddress s.maps req.launchId req.ticker
      txHash := sha256 (json.marshalPool req)
      ticker := req.ticker
      nevelLiquidity := req.nevelLiquidity
      tokenLiquidity := req.tokenLiquidity }), st)

/-- `miningTemplate`, with the template that `BuildTemplate` returns beside the block. -/
def miningTemplate : Response Payload :=
  match s.chain with
  | none => .error "chain manager unavailable" 503
  | some m =>
    if r.address = [] then .error "address query parameter required" 400
    else
      match lockingScriptForAddress s.maps r.address s.addressPrefix with
      | .error e => .error e.message 400
      | .ok script =>
        let snapshot := moment.snapshot st.node
        match ((m.buildTemplate moment.coinbaseNow moment.headerNow snapshot script).run exec
            st.node).1 with
        | .error halt => .error (haltText halt) 500
        | .ok block =>
          .json (.template {
            previousHash := block.header.prevHash
            height := block.header.height
            bits := block.header.bits
            target := compactToBig block.header.bits
            transactions := snapshot.map Transaction.hash
            coinbase := blockReward block.header.height })

/-- `submitBlock`. -/
def submitBlock : Response Payload × State :=
  onlyPost r st <|
    match s.chain with
    | none => (.error "chain manager unavailable" 503, st)
    | some m =>
      withBody st (json.decodeHex (4 <<< 20) r.body) fun text ↦
        match decodeHex text with
        | .error _ => (.error "bad block hex" 400, st)
        | .ok data =>
          match deserializeBlock data with
          | .error e => (.error e.message 400, st)
          | .ok block =>
            match (m.validateAndApplyBlock moment.now moment.fuel block).run exec st.node with
            | (.error halt, n') => (.error (haltText halt) 400, { st with node := n' })
            | (.ok (), n') =>
              (.json (.submitted block.hash block.header.height), { st with node := n' })

/-- `invoice`. -/
def invoice : Response Payload × State :=
  onlyPost r st <| withBody st (json.decodeInvoice (1 <<< 20) r.body) fun req ↦
    match st.payments.create req.merchant req.address req.amount req.memo
        (req.ttlSeconds * 1_000_000_000) moment.idBytes moment.instant with
    | (.error e, payments) => (.error e.message 400, { st with payments := payments })
    | (.ok request, payments) => (.json (.invoice request), { st with payments := payments })

/-- `paymentStatus`. -/
def paymentStatus : Response Payload :=
  match st.payments.get (trimPrefix r.path (bytesOf "/payments/status/")) moment.instant with
  | none => .error "payment not found" 404
  | some request => .json (.invoice request)

end Handlers

/-! ### Routes -/

/-- The handlers. -/
inductive Endpoint where
  | health
  | securityMetrics
  | tip
  | blockHeight
  | blockHash
  | broadcastTx
  | buildTx
  | txByHash
  | address
  | mempool
  | miningTemplate
  | submitBlock
  | invoice
  | paymentStatus
  | genesisPool
  | genesisTrade
  | genesisWalletNew
deriving DecidableEq

/-- The patterns of the handlers. -/
def patterns : List (String × Endpoint) :=
  [("/health", .health),
   ("/metrics/security", .securityMetrics),
   ("/chain/tip", .tip),
   ("/block/height/", .blockHeight),
   ("/block/", .blockHash),
   ("/tx/broadcast", .broadcastTx),
   ("/tx/build", .buildTx),
   ("/tx/", .txByHash),
   ("/address/", .address),
   ("/mempool", .mempool),
   ("/mining/template", .miningTemplate),
   ("/mining/submit", .submitBlock),
   ("/payments/invoice", .invoice),
   ("/payments/status/", .paymentStatus),
   ("/genesis/pool", .genesisPool),
   ("/genesis/trade", .genesisTrade),
   ("/genesis/wallet/new", .genesisWalletNew)]

def routes : List (Pattern × Endpoint) :=
  patterns.map fun (text, endpoint) ↦ (.parse (bytesOf text), endpoint)

section Serving

variable (s : Service) (json : Json) (moment : Moment) (r : HttpRequest) (st : State)

/-- Calls a handler. -/
def handle : Endpoint → Response Payload × State
  | .health => (.json .health, st)
  | .securityMetrics => (Rpc.securityMetrics s moment st.node.store, st)
  | .tip => (Rpc.tip s st.node.store, st)
  | .blockHeight => (Rpc.blockHeight r st.node.store, st)
  | .blockHash => (Rpc.blockHash r st.node.store, st)
  | .broadcastTx => Rpc.broadcastTx s json moment r st
  | .buildTx =>
    let (response, n') := Rpc.buildTx s.toServer moment.toEnvironment
      ⟨r.method, json.decodeBuild (1 <<< 20) r.body⟩ st.node
    (response.map .built, { st with node := n' })
  | .txByHash => (Rpc.txByHash r st.node.store, st)
  | .address => (Rpc.address s moment r, st)
  | .mempool => (Rpc.mempool moment st.node, st)
  | .miningTemplate => (Rpc.miningTemplate s moment r st, st)
  | .submitBlock => Rpc.submitBlock s json moment r st
  | .invoice => Rpc.invoice json moment r st
  | .paymentStatus => (Rpc.paymentStatus moment r st, st)
  | .genesisPool => Rpc.genesisPool s json r st
  | .genesisTrade =>
    let (response, n') := Rpc.genesisTrade s.toServer moment.toEnvironment
      ⟨r.method, json.decodeTrade (1 <<< 20) r.body⟩ st.node
    (response.map .trade, { st with node := n' })
  | .genesisWalletNew => Rpc.genesisWalletNew s moment r st

/-- `ServeHTTP` of the multiplexer. -/
def serveMux : Reply × State :=
  match HttpMux.route routes (r.method = "CONNECT") r.escapedPath r.path with
  | .found endpoint =>
    let (response, st') := handle s json moment r st endpoint
    (.response response, st')
  | .redirect path => (.redirect path, st)
  | .notFound => (.response (.error "404 page not found" 404), st)
  | .badRequest => (.response (.error "" 400), st)

/-- The paths that `auth` protects whatever the method is start with one of these. -/
def protectedPaths : List String :=
  ["/mining/", "/tx/broadcast", "/tx/build", "/genesis/", "/payments/"]

/-- A request that needs the token. -/
def HttpRequest.Protected : Prop :=
  r.method ≠ "GET" ∨ ∃ start ∈ protectedPaths, bytesOf start <+: r.path

instance : Decidable r.Protected := by unfold HttpRequest.Protected; infer_instance

/-- A request with the token. -/
def Service.Authorizes : Prop := r.authorization = bytesOf "Bearer " ++ s.authToken

instance : Decidable (s.Authorizes r) := by unfold Service.Authorizes; infer_instance

/-- `Handler`: `auth` before the multiplexer. -/
def serveHTTP : Reply × State :=
  if s.authToken ≠ [] ∧ r.Protected ∧ ¬ s.Authorizes r then
    (.response (.error "unauthorized" 401), st)
  else serveMux s json moment r st

end Serving

/-- Serves requests one after the other. -/
def serveAllHTTP (s : Service) (json : Json) :
    List (Moment × HttpRequest) → State → List Reply × State
  | [], st => ([], st)
  | (moment, r) :: rest, st =>
    let (reply, st') := serveHTTP s json moment r st
    let (replies, final) := serveAllHTTP s json rest st'
    (reply :: replies, final)

end NevelCore.Rpc
