import NevelCore.Blockchain.Json
import NevelCore.Chain.Manager
import NevelCore.P2P.Message

/-!
# The handler of messages

`ChainAdapter.Handler`: what a node does with a message from a peer. It works on the chain and on
the table of peers (`System`) and sends messages (`Output`). The clocks, the outcome of dialling and
the orders of map loops are arguments, and so is the JSON of payloads. `payloadJson` reads them back
from the texts that `encoding/json` writes.
-/

set_option autoImplicit false
set_option relaxedAutoImplicit false

namespace NevelCore.P2P

open Foundations

/-! ### Headers -/

/-- The first loop of `gatherHeaders`: one above the first block of the locator that is there. -/
def startHeight : List Hash → Routine UInt64
  | [] => pure 0
  | hash :: locator => do
    match ← Store.getBlock hash with
    | .error _ => startHeight locator
    | .ok _ =>
      match ← Store.getBlock hash with
      | .error _ => startHeight locator
      | .ok b => pure (b.header.height + 1)

/-- `maxHeaders`. -/
def maxHeaders : ℕ := 2000

/-- The second loop of `gatherHeaders`, from a height up to that of the tip, for at most so many
more headers. -/
def collectHeaders (tipHeight : UInt64) (stop : Hash) :
    ℕ → UInt64 → List BlockHeader → Routine (List BlockHeader)
  | 0, _, headers => pure headers
  | left + 1, h, headers =>
    if h ≤ tipHeight then do
      match ← (Manager.headerByHeight h).result with
      | .error _ => pure headers
      | .ok bh =>
        if bh.hash = stop then pure (headers ++ [bh])
        else collectHeaders tipHeight stop left (h + 1) (headers ++ [bh])
    else pure headers

/-- `gatherHeaders`. -/
def gatherHeaders (locator : List Hash) (stop : Hash) : Routine (List BlockHeader) := do
  let tip ← Manager.tipBlock
  let start ← startHeight locator
  collectHeaders tip.header.height stop maxHeaders start []

/-! ### The state and what is sent -/

/-- What the handler works on. -/
structure System where
  chain : NevelCore.Node
  net : Node

/-- Calls of `Send` that write a message, and calls of `BroadcastExcept`. -/
inductive Output where
  | send (peer : String) (msg : Message)
  | broadcastExcept (msg : Message) (excludeID : String)
deriving DecidableEq

/-- The JSON of payloads. -/
structure PayloadJson where
  block : List UInt8 → Option Block
  transaction : List UInt8 → Option Transaction
  getHeadersRequest : List UInt8 → Option (List Hash × Hash)
  addrs : List UInt8 → Option (List String)
  marshalAddrs : List String → List UInt8
  marshalHeaders : List BlockHeader → List UInt8

/-- The JSON of a request of headers. -/
def getHeadersForm : JsonText.Form (List Hash × Hash) :=
  ((JsonText.Fields.field "locator" (.list .bytes32) <| .field "stop" .bytes32 .empty).form
      (by decide +kernel)).map
    (fun x ↦ (x.1, x.2.1)) (fun request ↦ (request.1, request.2, ())) fun _ ↦ rfl

/-- Payloads as the texts of `encoding/json`. -/
def payloadJson : PayloadJson where
  block := Block.form.unmarshal
  transaction := Transaction.form.unmarshal
  getHeadersRequest := getHeadersForm.unmarshal
  addrs := (JsonText.Form.list .string).unmarshal
  marshalAddrs := (JsonText.Form.list .string).marshal
  marshalHeaders := (JsonText.Form.list BlockHeader.form).marshal

/-- What is outside of the node during one call of the handler: its clocks, for peers and for
blocks, the bound on the rounds of loops, the orders of map loops, and the outcome of dialling. -/
structure Surroundings where
  now : ℤ
  blockNow : ℤ
  fuel : ℕ
  orders : AddOrders
  listed : Finset String → List String
  dial : String → Option Conn

/-- The errors that the handler returns or logs. -/
inductive HandlerError where
  | notConnected (peer : String)
  | write (cause : MessageError)
  | json
  | chain (cause : Halt)
  | banned
  | dial
  | peerLimit

/-- How a call ends: it returns, without an error or with one, or it panics, which ends the whole
process. -/
inductive Ending where
  | returned
  | failed (cause : HandlerError)
  | panicked

def Ending.fails : Ending → Bool
  | .failed _ => true
  | _ => false

def Ending.panics : Ending → Bool
  | .panicked => true
  | _ => false

/-- The end of a call, and what it leaves and sends. -/
structure Handled where
  ending : Ending
  system : System
  outputs : List Output

section Handler

variable (m : Manager) (json : Json) (payloads : PayloadJson) (env : Surroundings)

/-- `Send`. -/
def send (s : System) (peer : String) (msg : Message) : Handled :=
  match s.net.peers.lookup peer with
  | none => ⟨.failed (.notConnected peer), s, []⟩
  | some _ =>
    match writeMessage json msg with
    | .error e => ⟨.failed (.write e), s, []⟩
    | .ok _ => ⟨.returned, s, [.send peer msg]⟩

/-- `Connect`. -/
def connect (s : System) (address : String) : Handled :=
  if s.net.isBanned address env.now then ⟨.failed .banned, s, []⟩
  else
    match env.dial address with
    | none => ⟨.failed .dial, s, []⟩
    | some conn =>
      let s' := { s with net := s.net.dialled address conn env.now }
      if (s.net.addPeer address conn env.now).1 then
        send json s' address ⟨.version, s.net.cfg.networkID.toUTF8.toList⟩
      else ⟨.failed .peerLimit, s', []⟩

/-- The loop of `HandleAddrMessage`. -/
def connectAll (s : System) : List String → System × List Output
  | [] => (s, [])
  | addr :: addrs =>
    if s.net.cfg.maxPeers ≤ s.net.peers.keys.card then (s, [])
    else if addr ∈ s.net.peers then connectAll s addrs
    else
      let connected := connect json env s addr
      let (s, outputs) := connectAll connected.system addrs
      (s, connected.outputs ++ outputs)

/-- The case of the handler for a block. -/
def handleBlock (s : System) (peer : String) (msg : Message) : Handled :=
  match payloads.block msg.payload with
  | none => ⟨.failed .json, { s with net := s.net.reportPeer peer (-10) env.now }, []⟩
  | some b =>
    match (m.validateAndApplyBlock env.blockNow env.fuel b).run exec s.chain with
    | (.error _, chain) => ⟨.returned, { s with chain := chain }, []⟩
    | (.ok (), chain) => ⟨.returned, { s with chain := chain }, [.broadcastExcept msg peer]⟩

/-- The case of the handler for a transaction. Without a memory pool there is a nil pointer. -/
def handleTx (s : System) (peer : String) (msg : Message) : Handled :=
  match payloads.transaction msg.payload with
  | none => ⟨.failed .json, { s with net := s.net.reportPeer peer (-10) env.now }, []⟩
  | some t =>
    match s.chain.mempool with
    | none => ⟨.panicked, s, []⟩
    | some pool =>
      match (pool.add env.orders t Store.get m.verifier).run exec s.chain with
      | (.error _, _) => ⟨.returned, s, []⟩
      | (.ok pool, _) =>
        ⟨.returned, { s with chain := { s.chain with mempool := some pool } },
          [.broadcastExcept msg peer]⟩

/-- The case of the handler for a request of headers. -/
def handleGetHeaders (s : System) (peer : String) (msg : Message) : Handled :=
  match payloads.getHeadersRequest msg.payload with
  | none => ⟨.failed .json, s, []⟩
  | some (locator, stop) =>
    match (gatherHeaders locator stop).run exec s.chain with
    | (.error halt, _) => ⟨.failed (.chain halt), s, []⟩
    | (.ok headers, _) => send json s peer ⟨.headers, payloads.marshalHeaders headers⟩

/-- `Handler`. -/
def handler (s : System) (peer : String) (msg : Message) : Handled :=
  match msg.type with
  | .version => send json s peer ⟨.verAck, []⟩
  | .getAddr => send json s peer ⟨.addr, payloads.marshalAddrs (env.listed s.net.peers.keys)⟩
  | .addr =>
    match payloads.addrs msg.payload with
    | none => ⟨.returned, s, []⟩
    | some addrs =>
      let (s, outputs) := connectAll json env s addrs
      ⟨.returned, s, outputs⟩
  | .block => handleBlock m payloads env s peer msg
  | .tx => handleTx m payloads env s peer msg
  | .getHeaders => handleGetHeaders json payloads s peer msg
  | .ping => send json s peer ⟨.pong, msg.payload⟩
  | _ => ⟨.returned, s, []⟩

end Handler

end NevelCore.P2P
