import Mathlib.Data.Finmap
import Mathlib.Data.Finset.Card

/-!
# The peers of a node

`p2p.Node` with its tables: the connected peers, their scores, the bans and the message counts, all
under the ids of peers, which are address strings. Beside the tables stands what the code does with
connections: which of them are closed, and for which of them `readLoop` is running.

A method holds the lock of the node from its beginning to its end, except for `Connect` and
`readLoop`, which call others. So the methods are functions of the state, and an interleaving is a
sequence of them. Clock readings are arguments, in nanoseconds since the zero time.
-/

set_option autoImplicit false
set_option relaxedAutoImplicit false

namespace NevelCore.P2P

/-! ### Addresses -/

/-- The place of the last occurrence of a character. -/
def lastIndexOf (c : Char) (s : List Char) : Option ℕ :=
  (s.reverse.idxOf? c).map fun k ↦ s.length - 1 - k

/-- `net.SplitHostPort`, without the texts of its errors. -/
def splitHostPort (hostport : List Char) : Option (List Char × List Char) := do
  let i ← lastIndexOf ':' hostport
  let (host, j, k) ←
    if hostport.head? = some '[' then
      match hostport.idxOf? ']' with
      | none => none
      | some closing =>
        if closing + 1 = i then some ((hostport.take closing).drop 1, 1, closing + 1) else none
    else if ':' ∈ hostport.take i then none
    else some (hostport.take i, 0, 0)
  if '[' ∈ hostport.drop j then none
  else if ']' ∈ hostport.drop k then none
  else some (host, hostport.drop (i + 1))

/-- `peerHost`. -/
def peerHost (id : String) : String :=
  match splitHostPort id.toList with
  | some (host, _) => String.ofList host
  | none => id

example : peerHost "127.0.0.1:1000" = "127.0.0.1" := by decide +kernel

example : peerHost "[::1]:8333" = "::1" := by decide +kernel

/-! ### The state -/

/-- The fields of `p2p.Config` that a node reads once it is made. -/
structure Config where
  networkID : String
  maxPeers : ℤ
  maxMessageBytes : ℤ
  maxPeersPerIP : ℤ
  peerRateLimit : Int64
  peerRateWindow : ℤ
  banScore : Int64
  banDuration : ℤ

/-- `MaxMessageBytes`. -/
def maxMessageBytes : ℕ := 4 * 1024 * 1024

def defaultPeerRateLimit : Int64 := 120

def defaultPeerRateWindow : ℤ := 60 * 1000000000

def defaultBanScore : Int64 := -100

def defaultBanDuration : ℤ := 3600 * 1000000000

/-- A connection, and what its `RemoteAddr` prints. -/
structure Conn where
  number : ℕ
  remoteAddr : String
deriving DecidableEq

/-- `peerStats`. -/
structure PeerStats where
  windowStart : ℤ
  messages : Int64

/-- `p2p.Node`, with the connections that were closed and those that are read from. -/
structure Node where
  cfg : Config
  peers : Finmap fun _ : String ↦ Conn
  scores : String → Int64
  banned : String → Option ℤ
  stats : String → PeerStats
  closed : Finset Conn
  reading : Finset Conn

/-- The defaults of `NewNode`. -/
def Config.withDefaults (cfg : Config) : Config where
  networkID := cfg.networkID
  maxPeers := if cfg.maxPeers ≤ 0 then 32 else cfg.maxPeers
  maxMessageBytes :=
    if cfg.maxMessageBytes ≤ 0 then P2P.maxMessageBytes else cfg.maxMessageBytes
  maxPeersPerIP := cfg.maxPeersPerIP
  peerRateLimit := if cfg.peerRateLimit ≤ 0 then defaultPeerRateLimit else cfg.peerRateLimit
  peerRateWindow := if cfg.peerRateWindow ≤ 0 then defaultPeerRateWindow else cfg.peerRateWindow
  banScore := if cfg.banScore = 0 then defaultBanScore else cfg.banScore
  banDuration := if cfg.banDuration ≤ 0 then defaultBanDuration else cfg.banDuration

/-- `NewNode`. -/
def newNode (cfg : Config) : Node where
  cfg := cfg.withDefaults
  peers := ∅
  scores _ := 0
  banned _ := none
  stats _ := ⟨0, 0⟩
  closed := ∅
  reading := ∅

namespace Node

/-! ### The table of peers -/

/-- `IsBanned`, and the first check of `addPeer`. -/
def isBanned (n : Node) (peer : String) (now : ℤ) : Bool :=
  match n.banned peer with
  | some until_ => now < until_
  | none => false

/-- The number of peers of a host. -/
def hostCount (n : Node) (host : String) : ℕ :=
  (n.peers.keys.filter fun id ↦ peerHost id = host).card

/-- `addPeer`. -/
def addPeer (n : Node) (id : String) (conn : Conn) (now : ℤ) : Bool × Node :=
  if n.isBanned id now then (false, n)
  else if n.cfg.maxPeers ≤ n.peers.keys.card then (false, n)
  else if 0 < n.cfg.maxPeersPerIP ∧ n.cfg.maxPeersPerIP ≤ n.hostCount (peerHost id) then (false, n)
  else (true, { n with peers := n.peers.insert id conn })

/-- Closes a connection. -/
def close (n : Node) (conn : Conn) : Node := { n with closed := insert conn n.closed }

/-- `removePeer`: closes the connection of a peer, if there is one, and takes it from the table. -/
def removePeer (n : Node) (id : String) : Node :=
  match n.peers.lookup id with
  | some conn => { n.close conn with peers := n.peers.erase id }
  | none => { n with peers := n.peers.erase id }

/-- Adds to the score of a peer. -/
def addScore (n : Node) (peer : String) (delta : Int64) : Node :=
  { n with scores := Function.update n.scores peer (n.scores peer + delta) }

/-- Bans a peer and removes it. -/
def ban (n : Node) (peer : String) (now : ℤ) : Node :=
  let banned := Function.update n.banned peer (some (now + n.cfg.banDuration))
  { n with banned := banned }.removePeer peer

/-- `ReportPeer`. -/
def reportPeer (n : Node) (peer : String) (delta : Int64) (now : ℤ) : Node :=
  if n.scores peer + delta ≤ n.cfg.banScore then (n.addScore peer delta).ban peer now
  else n.addScore peer delta

/-! ### Connections -/

/-- Registers a new connection under an id and starts to read from it, or closes it. -/
def register (n : Node) (id : String) (conn : Conn) (now : ℤ) : Node :=
  match n.addPeer id conn now with
  | (true, added) => { added with reading := insert conn added.reading }
  | (false, n) => n.close conn

/-- One round of `Listen`: an inbound connection. -/
def accept (n : Node) (conn : Conn) (now : ℤ) : Node := n.register conn.remoteAddr conn now

/-- `Connect` once the dial has succeeded. -/
def dialled (n : Node) (address : String) (conn : Conn) (now : ℤ) : Node :=
  n.register address conn now

/-- The end of `readLoop`: its deferred `removePeer`, with the id it reads under. -/
def exit (n : Node) (conn : Conn) : Node :=
  let n := n.removePeer conn.remoteAddr
  { n with reading := n.reading.erase conn }

end Node

/-- A node that may have two peers, with the other defaults. -/
def Sample.cfg : Config where
  networkID := "regtest"
  maxPeers := 2
  maxMessageBytes := 0
  maxPeersPerIP := 0
  peerRateLimit := 0
  peerRateWindow := 0
  banScore := 0
  banDuration := 0

end NevelCore.P2P
