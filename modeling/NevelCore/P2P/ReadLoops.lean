import NevelCore.P2P.Peers
import NevelCore.P2P.Relay

/-!
# A node at work

Each connection has a `readLoop` of its own, which reads a message, hands it to the handler, reports
the peer for an error, and leaves at the first message that it cannot read. Beside them `Listen`
takes inbound connections, `Bootstrap` dials the seeds and asks them for addresses, and
`PeriodicDiscovery` asks all peers. `Running` has the place of every loop and the bytes that its
connection has still to deliver; an `Activity` is what one of these goroutines does next, and in a
run they come in any order (`Works`).

Whatever the order, the handler gets the messages of a connection as they stand in its bytes, none
twice and none left out (`handled_in_order`), and the table of peers keeps its two limits
(`peer_limits`). But `validateMessage` does not know `getaddr` and `addr`: a loop leaves when it
reads one of them, and so no node answers with addresses or dials one that it was told
(`discovery_learns_nothing`).
-/

set_option autoImplicit false
set_option relaxedAutoImplicit false

namespace NevelCore.P2P

open Foundations

/-! ### The loops -/

/-- Where the `readLoop` of a connection stands: before `readPeerMessage`, before the handler,
before the report of an error of the handler, before that of an error of reading, before the
deferred `removePeer`, and after it. -/
inductive Phase where
  | reading
  | handling (msg : Message)
  | failed
  | broken
  | leaving
  | ended
deriving DecidableEq

/-- A node with its loops: the place of each, what its connection has still to deliver, and whether
a panic of the handler has ended the process. The messages that were given to the handler and what
was sent are kept in their order. -/
structure Running where
  system : System
  phase : Conn → Phase
  unread : Conn → List UInt8
  panicked : Bool
  handled : List (Conn × Message)
  outputs : List Output

/-- A node when it starts, with what its connections are going to deliver. -/
def Running.start (chain : NevelCore.Node) (cfg : Config) (stream : Conn → List UInt8) :
    Running where
  system := ⟨chain, newNode cfg⟩
  phase _ := .reading
  unread := stream
  panicked := false
  handled := []
  outputs := []

/-- What a goroutine does next. `lost` says that the connection fails meanwhile. -/
inductive Activity where
  | accept (conn : Conn)
  | connect (address : String)
  | getAddr (peer : String)
  | loop (conn : Conn) (lost : Bool)

/-- The messages for which the handler returns the error of its one `Send`. -/
def awaitsWrite : MessageType → Bool
  | .version | .getAddr | .getHeaders | .ping => true
  | _ => false

namespace Running

section Step

variable (m : Manager) (json : Json) (payloads : PayloadJson) (env : Surroundings)

def withNet (r : Running) (net : Node) : Running :=
  { r with system := { r.system with net := net } }

def goto (r : Running) (conn : Conn) (phase : Phase) : Running :=
  { r with phase := Function.update r.phase conn phase }

/-- What has been sent is added to the outputs. -/
def sends (r : Running) (done : Handled) : Running :=
  { r with system := done.system, outputs := r.outputs ++ done.outputs }

/-- `readLoop` before `readPeerMessage`. -/
def read (r : Running) (conn : Conn) (lost : Bool) : Running :=
  match r.system.net.readPeerMessage json conn.remoteAddr env.now (r.unread conn) with
  | (.error _, net) => (r.withNet net).goto conn .broken
  | (.ok (msg, rest), net) =>
    if lost then (r.withNet net).goto conn .broken
    else
      { (r.withNet net).goto conn (.handling msg) with
        unread := Function.update r.unread conn rest }

/-- `readLoop` with a message for the handler. -/
def handle (r : Running) (conn : Conn) (msg : Message) (lost : Bool) : Running :=
  let done := handler m json payloads env r.system conn.remoteAddr msg
  let fails := done.ending.fails || (lost && awaitsWrite msg.type)
  { (r.sends done).goto conn (if fails then .failed else .reading) with
    panicked := done.ending.panics
    handled := r.handled ++ [(conn, msg)] }

/-- What the `readLoop` of a connection does next. -/
def loop (r : Running) (conn : Conn) (lost : Bool) : Running :=
  match r.phase conn with
  | .reading => r.read json env conn lost
  | .handling msg => r.handle m json payloads env conn msg lost
  | .failed =>
    (r.withNet (r.system.net.reportPeer conn.remoteAddr (-10) env.now)).goto conn .reading
  | .broken =>
    (r.withNet (r.system.net.reportPeer conn.remoteAddr (-25) env.now)).goto conn .leaving
  | .leaving => (r.withNet (r.system.net.exit conn)).goto conn .ended
  | .ended => r

/-- One activity: a round of `Listen`, a call of `Connect` in `Bootstrap`, a request of addresses in
`Bootstrap` or `PeriodicDiscovery`, or a part of a round of `readLoop`. -/
def step (r : Running) : Activity → Running
  | .accept conn => r.withNet (r.system.net.accept conn env.now)
  | .connect address => r.sends (P2P.connect json env r.system address)
  | .getAddr peer => r.sends (send json r.system peer ⟨.getAddr, []⟩)
  | .loop conn lost => r.loop m json payloads env conn lost

end Step

/-- `readLoop` runs for the connections that were registered. After a panic nothing runs. -/
def Possible (r : Running) : Activity → Prop
  | .loop conn _ => r.panicked = false ∧ conn ∈ r.system.net.reading
  | _ => r.panicked = false

end Running

section Runs

variable (m : Manager) (json : Json) (payloads : PayloadJson)

/-- The runs whose activities are all allowed. -/
inductive Works (allowed : Activity → Prop) (first : Running) : Running → Prop
  | start : Works allowed first first
  | step {r : Running} (works : Works allowed first r) (env : Surroundings) {a : Activity}
      (possible : r.Possible a) (allows : allowed a) :
      Works allowed first (r.step m json payloads env a)

end Runs

/-- The addresses that `Bootstrap` dials are seeds, and inbound connections come from a set of
addresses. -/
def Meets (seeds inbound : Set String) : Activity → Prop
  | .accept conn => conn.remoteAddr ∈ inbound
  | .connect address => address ∈ seeds
  | _ => True

namespace Sample

def versionMsg : Message := ⟨.version, cfg.networkID.toUTF8.toList⟩

/-- What `Bootstrap` sends: `version`, and then `getaddr`. -/
def bootstrapBytes : List UInt8 :=
  [versionMsg, ⟨.getAddr, []⟩].flatMap fun msg ↦
    beBytes 4 (json.marshal msg).length ++ json.marshal msg

/-- A node to which every connection sends what `Bootstrap` does. -/
def askedNode : Running := .start Regtest.afterGenesis cfg fun _ ↦ bootstrapBytes

/-- The node takes a connection, and the loop of the connection has so many turns. -/
noncomputable def asked : ℕ → Running
  | 0 => askedNode.step Regtest.manager json payloadJson env (.accept inbound)
  | turns + 1 => (asked turns).step Regtest.manager json payloadJson env
      (.loop inbound false)

theorem works_asked : Works Regtest.manager json payloadJson
    (Meets ∅ {inbound.remoteAddr}) askedNode (asked 3) := by
  have hrunning : ∀ turns ≤ 2,
      (asked turns).panicked = false ∧ (asked turns).system.net.reading = {inbound}
    | 0, _ | 1, _ | 2, _ => by decide +kernel
  have hpossible (turns : ℕ) (hturns : turns ≤ 2) :
      (asked turns).Possible (.loop inbound false) := by
    obtain ⟨hpanicked, hreading⟩ := hrunning turns hturns
    exact ⟨hpanicked, hreading ▸ Finset.mem_singleton_self _⟩
  have haccepted : Works Regtest.manager json payloadJson
      (Meets ∅ {inbound.remoteAddr}) askedNode (asked 0) :=
    .step .start env (a := .accept inbound) rfl rfl
  exact ((haccepted.step env (hpossible 0 (by decide)) trivial).step env
    (hpossible 1 (by decide)) trivial).step env (hpossible 2 (by decide)) trivial

end Sample

variable {m : Manager} {json : Json} {payloads : PayloadJson} {env : Surroundings}

/-! ### What the methods and the handler keep -/

/-- A property of the tables that is kept by every method that changes them. -/
structure KeptByMethods (P : Node → Prop) : Prop where
  register : ∀ {n : Node} (id : String) (conn : Conn) (now : ℤ), P n → P (n.register id conn now)
  reportPeer : ∀ {n : Node} (peer : String) (delta : Int64) (now : ℤ), P n →
    P (n.reportPeer peer delta now)
  allowPeerMessage : ∀ {n : Node} (id : String) (now : ℤ), P n → P (n.allowPeerMessage id now).2
  exit : ∀ {n : Node} (conn : Conn), P n → P (n.exit conn)

theorem snd_readPeerMessage (n : Node) (id : String) (now : ℤ) (input : List UInt8) :
    (n.readPeerMessage json id now input).2 = (n.allowPeerMessage id now).2 := by
  unfold Node.readPeerMessage
  split
  · next heq => rw [heq]
  · next heq => rw [heq]

theorem send_system (s : System) (peer : String) (msg : Message) :
    (send json s peer msg).system = s := by
  unfold send
  split
  · rfl
  · split <;> rfl

/-- `Connect` changes the table of peers only, by registering the connection. -/
theorem net_connect (s : System) (address : String) :
    (connect json env s address).system.net = s.net ∨
      ∃ conn, (connect json env s address).system.net = s.net.register address conn env.now := by
  unfold connect
  split_ifs
  · exact .inl rfl
  · split
    · exact .inl rfl
    · next conn _ =>
      right
      use conn
      dsimp only
      split_ifs
      · rw [send_system]
        rfl
      · rfl

/-- Any other message than `addr` leaves the tables as they are, but for a report. -/
theorem net_handler (s : System) (peer : String) {msg : Message} (htype : msg.type ≠ .addr) :
    (handler m json payloads env s peer msg).system.net = s.net ∨
      (handler m json payloads env s peer msg).system.net =
        s.net.reportPeer peer (-10) env.now := by
  unfold handler
  split
  · exact .inl (congrArg _ (send_system s _ _))
  · exact .inl (congrArg _ (send_system s _ _))
  · next haddr => exact absurd haddr htype
  · unfold handleBlock
    split
    · exact .inr rfl
    · split <;> exact .inl rfl
  · unfold handleTx
    split
    · exact .inr rfl
    · split
      · exact .inl rfl
      · split <;> exact .inl rfl
  · unfold handleGetHeaders
    split
    · exact .inl rfl
    · split
      · exact .inl rfl
      · exact .inl (congrArg _ (send_system s _ _))
  · exact .inl (congrArg _ (send_system s _ _))
  · exact .inl rfl

namespace KeptByMethods

variable {P : Node → Prop} (h : KeptByMethods P)

include h

theorem connect {s : System} (hs : P s.net) (address : String) :
    P (P2P.connect json env s address).system.net := by
  rcases net_connect s address with heq | ⟨conn, heq⟩
  · rwa [heq]
  · rw [heq]
    exact h.register _ _ _ hs

theorem connectAll (addrs : List String) {s : System} (hs : P s.net) :
    P (P2P.connectAll json env s addrs).1.net := by
  induction addrs generalizing s with
  | nil => exact hs
  | cons addr addrs ih =>
    unfold P2P.connectAll
    split_ifs
    · exact hs
    · exact ih hs
    · exact ih (h.connect hs addr)

theorem handler {s : System} (hs : P s.net) (peer : String) (msg : Message) :
    P (P2P.handler m json payloads env s peer msg).system.net := by
  by_cases htype : msg.type = .addr
  · unfold P2P.handler
    rw [htype]
    dsimp only
    split
    · exact hs
    · exact h.connectAll _ hs
  · rcases net_handler s peer htype with heq | heq
    · rwa [heq]
    · rw [heq]
      exact h.reportPeer _ _ _ hs

theorem loop {r : Running} (hr : P r.system.net) (conn : Conn) (lost : Bool) :
    P (r.loop m json payloads env conn lost).system.net := by
  unfold Running.loop
  split
  · have hread :
        P (r.system.net.readPeerMessage json conn.remoteAddr env.now (r.unread conn)).2 := by
      rw [snd_readPeerMessage]
      exact h.allowPeerMessage _ _ hr
    unfold Running.read
    split
    · next heq => rwa [heq] at hread
    · next heq =>
      rw [heq] at hread
      split_ifs <;> exact hread
  · exact h.handler hr _ _
  · exact h.reportPeer _ _ _ hr
  · exact h.reportPeer _ _ _ hr
  · exact h.exit _ hr
  · exact hr

theorem step {r : Running} (hr : P r.system.net) (a : Activity) :
    P (r.step m json payloads env a).system.net := by
  cases a with
  | accept conn => exact h.register _ _ _ hr
  | connect address => exact h.connect hr address
  | getAddr peer =>
    change P (send json r.system peer ⟨.getAddr, []⟩).system.net
    rwa [send_system]
  | loop conn lost => exact h.loop hr conn lost

theorem works {allowed : Activity → Prop} {first r : Running} (hfirst : P first.system.net)
    (hworks : Works m json payloads allowed first r) : P r.system.net := by
  induction hworks with
  | start => exact hfirst
  | step _ _ _ _ ih => exact h.step ih _

end KeptByMethods

theorem keptByMethods_cfg (cfg : Config) : KeptByMethods fun n ↦ n.cfg = cfg where
  register _ _ _ hn := Node.cfg_register.trans hn
  reportPeer _ _ _ hn := Node.cfg_reportPeer.trans hn
  allowPeerMessage _ _ hn := hn
  exit _ hn := Node.cfg_removePeer.trans hn

/-! ### Messages in their order -/

section Order

variable (json)

/-- The messages that stand at the front of bytes, and the bytes after them. -/
inductive Reads (maxBytes : ℤ) (input : List UInt8) : List Message → List UInt8 → Prop
  | nil : Reads maxBytes input [] input
  | snoc {messages : List Message} {msg : Message} {mid rest : List UInt8}
      (reads : Reads maxBytes input messages mid)
      (next : readMessageLimit json maxBytes mid = .ok (msg, rest)) :
      Reads maxBytes input (messages ++ [msg]) rest

end Order

/-- What `readPeerMessage` returns has been read, and is of a type that is known. -/
theorem readPeerMessage_ok {n net : Node} {id : String} {now : ℤ} {input rest : List UInt8}
    {msg : Message} (h : n.readPeerMessage json id now input = (.ok (msg, rest), net)) :
    readMessageLimit json n.cfg.maxMessageBytes input = .ok (msg, rest) ∧
      msg.type ∈ knownMessageTypes := by
  unfold Node.readPeerMessage at h
  split at h
  · cases h
  · next n' hallow =>
    have hcfg : n'.cfg = n.cfg := by rw [← n.cfg_allowPeerMessage id now, hallow]
    obtain ⟨hresult, -⟩ := Prod.mk.inj h
    rw [hcfg] at hresult
    cases hread : readMessageLimit json n.cfg.maxMessageBytes input with
    | error e =>
      rw [hread] at hresult
      cases hresult
    | ok r =>
      rw [hread] at hresult
      by_cases hknown : r.1.type ∈ knownMessageTypes
      · change (do validateMessage r.1; .ok (r.1, r.2)) = _ at hresult
        rw [validateMessage_of_mem hknown] at hresult
        cases hresult
        exact ⟨rfl, hknown⟩
      · change (do validateMessage r.1; .ok (r.1, r.2)) = _ at hresult
        rw [validateMessage_of_notMem hknown] at hresult
        cases hresult

/-- The message with which a loop stands before the handler. -/
def Phase.pending : Phase → List Message
  | .handling msg => [msg]
  | _ => []

/-- The messages of a connection that the handler was given. -/
def Running.handledOn (r : Running) (conn : Conn) : List Message :=
  (r.handled.filter (·.1 = conn)).map Prod.snd

/-- What was handled or is to be handled next has been read from the bytes of the connection. -/
def InOrder (json : Json) (maxBytes : ℤ) (stream : Conn → List UInt8) (r : Running) : Prop :=
  ∀ conn, Reads json maxBytes (stream conn) (r.handledOn conn ++ (r.phase conn).pending)
    (r.unread conn)

theorem Running.phase_goto (r : Running) (conn c : Conn) (phase : Phase) :
    (r.goto conn phase).phase c = if c = conn then phase else r.phase c :=
  Function.update_apply ..

namespace InOrder

variable {maxBytes : ℤ} {stream : Conn → List UInt8} {r : Running}

/-- A loop that goes to a place without a message, from one without a message. -/
theorem goto (h : InOrder json maxBytes stream r) {conn : Conn} (net : Node) {phase : Phase}
    (hold : (r.phase conn).pending = []) (hnew : phase.pending = []) :
    InOrder json maxBytes stream ((r.withNet net).goto conn phase) := by
  intro c
  have hc := h c
  rw [Running.phase_goto]
  split_ifs with heq
  · rw [heq, hold] at hc
    rw [heq, hnew]
    exact hc
  · exact hc

theorem read (h : InOrder json maxBytes stream r)
    (hcfg : r.system.net.cfg.maxMessageBytes = maxBytes) {conn : Conn}
    (hphase : r.phase conn = .reading) (lost : Bool) :
    InOrder json maxBytes stream (r.read json env conn lost) := by
  have hold : (r.phase conn).pending = [] := congrArg Phase.pending hphase
  unfold Running.read
  split
  · exact h.goto _ hold rfl
  · next msg rest net hread =>
    split_ifs
    · exact h.goto _ hold rfl
    intro c
    have hc := h c
    change Reads json maxBytes (stream c)
      (r.handledOn c ++ (((r.withNet net).goto conn (.handling msg)).phase c).pending)
      (Function.update r.unread conn rest c)
    rw [Running.phase_goto, Function.update_apply]
    split_ifs with heq
    · rw [heq, hold, List.append_nil] at hc
      rw [heq]
      exact hc.snoc (hcfg ▸ (readPeerMessage_ok hread).1)
    · exact hc

theorem handle (h : InOrder json maxBytes stream r) {conn : Conn} {msg : Message}
    (hphase : r.phase conn = .handling msg) (lost : Bool) :
    InOrder json maxBytes stream (r.handle m json payloads env conn msg lost) := by
  intro c
  have hc := h c
  have hhandled : (r.handle m json payloads env conn msg lost).handledOn c =
      r.handledOn c ++ if c = conn then [msg] else [] := by
    unfold Running.handledOn Running.handle
    dsimp only
    rw [List.filter_append, List.map_append]
    split_ifs with heq
    · simp [heq]
    · simp [Ne.symm heq]
  have hpending : ((r.handle m json payloads env conn msg lost).phase c).pending =
      if c = conn then [] else (r.phase c).pending := by
    unfold Running.handle
    dsimp only
    rw [Running.phase_goto]
    by_cases heq : c = conn
    · rw [if_pos heq, if_pos heq]
      split_ifs <;> rfl
    · rw [if_neg heq, if_neg heq]
      rfl
  rw [hhandled, hpending]
  split_ifs with heq
  · rw [heq, hphase] at hc
    rw [heq, List.append_nil]
    exact hc
  · rw [List.append_nil]
    exact hc

theorem loop (h : InOrder json maxBytes stream r)
    (hcfg : r.system.net.cfg.maxMessageBytes = maxBytes) (conn : Conn) (lost : Bool) :
    InOrder json maxBytes stream (r.loop m json payloads env conn lost) := by
  unfold Running.loop
  split
  · next hphase => exact h.read hcfg hphase lost
  · next msg hphase => exact h.handle hphase lost
  · next hphase => exact h.goto _ (congrArg Phase.pending hphase) rfl
  · next hphase => exact h.goto _ (congrArg Phase.pending hphase) rfl
  · next hphase => exact h.goto _ (congrArg Phase.pending hphase) rfl
  · exact h

theorem step (h : InOrder json maxBytes stream r)
    (hcfg : r.system.net.cfg.maxMessageBytes = maxBytes) (a : Activity) :
    InOrder json maxBytes stream (r.step m json payloads env a) := by
  cases a with
  | accept conn => exact h
  | connect address => exact h
  | getAddr peer => exact h
  | loop conn lost => exact h.loop hcfg conn lost

end InOrder

/-- In whatever order the goroutines of a node take their turns, what the handler has been given
from a connection, and what its loop is about to give it, are the messages at the front of the bytes
that the connection delivers: in their order, each once, and up to the bytes that are still to be
read. -/
theorem handled_in_order {allowed : Activity → Prop} {chain : NevelCore.Node} {cfg : Config}
    {stream : Conn → List UInt8} {r : Running}
    (h : Works m json payloads allowed (.start chain cfg stream) r) (conn : Conn) :
    Reads json cfg.withDefaults.maxMessageBytes (stream conn)
      (r.handledOn conn ++ (r.phase conn).pending) (r.unread conn) := by
  revert conn
  change InOrder json cfg.withDefaults.maxMessageBytes stream r
  induction h with
  | start => exact fun _ ↦ .nil
  | step works env possible allows ih =>
    have hcfg := (keptByMethods_cfg cfg.withDefaults).works rfl works
    exact ih.step (congrArg _ hcfg) _

/-- Of what a node is sent by one that bootstraps from it, the first message is handled, and the
loop has stopped at the second one. -/
theorem handled_in_order_sample :
    (Sample.asked 3).handledOn Sample.inbound = [Sample.versionMsg] ∧
      Reads Sample.json maxMessageBytes Sample.bootstrapBytes
        ((Sample.asked 3).handledOn Sample.inbound ++
          ((Sample.asked 3).phase Sample.inbound).pending)
        ((Sample.asked 3).unread Sample.inbound) :=
  ⟨by decide +kernel, handled_in_order Sample.works_asked Sample.inbound⟩

/-! ### The limits on peers -/

/-- The two limits on the table of peers. -/
structure WithinLimits (n : Node) : Prop where
  card_le : (n.peers.keys.card : ℤ) ≤ n.cfg.maxPeers
  host_le : 0 < n.cfg.maxPeersPerIP → ∀ host, (n.hostCount host : ℤ) ≤ n.cfg.maxPeersPerIP

namespace WithinLimits

variable {n : Node}

/-- The limits hold for a part of the table. -/
theorem mono (h : WithinLimits n) {n' : Node} (hcfg : n'.cfg = n.cfg)
    (hkeys : n'.peers.keys ⊆ n.peers.keys) : WithinLimits n' where
  card_le := by
    have hle := Finset.card_le_card hkeys
    have hcard := h.card_le
    rw [hcfg]
    omega
  host_le hpos host := by
    rw [hcfg] at hpos ⊢
    have hle : n'.hostCount host ≤ n.hostCount host :=
      Finset.card_le_card (Finset.filter_subset_filter _ hkeys)
    have hhost := h.host_le hpos host
    omega

theorem addPeer (h : WithinLimits n) (id : String) (conn : Conn) (now : ℤ) :
    WithinLimits (n.addPeer id conn now).2 := by
  unfold Node.addPeer
  split_ifs with hbanned hfull hhost
  · exact h
  · exact h
  · exact h
  constructor
  · change ((n.peers.insert id conn).keys.card : ℤ) ≤ n.cfg.maxPeers
    rw [Node.keys_insert]
    have hinsert := Finset.card_insert_le id n.peers.keys
    omega
  · intro hpos host
    change (((n.peers.insert id conn).keys.filter fun id ↦ peerHost id = host).card : ℤ) ≤
      n.cfg.maxPeersPerIP
    rw [Node.keys_insert, Finset.filter_insert]
    split_ifs with hid
    · -- the count of the host was below the limit when the peer came
      have hinsert := Finset.card_insert_le id (n.peers.keys.filter fun id ↦ peerHost id = host)
      have hlt : (n.hostCount host : ℤ) < n.cfg.maxPeersPerIP := by
        rw [← hid]
        exact Int.lt_of_not_ge fun hge ↦ hhost ⟨hpos, hge⟩
      change (n.peers.keys.filter fun id ↦ peerHost id = host).card < n.cfg.maxPeersPerIP at hlt
      omega
    · exact h.host_le hpos host

theorem removePeer (h : WithinLimits n) (id : String) : WithinLimits (n.removePeer id) := by
  refine h.mono Node.cfg_removePeer ?_
  rw [Node.peers_removePeer, Finmap.keys_erase]
  exact Finset.erase_subset _ _

end WithinLimits

theorem keptByMethods_withinLimits : KeptByMethods WithinLimits where
  register id conn now hn := by
    have hadded := hn.addPeer id conn now
    unfold Node.register
    split
    · next heq =>
      rw [heq] at hadded
      exact hadded.mono rfl subset_rfl
    · next heq =>
      rw [heq] at hadded
      exact hadded.mono rfl subset_rfl
  reportPeer peer delta now hn := by
    rcases Node.reportPeer_cases _ peer delta now with heq | heq
    · rw [heq]
      exact hn.mono rfl subset_rfl
    · rw [heq]
      refine WithinLimits.removePeer ?_ peer
      exact hn.mono rfl subset_rfl
  allowPeerMessage _ _ hn := hn.mono rfl subset_rfl
  exit conn hn := (hn.removePeer conn.remoteAddr).mono rfl subset_rfl

/-- A node has never more peers than `MaxPeers`, and never more of one host than `MaxPeersPerIP`. -/
theorem peer_limits {allowed : Activity → Prop} {chain : NevelCore.Node} {cfg : Config}
    {stream : Conn → List UInt8} {r : Running}
    (h : Works m json payloads allowed (.start chain cfg stream) r) :
    (r.system.net.peers.keys.card : ℤ) ≤ cfg.withDefaults.maxPeers ∧
      (0 < cfg.maxPeersPerIP → ∀ host, (r.system.net.hostCount host : ℤ) ≤ cfg.maxPeersPerIP) := by
  have hfirst : WithinLimits (newNode cfg) := by
    constructor
    · change (0 : ℤ) ≤ if cfg.maxPeers ≤ 0 then 32 else cfg.maxPeers
      split_ifs <;> omega
    · intro hpos host
      exact hpos.le
  have hlimits := keptByMethods_withinLimits.works hfirst h
  have hcfg := (keptByMethods_cfg cfg.withDefaults).works rfl h
  refine ⟨hcfg ▸ hlimits.card_le, fun hpos host ↦ ?_⟩
  have hhost := hlimits.host_le (hcfg ▸ hpos) host
  rwa [hcfg] at hhost

theorem peer_limits_sample :
    (Sample.asked 3).system.net.peers.keys = {Sample.inbound.remoteAddr} ∧
      ((Sample.asked 3).system.net.peers.keys.card : ℤ) ≤ 2 :=
  ⟨by decide +kernel, (peer_limits Sample.works_asked).1⟩

/-! ### Discovery -/

/-- The message of an output. -/
def Output.message : Output → Message
  | .send _ msg => msg
  | .broadcastExcept msg _ => msg

theorem message_of_mem_send {s : System} {peer : String} {msg : Message} {o : Output}
    (ho : o ∈ (send json s peer msg).outputs) : o.message = msg := by
  unfold send at ho
  split at ho
  · cases ho
  · split at ho
    · cases ho
    · rw [List.mem_singleton.mp ho]
      rfl

theorem type_of_mem_connect {s : System} {address : String} {o : Output}
    (ho : o ∈ (connect json env s address).outputs) : o.message.type = .version := by
  unfold connect at ho
  split_ifs at ho
  · cases ho
  · split at ho
    · cases ho
    · dsimp only at ho
      split_ifs at ho
      · rw [message_of_mem_send ho]
      · cases ho

/-- No message that `validateMessage` lets through is answered with addresses. -/
theorem type_ne_addr_of_mem_handler {s : System} {peer : String} {msg : Message}
    (hknown : msg.type ∈ knownMessageTypes) {o : Output}
    (ho : o ∈ (handler m json payloads env s peer msg).outputs) : o.message.type ≠ .addr := by
  have hmsg : msg.type ≠ .addr := fun h ↦ absurd (h ▸ hknown) (by decide)
  unfold handler at ho
  split at ho
  · rw [message_of_mem_send ho]
    nofun
  · next htype => exact absurd (htype ▸ hknown) (by decide)
  · next htype => exact absurd htype hmsg
  · unfold handleBlock at ho
    split at ho
    · cases ho
    · split at ho
      · cases ho
      · rwa [List.mem_singleton.mp ho]
  · unfold handleTx at ho
    split at ho
    · cases ho
    · split at ho
      · cases ho
      · split at ho
        · cases ho
        · rwa [List.mem_singleton.mp ho]
  · unfold handleGetHeaders at ho
    split at ho
    · cases ho
    · split at ho
      · cases ho
      · rw [message_of_mem_send ho]
        nofun
  · rw [message_of_mem_send ho]
    nofun
  · cases ho

/-- The keys of the table of peers are of a set. -/
def KeysWithin (ids : Set String) (n : Node) : Prop := ∀ id ∈ n.peers, id ∈ ids

namespace KeysWithin

variable {ids : Set String} {n : Node}

theorem removePeer (h : KeysWithin ids n) (id : String) : KeysWithin ids (n.removePeer id) := by
  intro key hkey
  rw [Node.peers_removePeer, Finmap.mem_erase] at hkey
  exact h key hkey.2

theorem exit (h : KeysWithin ids n) (conn : Conn) : KeysWithin ids (n.exit conn) :=
  h.removePeer conn.remoteAddr

theorem reportPeer (h : KeysWithin ids n) (peer : String) (delta : Int64) (now : ℤ) :
    KeysWithin ids (n.reportPeer peer delta now) := by
  rcases n.reportPeer_cases peer delta now with heq | heq
  · rw [heq]
    exact h
  · rw [heq]
    exact removePeer (n := { n.addScore peer delta with banned := _ }) h peer

theorem register (h : KeysWithin ids n) {id : String} (hid : id ∈ ids) (conn : Conn) (now : ℤ) :
    KeysWithin ids (n.register id conn now) := by
  rcases n.register_cases id conn now with heq | ⟨-, heq⟩
  · rw [heq]
    exact h
  · rw [heq]
    intro key hkey
    rcases (Finmap.mem_insert).mp hkey with rfl | hkey
    · exact hid
    · exact h key hkey

end KeysWithin

/-- The table has only peers of a set, no loop has an unknown message for the handler, the handler
has not been given one, and no addresses have been sent. -/
structure NothingLearned (ids : Set String) (r : Running) : Prop where
  keys : KeysWithin ids r.system.net
  pending : ∀ conn msg, r.phase conn = .handling msg → msg.type ∈ knownMessageTypes
  handled : ∀ given ∈ r.handled, given.2.type ∈ knownMessageTypes
  sent : ∀ o ∈ r.outputs, o.message.type ≠ .addr

namespace NothingLearned

variable {ids : Set String} {r : Running}

theorem goto (h : NothingLearned ids r) {net : Node} (hkeys : KeysWithin ids net) (conn : Conn)
    {phase : Phase} (hphase : ∀ msg, phase = .handling msg → msg.type ∈ knownMessageTypes) :
    NothingLearned ids ((r.withNet net).goto conn phase) where
  keys := hkeys
  pending c msg hc := by
    rw [Running.phase_goto] at hc
    split_ifs at hc
    · exact hphase msg hc
    · exact h.pending c msg hc
  handled := h.handled
  sent := h.sent

theorem sends (h : NothingLearned ids r) {done : Handled} (hkeys : KeysWithin ids done.system.net)
    (hsent : ∀ o ∈ done.outputs, o.message.type ≠ .addr) : NothingLearned ids (r.sends done) where
  keys := hkeys
  pending := h.pending
  handled := h.handled
  sent o ho := (List.mem_append.mp ho).elim (h.sent o) (hsent o)

theorem read (h : NothingLearned ids r) (conn : Conn) (lost : Bool) :
    NothingLearned ids (r.read json env conn lost) := by
  have hkeys : KeysWithin ids
      (r.system.net.readPeerMessage json conn.remoteAddr env.now (r.unread conn)).2 := by
    rw [snd_readPeerMessage]
    exact h.keys
  unfold Running.read
  split
  · next heq =>
    rw [heq] at hkeys
    exact h.goto hkeys conn nofun
  · next msg rest net heq =>
    have hread := readPeerMessage_ok heq
    rw [heq] at hkeys
    split_ifs
    · exact h.goto hkeys conn nofun
    · have hgoto : NothingLearned ids ((r.withNet net).goto conn (.handling msg)) :=
        h.goto hkeys conn fun _ hmsg ↦ Phase.handling.inj hmsg ▸ hread.2
      exact ⟨hgoto.keys, hgoto.pending, hgoto.handled, hgoto.sent⟩

theorem handle (h : NothingLearned ids r) {conn : Conn} {msg : Message}
    (hphase : r.phase conn = .handling msg) (lost : Bool) :
    NothingLearned ids (r.handle m json payloads env conn msg lost) := by
  have hknown := h.pending conn msg hphase
  have haddr : msg.type ≠ .addr := fun hmsg ↦ absurd (hmsg ▸ hknown) (by decide)
  have hkeys : KeysWithin ids
      (handler m json payloads env r.system conn.remoteAddr msg).system.net := by
    rcases net_handler r.system conn.remoteAddr haddr with heq | heq
    · rw [heq]
      exact h.keys
    · rw [heq]
      exact h.keys.reportPeer _ _ _
  have hsends := h.sends hkeys fun _ ↦ type_ne_addr_of_mem_handler hknown
  have hgoto (phase : Phase) (hnone : ∀ msg, phase = .handling msg → msg.type ∈ knownMessageTypes) :
      NothingLearned ids
        ((r.sends (handler m json payloads env r.system conn.remoteAddr msg)).goto conn phase) :=
    hsends.goto hsends.keys conn hnone
  unfold Running.handle
  refine ⟨hkeys, (hgoto _ ?_).pending, ?_, hsends.sent⟩
  · intro _ hmsg
    split_ifs at hmsg
  · intro given hgiven
    rcases List.mem_append.mp hgiven with hgiven | hgiven
    · exact h.handled given hgiven
    · rw [List.mem_singleton.mp hgiven]
      exact hknown

theorem loop (h : NothingLearned ids r) (conn : Conn) (lost : Bool) :
    NothingLearned ids (r.loop m json payloads env conn lost) := by
  unfold Running.loop
  split
  · exact h.read conn lost
  · next msg hphase => exact h.handle hphase lost
  · exact h.goto (h.keys.reportPeer _ _ _) conn nofun
  · exact h.goto (h.keys.reportPeer _ _ _) conn nofun
  · exact h.goto (h.keys.exit conn) conn nofun
  · exact h

theorem step {seeds inbound : Set String} (h : NothingLearned (seeds ∪ inbound) r) {a : Activity}
    (hmeets : Meets seeds inbound a) :
    NothingLearned (seeds ∪ inbound) (r.step m json payloads env a) := by
  cases a with
  | accept conn =>
    exact ⟨h.keys.register (.inr hmeets) conn env.now, h.pending, h.handled, h.sent⟩
  | connect address =>
    refine h.sends ?_ ?_
    · rcases net_connect r.system address with heq | ⟨conn, heq⟩
      · rw [heq]
        exact h.keys
      · rw [heq]
        exact h.keys.register (.inl hmeets) conn env.now
    · intro o ho
      rw [type_of_mem_connect ho]
      nofun
  | getAddr peer =>
    refine h.sends ?_ fun o ho ↦ ?_
    · rw [send_system]
      exact h.keys
    · rw [message_of_mem_send ho]
      nofun
  | loop conn lost => exact h.loop conn lost

end NothingLearned

/-- Whatever a node is sent, and in whatever order its goroutines take their turns, its peers are
seeds that it dialled itself and hosts that came to it, and it never sends addresses: what asks for
addresses or brings them is never handled. -/
theorem discovery_learns_nothing {seeds inbound : Set String} {chain : NevelCore.Node}
    {cfg : Config} {stream : Conn → List UInt8} {r : Running}
    (h : Works m json payloads (Meets seeds inbound) (.start chain cfg stream) r) :
    (∀ id ∈ r.system.net.peers, id ∈ seeds ∨ id ∈ inbound) ∧
      (∀ o ∈ r.outputs, o.message.type ≠ .addr) ∧
      ∀ given ∈ r.handled, given.2.type ≠ .getAddr ∧ given.2.type ≠ .addr := by
  have hkept : NothingLearned (seeds ∪ inbound) r := by
    induction h with
    | start => exact ⟨fun _ hid ↦ absurd hid Finmap.notMem_empty, nofun, nofun, nofun⟩
    | step works env possible allows ih => exact ih.step allows
  refine ⟨hkept.keys, hkept.sent, fun given hgiven ↦ ?_⟩
  have hknown := hkept.handled given hgiven
  constructor
  · intro htype
    exact absurd (htype ▸ hknown) (by decide)
  · intro htype
    exact absurd (htype ▸ hknown) (by decide)

/-- The connection that asked for addresses is about to be cut. -/
theorem discovery_learns_nothing_sample :
    (Sample.asked 3).phase Sample.inbound = .broken ∧
      (∀ id ∈ (Sample.asked 3).system.net.peers, id ∈ (∅ : Set String) ∨
        id ∈ ({Sample.inbound.remoteAddr} : Set String)) ∧
      (∀ o ∈ (Sample.asked 3).outputs, o.message.type ≠ .addr) ∧
      ∀ given ∈ (Sample.asked 3).handled, given.2.type ≠ .getAddr ∧ given.2.type ≠ .addr :=
  ⟨by decide +kernel, discovery_learns_nothing Sample.works_asked⟩

end NevelCore.P2P
