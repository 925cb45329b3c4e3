import NevelCore.Foundations.ByteReader
import NevelCore.Foundations.JsonForms
import NevelCore.P2P.Node

/-!
# Messages between nodes

A message goes over a connection as its JSON text with the length in front, in four bytes. JSON
itself is a parameter (`Json`): what `json.Marshal` makes of a message, `json.Unmarshal` reads back.
`Message.form` has the texts that `encoding/json` writes for messages.

Frames read back one after another, whatever follows them (`readMessageLimit_frame`). What a reader
refuses of the messages that nodes send are exactly those of types that `knownMessageTypes` lacks:
`getaddr` and `addr` (`readPeerMessages_ok_iff`).
-/

set_option autoImplicit false
set_option relaxedAutoImplicit false

namespace NevelCore.P2P

open Foundations

/-! ### Messages -/

/-- The texts of the types with a name. -/
def messageTypeNames : List (List UInt8) :=
  ["version", "verack", "ping", "pong", "inv", "getdata", "tx", "block", "headers", "getheaders",
    "mempool", "reject", "getaddr", "addr", "peers"].map fun name ↦ name.toUTF8.toList

/-- `MessageType`: the named types, and any other text. -/
inductive MessageType where
  | version
  | verAck
  | ping
  | pong
  | inv
  | getData
  | tx
  | block
  | headers
  | getHeaders
  | getAddr
  | addr
  | mempool
  | reject
  | peers
  | other (text : List UInt8) (unnamed : text ∉ messageTypeNames)
deriving DecidableEq

structure Message where
  type : MessageType
  payload : List UInt8
deriving DecidableEq

/-- Why a message is not written or read. -/
inductive MessageError where
  | unknownMessageType
  | peerRateLimited
  | invalidMessageSize
  | messageTooLarge
  | read (cause : ReadError)
  | json
deriving DecidableEq

/-- `knownMessageTypes`. -/
def knownMessageTypes : List MessageType :=
  [.version, .verAck, .ping, .pong, .inv, .getData, .tx, .block, .headers, .getHeaders, .mempool,
    .reject]

/-- The types of the messages that nodes send: `Connect` and the handler with `version` and
`verack`, `Bootstrap` and `PeriodicDiscovery` with `getaddr` and its answer `addr`, relayed blocks
and transactions, answers to `getheaders`, and pings with their answers. -/
def sentMessageTypes : List MessageType :=
  [.version, .verAck, .getAddr, .addr, .block, .tx, .headers, .ping, .pong]

/-- `validateMessage`. -/
def validateMessage (msg : Message) : Except MessageError Unit :=
  if msg.type ∈ knownMessageTypes then .ok () else .error .unknownMessageType

/-- The types with a name. -/
def namedMessageTypes : List MessageType := knownMessageTypes ++ [.getAddr, .addr, .peers]

/-- `encoding/json` on messages. Messages of named types are kept. -/
structure Json where
  marshal : Message → List UInt8
  unmarshal : List UInt8 → Option Message
  unmarshal_marshal : ∀ msg, msg.type ∈ namedMessageTypes → unmarshal (marshal msg) = some msg
  marshal_ne_nil : ∀ msg, marshal msg ≠ []

/-! ### The JSON of messages -/

/-- The text of a type. -/
def MessageType.text : MessageType → List UInt8
  | .version => "version".toUTF8.toList
  | .verAck => "verack".toUTF8.toList
  | .ping => "ping".toUTF8.toList
  | .pong => "pong".toUTF8.toList
  | .inv => "inv".toUTF8.toList
  | .getData => "getdata".toUTF8.toList
  | .tx => "tx".toUTF8.toList
  | .block => "block".toUTF8.toList
  | .headers => "headers".toUTF8.toList
  | .getHeaders => "getheaders".toUTF8.toList
  | .getAddr => "getaddr".toUTF8.toList
  | .addr => "addr".toUTF8.toList
  | .mempool => "mempool".toUTF8.toList
  | .reject => "reject".toUTF8.toList
  | .peers => "peers".toUTF8.toList
  | .other text _ => text

theorem mem_messageTypeNames {text : List UInt8} :
    text ∈ messageTypeNames ↔ ∃ type ∈ namedMessageTypes, type.text = text := by
  have hnames : messageTypeNames = namedMessageTypes.map MessageType.text := rfl
  rw [hnames, List.mem_map]

/-- The type with a text. -/
def MessageType.ofText (text : List UInt8) : MessageType :=
  if h : ∃ type ∈ namedMessageTypes, type.text = text then
    (namedMessageTypes.find? fun type ↦ type.text = text).getD .version
  else .other text fun hname ↦ h (mem_messageTypeNames.mp hname)

theorem MessageType.ofText_text (type : MessageType) : ofText type.text = type := by
  cases type with
  | other text unnamed => exact dif_neg (mt mem_messageTypeNames.mpr unnamed)
  | _ => decide +kernel

def MessageType.form : JsonText.Form MessageType :=
  JsonText.Form.text.map ofText text ofText_text

/-- The JSON of a message, with the payload in base64. -/
def Message.form : JsonText.Form Message :=
  ((JsonText.Fields.field "type" MessageType.form <| .field "payload" .bytes .empty).form
      (by decide +kernel)).map
    (fun x ↦ ⟨x.1, x.2.1⟩) (fun msg ↦ (msg.type, msg.payload, ())) fun _ ↦ rfl

/-! ### The wire -/

section Wire

variable (json : Json)

/-- The bytes of `writeMessage`. -/
def writeMessage (msg : Message) : Except MessageError (List UInt8) :=
  let payload := json.marshal msg
  if maxMessageBytes < payload.length then .error .messageTooLarge
  else .ok (beBytes 4 payload.length ++ payload)

/-- The bytes of messages written back to back. -/
def writeMessages : List Message → Except MessageError (List UInt8)
  | [] => .ok []
  | msg :: messages => do
    let front ← writeMessage json msg
    let back ← writeMessages messages
    .ok (front ++ back)

/-- `io.ReadFull`, which returns also the bytes that are left. -/
def readExactly (count : ℕ) (input : List UInt8) :
    Except MessageError (List UInt8 × List UInt8) :=
  match (readFull count).run input with
  | .ok (bytes, rest) => .ok (bytes.val, rest)
  | .error e => .error (.read e)

/-- `readMessageLimit`, which returns also the bytes that are left. -/
def readMessageLimit (maxBytes : ℤ) (input : List UInt8) :
    Except MessageError (Message × List UInt8) := do
  let (header, input) ← readExactly 4 input
  let size := beValue header
  let maxBytes := if maxBytes ≤ 0 then (maxMessageBytes : ℤ) else maxBytes
  if size = 0 ∨ (maxBytes % 2 ^ 32).toNat < size then .error .invalidMessageSize
  else do
    let (payload, input) ← readExactly size input
    match json.unmarshal payload with
    | none => .error .json
    | some msg => do
      validateMessage msg
      .ok (msg, input)

end Wire

namespace Node

/-- `allowPeerMessage`. `Sub` cuts the difference to the range of durations, which does not change
how it compares with one. -/
def allowPeerMessage (n : Node) (id : String) (now : ℤ) : Bool × Node :=
  let st := n.stats id
  let st : PeerStats :=
    if st.windowStart = 0 ∨ now - st.windowStart ≥ n.cfg.peerRateWindow then ⟨now, 0⟩ else st
  let st := { st with messages := st.messages + 1 }
  (st.messages ≤ n.cfg.peerRateLimit, { n with stats := Function.update n.stats id st })

@[simp] theorem cfg_allowPeerMessage (n : Node) (id : String) (now : ℤ) :
    (n.allowPeerMessage id now).2.cfg = n.cfg := rfl

/-- `readPeerMessage`. -/
def readPeerMessage (json : Json) (n : Node) (id : String) (now : ℤ) (input : List UInt8) :
    Except MessageError (Message × List UInt8) × Node :=
  match n.allowPeerMessage id now with
  | (false, n) => (.error .peerRateLimited, n)
  | (true, n) => (do
      let (msg, input) ← readMessageLimit json n.cfg.maxMessageBytes input
      validateMessage msg
      .ok (msg, input), n)

/-- Repeated calls of `readPeerMessage`, each at its clock reading. -/
def readPeerMessages (json : Json) (id : String) :
    Node → List ℤ → List UInt8 → Except MessageError (List Message × List UInt8) × Node
  | n, [], input => (.ok ([], input), n)
  | n, now :: times, input =>
    match n.readPeerMessage json id now input with
    | (.error e, n) => (.error e, n)
    | (.ok (msg, input), n) =>
      match readPeerMessages json id n times input with
      | (.error e, n) => (.error e, n)
      | (.ok (messages, input), n) => (.ok (msg :: messages, input), n)

/-- The rate limit allows a message at each of these clock readings. -/
def WithinRate (id : String) : Node → List ℤ → Prop
  | _, [] => True
  | n, now :: times =>
    (n.allowPeerMessage id now).1 = true ∧ WithinRate id (n.allowPeerMessage id now).2 times

end Node

/-! ### Reading back -/

section ReadBack

variable (json : Json) {n : Node} {id : String} {now : ℤ} {msg : Message}

theorem writeMessage_of_le (h : (json.marshal msg).length ≤ maxMessageBytes) :
    writeMessage json msg = .ok (beBytes 4 (json.marshal msg).length ++ json.marshal msg) := by
  rw [writeMessage]
  exact if_neg (Nat.not_lt.mpr h)

theorem readExactly_append {count : ℕ} {front : List UInt8} (h : front.length = count)
    (rest : List UInt8) : readExactly count (front ++ rest) = .ok (front, rest) := by
  rw [readExactly, readFull_append h]

/-- A frame reads back as its message, if the type is known, whatever follows. -/
theorem readMessageLimit_frame (hnamed : msg.type ∈ namedMessageTypes)
    (h : (json.marshal msg).length ≤ maxMessageBytes) (rest : List UInt8) :
    readMessageLimit json maxMessageBytes
        (beBytes 4 (json.marshal msg).length ++ json.marshal msg ++ rest) =
      (do validateMessage msg; .ok (msg, rest)) := by
  have hlength : beValue (beBytes 4 (json.marshal msg).length) = (json.marshal msg).length := by
    rw [beValue_beBytes]
    exact Nat.mod_eq_of_lt (lt_of_le_of_lt h (by decide))
  have hpos : (json.marshal msg).length ≠ 0 := fun h0 ↦
    json.marshal_ne_nil msg (List.eq_nil_of_length_eq_zero h0)
  have hlimit : ((if (maxMessageBytes : ℤ) ≤ 0 then (maxMessageBytes : ℤ) else maxMessageBytes) %
      2 ^ 32).toNat = maxMessageBytes := by decide
  rw [readMessageLimit, List.append_assoc, readExactly_append (length_beBytes 4 _)]
  simp only [bind, Except.bind]
  rw [hlength, hlimit, if_neg (not_or.mpr ⟨hpos, Nat.not_lt.mpr h⟩), readExactly_append rfl]
  dsimp only
  rw [json.unmarshal_marshal msg hnamed]

theorem validateMessage_of_mem (h : msg.type ∈ knownMessageTypes) :
    validateMessage msg = .ok () := if_pos h

theorem validateMessage_of_notMem (h : msg.type ∉ knownMessageTypes) :
    validateMessage msg = .error .unknownMessageType := if_neg h

/-- A frame is read, within the rate limit, if its type is known. -/
theorem readPeerMessage_frame (hlimit : n.cfg.maxMessageBytes = maxMessageBytes)
    (hrate : (n.allowPeerMessage id now).1 = true) (hnamed : msg.type ∈ namedMessageTypes)
    (h : (json.marshal msg).length ≤ maxMessageBytes) (rest : List UInt8) :
    n.readPeerMessage json id now
        (beBytes 4 (json.marshal msg).length ++ json.marshal msg ++ rest) =
      (if msg.type ∈ knownMessageTypes then .ok (msg, rest) else .error .unknownMessageType,
        (n.allowPeerMessage id now).2) := by
  have hallowed : n.allowPeerMessage id now = (true, (n.allowPeerMessage id now).2) :=
    Prod.ext hrate rfl
  rw [Node.readPeerMessage, hallowed]
  dsimp only
  rw [Node.cfg_allowPeerMessage, hlimit, readMessageLimit_frame json hnamed h]
  split_ifs with hknown
  · rw [validateMessage_of_mem hknown]
    simp only [bind, Except.bind, validateMessage_of_mem hknown]
  · rw [validateMessage_of_notMem hknown]
    rfl

/-- Messages read back, within the rate limit, if and only if all their types are known. -/
theorem readPeerMessages_frames {times : List ℤ} {messages : List Message}
    (hlimit : n.cfg.maxMessageBytes = maxMessageBytes) (hlength : times.length = messages.length)
    (hrate : n.WithinRate id times) (hnamed : ∀ msg ∈ messages, msg.type ∈ namedMessageTypes)
    (hsize : ∀ msg ∈ messages, (json.marshal msg).length ≤ maxMessageBytes) (rest : List UInt8) :
    ∃ bytes, writeMessages json messages = .ok bytes ∧
      ((n.readPeerMessages json id times (bytes ++ rest)).1 = .ok (messages, rest) ↔
        ∀ msg ∈ messages, msg.type ∈ knownMessageTypes) := by
  induction messages generalizing n times with
  | nil =>
    obtain rfl := List.eq_nil_of_length_eq_zero hlength
    exact ⟨[], rfl, ⟨fun _ ↦ List.forall_mem_nil _, fun _ ↦ rfl⟩⟩
  | cons msg messages ih =>
    obtain ⟨now, times, rfl⟩ := List.exists_cons_of_length_eq_add_one hlength
    obtain ⟨hnow, hlater⟩ := hrate
    obtain ⟨hname, hnames⟩ := List.forall_mem_cons.mp hnamed
    obtain ⟨hmsg, hsizes⟩ := List.forall_mem_cons.mp hsize
    obtain ⟨bytes, hwrite, hread⟩ := ih (n := (n.allowPeerMessage id now).2) hlimit
      (Nat.succ.inj hlength) hlater hnames hsizes
    refine ⟨beBytes 4 (json.marshal msg).length ++ json.marshal msg ++ bytes, ?_, ?_⟩
    · rw [writeMessages, writeMessage_of_le json hmsg, hwrite]
      rfl
    · rw [List.append_assoc, Node.readPeerMessages,
        readPeerMessage_frame json hlimit hnow hname hmsg, List.forall_mem_cons, ← hread]
      split_ifs with hknown
      · rw [and_iff_right hknown]
        dsimp only
        generalize Node.readPeerMessages json id _ times (bytes ++ rest) = result
        obtain ⟨r, n'⟩ := result
        cases r with
        | error e => exact ⟨nofun, nofun⟩
        | ok read =>
          simp only [Except.ok.injEq, Prod.mk.injEq, List.cons.injEq, true_and]
          rw [Prod.ext_iff]
      · exact ⟨nofun, fun h ↦ absurd h.1 hknown⟩

end ReadBack

theorem mem_namedMessageTypes {type : MessageType} (h : type ∈ sentMessageTypes) :
    type ∈ namedMessageTypes := by
  revert h
  revert type
  decide

theorem mem_knownMessageTypes_iff {type : MessageType} (h : type ∈ sentMessageTypes) :
    type ∈ knownMessageTypes ↔ type ≠ .getAddr ∧ type ≠ .addr := by
  revert h
  revert type
  decide

/-- Messages of the types that nodes send, written back to back and read within the rate limit by a
node with the default limit, come out as they are, without an error, if and only if none of them is
a `getaddr` or an `addr`. -/
theorem readPeerMessages_ok_iff (json : Json) {n : Node} {id : String} {times : List ℤ}
    {messages : List Message} (hsent : ∀ msg ∈ messages, msg.type ∈ sentMessageTypes)
    (hsize : ∀ msg ∈ messages, (json.marshal msg).length ≤ maxMessageBytes)
    (hlimit : n.cfg.maxMessageBytes = maxMessageBytes) (hlength : times.length = messages.length)
    (hrate : n.WithinRate id times) (rest : List UInt8) :
    (∃ bytes, writeMessages json messages = .ok bytes ∧
      (n.readPeerMessages json id times (bytes ++ rest)).1 = .ok (messages, rest)) ↔
        ∀ msg ∈ messages, msg.type ≠ .getAddr ∧ msg.type ≠ .addr := by
  obtain ⟨bytes, hwrite, hread⟩ := readPeerMessages_frames json hlimit hlength hrate
    (fun msg hmsg ↦ mem_namedMessageTypes (hsent msg hmsg)) hsize rest
  have hknown : (∀ msg ∈ messages, msg.type ∈ knownMessageTypes) ↔
      ∀ msg ∈ messages, msg.type ≠ .getAddr ∧ msg.type ≠ .addr :=
    forall₂_congr fun msg hmsg ↦ mem_knownMessageTypes_iff (hsent msg hmsg)
  rw [← hknown, ← hread]
  constructor
  · rintro ⟨bytes', hwrite', hread'⟩
    rwa [Except.ok.inj (hwrite.symm.trans hwrite')]
  · intro hread'
    exact ⟨bytes, hwrite, hread'⟩

namespace Sample

/-- Messages as the texts of `encoding/json`. -/
def json : Json where
  marshal := Message.form.marshal
  unmarshal := Message.form.unmarshal
  unmarshal_marshal msg _ := Message.form.unmarshal_marshal msg
  marshal_ne_nil := Message.form.marshal_ne_nil

end Sample

theorem readPeerMessages_ok_sample :
    ∃ bytes, writeMessages Sample.json [⟨.version, [1]⟩, ⟨.ping, [2, 3]⟩] = .ok bytes ∧
      ((newNode Sample.cfg).readPeerMessages Sample.json "10.0.0.1:1000" [0, 0] (bytes ++ [])).1 =
        .ok ([⟨.version, [1]⟩, ⟨.ping, [2, 3]⟩], []) := by
  have hrate : (newNode Sample.cfg).WithinRate "10.0.0.1:1000" [0, 0] :=
    ⟨by decide, by decide, trivial⟩
  exact (readPeerMessages_ok_iff Sample.json (by decide) (by decide +kernel) rfl rfl hrate []).mpr
    (by decide)

/-- What `Bootstrap` sends to a seed is refused there. -/
theorem getaddr_refused :
    ∃ bytes, writeMessage Sample.json ⟨.getAddr, []⟩ = .ok bytes ∧
      ((newNode Sample.cfg).readPeerMessage Sample.json "10.0.0.1:1000" 0 bytes).1 =
        .error .unknownMessageType := by
  have hsize : (Sample.json.marshal ⟨.getAddr, []⟩).length ≤ maxMessageBytes := by decide +kernel
  refine ⟨_, writeMessage_of_le Sample.json hsize, ?_⟩
  rw [← List.append_nil (beBytes 4 _ ++ _), readPeerMessage_frame Sample.json rfl (by decide)
    (by decide) hsize, if_neg (by decide)]

end NevelCore.P2P
