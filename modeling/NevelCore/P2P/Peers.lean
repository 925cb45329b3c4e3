import Mathlib.Order.Interval.Set.Basic
import NevelCore.P2P.Node

/-!
# The peer table over whole runs

A run is any sequence of inbound connections, dialled connections, reports and ends of `readLoop`
(`Event`), at clock readings that do not go back (`Run`).

The peer table is registered under one string and used under another: a dialled connection is stored
under the address that was dialled, while its `readLoop` reports, answers and removes under what
`RemoteAddr` prints. Where the two are the same, and no connection comes in under an id for which
`readLoop` still runs (`OwnId`), the table is exactly the set of live connections
(`tableExact_of_ownId`).

Bans are under the full id, with the port, and not under the host. Where a host comes in under one
id only (`OneId`), a ban of this id keeps the host out for its whole duration
(`banned_host_stays_out`).

Connections that are refused anyway, because of a ban or because there are too many, are not part of
either condition (`Node.Admits`).
-/

set_option autoImplicit false
set_option relaxedAutoImplicit false

namespace NevelCore.P2P

namespace Node

variable {n : Node} {id peer : String} {conn c : Conn} {now : ℤ} {delta : Int64}

/-! ### What the methods do -/

theorem keys_insert (peers : Finmap fun _ : String ↦ Conn) (id : String) (conn : Conn) :
    (peers.insert id conn).keys = insert id peers.keys := by
  ext key
  rw [Finset.mem_insert, Finmap.mem_keys, Finmap.mem_keys, Finmap.mem_insert]

@[simp] theorem peers_removePeer : (n.removePeer id).peers = n.peers.erase id := by
  unfold removePeer
  split <;> rfl

@[simp] theorem reading_removePeer : (n.removePeer id).reading = n.reading := by
  unfold removePeer
  split <;> rfl

@[simp] theorem banned_removePeer : (n.removePeer id).banned = n.banned := by
  unfold removePeer
  split <;> rfl

@[simp] theorem cfg_removePeer : (n.removePeer id).cfg = n.cfg := by
  unfold removePeer
  split <;> rfl

theorem mem_closed_removePeer :
    c ∈ (n.removePeer id).closed ↔ n.peers.lookup id = some c ∨ c ∈ n.closed := by
  unfold removePeer
  split
  · next conn hconn =>
    rw [hconn, Option.some_inj]
    change c ∈ insert conn n.closed ↔ _
    rw [Finset.mem_insert, eq_comm]
  · next hnone =>
    rw [hnone]
    exact ⟨.inr, fun h ↦ h.resolve_left nofun⟩

/-- An id is not banned, and there is room for one more connection, in the table and of its host. -/
structure Admits (n : Node) (id : String) (now : ℤ) : Prop where
  notBanned : n.isBanned id now = false
  card_lt : (n.peers.keys.card : ℤ) < n.cfg.maxPeers
  hostCount_lt : 0 < n.cfg.maxPeersPerIP → (n.hostCount (peerHost id) : ℤ) < n.cfg.maxPeersPerIP

/-- `addPeer` refuses, or puts the connection into the table. -/
theorem addPeer_cases (n : Node) (id : String) (conn : Conn) (now : ℤ) :
    n.addPeer id conn now = (false, n) ∨
      n.Admits id now ∧
        n.addPeer id conn now = (true, { n with peers := n.peers.insert id conn }) := by
  unfold addPeer
  split_ifs with hbanned hfull hhost
  · exact .inl rfl
  · exact .inl rfl
  · exact .inl rfl
  · exact .inr ⟨⟨Bool.eq_false_iff.mpr hbanned, Int.lt_of_not_ge hfull,
      fun hlimit ↦ Int.lt_of_not_ge fun hle ↦ hhost ⟨hlimit, hle⟩⟩, rfl⟩

/-- A new connection is closed, or registered and read from. -/
theorem register_cases (n : Node) (id : String) (conn : Conn) (now : ℤ) :
    n.register id conn now = n.close conn ∨
      n.Admits id now ∧
        n.register id conn now =
          { n with peers := n.peers.insert id conn, reading := insert conn n.reading } := by
  rcases n.addPeer_cases id conn now with hrefused | ⟨hadmits, hadded⟩
  · left
    rw [register, hrefused]
  · right
    refine ⟨hadmits, ?_⟩
    rw [register, hadded]

/-- A report changes a score only, or bans the peer as well. -/
theorem reportPeer_cases (n : Node) (peer : String) (delta : Int64) (now : ℤ) :
    n.reportPeer peer delta now = n.addScore peer delta ∨
      n.reportPeer peer delta now = (n.addScore peer delta).ban peer now := by
  unfold reportPeer
  split_ifs
  · exact .inr rfl
  · exact .inl rfl

end Node

/-! ### Runs -/

/-- What happens to a node. -/
inductive Event where
  | accept (conn : Conn)
  | dial (address : String) (conn : Conn)
  | report (peer : String) (delta : Int64)
  | exit (conn : Conn)

namespace Node

def step (n : Node) (now : ℤ) : Event → Node
  | .accept conn => n.accept conn now
  | .dial address conn => n.dialled address conn now
  | .report peer delta => n.reportPeer peer delta now
  | .exit conn => n.exit conn

/-- A connection that is neither in the table nor closed nor read from. -/
def New (n : Node) (conn : Conn) : Prop :=
  conn ∉ n.reading ∧ conn ∉ n.closed ∧ ∀ id, n.peers.lookup id ≠ some conn

/-- New connections are new, and `readLoop` ends where it runs. -/
def Possible (n : Node) : Event → Prop
  | .accept conn => n.New conn
  | .dial _ conn => n.New conn
  | .report _ _ => True
  | .exit conn => conn ∈ n.reading

end Node

/-- The runs from one node to another whose events are all allowed, with the clock readings of the
first and the last state. -/
inductive Run (allowed : Node → ℤ → Event → Prop) (start : ℤ) (first : Node) : ℤ → Node → Prop
  | refl : Run allowed start first start first
  | step {before now : ℤ} {n : Node} {e : Event} (run : Run allowed start first before n)
      (le : before ≤ now) (possible : n.Possible e) (allows : allowed n now e) :
      Run allowed start first now (n.step now e)

section Runs

variable {allowed : Node → ℤ → Event → Prop} {start now : ℤ} {first n : Node}

theorem Run.le (h : Run allowed start first now n) : start ≤ now := by
  induction h with
  | refl => exact le_refl _
  | step run le possible allows ih => exact ih.trans le

/-- What every allowed event keeps, a run keeps. -/
theorem Run.invariant {P : ℤ → Node → Prop} (h : Run allowed start first now n)
    (hfirst : P start first)
    (hstep : ∀ before now n e, start ≤ before → before ≤ now → n.Possible e → allowed n now e →
      P before n → P now (n.step now e)) : P now n := by
  induction h with
  | refl => exact hfirst
  | step run le possible allows ih => exact hstep _ _ _ _ run.le le possible allows ih

end Runs

/-! ### The table and the live connections -/

/-- The connections that are read from and not closed. -/
def Node.live (n : Node) : Finset Conn := n.reading \ n.closed

theorem Node.mem_live {n : Node} {conn : Conn} :
    conn ∈ n.live ↔ conn ∈ n.reading ∧ conn ∉ n.closed := Finset.mem_sdiff

/-- The peer table is exactly the live connections, each under the id that its `readLoop` uses. -/
structure TableExact (n : Node) : Prop where
  stored : ∀ conn ∈ n.live, ∀ id, n.peers.lookup id = some conn ↔ id = conn.remoteAddr
  live : ∀ id conn, n.peers.lookup id = some conn → conn ∈ n.live

/-- Connections that are admitted come in under what `RemoteAddr` prints, and not under the id of
another one that is still read from. -/
def OwnId (n : Node) (now : ℤ) : Event → Prop
  | .accept conn => n.Admits conn.remoteAddr now →
    ∀ c ∈ n.reading, c.remoteAddr ≠ conn.remoteAddr
  | .dial address conn => n.Admits address now →
    address = conn.remoteAddr ∧ ∀ c ∈ n.reading, c.remoteAddr ≠ conn.remoteAddr
  | .report _ _ => True
  | .exit _ => True

/-- The table in a run with own ids. -/
structure Registered (n : Node) : Prop where
  stored : ∀ conn ∈ n.live, n.peers.lookup conn.remoteAddr = some conn
  entry : ∀ {id conn}, n.peers.lookup id = some conn → id = conn.remoteAddr ∧ conn ∈ n.live
  distinct : ∀ c ∈ n.reading, ∀ c' ∈ n.reading, c.remoteAddr = c'.remoteAddr → c = c'
  card_le : (n.peers.keys.card : ℤ) ≤ n.cfg.maxPeers

namespace Registered

variable {n : Node} {conn : Conn} {now : ℤ} {id peer : String} {delta : Int64}

theorem tableExact (h : Registered n) : TableExact n where
  stored conn hconn id := by
    constructor
    · intro hid
      exact (h.entry hid).1
    · rintro rfl
      exact h.stored conn hconn
  live id conn hid := (h.entry hid).2

/-- The ids of live connections are different entries of the table. -/
theorem card_live_le (h : Registered n) : (n.live.card : ℤ) ≤ n.cfg.maxPeers := by
  have hle : n.live.card ≤ n.peers.keys.card := by
    refine Finset.card_le_card_of_injOn Conn.remoteAddr (fun c hc ↦ ?_) fun c hc c' hc' heq ↦ ?_
    · rw [Finset.mem_coe, Finmap.mem_keys, Finmap.mem_iff]
      exact ⟨c, h.stored c hc⟩
    · exact h.distinct c (Node.mem_live.mp hc).1 c' (Node.mem_live.mp hc').1 heq
  exact (Int.ofNat_le.mpr hle).trans h.card_le

theorem new (h : Registered n) (hreading : conn ∉ n.reading) (hclosed : conn ∉ n.closed) :
    n.New conn :=
  ⟨hreading, hclosed, fun _ hid ↦ hreading (Node.mem_live.mp (h.entry hid).2).1⟩

theorem newNode (cfg : Config) : Registered (P2P.newNode cfg) where
  stored conn hconn := by
    cases (Node.mem_live.mp hconn).1
  entry hid := by
    cases hid
  distinct c hc := by
    cases hc
  card_le := by
    change ((0 : ℕ) : ℤ) ≤ if cfg.maxPeers ≤ 0 then 32 else cfg.maxPeers
    split_ifs <;> omega

theorem addScore (h : Registered n) : Registered (n.addScore peer delta) :=
  ⟨h.stored, h.entry, h.distinct, h.card_le⟩

/-- Closing a connection that is not read from. -/
theorem close (h : Registered n) (hconn : conn ∉ n.reading) : Registered (n.close conn) := by
  have hlive : (n.close conn).live = n.live := by
    ext c
    rw [Node.mem_live, Node.mem_live]
    change c ∈ n.reading ∧ c ∉ insert conn n.closed ↔ _
    rw [Finset.mem_insert, not_or]
    refine and_congr_right fun hc ↦ and_iff_right fun heq ↦ hconn ?_
    rwa [← heq]
  refine ⟨fun c hc ↦ h.stored c (hlive ▸ hc), fun hid ↦ ?_, h.distinct, h.card_le⟩
  rw [hlive]
  exact h.entry hid

/-- Removing a peer closes its connection and no other. -/
theorem removePeer (h : Registered n) : Registered (n.removePeer id) := by
  have hlive {c : Conn} : c ∈ (n.removePeer id).live ↔ c ∈ n.live ∧ c.remoteAddr ≠ id := by
    rw [Node.mem_live, Node.mem_live, Node.reading_removePeer, Node.mem_closed_removePeer, not_or,
      and_assoc]
    refine and_congr_right fun hc ↦ ⟨fun ⟨hid, hopen⟩ ↦ ⟨hopen, ?_⟩, fun ⟨hopen, hid⟩ ↦ ⟨?_, hopen⟩⟩
    · rintro rfl
      exact hid (h.stored c (Node.mem_live.mpr ⟨hc, hopen⟩))
    · exact fun hlookup ↦ hid (h.entry hlookup).1.symm
  have hlookup {key : String} (hne : key ≠ id) :
      (n.removePeer id).peers.lookup key = n.peers.lookup key := by
    rw [Node.peers_removePeer, Finmap.lookup_erase_ne hne]
  refine ⟨fun c hc ↦ ?_, fun {key c} hkey ↦ ?_, ?_, ?_⟩
  · obtain ⟨hc, hid⟩ := hlive.mp hc
    rw [hlookup hid]
    exact h.stored c hc
  · have hne : key ≠ id := by
      rintro rfl
      rw [Node.peers_removePeer, Finmap.lookup_erase] at hkey
      cases hkey
    rw [hlookup hne] at hkey
    obtain ⟨rfl, hc⟩ := h.entry hkey
    exact ⟨rfl, hlive.mpr ⟨hc, hne⟩⟩
  · rw [Node.reading_removePeer]
    exact h.distinct
  · rw [Node.peers_removePeer, Node.cfg_removePeer, Finmap.keys_erase]
    exact (Int.ofNat_le.mpr (Finset.card_le_card (Finset.erase_subset _ _))).trans h.card_le

theorem reportPeer (h : Registered n) : Registered (n.reportPeer peer delta now) := by
  rcases n.reportPeer_cases peer delta now with heq | heq
  · rw [heq]
    exact h.addScore
  · rw [heq, Node.ban]
    refine removePeer ?_
    exact ⟨h.stored, h.entry, h.distinct, h.card_le⟩

/-- A new connection, under its own id if it is admitted. -/
theorem register (h : Registered n) (hnew : n.New conn)
    (hown : n.Admits id now →
      id = conn.remoteAddr ∧ ∀ c ∈ n.reading, c.remoteAddr ≠ conn.remoteAddr) :
    Registered (n.register id conn now) := by
  obtain ⟨hreading, hclosed, -⟩ := hnew
  rcases n.register_cases id conn now with heq | ⟨hadmits, heq⟩
  · rw [heq]
    exact h.close hreading
  obtain ⟨rfl, hid⟩ := hown hadmits
  have hcard := hadmits.card_lt
  rw [heq]
  have hlive {c : Conn} : c ∈ Node.live { n with
      peers := n.peers.insert conn.remoteAddr conn, reading := insert conn n.reading } ↔
        c = conn ∨ c ∈ n.live := by
    rw [Node.mem_live, Node.mem_live, Finset.mem_insert, or_and_right]
    refine or_congr_left (and_iff_left_of_imp ?_)
    rintro rfl
    exact hclosed
  refine ⟨fun c hc ↦ ?_, fun {key c} hkey ↦ ?_, fun c hc c' hc' haddr ↦ ?_, ?_⟩
  · rcases hlive.mp hc with rfl | hc
    · exact Finmap.lookup_insert _
    · exact (Finmap.lookup_insert_of_ne _ (hid c (Node.mem_live.mp hc).1)).trans (h.stored c hc)
  · rw [hlive]
    by_cases hne : key = conn.remoteAddr
    · subst hne
      have hconn := (Finmap.lookup_insert n.peers).symm.trans hkey
      obtain rfl := Option.some.inj hconn
      exact ⟨rfl, .inl rfl⟩
    · obtain ⟨haddr, hc⟩ := h.entry ((Finmap.lookup_insert_of_ne n.peers hne).symm.trans hkey)
      exact ⟨haddr, .inr hc⟩
  · rcases Finset.mem_insert.mp hc with rfl | hold
    · rcases Finset.mem_insert.mp hc' with rfl | hold'
      · rfl
      · exact absurd haddr.symm (hid c' hold')
    · rcases Finset.mem_insert.mp hc' with rfl | hold'
      · exact absurd haddr (hid c hold)
      · exact h.distinct c hold c' hold' haddr
  · have hle := Finset.card_insert_le conn.remoteAddr n.peers.keys
    change ((n.peers.insert conn.remoteAddr conn).keys.card : ℤ) ≤ n.cfg.maxPeers
    rw [Node.keys_insert]
    omega

/-- The end of `readLoop` removes its own connection. -/
theorem exit (h : Registered n) : Registered (n.exit conn) := by
  have hremoved : Registered (n.removePeer conn.remoteAddr) := h.removePeer
  have hconn : conn ∉ (n.removePeer conn.remoteAddr).live := fun hlive ↦ by
    have hstored := hremoved.stored conn hlive
    rw [Node.peers_removePeer, Finmap.lookup_erase] at hstored
    cases hstored
  have hlive : (n.exit conn).live = (n.removePeer conn.remoteAddr).live := by
    rw [Node.live, Node.exit]
    dsimp only
    rw [Finset.erase_sdiff_comm]
    exact Finset.erase_eq_of_notMem hconn
  refine ⟨fun c hc ↦ hremoved.stored c (hlive ▸ hc), fun hid ↦ ?_, fun c hc c' hc' ↦ ?_,
    hremoved.card_le⟩
  · rw [hlive]
    exact hremoved.entry hid
  · exact hremoved.distinct c (Finset.mem_of_mem_erase hc) c' (Finset.mem_of_mem_erase hc')

theorem step (h : Registered n) {e : Event} (hpossible : n.Possible e) (hown : OwnId n now e) :
    Registered (n.step now e) := by
  cases e with
  | accept conn => exact h.register hpossible fun hadmits ↦ ⟨rfl, hown hadmits⟩
  | dial address conn => exact h.register hpossible hown
  | report peer delta => exact h.reportPeer
  | exit conn => exact h.exit

end Registered

theorem Run.registered {cfg : Config} {start now : ℤ} {n : Node}
    (h : Run OwnId start (newNode cfg) now n) : Registered n :=
  h.invariant (P := fun _ n ↦ Registered n) (.newNode cfg)
    fun _ _ _ _ _ _ hpossible hown hn ↦ hn.step hpossible hown

/-- While connections come in under their own ids, the peer table is exactly the set of live
connections, and there are never more of them than allowed. -/
theorem tableExact_of_ownId {cfg : Config} {start now : ℤ} {n : Node}
    (h : Run OwnId start (newNode cfg) now n) :
    TableExact n ∧ (n.live.card : ℤ) ≤ n.cfg.maxPeers :=
  ⟨h.registered.tableExact, h.registered.card_live_le⟩

namespace Sample

def inbound : Conn := ⟨0, "10.0.0.1:1000"⟩

/-- The same host as before, from another port. -/
def otherPort : Conn := ⟨1, "10.0.0.1:1001"⟩

/-- A connection to a host that was dialled by its name. -/
def byName : Conn := ⟨2, "127.0.0.1:8333"⟩

/-- A second connection from the first address. -/
def again : Conn := ⟨3, "10.0.0.1:1000"⟩

theorem new_newNode (conn : Conn) : (newNode cfg).New conn :=
  ⟨Finset.notMem_empty _, Finset.notMem_empty _, nofun⟩

/-- The state after two connections. -/
def twoPeers : Node :=
  ((newNode cfg).step 0 (.accept inbound)).step 1 (.dial byName.remoteAddr byName)

theorem run_inbound : Run OwnId 0 (newNode cfg) 0 ((newNode cfg).step 0 (.accept inbound)) :=
  .step .refl (le_refl 0) (new_newNode inbound) fun _ _ hc ↦ absurd hc (Finset.notMem_empty _)

theorem new_byName : ((newNode cfg).step 0 (.accept inbound)).New byName :=
  run_inbound.registered.new (by decide) (by decide)

theorem run_twoPeers : Run OwnId 0 (newNode cfg) 1 twoPeers :=
  .step run_inbound (by decide) new_byName fun _ ↦ ⟨rfl, by decide⟩

end Sample

/-- Two connections fill the table. One more from the first address is refused, the first one ends,
and its address comes in again. -/
theorem tableExact_sample :
    ∃ n, Run OwnId 0 (newNode Sample.cfg) 4 n ∧ TableExact n ∧
      n.live = {Sample.byName, Sample.otherPort} ∧ Sample.again ∈ n.closed := by
  have hrefused : Run OwnId 0 (newNode Sample.cfg) 2
      (Sample.twoPeers.step 2 (.accept Sample.again)) :=
    .step Sample.run_twoPeers (by decide)
      (Sample.run_twoPeers.registered.new (by decide) (by decide))
      fun hadmits ↦ absurd hadmits.card_lt (by decide)
  have hreading : Sample.inbound ∈ (Sample.twoPeers.step 2 (.accept Sample.again)).reading := by
    decide
  have hexit : Run OwnId 0 (newNode Sample.cfg) 3
      ((Sample.twoPeers.step 2 (.accept Sample.again)).step 3 (.exit Sample.inbound)) :=
    .step hrefused (by decide) hreading trivial
  have hrun : Run OwnId 0 (newNode Sample.cfg) 4
      (((Sample.twoPeers.step 2 (.accept Sample.again)).step 3 (.exit Sample.inbound)).step 4
        (.accept Sample.otherPort)) :=
    .step hexit (by decide) (hexit.registered.new (by decide) (by decide)) fun _ ↦ by decide
  exact ⟨_, hrun, (tableExact_of_ownId hrun).1, by decide, by decide⟩

/-- A host that is dialled by its name is in the table under the name, so that `readLoop` does not
find it. After the connection has ended it stays there. -/
theorem tableExact_fails :
    ∃ n, Run (fun _ _ _ ↦ True) 0 (newNode Sample.cfg) 0 n ∧ Sample.byName ∈ n.live ∧
      n.peers.lookup Sample.byName.remoteAddr = none ∧ ¬ TableExact n ∧
      (n.step 0 (.exit Sample.byName)).live = ∅ ∧
      (n.step 0 (.exit Sample.byName)).peers.lookup "localhost:8333" = some Sample.byName := by
  refine ⟨(newNode Sample.cfg).step 0 (.dial "localhost:8333" Sample.byName),
    .step .refl (le_refl 0) (Sample.new_newNode _) trivial, by decide, by decide, ?_,
    by decide, by decide⟩
  intro hexact
  have hstored := (hexact.stored Sample.byName (by decide) "localhost:8333").mp
    (by decide)
  exact absurd hstored (by decide)

/-! ### Bans -/

namespace Node

variable {n : Node} {id peer : String} {conn : Conn} {now : ℤ} {delta : Int64} {e : Event}

theorem cfg_register : (n.register id conn now).cfg = n.cfg := by
  rcases n.register_cases id conn now with heq | ⟨-, heq⟩ <;> rw [heq]
  rfl

theorem banned_register : (n.register id conn now).banned = n.banned := by
  rcases n.register_cases id conn now with heq | ⟨-, heq⟩ <;> rw [heq]
  rfl

theorem cfg_reportPeer : (n.reportPeer peer delta now).cfg = n.cfg := by
  rcases n.reportPeer_cases peer delta now with heq | heq
  · rw [heq]
    rfl
  · rw [heq, ban, cfg_removePeer]
    rfl

@[simp] theorem cfg_step : (n.step now e).cfg = n.cfg := by
  cases e with
  | accept conn => exact cfg_register
  | dial address conn => exact cfg_register
  | report peer delta => exact cfg_reportPeer
  | exit conn => exact cfg_removePeer

/-- A peer is banned up to some time at least. -/
def BannedUntil (n : Node) (peer : String) (until_ : ℤ) : Prop :=
  ∃ later, n.banned peer = some later ∧ until_ ≤ later

/-- A report does not lift a ban, and does not shorten one from before. -/
theorem BannedUntil.reportPeer {until_ : ℤ} (h : n.BannedUntil id until_)
    (hlater : until_ ≤ now + n.cfg.banDuration) :
    (n.reportPeer peer delta now).BannedUntil id until_ := by
  rcases n.reportPeer_cases peer delta now with heq | heq
  · rw [heq]
    exact h
  · rw [heq, BannedUntil, ban, banned_removePeer]
    change ∃ later,
      Function.update n.banned peer (some (now + n.cfg.banDuration)) id = some later ∧ _
    by_cases hid : id = peer
    · rw [hid, Function.update_self]
      exact ⟨_, rfl, hlater⟩
    · rw [Function.update_of_ne hid]
      exact h

theorem BannedUntil.step {until_ : ℤ} (h : n.BannedUntil id until_)
    (hlater : until_ ≤ now + n.cfg.banDuration) : (n.step now e).BannedUntil id until_ := by
  cases e with
  | accept conn =>
    rw [Node.step, BannedUntil, accept, banned_register]
    exact h
  | dial address conn =>
    rw [Node.step, BannedUntil, dialled, banned_register]
    exact h
  | report peer delta => exact h.reportPeer hlater
  | exit conn =>
    rw [Node.step, BannedUntil, exit]
    dsimp only
    rw [banned_removePeer]
    exact h

/-- A report that reaches the limit bans the peer and takes it from the table. -/
theorem bannedUntil_of_le (now : ℤ) (h : n.scores peer + delta ≤ n.cfg.banScore) :
    (n.reportPeer peer delta now).BannedUntil peer (now + n.cfg.banDuration) ∧
      (n.reportPeer peer delta now).peers.lookup peer = none := by
  rw [Node.reportPeer, if_pos h, ban, BannedUntil, banned_removePeer, peers_removePeer]
  refine ⟨⟨now + n.cfg.banDuration, ?_, le_refl _⟩, Finmap.lookup_erase _ _⟩
  exact Function.update_self _ _ _

theorem lookup_register {key : String} {c : Conn}
    (h : (n.register key conn now).peers.lookup id = some c) :
    n.peers.lookup id = some c ∨ n.Admits id now ∧ id = key ∧ c = conn := by
  rcases n.register_cases key conn now with heq | ⟨hadmits, heq⟩
  · rw [heq] at h
    exact .inl h
  · rw [heq] at h
    by_cases hid : id = key
    · subst hid
      have hconn := (Finmap.lookup_insert n.peers).symm.trans h
      exact .inr ⟨hadmits, rfl, (Option.some.inj hconn).symm⟩
    · exact .inl ((Finmap.lookup_insert_of_ne n.peers hid).symm.trans h)

theorem lookup_removePeer {key : String} {c : Conn}
    (h : (n.removePeer key).peers.lookup id = some c) : n.peers.lookup id = some c := by
  rw [peers_removePeer] at h
  by_cases hid : id = key
  · rw [hid, Finmap.lookup_erase] at h
    cases h
  · rwa [Finmap.lookup_erase_ne hid] at h

/-- The only entry that an event adds is that of its own id, and only if it is admitted. -/
theorem lookup_step {c : Conn} (h : (n.step now e).peers.lookup id = some c) :
    n.peers.lookup id = some c ∨ n.Admits id now ∧
      (e = .accept c ∧ id = c.remoteAddr ∨ e = .dial id c) := by
  cases e with
  | accept conn =>
    rcases lookup_register h with h | ⟨hadmits, rfl, rfl⟩
    · exact .inl h
    · exact .inr ⟨hadmits, .inl ⟨rfl, rfl⟩⟩
  | dial address conn =>
    rcases lookup_register h with h | ⟨hadmits, rfl, rfl⟩
    · exact .inl h
    · exact .inr ⟨hadmits, .inr rfl⟩
  | report peer delta =>
    rcases n.reportPeer_cases peer delta now with heq | heq
    · rw [step, heq] at h
      exact .inl h
    · rw [step, heq, ban] at h
      have hbefore := lookup_removePeer h
      exact .inl hbefore
  | exit conn => exact .inl (lookup_removePeer h)

end Node

/-- The host of a peer comes in under the id of this peer only: a connection that is admitted under
another id is not of this host, by its id or by what its `RemoteAddr` prints. -/
def OneId (peer : String) (n : Node) (now : ℤ) : Event → Prop
  | .accept conn => n.Admits conn.remoteAddr now →
    peerHost conn.remoteAddr = peerHost peer → conn.remoteAddr = peer
  | .dial address conn => n.Admits address now →
    peerHost address = peerHost peer ∨ peerHost conn.remoteAddr = peerHost peer → address = peer
  | .report _ _ => True
  | .exit _ => True

/-- All entries of the table that are of the host of a peer are under its id. -/
def HostUnder (peer : String) (n : Node) : Prop :=
  ∀ id conn, n.peers.lookup id = some conn →
    peerHost id = peerHost peer ∨ peerHost conn.remoteAddr = peerHost peer → id = peer

theorem HostUnder.step {peer : String} {n : Node} {now : ℤ} {e : Event} (h : HostUnder peer n)
    (hone : OneId peer n now e) : HostUnder peer (n.step now e) := by
  intro id conn hid
  rcases Node.lookup_step hid with hid | ⟨hadmits, ⟨rfl, rfl⟩ | rfl⟩
  · exact h id conn hid
  · exact fun hhost ↦ hone hadmits (or_self_iff.mp hhost)
  · exact hone hadmits

/-- A peer that is banned up to some time, and whose host is not in the table before that time. -/
structure KeptOut (peer : String) (until_ now : ℤ) (n : Node) : Prop where
  under : HostUnder peer n
  banned : n.BannedUntil peer until_
  absent : now < until_ → n.peers.lookup peer = none

namespace KeptOut

variable {peer id : String} {until_ before now : ℤ} {n : Node}

theorem isBanned (h : KeptOut peer until_ before n) (hnow : now < until_) :
    n.isBanned peer now = true := by
  obtain ⟨later, hbanned, hlater⟩ := h.banned
  rw [Node.isBanned, hbanned]
  exact decide_eq_true (lt_of_lt_of_le hnow hlater)

theorem not_admits (h : KeptOut peer until_ before n) (hnow : now < until_) :
    ¬ n.Admits peer now := by
  intro hadmits
  cases (h.isBanned hnow).symm.trans hadmits.notBanned

theorem step {e : Event} (h : KeptOut peer until_ before n) (hle : before ≤ now)
    (hduration : until_ ≤ now + n.cfg.banDuration) (hone : OneId peer n now e) :
    KeptOut peer until_ now (n.step now e) where
  under := h.under.step hone
  banned := h.banned.step hduration
  absent hnow := by
    rw [Option.eq_none_iff_forall_ne_some]
    intro c hc
    rcases Node.lookup_step hc with hc | ⟨hadmits, -⟩
    · rw [h.absent (lt_of_le_of_lt hle hnow)] at hc
      cases hc
    · exact h.not_admits hnow hadmits

end KeptOut

/-- Where the host of a peer comes in under one id, a ban of this id keeps the host out of the table
for its whole duration. -/
theorem banned_host_stays_out {cfg : Config} {start before T now : ℤ} {n n' : Node} {peer : String}
    {delta : Int64} (hbefore : Run (OneId peer) start (newNode cfg) before n)
    (hscore : n.scores peer + delta ≤ n.cfg.banScore)
    (hafter : Run (OneId peer) T (n.reportPeer peer delta T) now n')
    (hnow : now < T + n.cfg.banDuration) :
    (∀ id conn later, peerHost id = peerHost peer → (n'.Admits id later → id = peer) →
      now ≤ later → later < T + n.cfg.banDuration → (n'.addPeer id conn later).1 = false) ∧
    ∀ id conn, n'.peers.lookup id = some conn →
      peerHost id ≠ peerHost peer ∧ peerHost conn.remoteAddr ≠ peerHost peer := by
  have hunder : HostUnder peer n :=
    hbefore.invariant (P := fun _ n ↦ HostUnder peer n) nofun
      fun _ _ _ _ _ _ _ hone hn ↦ hn.step hone
  obtain ⟨hbanned, habsent⟩ := Node.bannedUntil_of_le T hscore
  have hfirst : KeptOut peer (T + n.cfg.banDuration) T (n.reportPeer peer delta T) :=
    ⟨hunder.step (e := .report peer delta) trivial, hbanned, fun _ ↦ habsent⟩
  obtain ⟨-, hkept⟩ := hafter.invariant
    (P := fun t m ↦ m.cfg = n.cfg ∧ KeptOut peer (T + n.cfg.banDuration) t m)
    ⟨Node.cfg_reportPeer, hfirst⟩ fun t t' m e hT ht _ hone ⟨hcfg, hm⟩ ↦
      ⟨Node.cfg_step.trans hcfg, hm.step ht (by rw [hcfg]; omega) hone⟩
  constructor
  · intro id conn later _ hone _ hlater
    rcases n'.addPeer_cases id conn later with hrefused | ⟨hadmits, -⟩
    · rw [hrefused]
    · exact absurd (hone hadmits ▸ hadmits) (hkept.not_admits hlater)
  · intro id conn hid
    have hout (hhost : peerHost id = peerHost peer ∨ peerHost conn.remoteAddr = peerHost peer) :
        False := by
      rw [hkept.under id conn hid hhost, hkept.absent hnow] at hid
      cases hid
    exact ⟨fun hhost ↦ hout (.inl hhost), fun hhost ↦ hout (.inr hhost)⟩

/-- Two hosts are connected, and one of them is banned. It tries to come in again under its id, its
old connection ends, and the other host stays in the table. -/
theorem banned_host_stays_out_sample :
    ∃ n, Run (OneId Sample.inbound.remoteAddr) 2
        (Sample.twoPeers.reportPeer Sample.inbound.remoteAddr (-100) 2) 4 n ∧
      Sample.again ∈ n.closed ∧ n.peers.lookup Sample.byName.remoteAddr = some Sample.byName ∧
      (n.addPeer Sample.inbound.remoteAddr Sample.inbound 5).1 = false ∧
      ∀ id conn, n.peers.lookup id = some conn →
        peerHost id ≠ "10.0.0.1" ∧ peerHost conn.remoteAddr ≠ "10.0.0.1" := by
  have hinbound : Run (OneId Sample.inbound.remoteAddr) 0 (newNode Sample.cfg) 0
      ((newNode Sample.cfg).step 0 (.accept Sample.inbound)) :=
    .step .refl (le_refl 0) (Sample.new_newNode Sample.inbound) fun _ _ ↦ rfl
  have hbefore : Run (OneId Sample.inbound.remoteAddr) 0 (newNode Sample.cfg) 1 Sample.twoPeers :=
    .step hinbound (by decide) Sample.new_byName fun _ hhost ↦ absurd hhost (by decide)
  have hregistered : Registered (Sample.twoPeers.reportPeer Sample.inbound.remoteAddr (-100) 2) :=
    Sample.run_twoPeers.registered.reportPeer
  have hagain : Run (OneId Sample.inbound.remoteAddr) 2
      (Sample.twoPeers.reportPeer Sample.inbound.remoteAddr (-100) 2) 3
      ((Sample.twoPeers.reportPeer Sample.inbound.remoteAddr (-100) 2).step 3
        (.accept Sample.again)) :=
    .step .refl (by decide) (hregistered.new (by decide) (by decide)) fun _ _ ↦ rfl
  have hreading : Sample.inbound ∈
      ((Sample.twoPeers.reportPeer Sample.inbound.remoteAddr (-100) 2).step 3
        (.accept Sample.again)).reading := by decide
  have hafter : Run (OneId Sample.inbound.remoteAddr) 2
      (Sample.twoPeers.reportPeer Sample.inbound.remoteAddr (-100) 2) 4
      (((Sample.twoPeers.reportPeer Sample.inbound.remoteAddr (-100) 2).step 3
        (.accept Sample.again)).step 4 (.exit Sample.inbound)) :=
    .step hagain (by decide) hreading trivial
  obtain ⟨hrefused, hout⟩ := banned_host_stays_out hbefore (by decide) hafter (by decide)
  exact ⟨_, hafter, by decide, by decide,
    hrefused _ _ 5 rfl (fun _ ↦ rfl) (by decide) (by decide), hout⟩

/-- A banned host comes back from another port. -/
theorem banned_host_returns :
    ((newNode Sample.cfg).reportPeer Sample.inbound.remoteAddr (-100) 0).isBanned
        Sample.inbound.remoteAddr 1 = true ∧
      peerHost Sample.otherPort.remoteAddr = peerHost Sample.inbound.remoteAddr ∧
      (((newNode Sample.cfg).reportPeer Sample.inbound.remoteAddr (-100) 0).addPeer
        Sample.otherPort.remoteAddr Sample.otherPort 1).1 = true := by
  decide

end NevelCore.P2P
