import NevelCore.Chain.Conservation
import NevelCore.P2P.TxRelay

/-!
# Reaching every node

A block that is new to a node and valid is passed on to all peers but the sender, and is refused
when it comes again, as is a transaction. So if no message gets lost, both flood the network
(`Spreads.floods`): the nodes act like those of `Foundations.Flooding`, in any topology and whatever
the order of delivery.

If all nodes have the same chain, then a valid block that is brought in at one of them becomes the
tip of every node that can be reached from there (`block_reaches_all`), and a transaction that all
pools take gets into each of them (`tx_reaches_all`). So a connected network whose nodes have the
same chain has the same chain everywhere again after any number of blocks (`network_agrees`).

This is for blocks that are brought in one after the other, each when the one before has got
everywhere. A node that gets a block before its parent refuses it, and nobody sends it again.
-/

set_option autoImplicit false
set_option relaxedAutoImplicit false

namespace NevelCore.P2P

open Foundations

/-! ### Runs without losses -/

section Runs

variable {ι : Type} (m : Manager) (json : Json) (payloads : PayloadJson)
  (route : ι → String → Option (ι × String))

/-- Runs with so many deliveries in which no message gets lost, with a condition on what is outside
of the nodes. Here too a message can stay on its way. -/
inductive ReliableRun [DecidableEq ι] (suits : Surroundings → Prop) (w₀ : Network ι) :
    ℕ → Network ι → Prop
  | start : ReliableRun suits w₀ 0 w₀
  | deliver {k : ℕ} {w : Network ι} (run : ReliableRun suits w₀ k w) {i : ι} {peer : String}
      {msg : Message} {rest : Multiset (ι × String × Message)} {env : Surroundings}
      (suitable : suits env) (flight : w.inFlight = (i, peer, msg) ::ₘ rest) :
      ReliableRun suits w₀ (k + 1) ⟨Function.update w.systems i
        (handler m json payloads env (w.systems i) peer msg).system,
        rest + ((handler m json payloads env (w.systems i) peer msg).outputs.map
          (sent route i (handler m json payloads env (w.systems i) peer msg).system)).sum⟩

/-- A message that a node takes and passes on the first time, and ignores when it comes again. -/
structure Spreads (suits : Surroundings → Prop) (msg : Message) (before after : System → Prop) :
    Prop where
  taken : ∀ {env s} (peer : String), suits env → before s →
    after (handler m json payloads env s peer msg).system ∧
      (handler m json payloads env s peer msg).system.net = s.net ∧
      (handler m json payloads env s peer msg).outputs = [.broadcastExcept msg peer]
  ignored : ∀ {env s} (peer : String), suits env → after s →
    after (handler m json payloads env s peer msg).system ∧
      (handler m json payloads env s peer msg).system.net = s.net ∧
      (handler m json payloads env s peer msg).outputs = []

end Runs

/-! ### Floods -/

section Floods

variable {ι : Type} {m : Manager} {json : Json} {payloads : PayloadJson}
  {route : ι → String → Option (ι × String)} {suits : Surroundings → Prop} {msg : Message}
  {before after : System → Prop} {w₀ w : Network ι} {f₀ : Flood ι String} {k : ℕ}

variable [DecidableEq ι]

/-- A message that spreads floods the network. -/
theorem Spreads.floods (h : Spreads m json payloads suits msg before after)
    (hrun : ReliableRun m json payloads route suits w₀ k w)
    (hstart : Shadows msg before after w₀ f₀ w₀) :
    ∃ f, Floods (links route w₀) False f₀ k f ∧ Shadows msg before after w₀ f w := by
  induction hrun with
  | start => exact ⟨f₀, .start, hstart⟩
  | @deliver k w run i peer msg' rest env suitable flight ih =>
    obtain ⟨f, hfloods, hshadows⟩ := ih
    obtain ⟨rfl, rest, hflight, rfl⟩ := hshadows.exists_flight flight
    by_cases hi : i ∈ f.informed
    · obtain ⟨hafter, hnet, houtputs⟩ := h.ignored peer suitable (hshadows.known i hi)
      refine ⟨_, .ignored hfloods hflight fun _ ↦ hi, hshadows.update hnet (absurd hi)
        (fun _ ↦ hafter) (fun _ _ ↦ Iff.rfl) ?_⟩
      rw [houtputs, List.map_nil, List.sum_nil, add_zero]
    · obtain ⟨hafter, hnet, houtputs⟩ := h.taken peer suitable (hshadows.unknown i hi)
      refine ⟨_, .passedOn hfloods hflight hi le_rfl fun _ ↦ rfl,
        hshadows.update hnet (absurd (Set.mem_insert i _)) (fun _ ↦ hafter) (fun j hj ↦ ?_) ?_⟩
      · rw [Set.mem_insert_iff, or_iff_right hj]
      · rw [houtputs, List.map_singleton, List.sum_singleton,
          sent_eq_map_copies (hnet.trans (hshadows.net_eq i)), Multiset.map_add]

/-- When a message that spreads is no longer on its way, it has got to every node that can be
reached. -/
theorem Spreads.reaches {i j : ι} {peer : String}
    (h : Spreads m json payloads suits msg before after)
    (hrun : ReliableRun m json payloads route suits w₀ k w)
    (hbefore : ∀ j, before (w₀.systems j)) (hflight : w₀.inFlight = {(i, peer, msg)})
    (houtside : route i peer = none) (hsymm : (links route w₀).Symmetric)
    (hquiet : w.inFlight = 0)
    (hreach : Relation.ReflTransGen (links route w₀).Linked i j) : after (w.systems j) := by
  obtain ⟨f, hfloods, hshadows⟩ := h.floods hrun (Shadows.ofOutside hbefore hflight)
  have hcovered := hfloods.covered hsymm (.ofOutside houtside)
  refine hshadows.known j (hcovered.informed_of_reaches ?_ hreach)
  exact Multiset.map_eq_zero.mp (hshadows.inFlight_eq.symm.trans hquiet)

variable [Fintype ι]

/-- A message that spreads is delivered at most once more for each peer of a node. -/
theorem Spreads.length_le {i : ι} {peer : String}
    (h : Spreads m json payloads suits msg before after)
    (hrun : ReliableRun m json payloads route suits w₀ k w)
    (hbefore : ∀ j, before (w₀.systems j)) (hflight : w₀.inFlight = {(i, peer, msg)}) :
    k ≤ 1 + ∑ j, (w₀.systems j).net.peers.keys.card := by
  obtain ⟨f, hfloods, -⟩ := h.floods hrun (Shadows.ofOutside hbefore hflight)
  exact hfloods.length_le

/-- There is a run in which all messages are delivered. -/
theorem Spreads.exists_quiet {i : ι} {peer : String}
    (h : Spreads m json payloads suits msg before after)
    (route : ι → String → Option (ι × String)) (env : Surroundings) (henv : suits env)
    (hbefore : ∀ j, before (w₀.systems j)) (hflight : w₀.inFlight = {(i, peer, msg)}) :
    ∃ k w, ReliableRun m json payloads route suits w₀ k w ∧ w.inFlight = 0 := by
  by_contra hnone
  -- a run could go on for ever
  have hlonger : ∀ k, ∃ w, ReliableRun m json payloads route suits w₀ k w := by
    intro k
    induction k with
    | zero => exact ⟨w₀, .start⟩
    | succ k ih =>
      obtain ⟨w, hrun⟩ := ih
      obtain ⟨⟨i, peer, msg⟩, hx⟩ :=
        Multiset.exists_mem_of_ne_zero fun hquiet ↦ hnone ⟨k, w, hrun, hquiet⟩
      obtain ⟨rest, hrest⟩ := Multiset.exists_cons_of_mem hx
      exact ⟨_, .deliver hrun henv hrest⟩
  obtain ⟨w, hrun⟩ := hlonger (2 + ∑ j, (w₀.systems j).net.peers.keys.card)
  have hle := h.length_le hrun hbefore hflight
  omega

end Floods

/-! ### Blocks -/

section Blocks

variable {m : Manager} {json : Json} {payloads : PayloadJson} {suits : Surroundings → Prop}
  {msg : Message} {g b p : Block} {rest : List Block}

/-- A block that is valid on top of the chain of the nodes spreads. -/
theorem spreads_block (htype : msg.type = .block) (hdecode : payloads.block msg.payload = some b)
    (hchain : Chain m g (p :: rest)) (hg : g.header.height = 0) (hp : p.InLimits)
    (hb : b.InLimits) (hnew : ∀ x ∈ p :: rest, x.hash ≠ b.hash)
    (hvalid : ∀ env, suits env → ValidOn m env.blockNow b p rest) :
    Spreads m json payloads suits msg (fun s ↦ Holds (p :: rest) s.chain.store)
      (fun s ↦ Holds (b :: p :: rest) s.chain.store) where
  taken {env s} peer hsuits hholds := by
    have hon := hvalid env hsuits
    obtain ⟨n', hrun, hstore, -⟩ :=
      hon.deliver hchain hg hholds.toStores hp hnew env.fuel
    obtain ⟨e, hunknown⟩ := hholds.unknown_of_new hnew
    obtain ⟨-, hextends⟩ := hon.passes hchain hg hholds.toStores hp hunknown
    rw [handler_of_block _ htype, handleBlock_accepted hdecode hrun]
    refine ⟨?_, rfl, rfl⟩
    dsimp only
    rw [hstore]
    exact hholds.extend hchain hg hextends
  ignored {env s} peer _ hholds := by
    have hknown := hholds.getBlock_of_mem List.mem_cons_self hb
    rw [handler_of_block _ htype,
      handleBlock_rejected hdecode (run_validateAndApplyBlock_of_known hknown)]
    exact ⟨hholds, rfl, rfl⟩

end Blocks

/-- If all nodes have the same chain, a valid block with a new hash that is brought in from outside
becomes the tip of every node that can be reached, by the time that no message is on its way. This
time comes. The block and its parent must be in the limits of the reader. -/
theorem block_reaches_all {ι : Type} [Fintype ι] [DecidableEq ι] {m : Manager} {json : Json}
    {payloads : PayloadJson} {route : ι → String → Option (ι × String)}
    {suits : Surroundings → Prop} {w₀ w : Network ι} {i : ι} {peer : String} {msg : Message}
    {g b p : Block} {rest : List Block} {k : ℕ} (htype : msg.type = .block)
    (hdecode : payloads.block msg.payload = some b) (hchain : Chain m g (p :: rest))
    (hg : g.header.height = 0) (hp : p.InLimits) (hb : b.InLimits)
    (hnew : ∀ x ∈ p :: rest, x.hash ≠ b.hash)
    (hvalid : ∀ env, suits env → ValidOn m env.blockNow b p rest)
    (hholds : ∀ j, Holds (p :: rest) (w₀.systems j).chain.store)
    (hflight : w₀.inFlight = {(i, peer, msg)}) (houtside : route i peer = none)
    (hsymm : (links route w₀).Symmetric)
    (hrun : ReliableRun m json payloads route suits w₀ k w) :
    k ≤ 1 + ∑ j, (w₀.systems j).net.peers.keys.card ∧
      (w.inFlight = 0 → ∀ j, Relation.ReflTransGen (links route w₀).Linked i j →
        Holds (b :: p :: rest) (w.systems j).chain.store) := by
  have hspreads : Spreads m json payloads suits msg _ _ :=
    spreads_block htype hdecode hchain hg hp hb hnew hvalid
  exact ⟨hspreads.length_le hrun hholds hflight,
    fun hquiet j ↦ hspreads.reaches hrun hholds hflight houtside hsymm hquiet⟩

namespace Sample

theorem symmetric_openRing (chain : NevelCore.Node) (msg : Message) :
    (links ringRoute (openRing chain msg)).Symmetric := by
  intro i j p q h
  change ringRoute i p = some (j, q) at h
  change ringRoute j q = some (i, p)
  unfold ringRoute at h
  split at h <;> cases h
  · revert i
    decide
  · revert i
    decide

theorem connected_openRing (chain : NevelCore.Node) (msg : Message) (i j : Fin 3) :
    Relation.ReflTransGen (links ringRoute (openRing chain msg)).Linked i j := by
  have hnext (i : Fin 3) : (links ringRoute (openRing chain msg)).Linked i (i + 1) :=
    ⟨"next", Finmap.mem_keys.mpr (Finmap.mem_insert.mpr (.inr (Finmap.mem_singleton _ _ _ |>.mpr
      rfl))), "prev", rfl⟩
  obtain rfl | rfl | rfl : j = i ∨ j = i + 1 ∨ j = i + 1 + 1 := by
    revert i j
    decide
  · exact .refl
  · exact .single (hnext i)
  · exact .tail (.single (hnext i)) (hnext (i + 1))

end Sample

/-- Block A gets to all three nodes of the ring. -/
theorem block_reaches_all_regtest :
    ∃ k w, ReliableRun Regtest.manager Sample.json payloadJson Sample.ringRoute
        (fun env ↦ env.blockNow = 1790000000)
        (Sample.openRing Regtest.afterGenesis (Sample.blockMsg Regtest.blockA)) k w ∧
      w.inFlight = 0 ∧ ∀ j, Holds [Regtest.blockA, Regtest.genesis] (w.systems j).chain.store := by
  have hvalid : ∀ env : Surroundings, env.blockNow = 1790000000 →
      ValidOn Regtest.manager env.blockNow Regtest.blockA Regtest.genesis [] :=
    fun env henv ↦ henv ▸ Regtest.validOn_blockA
  have hholds : ∀ j, Holds [Regtest.genesis] ((Sample.openRing Regtest.afterGenesis
      (Sample.blockMsg Regtest.blockA)).systems j).chain.store := fun _ ↦ Holds.genesis rfl
  have hspreads : Spreads Regtest.manager Sample.json payloadJson
      (fun env ↦ env.blockNow = 1790000000) (Sample.blockMsg Regtest.blockA) _ _ :=
    spreads_block (Sample.type_blockMsg _) (Sample.decode_blockMsg _) .genesis rfl
      Regtest.genesis_inLimits Regtest.blockA_inLimits Regtest.hash_ne_blockA hvalid
  obtain ⟨k, w, hrun, hquiet⟩ := hspreads.exists_quiet Sample.ringRoute Sample.env rfl hholds
    (Sample.inFlight_openRing _ _)
  have hreaches := (block_reaches_all (Sample.type_blockMsg _) (Sample.decode_blockMsg _) .genesis
    rfl Regtest.genesis_inLimits Regtest.blockA_inLimits Regtest.hash_ne_blockA hvalid hholds
    (Sample.inFlight_openRing _ _) rfl (Sample.symmetric_openRing _ _) hrun).2
  exact ⟨k, w, hrun, hquiet, fun j ↦ hreaches hquiet j (Sample.connected_openRing _ _ 0 j)⟩

/-! ### Agreement -/

section Agreement

variable {ι : Type} (m : Manager) (json : Json) (payloads : PayloadJson)
  (route : ι → String → Option (ι × String)) (suits : Surroundings → Prop)

/-- All nodes of a connected network have the same chain. -/
structure Agreeing (g : Block) (chain : List Block) (w : Network ι) : Prop where
  rules : Chain m g chain
  height : g.header.height = 0
  inLimits : ∀ b ∈ chain, b.InLimits
  holds : ∀ j, Holds chain (w.systems j).chain.store
  symmetric : (links route w).Symmetric
  connected : ∀ i j, Relation.ReflTransGen (links route w).Linked i j

/-- A block is valid on top of a chain, and new. -/
structure Follows (b : Block) (chain : List Block) : Prop where
  valid : ∀ env, suits env → ∀ p rest, chain = p :: rest → ValidOn m env.blockNow b p rest
  inLimits : b.InLimits
  new : ∀ x ∈ chain, x.hash ≠ b.hash

variable [DecidableEq ι]

/-- Blocks are brought in from outside one after the other, each when no message for the one before
is on its way any more. Given are the chains before and after. -/
inductive Announces : List Block → Network ι → List Block → Network ι → Prop
  | start {chain : List Block} {w : Network ι} : Announces chain w chain w
  | announce {chain chain' : List Block} {w₀ w w' : Network ι} {i : ι} {peer : String}
      {msg : Message} {b : Block} {k : ℕ} (before : Announces chain w₀ chain' w)
      (isBlock : msg.type = .block) (decoded : payloads.block msg.payload = some b)
      (outside : route i peer = none) (follows : Follows m suits b chain')
      (run : ReliableRun m json payloads route suits ⟨w.systems, {(i, peer, msg)}⟩ k w')
      (quiet : w'.inFlight = 0) : Announces chain w₀ (b :: chain') w'

variable {m json payloads route suits}

omit [DecidableEq ι] in
/-- A block that follows the chain of the nodes spreads. -/
theorem Agreeing.spreads {g b : Block} {chain : List Block} {w : Network ι} {msg : Message}
    (h : Agreeing m route g chain w) (htype : msg.type = .block)
    (hdecode : payloads.block msg.payload = some b) (hfollows : Follows m suits b chain) :
    Spreads m json payloads suits msg (fun s ↦ Holds chain s.chain.store)
      (fun s ↦ Holds (b :: chain) s.chain.store) := by
  obtain ⟨p, rest, rfl⟩ := h.rules.exists_cons
  exact spreads_block htype hdecode h.rules h.height (h.inLimits p List.mem_cons_self)
    hfollows.inLimits hfollows.new fun env hsuits ↦ hfollows.valid env hsuits p rest rfl

theorem Agreeing.announce {g b : Block} {chain : List Block} {w w' : Network ι} {i : ι}
    {peer : String} {msg : Message} {k : ℕ} {env : Surroundings}
    (h : Agreeing m route g chain w) (henv : suits env) (htype : msg.type = .block)
    (hdecode : payloads.block msg.payload = some b) (houtside : route i peer = none)
    (hfollows : Follows m suits b chain)
    (hrun : ReliableRun m json payloads route suits ⟨w.systems, {(i, peer, msg)}⟩ k w')
    (hquiet : w'.inFlight = 0) : Agreeing m route g (b :: chain) w' := by
  have hspreads : Spreads m json payloads suits msg _ _ := h.spreads htype hdecode hfollows
  obtain ⟨f, -, hshadows⟩ := hspreads.floods hrun (Shadows.ofOutside h.holds rfl)
  have hlinks : links route w' = links route w := by
    rw [links, links]
    congr 1
    funext j
    rw [hshadows.net_eq j]
  have hrules : Chain m g (b :: chain) := by
    obtain ⟨p, rest, rfl⟩ := h.rules.exists_cons
    obtain ⟨e, hunknown⟩ := (h.holds i).unknown_of_new hfollows.new
    exact h.rules.extend ((hfollows.valid env henv p rest rfl).passes h.rules h.height
      (h.holds i).toStores (h.inLimits p List.mem_cons_self) hunknown).2
  exact
    { rules := hrules
      height := h.height
      inLimits := List.forall_mem_cons.mpr ⟨hfollows.inLimits, h.inLimits⟩
      holds := fun j ↦
        hspreads.reaches hrun h.holds rfl houtside h.symmetric hquiet (h.connected i j)
      symmetric := hlinks ▸ h.symmetric
      connected := hlinks ▸ h.connected }

end Agreement

/-- If blocks are brought into a network one after the other, its nodes have the same chain at the
end, with all of these blocks. -/
theorem network_agrees {ι : Type} [DecidableEq ι] {m : Manager} {json : Json}
    {payloads : PayloadJson} {route : ι → String → Option (ι × String)}
    {suits : Surroundings → Prop} {env : Surroundings} {g : Block} {chain chain' : List Block}
    {w w' : Network ι} (henv : suits env) (hagree : Agreeing m route g chain w)
    (hrun : Announces m json payloads route suits chain w chain' w') :
    Agreeing m route g chain' w' := by
  induction hrun with
  | start => exact hagree
  | announce before isBlock decoded outside follows run quiet ih =>
    exact (ih hagree).announce henv isBlock decoded outside follows run quiet

namespace Sample

def atBlockTime (env : Surroundings) : Prop := env.blockNow = 1790000000

theorem agreeing_openRing : Agreeing Regtest.manager ringRoute Regtest.genesis [Regtest.genesis]
    (openRing Regtest.afterGenesis (blockMsg Regtest.blockA)) where
  rules := .genesis
  height := rfl
  inLimits := List.forall_mem_singleton.mpr Regtest.genesis_inLimits
  holds _ := Holds.genesis rfl
  symmetric := symmetric_openRing _ _
  connected i j := connected_openRing _ _ i j

theorem follows_blockA : Follows Regtest.manager atBlockTime Regtest.blockA [Regtest.genesis] where
  valid env henv p rest hchain := by
    cases hchain
    exact henv ▸ Regtest.validOn_blockA
  inLimits := Regtest.blockA_inLimits
  new := Regtest.hash_ne_blockA

theorem follows_blockAgain : Follows Regtest.manager atBlockTime Regtest.blockAgain
    [Regtest.blockA, Regtest.genesis] where
  valid env henv p rest hchain := by
    cases hchain
    exact henv ▸ Regtest.validOn_blockAgain
  inLimits := by decide +kernel
  new := Regtest.hash_ne_blockAgain

end Sample

/-- Two blocks are brought into the ring, at different nodes. -/
theorem network_agrees_regtest :
    ∃ w, Announces Regtest.manager Sample.json payloadJson Sample.ringRoute
        Sample.atBlockTime [Regtest.genesis]
        (Sample.openRing Regtest.afterGenesis (Sample.blockMsg Regtest.blockA))
        [Regtest.blockAgain, Regtest.blockA, Regtest.genesis] w ∧
      ∀ j, Holds [Regtest.blockAgain, Regtest.blockA, Regtest.genesis]
        (w.systems j).chain.store := by
  have henv : Sample.atBlockTime Sample.env := rfl
  have hspreads : Spreads Regtest.manager Sample.json payloadJson Sample.atBlockTime
      (Sample.blockMsg Regtest.blockA) _ _ :=
    Sample.agreeing_openRing.spreads (Sample.type_blockMsg _) (Sample.decode_blockMsg _)
      Sample.follows_blockA
  obtain ⟨k, w, hrun, hquiet⟩ := hspreads.exists_quiet Sample.ringRoute Sample.env henv
    Sample.agreeing_openRing.holds (Sample.inFlight_openRing _ _)
  have hagree := Sample.agreeing_openRing.announce henv (Sample.type_blockMsg _)
    (Sample.decode_blockMsg _) rfl Sample.follows_blockA hrun hquiet
  have hspreads' : Spreads Regtest.manager Sample.json payloadJson Sample.atBlockTime
      (Sample.blockMsg Regtest.blockAgain) _ _ :=
    hagree.spreads (Sample.type_blockMsg _) (Sample.decode_blockMsg _) Sample.follows_blockAgain
  obtain ⟨k', w', hrun', hquiet'⟩ : ∃ k' w', ReliableRun Regtest.manager Sample.json
      payloadJson Sample.ringRoute Sample.atBlockTime
      ⟨w.systems, {(2, "outside", Sample.blockMsg Regtest.blockAgain)}⟩ k' w' ∧ w'.inFlight = 0 :=
    hspreads'.exists_quiet Sample.ringRoute Sample.env henv (fun j ↦ hagree.holds j) rfl
  have hannounces : Announces Regtest.manager Sample.json payloadJson Sample.ringRoute
      Sample.atBlockTime [Regtest.genesis]
      (Sample.openRing Regtest.afterGenesis (Sample.blockMsg Regtest.blockA)) _ w' :=
    .announce (.announce .start (Sample.type_blockMsg _) (Sample.decode_blockMsg _) rfl
      Sample.follows_blockA hrun hquiet) (Sample.type_blockMsg _) (Sample.decode_blockMsg _) rfl
      Sample.follows_blockAgain hrun' hquiet'
  exact ⟨w', hannounces, (network_agrees henv Sample.agreeing_openRing hannounces).holds⟩

/-! ### Transactions -/

section Transactions

variable {m : Manager} {json : Json} {payloads : PayloadJson} {suits : Surroundings → Prop}
  {msg : Message} {t : Transaction} {T : Set Transaction}

/-- A pool that takes a transaction. -/
def Takes (m : Manager) (suits : Surroundings → Prop) (t : Transaction) (n : NevelCore.Node) :
    Prop :=
  ∃ pool, n.mempool = some pool ∧ ∀ env, suits env → ∃ pool',
    (pool.add env.orders t Store.get m.verifier).run exec n = (.ok pool', n)

/-- A transaction that the pools take spreads. -/
theorem spreads_tx (htype : msg.type = .tx) (hdecode : payloads.transaction msg.payload = some t)
    (hT : Set.InjOn Transaction.hash T) (ht : t ∈ T) :
    Spreads m json payloads suits msg (fun s ↦ Pools T s.chain ∧ Takes m suits t s.chain)
      (fun s ↦ Pools T s.chain ∧ Pooled t.hash s.chain) where
  taken {env s} peer hsuits hbefore := by
    obtain ⟨hpools, pool, hpool, htakes⟩ := hbefore
    obtain ⟨pool', hadd⟩ := htakes env hsuits
    have hafter : Pools T (handler m json payloads env s peer msg).system.chain :=
      hpools.handler m json env peer hT
        fun t' ht' ↦ Option.some.inj (hdecode.symm.trans ht') ▸ ht
    have hpooled := (pooled_of_add hT hpools ht hpool hadd).2
    rw [handler_of_tx htype] at hafter ⊢
    rw [handleTx, hdecode] at hafter ⊢
    dsimp only at hafter ⊢
    rw [hpool] at hafter ⊢
    dsimp only at hafter ⊢
    rw [hadd] at hafter ⊢
    exact ⟨⟨hafter, hpooled⟩, rfl, rfl⟩
  ignored {env s} peer _ hafter := by
    obtain ⟨hpools, hpooled⟩ := hafter
    rw [handler_of_tx htype]
    rcases handleTx_cases m payloads env s peer msg with
      ⟨houtputs, -, hsystem⟩ | ⟨t', pool, pool', hdecode', hpool, hadd, -⟩
    · have hsame := hsystem (hdecode ▸ Option.some_ne_none t)
      rw [hsame]
      exact ⟨⟨hpools, hpooled⟩, rfl, houtputs⟩
    · obtain rfl : t' = t := Option.some.inj (hdecode'.symm.trans hdecode)
      exact absurd hpooled (pooled_of_add hT hpools ht hpool hadd).1

end Transactions

/-- A transaction that all pools take, brought in from outside, gets into the pool of every node
that can be reached, by the time that no message is on its way. This time comes. It and the
transactions of the pools must have different hashes. -/
theorem tx_reaches_all {ι : Type} [Fintype ι] [DecidableEq ι] {m : Manager} {json : Json}
    {payloads : PayloadJson} {route : ι → String → Option (ι × String)}
    {suits : Surroundings → Prop} {w₀ w : Network ι} {i : ι} {peer : String} {msg : Message}
    {t : Transaction} {T : Set Transaction} {k : ℕ} (htype : msg.type = .tx)
    (hdecode : payloads.transaction msg.payload = some t) (hT : Set.InjOn Transaction.hash T)
    (ht : t ∈ T) (hpools : ∀ j, Pools T (w₀.systems j).chain)
    (htakes : ∀ j, Takes m suits t (w₀.systems j).chain)
    (hflight : w₀.inFlight = {(i, peer, msg)}) (houtside : route i peer = none)
    (hsymm : (links route w₀).Symmetric)
    (hrun : ReliableRun m json payloads route suits w₀ k w) :
    k ≤ 1 + ∑ j, (w₀.systems j).net.peers.keys.card ∧
      (w.inFlight = 0 → ∀ j, Relation.ReflTransGen (links route w₀).Linked i j →
        Pooled t.hash (w.systems j).chain) := by
  have hspreads : Spreads m json payloads suits msg _ _ := spreads_tx htype hdecode hT ht
  have hbefore (j : ι) := And.intro (hpools j) (htakes j)
  exact ⟨hspreads.length_le hrun hbefore hflight, fun hquiet j hreach ↦
    (hspreads.reaches hrun hbefore hflight houtside hsymm hquiet hreach).2⟩

/-- The transaction that spends the output of genesis gets to all three nodes of the ring. -/
theorem tx_reaches_all_regtest :
    ∃ k w, ReliableRun Regtest.manager Sample.json payloadJson Sample.ringRoute
        (fun env ↦ env.orders = Mempool.someOrders)
        (Sample.openRing Sample.txNode.chain Sample.txMsg) k w ∧
      w.inFlight = 0 ∧ ∀ j, Pooled (Regtest.spendGenesis 1).hash (w.systems j).chain := by
  have htakes (j : Fin 3) : Takes Regtest.manager (fun env ↦ env.orders = Mempool.someOrders)
      (Regtest.spendGenesis 1)
      ((Sample.openRing Sample.txNode.chain Sample.txMsg).systems j).chain := by
    obtain ⟨pool, -, hadd, -⟩ := Regtest.add_spendGenesis (n := Sample.txNode.chain)
      Regtest.utxos_genesis
    exact ⟨_, rfl, fun env henv ↦ ⟨pool, henv ▸ hadd⟩⟩
  have hpools (j : Fin 3) : Pools {Regtest.spendGenesis 1}
      ((Sample.openRing Sample.txNode.chain Sample.txMsg).systems j).chain := Sample.pools_txNode
  have hspreads : Spreads Regtest.manager Sample.json payloadJson
      (fun env ↦ env.orders = Mempool.someOrders) Sample.txMsg _ _ :=
    spreads_tx Sample.type_txMsg Sample.decode_txMsg
      (Set.injOn_singleton _ (Regtest.spendGenesis 1)) rfl
  obtain ⟨k, w, hrun, hquiet⟩ := hspreads.exists_quiet Sample.ringRoute
    Sample.env rfl (fun j ↦ ⟨hpools j, htakes j⟩) (Sample.inFlight_openRing _ _)
  have hreaches := (tx_reaches_all Sample.type_txMsg Sample.decode_txMsg
    (Set.injOn_singleton _ (Regtest.spendGenesis 1)) rfl hpools htakes
    (Sample.inFlight_openRing _ _) rfl (Sample.symmetric_openRing _ _) hrun).2
  exact ⟨k, w, hrun, hquiet, fun j ↦ hreaches hquiet j (Sample.connected_openRing _ _ 0 j)⟩

end NevelCore.P2P
