import NevelCore.Chain.ForkChoice
import NevelCore.Chain.Rejection
import NevelCore.Foundations.Flooding
import NevelCore.Mempool.Consistency
import NevelCore.P2P.Handler

/-!
# Relaying blocks

A block that the chain accepts is relayed, and a block that is accepted leaves a record of its work
under its hash, on every path of `ValidateAndApplyBlock` (`recorded_of_accepted`). But the next
delivery is recognised by the stored block, and a block on a side branch is not stored: it is
accepted, and relayed, as often as it comes, and goes round a ring of nodes without end
(`relayed_twice`).

Deliveries are `Fresh` if the block has no work on record yet, or is stored and can be read. Then a
node relays each block at most once, and in a network of nodes the messages for one block come to an
end (`relays_at_most_once`), since they act like a flood of `Foundations.Flooding` in which copies
can get lost (`RelaysOnce.floods`).
-/

set_option autoImplicit false
set_option relaxedAutoImplicit false

namespace NevelCore

open Foundations

/-! ### Records of work -/

/-- The store has a record of work for a hash. -/
def Recorded (hash : Hash) (n : Node) : Prop := ∃ work, DB.totalWork n.store hash = .ok work

section Recorded

variable {hash : Hash} {n n' : Node}

theorem recorded_putTotalWork {d : Store} {work : ℕ} (mempool : Option Mempool) :
    Recorded hash ⟨DB.putTotalWork d hash work, mempool⟩ := by
  refine ⟨work, ?_⟩
  rw [DB.totalWork_putTotalWork, if_pos rfl]

theorem recorded_extend {d : Store} (b : Block) (mempool : Option Mempool) :
    Recorded b.hash ⟨DB.extend d b, mempool⟩ := recorded_putTotalWork mempool

/-- No call takes a record of work away. -/
theorem Recorded.exec (c : Call) (n : Node) (h : Recorded hash n) :
    Recorded hash (exec c n).2 := by
  obtain ⟨work, hwork⟩ := h
  cases c with
  | putTotalWork hash' work' =>
    change ∃ w, DB.totalWork (DB.putTotalWork n.store hash' work') hash = .ok w
    rw [DB.totalWork_putTotalWork]
    split
    · exact ⟨_, rfl⟩
    · exact ⟨work, hwork⟩
  | applyBlock b =>
    change ∃ w, DB.totalWork (DB.applyBlock n.store b) hash = .ok w
    rw [DB.totalWork_applyBlock]
    exact ⟨work, hwork⟩
  | disconnectTip =>
    change ∃ w, DB.totalWork (DB.disconnectTip n.store).2 hash = .ok w
    unfold DB.disconnectTip
    split
    · refine ⟨work, ?_⟩
      rw [DB.totalWork, DB.lookup_disconnect (by trivial) (by simp)]
      exact hwork
    · exact ⟨work, hwork⟩
  | tip => exact ⟨work, hwork⟩
  | getBlock hash' => exact ⟨work, hwork⟩
  | blockHashByHeight height => exact ⟨work, hwork⟩
  | get hash' idx => exact ⟨work, hwork⟩
  | totalWork hash' => exact ⟨work, hwork⟩
  | removeMinedBlock b => exact ⟨work, hwork⟩

theorem Recorded.run {α : Type} (h : Recorded hash n) (p : Routine α) :
    Recorded hash (p.run NevelCore.exec n).2 := Prog.run_keeps Recorded.exec p h

/-- A block that is accepted leaves a record of its work. -/
theorem recorded_of_accepted {m : Manager} {now : ℤ} {fuel : ℕ} {b : Block}
    (h : (m.validateAndApplyBlock now fuel b).run exec n = (.ok (), n')) : Recorded b.hash n' := by
  obtain ⟨-, hconnect⟩ := (validateAndApplyBlock_cases h).resolve_left
    fun ⟨_, _, herror, _⟩ ↦ nomatch herror
  rw [run_connectBlock] at hconnect
  split at hconnect
  · cases hconnect
    exact recorded_extend b _
  split_ifs at hconnect
  · cases hconnect
    exact recorded_extend b _
  · cases hconnect
    exact recorded_putTotalWork _
  · -- the new tip is the last block that a reorganisation applies
    obtain ⟨sideChain, cur, mid, hcollect, -, hstore⟩ := Manager.reorg_ok hconnect
    obtain ⟨more, hmore, -⟩ := Manager.collectSideChain_ok hcollect
    obtain rfl : sideChain = b :: more := hmore
    rw [List.reverse_cons, List.foldl_append] at hstore
    obtain ⟨work, hwork⟩ := recorded_extend (d := more.reverse.foldl DB.extend mid.store) b none
    exact ⟨work, hstore ▸ hwork⟩

/-- A block that passes the checks beside the tip is accepted. Nothing but its work is stored. -/
theorem Passes.recorded {m : Manager} {now : ℤ} {g b prev t : Block} {below : List Block}
    (h : Passes m now b prev n) (hheight : 0 < b.header.height) (hchain : Chain m g (t :: below))
    (hg : g.header.height = 0) (hholds : Holds (t :: below) n.store) (hlimits : t.InLimits)
    (hne : b.header.prevHash ≠ t.hash) (fuel : ℕ) :
    ∃ n', (m.validateAndApplyBlock now fuel b).run exec n = (.ok (), n') ∧
      Holds (t :: below) n'.store := by
  obtain ⟨rest, hsuffix, hprev, hlink, -, hbits, -⟩ :=
    h.parent hheight hchain hg hholds.toStores
  obtain ⟨above, habove⟩ : ∃ above, above :: prev :: rest <:+ t :: below := by
    rcases eq_or_exists_of_suffix hsuffix with heq | habove
    · exact absurd (hlink.trans (congrArg Block.hash (List.cons.inj heq).1).symm) hne
    · exact habove
  have hle : DB.workOn n.store b ≤ (DB.totalWork n.store t.hash).toOption.getD 0 := by
    rw [hholds.workOn hsuffix hprev hlink hheight, hholds.work (List.suffix_refl _) hlimits]
    exact hchain.work_le habove hbits
  obtain ⟨e, hunknown⟩ := h.unknown
  refine ⟨{ n with store := DB.putTotalWork n.store b.hash (DB.workOn n.store b) }, ?_,
    hholds.putTotalWork (fun x hx ↦ hholds.hash_ne_of_unknown hunknown hx) _⟩
  rw [run_validateAndApplyBlock_of_ok ((checkBlock_ok_iff hheight).mpr ⟨prev, h⟩),
    run_connectBlock, hholds.tip rfl]
  dsimp only
  rw [if_neg hne, if_pos hle]

end Recorded

namespace P2P

/-! ### Deliveries to one node -/

/-- A message from a peer, and what is outside of the node when it is handled. -/
structure Delivery where
  env : Surroundings
  peer : String
  msg : Message

/-- An output that relays the block with a hash. -/
def Output.relays (payloads : PayloadJson) (hash : Hash) : Output → Bool
  | .broadcastExcept msg _ => (payloads.block msg.payload).any (·.hash = hash)
  | .send _ _ => false

section Deliveries

variable (m : Manager) (json : Json) (payloads : PayloadJson)

/-- Handles one message after the other, until a call panics. -/
def handleAll : System → List Delivery → System × List Output
  | s, [] => (s, [])
  | s, d :: ds =>
    let handled := handler m json payloads d.env s d.peer d.msg
    if handled.ending.panics then (handled.system, handled.outputs)
    else
      let (s', outputs) := handleAll handled.system ds
      (s', handled.outputs ++ outputs)

/-- The block of a message has no work on record yet, or it is stored and can be read. -/
def Fresh (s : System) (msg : Message) : Prop :=
  ∀ b, payloads.block msg.payload = some b →
    ¬ Recorded b.hash s.chain ∨ ∃ x, DB.getBlock s.chain.store b.hash = .ok x

/-- Every message is fresh when it is handled. -/
def AllFresh : System → List Delivery → Prop
  | _, [] => True
  | s, d :: ds =>
    Fresh payloads s d.msg ∧ AllFresh (handler m json payloads d.env s d.peer d.msg).system ds

end Deliveries

section Handling

variable {m : Manager} {json : Json} {payloads : PayloadJson} {env : Surroundings} {s : System}
  {peer : String} {msg : Message} {hash : Hash} {b : Block}

theorem handleAll_of_returned {s' : System} {outputs : List Output} {d : Delivery}
    (h : handler m json payloads d.env s d.peer d.msg = ⟨.returned, s', outputs⟩)
    (ds : List Delivery) :
    handleAll m json payloads s (d :: ds) =
      ((handleAll m json payloads s' ds).1, outputs ++ (handleAll m json payloads s' ds).2) := by
  rw [handleAll, h]
  exact if_neg Bool.false_ne_true

theorem handler_of_block (json : Json) (htype : msg.type = .block) :
    handler m json payloads env s peer msg = handleBlock m payloads env s peer msg := by
  rw [handler, htype]

theorem handleBlock_rejected {halt : Halt} {chain : NevelCore.Node}
    (hdecode : payloads.block msg.payload = some b)
    (hrun : (m.validateAndApplyBlock env.blockNow env.fuel b).run exec s.chain =
      (.error halt, chain)) :
    handleBlock m payloads env s peer msg = ⟨.returned, { s with chain := chain }, []⟩ := by
  rw [handleBlock, hdecode]
  dsimp only
  rw [hrun]

theorem handleBlock_accepted {chain : NevelCore.Node}
    (hdecode : payloads.block msg.payload = some b)
    (hrun : (m.validateAndApplyBlock env.blockNow env.fuel b).run exec s.chain = (.ok (), chain)) :
    handleBlock m payloads env s peer msg =
      ⟨.returned, { s with chain := chain }, [.broadcastExcept msg peer]⟩ := by
  rw [handleBlock, hdecode]
  dsimp only
  rw [hrun]

/-- A block changes the chain only, as `ValidateAndApplyBlock` does. -/
theorem system_handleBlock (hdecode : payloads.block msg.payload = some b) :
    (handleBlock m payloads env s peer msg).system = { s with
      chain := ((m.validateAndApplyBlock env.blockNow env.fuel b).run exec s.chain).2 } := by
  rcases hrun : (m.validateAndApplyBlock env.blockNow env.fuel b).run exec s.chain with
    ⟨_ | ⟨⟨⟩⟩, chain⟩
  · rw [handleBlock_rejected hdecode hrun]
  · rw [handleBlock_accepted hdecode hrun]

/-- No message takes a record of work away. -/
theorem recorded_handleBlock (h : Recorded hash s.chain) :
    Recorded hash (handleBlock m payloads env s peer msg).system.chain := by
  cases hdecode : payloads.block msg.payload with
  | none =>
    rw [handleBlock, hdecode]
    exact h
  | some b =>
    rw [system_handleBlock hdecode]
    exact h.run _

theorem relays_broadcastExcept (hdecode : payloads.block msg.payload = some b) :
    (Output.broadcastExcept msg peer).relays payloads hash = decide (b.hash = hash) := by
  rw [Output.relays, hdecode, Option.any_some]

/-- A block that is relayed was not on record if its message was fresh, and is on record then. -/
theorem not_recorded_of_accepted {chain : NevelCore.Node} (hfresh : Fresh payloads s msg)
    (hdecode : payloads.block msg.payload = some b)
    (hrun : (m.validateAndApplyBlock env.blockNow env.fuel b).run exec s.chain = (.ok (), chain)) :
    ¬ Recorded b.hash s.chain := by
  rcases hfresh b hdecode with hnot | ⟨x, hx⟩
  · exact hnot
  · rw [run_validateAndApplyBlock_of_known hx] at hrun
    cases hrun

/-- A fresh message relays the block with a hash once, and puts its work on record, or not at
all. -/
theorem relays_handleBlock (m : Manager) (env : Surroundings) (peer : String) (hash : Hash)
    (hfresh : Fresh payloads s msg) :
    (handleBlock m payloads env s peer msg).outputs.countP (·.relays payloads hash) = 0 ∨
      (handleBlock m payloads env s peer msg).outputs.countP (·.relays payloads hash) = 1 ∧
        ¬ Recorded hash s.chain ∧
        Recorded hash (handleBlock m payloads env s peer msg).system.chain := by
  cases hdecode : payloads.block msg.payload with
  | none =>
    rw [handleBlock, hdecode]
    exact .inl rfl
  | some b =>
    rcases hrun : (m.validateAndApplyBlock env.blockNow env.fuel b).run exec s.chain with
      ⟨_ | ⟨⟨⟩⟩, chain⟩
    · rw [handleBlock_rejected hdecode hrun]
      exact .inl rfl
    · rw [handleBlock_accepted hdecode hrun, List.countP_singleton, relays_broadcastExcept hdecode]
      by_cases hhash : b.hash = hash
      · subst hhash
        rw [decide_eq_true rfl]
        exact .inr ⟨rfl, not_recorded_of_accepted hfresh hdecode hrun, recorded_of_accepted hrun⟩
      · rw [decide_eq_false hhash]
        exact .inl rfl

/-- Fresh messages relay the block with a hash at most once, and no more once its work is on
record. -/
theorem relays_handleAll {ds : List Delivery} (hblocks : ∀ d ∈ ds, d.msg.type = .block)
    (hfresh : AllFresh m json payloads s ds) :
    (handleAll m json payloads s ds).2.countP (·.relays payloads hash) ≤ 1 ∧
      (Recorded hash s.chain →
        (handleAll m json payloads s ds).2.countP (·.relays payloads hash) = 0) := by
  induction ds generalizing s with
  | nil => exact ⟨Nat.zero_le _, fun _ ↦ rfl⟩
  | cons d ds ih =>
    obtain ⟨hd, hds⟩ := List.forall_mem_cons.mp hblocks
    obtain ⟨hfirst, hrest⟩ := hfresh
    obtain ⟨hle, hzero⟩ := ih hds hrest
    have hstep := relays_handleBlock m d.env d.peer hash hfirst
    dsimp only [handleAll]
    rw [handler_of_block json hd] at hle hzero ⊢
    split_ifs
    · rcases hstep with hnone | ⟨hone, hbefore, -⟩
      · exact ⟨hnone.le.trans (Nat.zero_le _), fun _ ↦ hnone⟩
      · exact ⟨hone.le, fun h ↦ absurd h hbefore⟩
    · rw [List.countP_append]
      rcases hstep with hnone | ⟨hone, hbefore, hafter⟩
      · rw [hnone, Nat.zero_add]
        exact ⟨hle, fun h ↦ hzero (recorded_handleBlock h)⟩
      · rw [hone, hzero hafter]
        exact ⟨le_rfl, fun h ↦ absurd h hbefore⟩

end Handling

/-! ### A network of nodes -/

/-- The nodes of a network, and the messages on their way: to whom, under which id the receiver
knows the sender, and what. -/
structure Network (ι : Type) where
  systems : ι → System
  inFlight : Multiset (ι × String × Message)

section Network

variable {ι : Type} (m : Manager) (json : Json) (payloads : PayloadJson)
  (route : ι → String → Option (ι × String))

/-- The messages of an output of a node. `route` leads from a node and the id of a peer to that
peer and the id under which it knows the node. -/
def sent (i : ι) (s : System) : Output → Multiset (ι × String × Message)
  | .broadcastExcept msg excludeID =>
    (s.net.peers.keys.erase excludeID).val.filterMap fun id ↦
      (route i id).map fun (j, peer) ↦ (j, peer, msg)
  | .send id msg =>
    match route i id with
    | some (j, peer) => {(j, peer, msg)}
    | none => 0

/-- Runs with so many deliveries of messages that meet a condition. Any message on its way can come
next, and messages can get lost when they are sent. A message can also stay on its way, as those to
a node that has panicked do. -/
inductive NetworkRun [DecidableEq ι] (allowed : System → Message → Prop) (w₀ : Network ι) :
    ℕ → Network ι → Prop
  | start : NetworkRun allowed w₀ 0 w₀
  | deliver {k : ℕ} {w : Network ι} (run : NetworkRun allowed w₀ k w) {i : ι} {peer : String}
      {msg : Message} {rest new : Multiset (ι × String × Message)} (env : Surroundings)
      (flight : w.inFlight = (i, peer, msg) ::ₘ rest) (allows : allowed (w.systems i) msg)
      (sends : new ≤ ((handler m json payloads env (w.systems i) peer msg).outputs.map
        (sent route i (handler m json payloads env (w.systems i) peer msg).system)).sum) :
      NetworkRun allowed w₀ (k + 1) ⟨Function.update w.systems i
        (handler m json payloads env (w.systems i) peer msg).system, rest + new⟩

end Network

/-! ### Floods -/

section Floods

variable {ι : Type} (m : Manager) (json : Json) (payloads : PayloadJson)
  (route : ι → String → Option (ι × String))

/-- The connections between the nodes of a network. -/
def links (w : Network ι) : Links ι String where
  ports i := (w.systems i).net.peers.keys
  route := route

/-- A copy of a message on its way to a port. -/
def copyTo (msg : Message) (x : ι × String) : ι × String × Message := (x.1, x.2, msg)

/-- A network in which a message has got as far as a flood has. -/
structure Shadows (msg : Message) (before after : System → Prop) (w₀ : Network ι)
    (f : Flood ι String) (w : Network ι) : Prop where
  net_eq : ∀ i, (w.systems i).net = (w₀.systems i).net
  unknown : ∀ i ∉ f.informed, before (w.systems i)
  known : ∀ i ∈ f.informed, after (w.systems i)
  inFlight_eq : w.inFlight = f.inFlight.map (copyTo msg)

/-- A message that a node relays only when it gets to know it, and then does not forget. -/
structure RelaysOnce (allowed : System → Message → Prop) (msg : Message)
    (kept known : System → Prop) : Prop where
  net_eq : ∀ (env : Surroundings) {s : System} (peer : String), kept s → allowed s msg →
    (handler m json payloads env s peer msg).system.net = s.net
  keeps : ∀ (env : Surroundings) {s : System} (peer : String), kept s → allowed s msg →
    kept (handler m json payloads env s peer msg).system
  knows : ∀ (env : Surroundings) {s : System} (peer : String), kept s → allowed s msg →
    known s → known (handler m json payloads env s peer msg).system
  relays : ∀ (env : Surroundings) {s : System} (peer : String), kept s → allowed s msg →
    (handler m json payloads env s peer msg).outputs = [] ∨
      (handler m json payloads env s peer msg).outputs = [.broadcastExcept msg peer] ∧
        ¬ known s ∧ known (handler m json payloads env s peer msg).system

end Floods

section Shadows

variable {ι : Type} {m : Manager} {json : Json} {payloads : PayloadJson}
  {route : ι → String → Option (ι × String)} {msg : Message} {before after : System → Prop}
  {w₀ w : Network ι} {f₀ f f' : Flood ι String} {k : ℕ}

theorem sent_eq_map_copies {i : ι} {s : System} (hnet : s.net = (w₀.systems i).net)
    (peer : String) : sent route i s (.broadcastExcept msg peer) =
      ((links route w₀).copies i peer).map (copyTo msg) := by
  rw [Links.copies, Multiset.map_filterMap, sent, hnet]
  rfl

/-- Some of the copies of a message are copies too. -/
theorem exists_map_copyTo {new : Multiset (ι × String × Message)} {copies : Multiset (ι × String)}
    (h : new ≤ copies.map (copyTo msg)) : ∃ new' ≤ copies, new = new'.map (copyTo msg) := by
  refine ⟨new.map fun x ↦ (x.1, x.2.1), ?_, ?_⟩
  · have hle := Multiset.map_le_map (f := fun x : ι × String × Message ↦ (x.1, x.2.1)) h
    rw [Multiset.map_map] at hle
    exact hle.trans_eq (Multiset.map_id copies)
  · rw [Multiset.map_map]
    refine ((Multiset.map_congr rfl fun x hx ↦ ?_).trans (Multiset.map_id new)).symm
    obtain ⟨y, -, rfl⟩ := Multiset.mem_map.mp (Multiset.mem_of_le h hx)
    rfl

/-- The network before a message is brought in from outside. -/
theorem Shadows.ofOutside {i : ι} {peer : String} (hbefore : ∀ j, before (w₀.systems j))
    (hflight : w₀.inFlight = {(i, peer, msg)}) :
    Shadows msg before after w₀ ⟨∅, {(i, peer)}⟩ w₀ :=
  ⟨fun _ ↦ rfl, fun j _ ↦ hbefore j, fun _ hj ↦ hj.elim, hflight⟩

variable [DecidableEq ι]

/-- The copy that is delivered, in the flood. -/
theorem Shadows.exists_flight {i : ι} {peer : String} {msg' : Message}
    {rest : Multiset (ι × String × Message)} (h : Shadows msg before after w₀ f w)
    (flight : w.inFlight = (i, peer, msg') ::ₘ rest) :
    msg' = msg ∧ ∃ rest', f.inFlight = (i, peer) ::ₘ rest' ∧ rest = rest'.map (copyTo msg) := by
  obtain ⟨x, hx, heq, hrest⟩ :=
    (Multiset.map_eq_cons _ _ _ _).mpr (h.inFlight_eq.symm.trans flight)
  cases heq
  exact ⟨rfl, _, (Multiset.cons_erase hx).symm, hrest.symm⟩

/-- One node has handled the message. -/
theorem Shadows.update (h : Shadows msg before after w₀ f w) {i : ι} {s : System}
    {inFlight : Multiset (ι × String × Message)} (hnet : s.net = (w.systems i).net)
    (hbefore : i ∉ f'.informed → before s) (hafter : i ∈ f'.informed → after s)
    (hothers : ∀ j ≠ i, j ∈ f'.informed ↔ j ∈ f.informed)
    (hflight : inFlight = f'.inFlight.map (copyTo msg)) :
    Shadows msg before after w₀ f' ⟨Function.update w.systems i s, inFlight⟩ where
  net_eq j := by
    by_cases hj : j = i
    · subst hj
      dsimp only
      rw [Function.update_self, hnet, h.net_eq]
    · dsimp only
      rw [Function.update_of_ne hj, h.net_eq]
  unknown j hunknown := by
    by_cases hj : j = i
    · subst hj
      dsimp only
      rw [Function.update_self]
      exact hbefore hunknown
    · dsimp only
      rw [Function.update_of_ne hj]
      exact h.unknown j (mt (hothers j hj).mpr hunknown)
  known j hknown := by
    by_cases hj : j = i
    · subst hj
      dsimp only
      rw [Function.update_self]
      exact hafter hknown
    · dsimp only
      rw [Function.update_of_ne hj]
      exact h.known j ((hothers j hj).mp hknown)
  inFlight_eq := hflight

variable {allowed : System → Message → Prop} {kept known : System → Prop}

/-- A message that is relayed once floods the network, but may be refused or get lost. -/
theorem RelaysOnce.floods (h : RelaysOnce m json payloads allowed msg kept known)
    (hrun : NetworkRun m json payloads route allowed w₀ k w)
    (hstart : Shadows msg kept (fun s ↦ kept s ∧ known s) w₀ f₀ w₀) :
    ∃ f, Floods (links route w₀) True f₀ k f ∧
      Shadows msg kept (fun s ↦ kept s ∧ known s) w₀ f w := by
  induction hrun with
  | start => exact ⟨f₀, .start, hstart⟩
  | @deliver k w run i peer msg' rest new env flight allows sends ih =>
    obtain ⟨f, hfloods, hshadows⟩ := ih
    obtain ⟨rfl, rest, hflight, rfl⟩ := hshadows.exists_flight flight
    have hkept : kept (w.systems i) := by
      by_cases hi : i ∈ f.informed
      · exact (hshadows.known i hi).1
      · exact hshadows.unknown i hi
    have hnet := h.net_eq env peer hkept allows
    have hkeeps := h.keeps env peer hkept allows
    rcases h.relays env peer hkept allows with houtputs | ⟨houtputs, hbefore, hafter⟩
    · rw [houtputs] at sends
      obtain rfl : new = 0 := Multiset.le_zero.mp sends
      refine ⟨_, .ignored hfloods hflight (absurd trivial), hshadows.update hnet (fun _ ↦ hkeeps)
        (fun hi ↦ ⟨hkeeps, ?_⟩) (fun _ _ ↦ Iff.rfl) (add_zero _)⟩
      exact h.knows env peer hkept allows (hshadows.known i hi).2
    · rw [houtputs, List.map_singleton, List.sum_singleton,
        sent_eq_map_copies (hnet.trans (hshadows.net_eq i))] at sends
      obtain ⟨new, hnew, rfl⟩ := exists_map_copyTo sends
      have hunknown : i ∉ f.informed := fun hi ↦ hbefore (hshadows.known i hi).2
      refine ⟨_, .passedOn hfloods hflight hunknown hnew (absurd trivial),
        hshadows.update hnet (fun _ ↦ hkeeps) (fun _ ↦ ⟨hkeeps, hafter⟩) (fun j hj ↦ ?_) ?_⟩
      · rw [Set.mem_insert_iff, or_iff_right hj]
      · rw [Multiset.map_add]

/-- A message that is relayed once is delivered at most once more for each peer of a node. -/
theorem RelaysOnce.length_le [Fintype ι] {i : ι} {peer : String}
    (h : RelaysOnce m json payloads allowed msg kept known)
    (hrun : NetworkRun m json payloads route allowed w₀ k w) (hkept : ∀ j, kept (w₀.systems j))
    (hflight : w₀.inFlight = {(i, peer, msg)}) :
    k ≤ 1 + ∑ j, (w₀.systems j).net.peers.keys.card := by
  obtain ⟨f, hfloods, -⟩ := h.floods hrun (Shadows.ofOutside hkept hflight)
  exact hfloods.length_le

end Shadows

/-- The message of a block is relayed once, if each node gets it fresh. -/
theorem relaysOnce_block {m : Manager} {json : Json} {payloads : PayloadJson} {msg : Message}
    {b : Block} (htype : msg.type = .block) (hdecode : payloads.block msg.payload = some b) :
    RelaysOnce m json payloads (Fresh payloads) msg (fun _ ↦ True)
      (fun s ↦ Recorded b.hash s.chain) where
  net_eq env s peer _ _ := by rw [handler_of_block _ htype, system_handleBlock hdecode]
  keeps _ _ _ _ _ := trivial
  knows env s peer _ _ hknown := by
    rw [handler_of_block _ htype]
    exact recorded_handleBlock hknown
  relays env s peer _ hfresh := by
    rw [handler_of_block _ htype]
    rcases hrun : (m.validateAndApplyBlock env.blockNow env.fuel b).run exec s.chain with
      ⟨_ | ⟨⟨⟩⟩, chain⟩
    · rw [handleBlock_rejected hdecode hrun]
      exact .inl rfl
    · rw [handleBlock_accepted hdecode hrun]
      exact .inr ⟨rfl, not_recorded_of_accepted hfresh hdecode hrun, recorded_of_accepted hrun⟩

/-- A node that only gets fresh blocks relays each of them at most once. A block that is brought
into a network, where each node gets it fresh, is delivered at most once more for each peer of a
node, in any topology and in any order. -/
theorem relays_at_most_once (m : Manager) (json : Json) (payloads : PayloadJson) :
    (∀ (s : System) (ds : List Delivery), (∀ d ∈ ds, d.msg.type = .block) →
      AllFresh m json payloads s ds → ∀ hash,
        (handleAll m json payloads s ds).2.countP (·.relays payloads hash) ≤ 1) ∧
    ∀ (ι : Type) [Fintype ι] [DecidableEq ι] (route : ι → String → Option (ι × String))
      (w₀ w : Network ι) (i : ι) (peer : String) (msg : Message) (b : Block) (k : ℕ),
      msg.type = .block → payloads.block msg.payload = some b → w₀.inFlight = {(i, peer, msg)} →
      NetworkRun m json payloads route (Fresh payloads) w₀ k w →
      k ≤ 1 + ∑ j, (w₀.systems j).net.peers.keys.card := by
  refine ⟨fun s ds hblocks hfresh hash ↦ (relays_handleAll hblocks hfresh).1, ?_⟩
  intro ι _ _ route w₀ w i peer msg b k htype hdecode hflight hrun
  exact (relaysOnce_block htype hdecode).length_le hrun (fun _ ↦ trivial) hflight

namespace Sample

noncomputable def env : Surroundings where
  now := 0
  blockNow := 1790000000
  fuel := 1
  orders := Mempool.someOrders
  listed _ := []
  dial _ := none

/-- The message with a block. -/
def blockMsg (b : Block) : Message := ⟨.block, Block.form.marshal b⟩

theorem type_blockMsg (b : Block) : (blockMsg b).type = .block := rfl

theorem decode_blockMsg (b : Block) : payloadJson.block (blockMsg b).payload = some b :=
  Block.form.unmarshal_marshal b

/-- A node with two peers. -/
def ringNode : Node :=
  { newNode cfg with
    peers := (Finmap.singleton "next" (⟨0, "next"⟩ : Conn)).insert "prev" ⟨1, "prev"⟩ }

/-- Three nodes in a ring. -/
def ringRoute (i : Fin 3) : String → Option (Fin 3 × String)
  | "next" => some (i + 1, "prev")
  | "prev" => some (i - 1, "next")
  | _ => none

/-- The ring, with a message to the first node. -/
def ring (chain : NevelCore.Node) (msg : Message) : Network (Fin 3) :=
  ⟨fun _ ↦ ⟨chain, ringNode⟩, {(0, "prev", msg)}⟩

/-- The ring, with a message from outside to the first node. -/
def openRing (chain : NevelCore.Node) (msg : Message) : Network (Fin 3) :=
  ⟨fun _ ↦ ⟨chain, ringNode⟩, {(0, "outside", msg)}⟩

theorem inFlight_ring (chain : NevelCore.Node) (msg : Message) :
    (ring chain msg).inFlight = {(0, "prev", msg)} := rfl

theorem inFlight_openRing (chain : NevelCore.Node) (msg : Message) :
    (openRing chain msg).inFlight = {(0, "outside", msg)} := rfl

theorem not_recorded_blockA : ¬ Recorded Regtest.blockA.hash Regtest.afterGenesis := by
  rintro ⟨work, hwork⟩
  have hne := Regtest.hash_ne_blockA Regtest.genesis List.mem_cons_self
  rw [Regtest.afterGenesis, DB.totalWork_extend, if_neg hne.symm] at hwork
  cases hwork

theorem fresh_blockA (net : Node) :
    Fresh payloadJson ⟨Regtest.afterGenesis, net⟩ (blockMsg Regtest.blockA) := by
  intro b hb
  obtain rfl := Option.some.inj ((decode_blockMsg _).symm.trans hb)
  exact .inl not_recorded_blockA

theorem allFresh_blockA : AllFresh Regtest.manager json payloadJson
    ⟨Regtest.afterGenesis, ringNode⟩
    [⟨env, "prev", blockMsg Regtest.blockA⟩, ⟨env, "next", blockMsg Regtest.blockA⟩] := by
  have hcall : (Regtest.manager.validateAndApplyBlock env.blockNow env.fuel Regtest.blockA).run exec
    Regtest.afterGenesis = (.ok (), Regtest.afterA) := Regtest.blockA_returns
  refine ⟨fresh_blockA _, ?_, trivial⟩
  rw [handler_of_block _ rfl,
    handleBlock_accepted (s := ⟨Regtest.afterGenesis, ringNode⟩) (decode_blockMsg _) hcall]
  intro b hb
  obtain rfl := Option.some.inj ((decode_blockMsg _).symm.trans hb)
  exact .inr ⟨_, Regtest.getBlock_blockA⟩

end Sample

/-- Block A is delivered twice and relayed once. In the ring it comes to an end. -/
theorem relays_at_most_once_regtest :
    ((handleAll Regtest.manager Sample.json payloadJson ⟨Regtest.afterGenesis, Sample.ringNode⟩
        [⟨Sample.env, "prev", Sample.blockMsg Regtest.blockA⟩,
          ⟨Sample.env, "next", Sample.blockMsg Regtest.blockA⟩]).2.countP
      (·.relays payloadJson Regtest.blockA.hash) ≤ 1) ∧
    (∃ w, NetworkRun Regtest.manager Sample.json payloadJson Sample.ringRoute (Fresh payloadJson)
      (Sample.ring Regtest.afterGenesis (Sample.blockMsg Regtest.blockA)) 1 w) ∧
    ∀ k w, NetworkRun Regtest.manager Sample.json payloadJson Sample.ringRoute (Fresh payloadJson)
      (Sample.ring Regtest.afterGenesis (Sample.blockMsg Regtest.blockA)) k w →
      k ≤ 1 + ∑ _ : Fin 3, Sample.ringNode.peers.keys.card := by
  obtain ⟨hnode, hnetwork⟩ := relays_at_most_once Regtest.manager Sample.json payloadJson
  refine ⟨hnode _ _ ?_ Sample.allFresh_blockA _, ⟨_, .deliver .start Sample.env
    (Sample.inFlight_ring _ _) (Sample.fresh_blockA _) le_rfl⟩, fun k w hrun ↦ ?_⟩
  · intro d hd
    simp only [List.mem_cons, List.not_mem_nil, or_false] at hd
    rcases hd with rfl | rfl
    · rfl
    · rfl
  · have hle := hnetwork (Fin 3) Sample.ringRoute
      (Sample.ring Regtest.afterGenesis (Sample.blockMsg Regtest.blockA)) w 0 "prev"
      (Sample.blockMsg Regtest.blockA) Regtest.blockA k (Sample.type_blockMsg _)
      (Sample.decode_blockMsg _) (Sample.inFlight_ring _ _) hrun
    exact hle

/-! ### A block that is relayed again and again -/

namespace Sample

/-- Block B beside block A passes the checks each time it comes. -/
theorem blockB_accepted {n : NevelCore.Node}
    (h : Holds [Regtest.blockA, Regtest.genesis] n.store) :
    ∃ n', (Regtest.manager.validateAndApplyBlock env.blockNow env.fuel Regtest.blockB).run exec n =
        (.ok (), n') ∧ Holds [Regtest.blockA, Regtest.genesis] n'.store := by
  have hrun : NevelCore.Run Regtest.manager PositiveHeight Regtest.genesis
    [Regtest.blockA, Regtest.genesis] Regtest.afterA := Regtest.runA Regtest.validOn_blockA.height
  obtain ⟨hchain, -⟩ := hrun.holds fun _ _ _ h ↦ h
  obtain ⟨-, ⟨hBA, hBG⟩, hAG⟩ := Regtest.hashes_ne
  have hsuffix : [Regtest.genesis] <:+ [Regtest.blockA, Regtest.genesis] := List.suffix_cons _ _
  have hpasses : Passes Regtest.manager 1790000000 Regtest.blockB Regtest.genesis n := by
    refine ⟨h.unknown_of_new ?_, ?_, Regtest.validOn_blockB.header, ?_, ?_⟩
    · simp only [List.forall_mem_cons]
      exact ⟨Ne.symm hBA, Ne.symm hBG, List.forall_mem_nil _⟩
    · rw [Regtest.validOn_blockB.link]
      exact h.getBlock_of_mem (List.mem_cons_of_mem _ List.mem_cons_self) Regtest.genesis_inLimits
    · rw [h.run_expectedBits hchain hrun.genesis.height hsuffix Regtest.genesis_inLimits]
      exact Regtest.validOn_blockB.bits n
    · exact run_validateBlockTransactions_of_coinbase rfl rfl (by decide)
  refine hpasses.recorded Regtest.validOn_blockB.height hchain hrun.genesis.height h
    Regtest.blockA_inLimits ?_ 1
  rw [Regtest.validOn_blockB.link]
  exact Ne.symm hAG

theorem handleBlock_blockB {s : System} (h : Holds [Regtest.blockA, Regtest.genesis] s.chain.store)
    (peer : String) :
    ∃ chain, handleBlock Regtest.manager payloadJson env s peer (blockMsg Regtest.blockB) =
        ⟨.returned, { s with chain := chain },
          [.broadcastExcept (blockMsg Regtest.blockB) peer]⟩ ∧
      Holds [Regtest.blockA, Regtest.genesis] chain.store := by
  obtain ⟨chain, hcall, hholds⟩ := blockB_accepted h
  exact ⟨chain, handleBlock_accepted (decode_blockMsg _) hcall, hholds⟩

/-- A node of the ring passes the message on. -/
theorem sent_ringNode (i : Fin 3) (chain : NevelCore.Node) (msg : Message) :
    sent ringRoute i ⟨chain, ringNode⟩ (.broadcastExcept msg "prev") =
      {(i + 1, "prev", msg)} := by
  have hothers : ringNode.peers.keys.erase "prev" = {"next"} := by decide
  rw [sent, hothers]
  rfl

/-- Block B goes round the ring for ever. -/
theorem ring_goes_on {msg : Message} (hmsg : msg = blockMsg Regtest.blockB) (k : ℕ) :
    ∃ systems i, NetworkRun Regtest.manager json payloadJson ringRoute (fun _ _ ↦ True)
        (ring Regtest.afterA msg) k ⟨systems, {(i, "prev", msg)}⟩ ∧
      ∀ j, (systems j).net = ringNode ∧
        Holds [Regtest.blockA, Regtest.genesis] (systems j).chain.store := by
  induction k with
  | zero =>
    have hrun : NevelCore.Run Regtest.manager PositiveHeight Regtest.genesis
      [Regtest.blockA, Regtest.genesis] Regtest.afterA := Regtest.runA Regtest.validOn_blockA.height
    exact ⟨_, 0, .start, fun _ ↦ ⟨rfl, (hrun.holds fun _ _ _ h ↦ h).2⟩⟩
  | succ k ih =>
    obtain ⟨systems, i, hrun, hsystems⟩ := ih
    obtain ⟨hnet, hholds⟩ := hsystems i
    obtain ⟨chain, hhandled, hholds'⟩ := handleBlock_blockB hholds "prev"
    rw [← hmsg] at hhandled
    have htype : msg.type = .block := by rw [hmsg, blockMsg]
    have hhandler : handler Regtest.manager json payloadJson env (systems i) "prev" msg =
        ⟨.returned, ⟨chain, ringNode⟩, [.broadcastExcept msg "prev"]⟩ := by
      rw [handler_of_block _ htype, hhandled, hnet]
    have hflight : (⟨systems, {(i, "prev", msg)}⟩ : Network (Fin 3)).inFlight =
      (i, "prev", msg) ::ₘ 0 := rfl
    have hsends : {(i + 1, "prev", msg)} ≤ ((handler Regtest.manager json payloadJson env
        (systems i) "prev" msg).outputs.map (sent ringRoute i (handler Regtest.manager json
          payloadJson env (systems i) "prev" msg).system)).sum := by
      rw [hhandler, List.map_singleton, List.sum_singleton, sent_ringNode]
    have hnext := NetworkRun.deliver hrun env hflight trivial hsends
    rw [hhandler, Multiset.zero_add] at hnext
    refine ⟨_, i + 1, hnext, fun j ↦ ?_⟩
    by_cases hj : j = i
    · rw [hj, Function.update_self]
      exact ⟨rfl, hholds'⟩
    · rw [Function.update_of_ne hj]
      exact hsystems j

end Sample

/-- Block B beside the tip is relayed each time it is delivered. In a ring of three nodes it is
delivered without end. -/
theorem relayed_twice :
    NevelCore.Run Regtest.manager PositiveHeight Regtest.genesis [Regtest.blockA, Regtest.genesis]
      Regtest.afterA ∧
    (handleAll Regtest.manager Sample.json payloadJson ⟨Regtest.afterA, Sample.ringNode⟩
        [⟨Sample.env, "prev", Sample.blockMsg Regtest.blockB⟩,
          ⟨Sample.env, "prev", Sample.blockMsg Regtest.blockB⟩]).2.countP
      (·.relays payloadJson Regtest.blockB.hash) = 2 ∧
    ∀ k, ∃ w, NetworkRun Regtest.manager Sample.json payloadJson Sample.ringRoute
      (fun _ _ ↦ True) (Sample.ring Regtest.afterA (Sample.blockMsg Regtest.blockB)) k w := by
  have hrun : NevelCore.Run Regtest.manager PositiveHeight Regtest.genesis
    [Regtest.blockA, Regtest.genesis] Regtest.afterA := Regtest.runA Regtest.validOn_blockA.height
  refine ⟨hrun, ?_, fun k ↦ ?_⟩
  · obtain ⟨-, hholds⟩ := hrun.holds fun _ _ _ h ↦ h
    obtain ⟨chain, hfirst, hholds'⟩ :=
      Sample.handleBlock_blockB (s := ⟨Regtest.afterA, Sample.ringNode⟩) hholds "prev"
    obtain ⟨chain', hsecond, -⟩ :=
      Sample.handleBlock_blockB (s := ⟨chain, Sample.ringNode⟩) hholds' "prev"
    have hrelays : (Output.broadcastExcept (Sample.blockMsg Regtest.blockB) "prev").relays
        payloadJson Regtest.blockB.hash = true := by
      rw [relays_broadcastExcept (Sample.decode_blockMsg _), decide_eq_true rfl]
    rw [← handler_of_block Sample.json (Sample.type_blockMsg _)] at hfirst hsecond
    rw [handleAll_of_returned (d := ⟨Sample.env, "prev", Sample.blockMsg Regtest.blockB⟩) hfirst,
      handleAll_of_returned (d := ⟨Sample.env, "prev", Sample.blockMsg Regtest.blockB⟩) hsecond]
    simp only [handleAll, List.append_nil, List.countP_append, List.countP_singleton, hrelays,
      if_true]
  · obtain ⟨systems, i, hring, -⟩ := Sample.ring_goes_on rfl k
    exact ⟨_, hring⟩

end P2P

end NevelCore
