import NevelCore.Rpc.Access

/-!
# Answers that stay

A daemon serves one request after the other, while its peers and its miner call the pool and the
chain manager, and it may be stopped and started again, when only the store is left (`DaemonStep`).
As long as the blocks that are submitted have positive height, the chain in the store only grows
(`Keeps.step`), and the height index has the blocks of the chain and nothing else. So an answer with
a block, by its height or by its hash, is given to the same request ever after, and the tip that is
shown never becomes lower (`served_blocks_final`).
-/

set_option autoImplicit false
set_option relaxedAutoImplicit false

namespace NevelCore.Rpc

open Foundations

/-- `DefaultMempoolMaxByte`. -/
def defaultMempoolMaxByte : Int64 := 64 * 1024 * 1024

/-- One step of a daemon: a request is served, in which a block that is submitted has positive
height, there is a call on the pool or the chain manager from elsewhere, or it is started again with
`mustManager`, `InitGenesis` and `NewWithChain`. -/
inductive DaemonStep (s : Service) (json : Json) (m : Manager) : State → State → Prop
  | request {st : State} (moment : Moment) (r : HttpRequest)
      (positive : ∀ b, r.block json = some b → 0 < b.header.height) :
      DaemonStep s json m st (serveHTTP s json moment r st).2
  | call {st : State} {n' : Node} (step : PoolStep m (fun _ _ _ ↦ True) st.node n') :
      DaemonStep s json m st { st with node := n' }
  | restart {st : State} {polls : ℕ} {b : Block} {n' : Node}
      (returns : (m.initGenesis polls).run exec
        ⟨st.node.store, some (Mempool.new defaultMempoolMaxByte)⟩ = (.ok b, n')) :
      DaemonStep s json m st ⟨n', .new⟩

/-- A store has a chain, and its height index has the blocks of the chain only. -/
structure Keeps (m : Manager) (g : Block) (chain : List Block) (d : Store) : Prop where
  isChain : Chain m g chain
  holds : Holds chain d
  heights : ∀ {height hash}, DB.blockHashByHeight d height = .ok hash →
    ∃ x ∈ chain, x.header.height = height ∧ x.hash = hash

namespace Keeps

variable {m : Manager} {g : Block} {chain chain' : List Block} {d d' : Store}

theorem genesis (hg : g.header.height = 0) : Keeps m g [g] (DB.extend ∅ g) where
  isChain := .genesis
  holds := Holds.genesis hg
  heights {height hash} h := by
    rw [DB.blockHashByHeight_extend] at h
    split_ifs at h with hheight
    · cases h
      exact ⟨g, List.mem_singleton_self g, hheight.symm, rfl⟩
    · cases h

/-! ### The chain grows -/

theorem outcome {b : Block} (h : Keeps m g chain d) (hg : g.header.height = 0)
    (houtcome : Outcome m chain d b chain' d') : chain <:+ chain' ∧ Keeps m g chain' d' := by
  obtain ⟨hchain', hholds'⟩ := houtcome.holds h.isChain hg h.holds
  cases houtcome with
  | unchanged => exact ⟨List.suffix_rfl, h⟩
  | recorded suffix inLimits link unknown =>
    refine ⟨List.suffix_rfl, hchain', hholds', fun hheight ↦ h.heights ?_⟩
    rwa [DB.blockHashByHeight_putTotalWork] at hheight
  | extended eq step =>
    refine ⟨List.suffix_cons b chain, hchain', hholds', fun {height hash} hheight ↦ ?_⟩
    rw [DB.blockHashByHeight_extend] at hheight
    split_ifs at hheight with heq
    · cases hheight
      exact ⟨b, List.mem_cons_self, heq.symm, rfl⟩
    · obtain ⟨x, hx, hsame⟩ := h.heights hheight
      exact ⟨x, List.mem_cons_of_mem b hx, hsame⟩

theorem call {n n' : Node} {now : ℤ} {fuel : ℕ} {b : Block} {r : Except Halt Unit}
    (h : Keeps m g chain n.store) (hg : g.header.height = 0) (hheight : 0 < b.header.height)
    (hcall : (m.validateAndApplyBlock now fuel b).run exec n = (r, n')) :
    ∃ chain', chain <:+ chain' ∧ Keeps m g chain' n'.store := by
  obtain ⟨chain', houtcome⟩ := call_outcome hcall hheight h.isChain hg h.holds
  exact ⟨chain', h.outcome hg houtcome⟩

theorem poolStep {n n' : Node} (h : Keeps m g chain n.store) (hg : g.header.height = 0)
    (hstep : PoolStep m (fun _ _ _ ↦ True) n n') :
    ∃ chain', chain <:+ chain' ∧ Keeps m g chain' n'.store := by
  cases hstep with
  | add holds returns =>
    obtain rfl := eq_of_run_add returns
    exact ⟨chain, List.suffix_rfl, h⟩
  | addFails holds returns =>
    obtain rfl := eq_of_run_add returns
    exact ⟨chain, List.suffix_rfl, h⟩
  | remove hash => exact ⟨chain, List.suffix_rfl, h⟩
  | deliver positive allows returns fueled => exact h.call hg positive returns

theorem effect {s : Service} {json : Json} {moment : Moment} {r : HttpRequest} {st st' : State}
    (h : Keeps m g chain st.node.store) (hg : g.header.height = 0) (hchain : s.chain = some m)
    (hpositive : ∀ b, r.block json = some b → 0 < b.header.height)
    (heffect : Effect s json moment r st st') :
    ∃ chain', chain <:+ chain' ∧ Keeps m g chain' st'.node.store := by
  cases heffect with
  | unchanged => exact ⟨chain, List.suffix_rfl, h⟩
  | added holds =>
    refine ⟨chain, List.suffix_rfl, ?_⟩
    rwa [store_addTransaction]
  | delivered hmanager hblock =>
    cases hchain.symm.trans hmanager
    exact h.call hg (hpositive _ hblock) rfl
  | created merchant address amount memo ttl => exact ⟨chain, List.suffix_rfl, h⟩

/-- `InitGenesis` finds the tip and leaves the store as it is. -/
theorem initGenesis {pool : Option Mempool} {n' : Node} {polls : ℕ} {b : Block}
    (h : Keeps m g chain d) (hinit : (m.initGenesis polls).run exec ⟨d, pool⟩ = (.ok b, n')) :
    n' = ⟨d, pool⟩ := by
  obtain ⟨t, rest, rfl⟩ := h.isChain.exists_cons
  rw [Manager.initGenesis, run_tip_bind, h.holds.tip rfl] at hinit
  dsimp only at hinit
  rw [run_getBlock_bind] at hinit
  cases hget : DB.getBlock d t.hash with
  | error e =>
    rw [hget] at hinit
    cases hinit
  | ok x =>
    rw [hget] at hinit
    cases hinit
    rfl

theorem step {s : Service} {json : Json} {st st' : State} (h : Keeps m g chain st.node.store)
    (hg : g.header.height = 0) (hchain : s.chain = some m) (hstep : DaemonStep s json m st st') :
    ∃ chain', chain <:+ chain' ∧ Keeps m g chain' st'.node.store := by
  cases hstep with
  | request moment r positive => exact h.effect hg hchain positive serveHTTP_effect
  | call step => exact h.poolStep hg step
  | restart returns =>
    obtain rfl := h.initGenesis returns
    exact ⟨chain, List.suffix_rfl, h⟩

theorem run {s : Service} {json : Json} {st st' : State} (h : Keeps m g chain st.node.store)
    (hg : g.header.height = 0) (hchain : s.chain = some m)
    (hrun : Relation.ReflTransGen (DaemonStep s json m) st st') :
    ∃ chain', chain <:+ chain' ∧ Keeps m g chain' st'.node.store := by
  induction hrun with
  | refl => exact ⟨chain, List.suffix_rfl, h⟩
  | tail _ hstep ih =>
    obtain ⟨chain', hsuffix, h'⟩ := ih
    obtain ⟨chain'', hsuffix', h''⟩ := h'.step hg hchain hstep
    exact ⟨chain'', hsuffix.trans hsuffix', h''⟩

/-! ### What a store with a longer chain answers -/

theorem getBlock_later (h : Keeps m g chain d) (h' : Keeps m g chain' d')
    (hsuffix : chain <:+ chain') {hash : Hash} {b : Block} (hget : DB.getBlock d hash = .ok b) :
    DB.getBlock d' hash = .ok b := by
  obtain ⟨hb, rfl, hlimits⟩ := h.holds.mem_of_getBlock hget
  exact h'.holds.getBlock_of_mem (hsuffix.subset hb) hlimits

theorem blockHashByHeight_later (h : Keeps m g chain d) (h' : Keeps m g chain' d')
    (hsuffix : chain <:+ chain') {height : UInt64} {hash : Hash}
    (hget : DB.blockHashByHeight d height = .ok hash) :
    DB.blockHashByHeight d' height = .ok hash := by
  obtain ⟨x, hx, rfl, rfl⟩ := h.heights hget
  exact h'.holds.index x (hsuffix.subset hx)

/-- The tip that is read is the newest block, at the height of the chain. -/
theorem height_chainTip (h : Keeps m g chain d) (hg : g.header.height = 0) {tip : Tip}
    (htip : chainTip d = .ok tip) : tip.height.toNat + 1 = chain.length := by
  obtain ⟨b, rest, rfl⟩ := h.isChain.exists_cons
  unfold chainTip at htip
  rw [h.holds.tip rfl] at htip
  dsimp only at htip
  cases hget : DB.getBlock d b.hash with
  | error e =>
    rw [hget] at htip
    cases htip
  | ok x =>
    obtain ⟨hx, hhash, -⟩ := h.holds.mem_of_getBlock hget
    obtain rfl := h.isChain.hash_inj hx List.mem_cons_self hhash
    rw [hget] at htip
    cases htip
    rw [(h.isChain.branch hg).height_eq List.suffix_rfl, List.length_cons]

end Keeps

/-! ### Answers -/

section Answers

variable {s : Service} {json : Json} {moment : Moment} {r : HttpRequest} {st : State}

/-- An answer with data comes from a handler, and the same handler serves the request at any other
moment. -/
theorem exists_endpoint {value : Payload}
    (h : (serveHTTP s json moment r st).1 = .response (.json value)) :
    ∃ endpoint, (handle s json moment r st endpoint).1 = .json value ∧
      ∀ moment' st', (serveHTTP s json moment' r st').1 =
        .response (handle s json moment' r st' endpoint).1 := by
  unfold serveHTTP serveMux at *
  split_ifs at h with hrefused
  · cases h
  cases hroute : HttpMux.route routes (r.method = "CONNECT") r.escapedPath r.path with
  | found endpoint =>
    rw [hroute] at h
    refine ⟨endpoint, Reply.response.inj h, fun moment' st' ↦ ?_⟩
    rw [if_neg hrefused]
  | redirect path =>
    rw [hroute] at h
    cases h
  | notFound =>
    rw [hroute] at h
    cases h
  | badRequest =>
    rw [hroute] at h
    cases h

theorem orStatus_eq_json {α : Type} {status : ℕ} {result : Except Err α}
    {next : α → Response Payload} {value : Payload}
    (h : orStatus status result next = .json value) :
    ∃ x, result = .ok x ∧ next x = .json value := by
  cases result with
  | error e => cases h
  | ok x => exact ⟨x, rfl, h⟩

theorem Keeps.writeBlock_later {m : Manager} {g : Block} {chain chain' : List Block} {d d' : Store}
    (h : Keeps m g chain d) (h' : Keeps m g chain' d') (hsuffix : chain <:+ chain') {hash : Hash}
    {value : Payload} (hshown : writeBlock d hash = .json value) :
    writeBlock d' hash = .json value := by
  obtain ⟨b, hget, hvalue⟩ := orStatus_eq_json hshown
  rw [writeBlock, h.getBlock_later h' hsuffix hget]
  exact hvalue

/-- An answer with a block is the answer to the same request after the chain has grown. -/
theorem Keeps.block_later {m : Manager} {g : Block} {chain chain' : List Block} {st' : State}
    (h : Keeps m g chain st.node.store) (h' : Keeps m g chain' st'.node.store)
    (hsuffix : chain <:+ chain') {endpoint : Endpoint} {dto : BlockDTO} (moment' : Moment)
    (hshown : (handle s json moment r st endpoint).1 = .json (.block dto)) :
    (handle s json moment' r st' endpoint).1 = .json (.block dto) := by
  have hanswers := handle_answers endpoint _ hshown
  cases endpoint
  case blockHeight =>
    simp only [handle, blockHeight] at hshown ⊢
    cases hheight : parseUint (trimPrefix r.path (bytesOf "/block/height/")) with
    | none =>
      rw [hheight] at hshown
      cases hshown
    | some height =>
      rw [hheight] at hshown
      obtain ⟨hash, hget, hwritten⟩ := orStatus_eq_json hshown
      dsimp only
      rw [h.blockHashByHeight_later h' hsuffix hget]
      exact h.writeBlock_later h' hsuffix hwritten
  case blockHash =>
    simp only [handle, blockHash] at hshown ⊢
    cases hhash : parseHash (trimPrefix r.path (bytesOf "/block/")) with
    | none =>
      rw [hhash] at hshown
      cases hshown
    | some hash =>
      rw [hhash] at hshown
      exact h.writeBlock_later h' hsuffix hshown
  all_goals exact hanswers.elim

/-- An answer with a tip comes from the chain manager. -/
theorem chainTip_of_handle {endpoint : Endpoint} {value : Tip}
    (hshown : (handle s json moment r st endpoint).1 = .json (.tip value)) :
    chainTip st.node.store = .ok value := by
  have hanswers := handle_answers endpoint _ hshown
  cases endpoint
  case tip =>
    simp only [handle, tip] at hshown
    split at hshown
    · obtain ⟨shown, htip, hvalue⟩ := orStatus_eq_json hshown
      cases hvalue
      exact htip
    · obtain ⟨hash, -, hrest⟩ := orStatus_eq_json hshown
      obtain ⟨b, -, hvalue⟩ := orStatus_eq_json hrest
      cases hvalue
  all_goals exact hanswers.elim

end Answers

/-- Whatever is requested and called in between: the answer to a request that has been a block stays
that block, and the height of the tip that is shown does not go down. -/
theorem served_blocks_final {s : Service} {json : Json} {m : Manager} {g : Block}
    {start st st' : State} (hchain : s.chain = some m) (hstarts : Starts m g start.node)
    (hrun : Relation.ReflTransGen (DaemonStep s json m) start st)
    (hlater : Relation.ReflTransGen (DaemonStep s json m) st st') (moment moment' : Moment)
    (r : HttpRequest) :
    (∀ dto, (serveHTTP s json moment r st).1 = .response (.json (.block dto)) →
      (serveHTTP s json moment' r st').1 = .response (.json (.block dto))) ∧
    ∀ tip tip', (serveHTTP s json moment r st).1 = .response (.json (.tip tip)) →
      (serveHTTP s json moment' r st').1 = .response (.json (.tip tip')) →
        tip.height ≤ tip'.height := by
  obtain ⟨hgenesis, hstore⟩ := hstarts.spec
  have hg := hgenesis.height
  have hstart : Keeps m g [g] start.node.store := by
    rw [hstore]
    exact .genesis hg
  obtain ⟨chain, -, h⟩ := hstart.run hg hchain hrun
  obtain ⟨chain', hsuffix, h'⟩ := h.run hg hchain hlater
  constructor
  · intro dto hshown
    obtain ⟨endpoint, hhandled, hserves⟩ := exists_endpoint hshown
    rw [hserves]
    exact congrArg _ (h.block_later h' hsuffix moment' hhandled)
  · intro tip tip' hshown hshown'
    obtain ⟨endpoint, hhandled, -⟩ := exists_endpoint hshown
    obtain ⟨endpoint', hhandled', -⟩ := exists_endpoint hshown'
    have hheight := h.height_chainTip hg (chainTip_of_handle hhandled)
    have hheight' := h'.height_chainTip hg (chainTip_of_handle hhandled')
    have hlength := hsuffix.length_le
    rw [UInt64.le_iff_toNat_le]
    omega

namespace Sample

/-- A request for the genesis block. -/
def genesisRequest : HttpRequest where
  method := "GET"
  escapedPath := bytesOf "/block/height/0"
  path := bytesOf "/block/height/0"
  path_eq := by decide +kernel
  authorization := []
  address := []
  body := []

theorem not_protected_genesisRequest : ¬ genesisRequest.Protected := by decide +kernel

theorem route_genesisRequest : HttpMux.route routes (genesisRequest.method = "CONNECT")
    genesisRequest.escapedPath genesisRequest.path = .found .blockHeight := by decide +kernel

theorem parseUint_genesisRequest :
    parseUint (trimPrefix genesisRequest.path (bytesOf "/block/height/")) = some 0 := by
  decide +kernel

theorem serve_genesisRequest :
    (serveHTTP service json moment genesisRequest ⟨Regtest.afterGenesis, .new⟩).1 =
      .response (.json (.block (blockDTO Regtest.genesis))) := by
  have hheight : DB.blockHashByHeight Regtest.afterGenesis.store 0 = .ok Regtest.genesis.hash :=
    (Holds.genesis rfl).index Regtest.genesis List.mem_cons_self
  have hshown : blockHeight genesisRequest Regtest.afterGenesis.store =
      .json (.block (blockDTO Regtest.genesis)) := by
    rw [blockHeight, parseUint_genesisRequest]
    dsimp only
    rw [hheight, orStatus, writeBlock, Regtest.getBlock_genesis, orStatus]
  rw [serveHTTP_of_route (fun h ↦ not_protected_genesisRequest h.2.1) route_genesisRequest]
  exact congrArg Reply.response hshown

theorem step_blockA : DaemonStep service json Regtest.manager ⟨Regtest.afterGenesis, .new⟩
    ⟨Regtest.afterA, .new⟩ :=
  .call (.deliver Regtest.validOn_blockA.height trivial Regtest.blockA_returns nofun)

end Sample

/-- After block A the genesis block is still shown at height 0. -/
theorem served_blocks_final_sample :
    (serveHTTP Sample.service Sample.json Sample.moment Sample.genesisRequest
      ⟨Regtest.afterA, .new⟩).1 = .response (.json (.block (blockDTO Regtest.genesis))) :=
  (served_blocks_final rfl Regtest.starts .refl (.single Sample.step_blockA) Sample.moment
    Sample.moment Sample.genesisRequest).1 _ Sample.serve_genesisRequest

end NevelCore.Rpc
