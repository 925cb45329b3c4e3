import NevelCore.Rpc.Endpoints
import NevelCore.Rpc.Trades

/-!
# What requests can do

Every request has one of four effects (`Effect`): it changes nothing, or it has a transaction added
to the pool, a block delivered to the chain manager or a payment request created. The results about
sequences of requests are case distinctions over them.

`auth` looks at the method and at the path of the URL, and the multiplexer at the segments of the
escaped path. That the two see the same path is a fact about the multiplexer, and so a request
without the token reaches only handlers that read the chain and the pool
(`public_of_not_authorizes`). Leaving all of those requests out therefore changes neither the final
state nor the answers to the others (`unauthorized_isolated`).

No handler calls `MarkBroadcasted`. Whatever is requested, every payment request that the server
shows is pending or expired and has no transaction (`invoices_unpaid`).
-/

set_option autoImplicit false
set_option relaxedAutoImplicit false

namespace NevelCore.Rpc

open Foundations Wallet
open HttpMux (Pattern)
open JsonText (Form Fields)

/-! ### Effects -/

/-- The block in the body of a request to submit one. -/
def HttpRequest.block (json : Json) (r : HttpRequest) : Option Block := do
  let text ← json.decodeHex (4 <<< 20) r.body
  let data ← (decodeHex text).toOption
  (deserializeBlock data).toOption

/-- What a request may do to the state. -/
inductive Effect (s : Service) (json : Json) (moment : Moment) (r : HttpRequest) (st : State) :
    State → Prop
  | unchanged : Effect s json moment r st st
  | added {pool : Mempool} {t : Transaction} (holds : st.node.mempool = some pool) :
      Effect s json moment r st
        { st with node := (addTransaction s.toServer moment.orders pool t st.node).2 }
  | delivered {m : Manager} {b : Block} (chain : s.chain = some m) (block : r.block json = some b) :
      Effect s json moment r st
        { st with node :=
            ((m.validateAndApplyBlock moment.now moment.fuel b).run exec st.node).2 }
  | created (merchant address : List UInt8) (amount : UInt64) (memo : List UInt8) (ttl : Int64) :
      Effect s json moment r st
        { st with payments := (st.payments.create merchant address amount memo ttl moment.idBytes
            moment.instant).2 }

section Effects

variable {s : Service} {json : Json} {moment : Moment} {r : HttpRequest} {st : State}

theorem buildTx_node (s : Server) (env : Environment) (r : Request BuildRequest) (n : Node) :
    (buildTx s env r n).2 = n ∨ ∃ pool t, n.mempool = some pool ∧
      (buildTx s env r n).2 = (addTransaction s env.orders pool t n).2 :=
  (buildTx_spec s env r n).imp_right
    fun ⟨_, _, t, pool, _, _, _, hpool, hafter⟩ ↦ ⟨pool, t, hpool, hafter⟩

theorem genesisTrade_node (s : Server) (env : Environment) (r : Request TradeRequest) (n : Node) :
    (genesisTrade s env r n).2 = n ∨ ∃ pool t, n.mempool = some pool ∧
      (genesisTrade s env r n).2 = (addTransaction s env.orders pool t n).2 := by
  rcases genesisTrade_spec s env r n with ⟨-, hsame⟩ | ⟨req, wlt, t, -, -, -, -, hanswer⟩
  · exact .inl hsame
  · rw [hanswer]
    cases n.mempool with
    | none => exact .inl rfl
    | some pool => exact .inr ⟨pool, t, rfl, rfl⟩

theorem store_addTransaction (s : Server) (orders : AddOrders) (pool : Mempool) (t : Transaction)
    (n : Node) : (addTransaction s orders pool t n).2.store = n.store := by
  unfold addTransaction
  split
  · next hrun => rw [eq_of_run_add hrun]
  · next hrun => rw [eq_of_run_add hrun]

theorem Effect.of_node {n' : Node} (h : n' = st.node ∨ ∃ pool t, st.node.mempool = some pool ∧
    n' = (addTransaction s.toServer moment.orders pool t st.node).2) :
    Effect s json moment r st { st with node := n' } := by
  rcases h with rfl | ⟨pool, t, hpool, rfl⟩
  · exact .unchanged
  · exact .added hpool

theorem onlyPost_keeps {P : State → Prop} {next : Response Payload × State} (h : P st)
    (hnext : P next.2) : P (onlyPost r st next).2 := by
  unfold onlyPost
  split_ifs
  · exact h
  · exact hnext

theorem withBody_keeps {P : State → Prop} {β : Type} {body : Option β}
    {next : β → Response Payload × State} (h : P st)
    (hnext : ∀ req, body = some req → P (next req).2) : P (withBody st body next).2 := by
  cases body with
  | none => exact h
  | some req => exact hnext req rfl

theorem broadcastTx_effect : Effect s json moment r st (broadcastTx s json moment r st).2 := by
  refine onlyPost_keeps .unchanged (withBody_keeps .unchanged fun text _ ↦ ?_)
  cases decodeHex text with
  | error e => exact .unchanged
  | ok data =>
    dsimp only
    cases deserializeTransaction data with
    | error e => exact .unchanged
    | ok t =>
      cases hpool : st.node.mempool with
      | none => exact .unchanged
      | some pool =>
        have h : Effect s json moment r st { st with
            node := (addTransaction s.toServer moment.orders pool t st.node).2 } := .added hpool
        dsimp only
        generalize addTransaction s.toServer moment.orders pool t st.node = result at h ⊢
        obtain ⟨_ | _, n'⟩ := result <;> exact h

theorem submitBlock_effect : Effect s json moment r st (submitBlock s json moment r st).2 := by
  refine onlyPost_keeps .unchanged ?_
  cases hchain : s.chain with
  | none => exact .unchanged
  | some m =>
    refine withBody_keeps .unchanged fun text htext ↦ ?_
    cases hdata : decodeHex text with
    | error e => exact .unchanged
    | ok data =>
      dsimp only
      cases hblock : deserializeBlock data with
      | error e => exact .unchanged
      | ok b =>
        have hb : r.block json = some b := by
          unfold HttpRequest.block
          rw [htext]
          simp [hdata, hblock, Except.toOption]
        have h : Effect s json moment r st { st with
            node := ((m.validateAndApplyBlock moment.now moment.fuel b).run exec st.node).2 } :=
          .delivered hchain hb
        dsimp only
        generalize (m.validateAndApplyBlock moment.now moment.fuel b).run exec st.node = result
          at h ⊢
        obtain ⟨_ | _, n'⟩ := result <;> exact h

theorem invoice_effect : Effect s json moment r st (invoice json moment r st).2 := by
  refine onlyPost_keeps .unchanged (withBody_keeps .unchanged fun req _ ↦ ?_)
  have h : Effect s json moment r st { st with payments := (st.payments.create req.merchant
      req.address req.amount req.memo (req.ttlSeconds * 1_000_000_000) moment.idBytes
      moment.instant).2 } := .created _ _ _ _ _
  generalize st.payments.create req.merchant req.address req.amount req.memo
    (req.ttlSeconds * 1_000_000_000) moment.idBytes moment.instant = result at h ⊢
  obtain ⟨_ | request, payments⟩ := result <;> exact h

theorem genesisWalletNew_state : (genesisWalletNew s moment r st).2 = st := by
  refine onlyPost_keeps (P := (· = st)) rfl ?_
  cases moment.key with
  | error message => rfl
  | ok priv =>
    dsimp only
    cases fromPrivateKey s.maps priv s.addressPrefix with
    | error stop => cases stop <;> rfl
    | ok wlt => rfl

/-- What a handler does. -/
theorem handle_effect (endpoint : Endpoint) :
    Effect s json moment r st (handle s json moment r st endpoint).2 := by
  cases endpoint
  case broadcastTx => exact broadcastTx_effect
  case buildTx => exact .of_node (buildTx_node _ _ _ _)
  case submitBlock => exact submitBlock_effect
  case invoice => exact invoice_effect
  case genesisPool =>
    exact onlyPost_keeps .unchanged (withBody_keeps .unchanged fun _ _ ↦ .unchanged)
  case genesisTrade => exact .of_node (genesisTrade_node _ _ _ _)
  case genesisWalletNew =>
    have h : (handle s json moment r st .genesisWalletNew).2 = st := genesisWalletNew_state
    rw [h]
    exact .unchanged
  all_goals exact .unchanged

/-- What a request does. -/
theorem serveHTTP_effect : Effect s json moment r st (serveHTTP s json moment r st).2 := by
  unfold serveHTTP serveMux
  split_ifs
  · exact .unchanged
  · split
    · exact handle_effect _
    · exact .unchanged
    · exact .unchanged
    · exact .unchanged

end Effects

/-! ### Answers -/

/-- The data that a handler may answer with. -/
def Endpoint.Answers : Endpoint → Payload → Prop
  | .health, .health => True
  | .securityMetrics, .alert .. => True
  | .securityMetrics, .metrics _ => True
  | .tip, .tip _ => True
  | .tip, .storeTip .. => True
  | .blockHeight, .block _ => True
  | .blockHash, .block _ => True
  | .broadcastTx, .txHash _ => True
  | .buildTx, .built _ => True
  | .txByHash, .transaction _ => True
  | .address, .balance .. => True
  | .address, .utxos _ => True
  | .mempool, .mempool _ => True
  | .miningTemplate, .template _ => True
  | .submitBlock, .submitted .. => True
  | .invoice, .invoice _ => True
  | .paymentStatus, .invoice _ => True
  | .genesisPool, .pool _ => True
  | .genesisTrade, .trade _ => True
  | .genesisWalletNew, .wallet .. => True
  | _, _ => False

/-- All data in an answer satisfies a condition. -/
def Response.Shows {α : Type} (P : α → Prop) (response : Response α) : Prop :=
  ∀ value, response = .json value → P value

section Shows

variable {α : Type} {P : Payload → Prop} {r : HttpRequest} {st : State}

theorem shows_error {P : α → Prop} (text : String) (status : ℕ) :
    (Response.error text status).Shows P := by rintro value ⟨⟩

theorem shows_aborted {P : α → Prop} : (Response.aborted).Shows P := by rintro value ⟨⟩

theorem shows_json {P : α → Prop} {value : α} (h : P value) : (Response.json value).Shows P := by
  rintro value ⟨⟩
  exact h

theorem Response.Shows.map {Q : α → Prop} {f : α → Payload} {response : Response α}
    (h : response.Shows Q) (hf : ∀ value, Q value → P (f value)) : (response.map f).Shows P := by
  cases response with
  | error text status => exact shows_error _ _
  | json value => exact shows_json (hf value (h value rfl))
  | aborted => exact shows_aborted

theorem shows_orStatus {status : ℕ} {result : Except Err α} {next : α → Response Payload}
    (h : ∀ value, (next value).Shows P) : (orStatus status result next).Shows P := by
  cases result with
  | error e => exact shows_error _ _
  | ok value => exact h value

theorem shows_onlyPost {next : Response Payload × State} (h : next.1.Shows P) :
    (onlyPost r st next).1.Shows P := by
  unfold onlyPost
  split_ifs
  · exact shows_error _ _
  · exact h

theorem shows_withBody {body : Option α} {next : α → Response Payload × State}
    (h : ∀ req, (next req).1.Shows P) : (withBody st body next).1.Shows P := by
  cases body with
  | none => exact shows_error _ _
  | some req => exact h req

theorem shows_writeBlock (d : Store) (h : Hash) (hP : ∀ dto, P (.block dto)) :
    (writeBlock d h).Shows P :=
  shows_orStatus fun b ↦ shows_json (hP (blockDTO b))

end Shows

section Answers

variable {s : Service} {json : Json} {moment : Moment} {r : HttpRequest} {st : State}

theorem securityMetrics_answers (d : Store) :
    (securityMetrics s moment d).Shows Endpoint.securityMetrics.Answers := by
  unfold securityMetrics
  dsimp only
  split <;> exact shows_json trivial

theorem tip_answers (d : Store) : (tip s d).Shows Endpoint.tip.Answers := by
  unfold tip
  split
  · exact shows_orStatus fun _ ↦ shows_json trivial
  · exact shows_orStatus fun _ ↦ shows_orStatus fun _ ↦ shows_json trivial

theorem blockHeight_answers (d : Store) :
    (blockHeight r d).Shows Endpoint.blockHeight.Answers := by
  unfold blockHeight
  split
  · exact shows_error _ _
  · exact shows_orStatus fun h ↦ shows_writeBlock d h fun _ ↦ trivial

theorem blockHash_answers (d : Store) : (blockHash r d).Shows Endpoint.blockHash.Answers := by
  unfold blockHash
  split
  · exact shows_error _ _
  · exact shows_writeBlock d _ fun _ ↦ trivial

theorem txByHash_answers (d : Store) : (txByHash r d).Shows Endpoint.txByHash.Answers := by
  unfold txByHash
  split
  · exact shows_error _ _
  · exact shows_orStatus fun _ ↦ shows_json trivial

theorem address_answers : (address s moment r).Shows Endpoint.address.Answers := by
  unfold address
  dsimp only
  split
  · split_ifs
    · exact shows_error _ _
    · split
      · exact shows_error _ _
      · exact shows_orStatus fun _ ↦ shows_json trivial
    · split
      · exact shows_error _ _
      · exact shows_json trivial
  · exact shows_error _ _

theorem broadcastTx_answers :
    (broadcastTx s json moment r st).1.Shows Endpoint.broadcastTx.Answers := by
  refine shows_onlyPost (shows_withBody fun text ↦ ?_)
  split
  · exact shows_error _ _
  · split
    · exact shows_error _ _
    · split
      · exact shows_error _ _
      · split
        · exact shows_error _ _
        · exact shows_json trivial

theorem genesisWalletNew_answers :
    (genesisWalletNew s moment r st).1.Shows Endpoint.genesisWalletNew.Answers := by
  refine shows_onlyPost ?_
  split
  · exact shows_error _ _
  · split
    · exact shows_aborted
    · exact shows_error _ _
    · exact shows_json trivial

theorem miningTemplate_answers :
    (miningTemplate s moment r st).Shows Endpoint.miningTemplate.Answers := by
  unfold miningTemplate
  split
  · exact shows_error _ _
  · split_ifs
    · exact shows_error _ _
    · split
      · exact shows_error _ _
      · dsimp only
        split
        · exact shows_error _ _
        · exact shows_json trivial

theorem submitBlock_answers :
    (submitBlock s json moment r st).1.Shows Endpoint.submitBlock.Answers := by
  refine shows_onlyPost ?_
  split
  · exact shows_error _ _
  · refine shows_withBody fun text ↦ ?_
    split
    · exact shows_error _ _
    · split
      · exact shows_error _ _
      · split
        · exact shows_error _ _
        · exact shows_json trivial

theorem invoice_answers : (invoice json moment r st).1.Shows Endpoint.invoice.Answers := by
  refine shows_onlyPost (shows_withBody fun req ↦ ?_)
  split
  · exact shows_error _ _
  · exact shows_json trivial

theorem paymentStatus_answers :
    (paymentStatus moment r st).Shows Endpoint.paymentStatus.Answers := by
  unfold paymentStatus
  split
  · exact shows_error _ _
  · exact shows_json trivial

/-- Handlers answer with their own data only. -/
theorem handle_answers (endpoint : Endpoint) :
    (handle s json moment r st endpoint).1.Shows endpoint.Answers := by
  cases endpoint
  case health => exact shows_json trivial
  case securityMetrics => exact securityMetrics_answers _
  case tip => exact tip_answers _
  case blockHeight => exact blockHeight_answers _
  case blockHash => exact blockHash_answers _
  case broadcastTx => exact broadcastTx_answers
  case buildTx => exact .map (fun _ _ ↦ trivial) fun _ _ ↦ trivial
  case txByHash => exact txByHash_answers _
  case address => exact address_answers
  case mempool => exact shows_json trivial
  case miningTemplate => exact miningTemplate_answers
  case submitBlock => exact submitBlock_answers
  case invoice => exact invoice_answers
  case paymentStatus => exact paymentStatus_answers
  case genesisPool => exact shows_onlyPost (shows_withBody fun _ ↦ shows_json trivial)
  case genesisTrade => exact .map (fun _ _ ↦ trivial) fun _ _ ↦ trivial
  case genesisWalletNew => exact genesisWalletNew_answers

end Answers

/-! ### Requests without the token -/

/-- The handlers that need no token for the method `GET`. -/
def Endpoint.Public : Endpoint → Prop
  | .health | .securityMetrics | .tip | .blockHeight | .blockHash | .txByHash | .address
  | .mempool => True
  | _ => False

instance : DecidablePred Endpoint.Public := fun endpoint ↦ by
  cases endpoint <;> unfold Endpoint.Public <;> infer_instance

/-- An answer with no other data than that of these handlers. -/
def Reply.Public : Reply → Prop
  | .response answer => answer.Shows fun value ↦ ∃ endpoint : Endpoint, endpoint.Public ∧
      endpoint.Answers value
  | .redirect _ => True

theorem protectedPaths_of_patterns : ∀ p ∈ patterns, ¬ p.2.Public →
    ∃ start ∈ protectedPaths, bytesOf start <+: bytesOf p.1 := by
  decide +kernel

theorem slash_patterns : ∀ p ∈ patterns, (bytesOf p.1).head? = some SlashPath.slash := by
  decide +kernel

section Access

variable {s : Service} {json : Json} {moment : Moment} {r : HttpRequest} {st : State}

/-- A request that the multiplexer sends to another handler needs the token. -/
theorem protected_of_route {connect : Bool} {endpoint : Endpoint}
    (h : HttpMux.route routes connect r.escapedPath r.path = .found endpoint)
    (hpublic : ¬ endpoint.Public) : r.Protected := by
  obtain ⟨pattern, hmem, htext⟩ := HttpMux.text_prefix_of_route r.path_eq h
  obtain ⟨⟨text, endpoint'⟩, hp, heq⟩ := List.mem_map.mp hmem
  obtain ⟨rfl, rfl⟩ := Prod.mk.inj heq
  obtain ⟨start, hstart, hprefix⟩ := protectedPaths_of_patterns _ hp hpublic
  obtain ⟨rest, hrest⟩ : ∃ rest, bytesOf text = SlashPath.slash :: rest :=
    List.head?_eq_some_iff.mp (slash_patterns _ hp)
  rw [hrest, Pattern.text_parse, ← hrest] at htext
  exact .inr ⟨start, hstart, hprefix.trans htext⟩

theorem handle_state_of_public {endpoint : Endpoint} (h : endpoint.Public) :
    (handle s json moment r st endpoint).2 = st := by
  cases endpoint
  all_goals first | rfl | exact h.elim

variable (json moment st) in
/-- A request without the token changes nothing, and is shown nothing that others may not see. -/
theorem public_of_not_authorizes (htoken : s.authToken ≠ []) (h : ¬ s.Authorizes r) :
    (serveHTTP s json moment r st).2 = st ∧ (serveHTTP s json moment r st).1.Public := by
  unfold serveHTTP
  by_cases hprotected : r.Protected
  · rw [if_pos ⟨htoken, hprotected, h⟩]
    exact ⟨rfl, shows_error _ _⟩
  · rw [if_neg fun hall ↦ hprotected hall.2.1]
    unfold serveMux
    split
    · next endpoint hroute =>
      have hpublic : endpoint.Public := by
        by_contra hpublic
        exact hprotected (protected_of_route hroute hpublic)
      exact ⟨handle_state_of_public hpublic,
        fun value hvalue ↦ ⟨endpoint, hpublic, handle_answers endpoint value hvalue⟩⟩
    · exact ⟨rfl, trivial⟩
    · exact ⟨rfl, shows_error _ _⟩
    · exact ⟨rfl, shows_error _ _⟩

end Access

/-- Requests without the token might as well not have been made: what the others are answered and
what is left after all of them is the same, and they themselves are only shown public data. -/
theorem unauthorized_isolated {s : Service} (htoken : s.authToken ≠ []) (json : Json)
    (requests : List (Moment × HttpRequest)) (st : State) :
    let served := serveAllHTTP s json requests st
    let kept := serveAllHTTP s json (requests.filter fun p ↦ s.Authorizes p.2) st
    served.2 = kept.2 ∧
      ((requests.zip served.1).filter fun p ↦ s.Authorizes p.1.2).map Prod.snd = kept.1 ∧
      ∀ p ∈ requests.zip served.1, ¬ s.Authorizes p.1.2 → p.2.Public := by
  induction requests generalizing st with
  | nil => exact ⟨rfl, rfl, by simp⟩
  | cons first rest ih =>
    obtain ⟨moment, r⟩ := first
    obtain ⟨hstate, hreplies, hpublic⟩ := ih (serveHTTP s json moment r st).2
    by_cases hr : s.Authorizes r
    · simp only [serveAllHTTP, List.filter_cons, hr, decide_true, if_true, List.zip_cons_cons,
        List.map_cons, List.mem_cons]
      refine ⟨hstate, congrArg _ hreplies, ?_⟩
      rintro p (rfl | hp) hunauthorized
      · exact absurd hr hunauthorized
      · exact hpublic p hp hunauthorized
    · obtain ⟨hsame, hshown⟩ := public_of_not_authorizes json moment st htoken hr
      rw [hsame] at hstate hreplies hpublic
      simp only [serveAllHTTP, List.filter_cons, hr, decide_false, Bool.false_eq_true, if_false,
        List.zip_cons_cons, List.mem_cons, hsame]
      refine ⟨hstate, hreplies, ?_⟩
      rintro p (rfl | hp) hunauthorized
      · exact hshown
      · exact hpublic p hp hunauthorized

/-- A request that gets past `auth` is answered by the handler of its route. -/
theorem serveHTTP_of_route {s : Service} {json : Json} {moment : Moment} {r : HttpRequest}
    {st : State} {endpoint : Endpoint}
    (hpasses : ¬ (s.authToken ≠ [] ∧ r.Protected ∧ ¬ s.Authorizes r))
    (hroute : HttpMux.route routes (r.method = "CONNECT") r.escapedPath r.path =
      .found endpoint) :
    serveHTTP s json moment r st =
      (.response (handle s json moment r st endpoint).1,
        (handle s json moment r st endpoint).2) := by
  rw [serveHTTP, if_neg hpasses, serveMux, hroute]

namespace Sample

/-- A server of the regression test network that asks for a token. -/
def service : Service where
  toServer := server
  chain := some Regtest.manager
  chainPrefix_isSome := rfl
  authToken := bytesOf "secret"

noncomputable def moment : Moment where
  toEnvironment := environment
  toRound := NevelCore.Sample.roundA
  instant := 0
  idBytes := .error ""
  key := .error ""
  peers := none

/-- The body of a request with a transaction or a block. -/
def hexForm : Form (List UInt8) :=
  ((Fields.field "hex" .text .empty).form (by decide +kernel)).map Prod.fst (·, ()) fun _ ↦ rfl

def buildForm : Form BuildRequest :=
  ((Fields.field "privateKeyHex" .text <| .field "toAddress" .text <| .field "amount" .uint64 <|
    .field "fee" .uint64 .empty).form (by decide +kernel)).map
    (fun x ↦ ⟨x.1, x.2.1, x.2.2.1, x.2.2.2.1⟩)
    (fun req ↦ (req.privateKeyHex, req.toAddress, req.amount, req.fee, ())) fun _ ↦ rfl

/-- The body of a trade, without the price, which nothing reads. -/
def tradeForm : Form TradeRequest :=
  ((Fields.field "privateKeyHex" .text <| .field "poolAddress" .text <| .field "amount" .uint64 <|
    .field "side" .text <| .field "ticker" .text <| .field "launchId" .text <|
    .field "tradeId" .text .empty).form (by decide +kernel)).map
    (fun x ↦ ⟨x.1, x.2.1, x.2.2.1, x.2.2.2.1, x.2.2.2.2.1, x.2.2.2.2.2.1, x.2.2.2.2.2.2.1⟩)
    (fun req ↦ (req.privateKeyHex, req.poolAddress, req.amount, req.side, req.ticker,
      req.launchId, req.tradeId, ())) fun _ ↦ rfl

def invoiceForm : Form InvoiceRequest :=
  ((Fields.field "merchant" .text <| .field "address" .text <| .field "amount" .uint64 <|
    .field "memo" .text <| .field "ttlSeconds" .int64 .empty).form (by decide +kernel)).map
    (fun x ↦ ⟨x.1, x.2.1, x.2.2.1, x.2.2.2.1, x.2.2.2.2.1⟩)
    (fun req ↦ (req.merchant, req.address, req.amount, req.memo, req.ttlSeconds, ())) fun _ ↦ rfl

/-- The body of a request for a pool, whose amounts are whole numbers here. -/
def poolForm : Form (List UInt8 × List UInt8 × UInt64 × UInt64 × Unit) :=
  (Fields.field "launchId" .text <| .field "ticker" .text <| .field "nevelLiquidity" .uint64 <|
    .field "tokenLiquidity" .uint64 .empty).form (by decide +kernel)

/-- The bits of a whole number below `2 ^ 53` of type `float64`. -/
def floatBits (n : UInt64) : UInt64 :=
  if n = 0 then 0
  else .ofNat ((1022 + n.toNat.log2) * 2 ^ 52 + n.toNat * 2 ^ (52 - n.toNat.log2))

/-- The whole number below `2 ^ 53` with these bits. -/
def ofFloatBits (bits : UInt64) : UInt64 :=
  if bits = 0 then 0
  else .ofNat ((2 ^ 52 + bits.toNat % 2 ^ 52) / 2 ^ (52 - (bits.toNat / 2 ^ 52 - 1023)))

/-- The bodies of requests as the texts of `encoding/json`. -/
def json : Json where
  decodeHex := hexForm.decodeWithin
  decodeBuild := buildForm.decodeWithin
  decodeTrade := tradeForm.decodeWithin
  decodePool limit body := (poolForm.decodeWithin limit body).map fun x ↦
    ⟨x.1, x.2.1, floatBits x.2.2.1, floatBits x.2.2.2.1⟩
  decodeInvoice := invoiceForm.decodeWithin
  marshalPool req := poolForm.marshal
    (req.launchId, req.ticker, ofFloatBits req.nevelLiquidity, ofFloatBits req.tokenLiquidity, ())

def shopInvoice : InvoiceRequest where
  merchant := bytesOf "shop"
  address := bytesOf "rnevel1shop"
  amount := 1000
  memo := []
  ttlSeconds := 60

def invoiceRequest (authorization : List UInt8) : HttpRequest where
  method := "POST"
  escapedPath := bytesOf "/payments/invoice"
  path := bytesOf "/payments/invoice"
  path_eq := by decide +kernel
  authorization := authorization
  address := []
  body := invoiceForm.marshal shopInvoice

/-- A moment at which an identifier of so many equal bytes is drawn. -/
noncomputable def invoiceMoment (byte : UInt8) : Moment :=
  { moment with idBytes := .ok (.replicate 16 byte) }

theorem decode_shopInvoice :
    json.decodeInvoice (1 <<< 20) (invoiceForm.marshal shopInvoice) = some shopInvoice :=
  invoiceForm.decodeWithin_marshal (by decide +kernel)

theorem authorizes_invoiceRequest : service.Authorizes (invoiceRequest (bytesOf "Bearer secret")) :=
  by decide +kernel

theorem not_authorizes_invoiceRequest : ¬ service.Authorizes (invoiceRequest []) := by
  decide +kernel

/-- A request for a payment with the token is kept and shown. -/
theorem serve_invoiceRequest (byte : UInt8) (st : State) : ∃ request,
    serveHTTP service json (invoiceMoment byte) (invoiceRequest (bytesOf "Bearer secret")) st =
      (.response (.json (.invoice request)),
        { st with payments := st.payments.insert request.id request }) := by
  have hroute : HttpMux.route routes
      ((invoiceRequest (bytesOf "Bearer secret")).method = "CONNECT")
      (invoiceRequest (bytesOf "Bearer secret")).escapedPath
      (invoiceRequest (bytesOf "Bearer secret")).path = .found .invoice := by decide +kernel
  have hpost : ¬ (invoiceRequest (bytesOf "Bearer secret")).method ≠ "POST" := not_not.mpr rfl
  have hbody : json.decodeInvoice (1 <<< 20) (invoiceRequest (bytesOf "Bearer secret")).body =
    some shopInvoice := decode_shopInvoice
  have hfields : ¬ (shopInvoice.merchant = [] ∨ shopInvoice.address = [] ∨
      shopInvoice.amount = 0) := by decide +kernel
  obtain ⟨request, hcreate⟩ : ∃ request, st.payments.create shopInvoice.merchant
      shopInvoice.address shopInvoice.amount shopInvoice.memo
      (shopInvoice.ttlSeconds * 1_000_000_000) (invoiceMoment byte).idBytes
      (invoiceMoment byte).instant = (.ok request, st.payments.insert request.id request) := by
    unfold Pay.Store.create
    rw [if_neg hfields]
    exact ⟨_, rfl⟩
  have hinvoice : invoice json (invoiceMoment byte) (invoiceRequest (bytesOf "Bearer secret")) st =
      (.json (.invoice request),
        { st with payments := st.payments.insert request.id request }) := by
    rw [invoice, onlyPost, if_neg hpost, hbody, withBody, hcreate]
  refine ⟨request, ?_⟩
  rw [serveHTTP_of_route (fun h ↦ h.2.2 authorizes_invoiceRequest) hroute]
  exact congrArg (fun p ↦ (Reply.response p.1, p.2)) hinvoice

/-- A request with the token between two without it. -/
noncomputable def requests : List (Moment × HttpRequest) :=
  [(invoiceMoment 1, invoiceRequest []),
    (invoiceMoment 2, invoiceRequest (bytesOf "Bearer secret")),
    (invoiceMoment 3, invoiceRequest [])]

theorem filter_requests : requests.filter (fun p ↦ service.Authorizes p.2) =
    [(invoiceMoment 2, invoiceRequest (bytesOf "Bearer secret"))] := by
  simp [requests, authorizes_invoiceRequest, not_authorizes_invoiceRequest]

end Sample

/-- Of three requests for payments only the one with the token is kept. -/
theorem unauthorized_isolated_sample : ∃ request,
    (serveAllHTTP Sample.service Sample.json Sample.requests ⟨Regtest.afterGenesis, .new⟩).2 =
      ⟨Regtest.afterGenesis, Pay.Store.new.insert request.id request⟩ := by
  have htoken : Sample.service.authToken ≠ [] := by decide +kernel
  have hsame := (unauthorized_isolated htoken Sample.json Sample.requests
    ⟨Regtest.afterGenesis, .new⟩).1
  rw [Sample.filter_requests] at hsame
  obtain ⟨request, hserved⟩ := Sample.serve_invoiceRequest 2 ⟨Regtest.afterGenesis, .new⟩
  exact ⟨request, hsame.trans (congrArg Prod.snd hserved)⟩

/-! ### Payment requests -/

/-- All payment requests in the store are pending and have no transaction. -/
def Unpaid (payments : Pay.Store) : Prop :=
  ∀ id request, payments.lookup id = some request → request.status = .pending ∧ request.txHash = []

/-- If the data is a payment request, it is pending or expired and has no transaction. -/
def Payload.Unpaid : Payload → Prop
  | .invoice request =>
    (request.status = .pending ∨ request.status = .expired) ∧ request.txHash = []
  | _ => True

section Payments

variable {s : Service} {json : Json} {moment : Moment} {r : HttpRequest} {st : State}
  {payments : Pay.Store}

theorem Unpaid.insert (h : Unpaid payments) {request : Pay.PaymentRequest}
    (hpending : request.status = .pending) (hhash : request.txHash = []) :
    Unpaid (payments.insert request.id request) := by
  intro id found hfound
  by_cases hid : id = request.id
  · subst hid
    rw [Finmap.lookup_insert, Option.some.injEq] at hfound
    exact hfound ▸ ⟨hpending, hhash⟩
  · rw [Finmap.lookup_insert_of_ne _ hid] at hfound
    exact h id found hfound

theorem Effect.unpaid {st' : State} (h : Effect s json moment r st st')
    (hunpaid : Unpaid st.payments) : Unpaid st'.payments := by
  cases h with
  | unchanged => exact hunpaid
  | added holds => exact hunpaid
  | delivered chain block => exact hunpaid
  | created merchant address amount memo ttl =>
    rcases st.payments.create_spec merchant address amount memo ttl moment.idBytes
      moment.instant with ⟨e, heq⟩ | ⟨-, request, -, -, hpending, hhash, heq⟩
    · rw [heq]
      exact hunpaid
    · rw [heq]
      exact hunpaid.insert hpending hhash

theorem invoice_unpaid : (invoice json moment r st).1.Shows Payload.Unpaid := by
  refine shows_onlyPost (shows_withBody fun req ↦ ?_)
  rcases st.payments.create_spec req.merchant req.address req.amount req.memo
    (req.ttlSeconds * 1_000_000_000) moment.idBytes moment.instant with
    ⟨e, heq⟩ | ⟨-, request, -, -, hpending, hhash, heq⟩
  · rw [heq]
    exact shows_error _ _
  · rw [heq]
    exact shows_json ⟨.inl hpending, hhash⟩

theorem paymentStatus_unpaid (h : Unpaid st.payments) :
    (paymentStatus moment r st).Shows Payload.Unpaid := by
  unfold paymentStatus
  split
  · exact shows_error _ _
  · next shown hget =>
    obtain ⟨request, hlookup, rfl⟩ := Option.map_eq_some_iff.mp hget
    obtain ⟨hpending, hhash⟩ := h _ request hlookup
    unfold Pay.PaymentRequest.shown
    split_ifs
    · exact shows_json ⟨.inr rfl, hhash⟩
    · exact shows_json ⟨.inl hpending, hhash⟩

theorem handle_unpaid (h : Unpaid st.payments) (endpoint : Endpoint) :
    (handle s json moment r st endpoint).1.Shows Payload.Unpaid := by
  intro value hvalue
  have hanswers := handle_answers endpoint value hvalue
  cases value with
  | invoice request =>
    cases endpoint
    case invoice => exact invoice_unpaid _ hvalue
    case paymentStatus => exact paymentStatus_unpaid h _ hvalue
    all_goals exact hanswers.elim
  | _ => trivial

theorem serveHTTP_unpaid (h : Unpaid st.payments) {answer : Response Payload}
    (hanswer : (serveHTTP s json moment r st).1 = .response answer) :
    answer.Shows Payload.Unpaid := by
  unfold serveHTTP serveMux at hanswer
  split_ifs at hanswer
  · cases hanswer
    exact shows_error _ _
  · split at hanswer
    · cases hanswer
      exact handle_unpaid h _
    all_goals
      cases hanswer
      try exact shows_error _ _

end Payments

/-- From a new store on, all payment requests that are shown are pending or expired, and none has a
transaction. -/
theorem invoices_unpaid (s : Service) (json : Json) (requests : List (Moment × HttpRequest))
    (n : Node) :
    ∀ reply ∈ (serveAllHTTP s json requests ⟨n, .new⟩).1, ∀ request,
      reply = .response (.json (.invoice request)) →
        (request.status = .pending ∨ request.status = .expired) ∧ request.txHash = [] := by
  have hstart : Unpaid (⟨n, .new⟩ : State).payments := fun id request h ↦ by cases h
  generalize (⟨n, .new⟩ : State) = st at hstart
  induction requests generalizing st with
  | nil => simp [serveAllHTTP]
  | cons first rest ih =>
    obtain ⟨moment, r⟩ := first
    rintro reply hreply request rfl
    rcases List.mem_cons.mp hreply with heq | hrest
    · exact serveHTTP_unpaid hstart heq.symm _ rfl
    · exact ih _ (serveHTTP_effect.unpaid hstart) _ hrest request rfl

/-- A new request for a payment is shown, and it is not paid. -/
theorem invoices_unpaid_sample : ∃ request,
    (serveAllHTTP Sample.service Sample.json
      [(Sample.invoiceMoment 2, Sample.invoiceRequest (bytesOf "Bearer secret"))]
      ⟨Regtest.afterGenesis, .new⟩).1 = [.response (.json (.invoice request))] ∧
    (request.status = .pending ∨ request.status = .expired) ∧ request.txHash = [] := by
  obtain ⟨request, hserved⟩ := Sample.serve_invoiceRequest 2 ⟨Regtest.afterGenesis, .new⟩
  have hreplies : (serveAllHTTP Sample.service Sample.json
      [(Sample.invoiceMoment 2, Sample.invoiceRequest (bytesOf "Bearer secret"))]
      ⟨Regtest.afterGenesis, .new⟩).1 = [.response (.json (.invoice request))] :=
    congrArg (fun p : Reply × State ↦ [p.1]) hserved
  have hshown : (.response (.json (.invoice request)) : Reply) ∈ (serveAllHTTP Sample.service
      Sample.json [(Sample.invoiceMoment 2, Sample.invoiceRequest (bytesOf "Bearer secret"))]
      ⟨Regtest.afterGenesis, .new⟩).1 := by
    rw [hreplies]
    exact List.mem_singleton_self _
  exact ⟨request, hreplies, invoices_unpaid _ _ _ _ _ hshown request rfl⟩

end NevelCore.Rpc
