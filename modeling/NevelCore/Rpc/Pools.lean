import NevelCore.Rpc.Finality
import NevelCore.Wallet.BurstErrors

/-!
# The addresses of pools

`genesisPool` puts the address of a pool together from the text `nevel1pool`, the ticker and eight
hexadecimal digits. It is no address that the wallet accepts. The letter `o` is not in the table of
the encoding, so that the last separator would have to stand behind it, and then the first one is in
the prefix (`separator_mem_of_decode`).

`genesisTrade` takes an address that it cannot pay to for a lack of funds and falls back to an
answer with metadata. So no trade with a pool that the server has announced moves anything
(`pool_trades_move_nothing`).
-/

set_option autoImplicit false
set_option relaxedAutoImplicit false

namespace NevelCore.Wallet

/-- `ToLower` leaves lower-case ASCII characters in front of a string alone, as the standard library
does, which goes through a string character by character. -/
def CaseMaps.KeepsLower (maps : CaseMaps) : Prop :=
  ∀ s t : List UInt8, (∀ c ∈ s, c < 0x80 ∧ lowerByte c = c) →
    toLower maps (s ++ t) = s ++ toLower maps t

/-- If a character that is not in the table stands behind a separator of an accepted string, the
separator is in its prefix. -/
theorem separator_mem_of_decode {maps : CaseMaps} {s before after hrp data : List UInt8} {c : UInt8}
    (hlower : toLower maps s = before ++ separator :: after) (hc : c ∈ after)
    (htable : c ∉ bech32Charset) (h : bech32Decode maps s = .ok (hrp, data)) :
    separator ∈ hrp := by
  obtain ⟨-, -, hdata, htext⟩ := bech32Decode_eq_ok_iff.mp h
  have hwidth : InWidth 5 (data ++ bech32CreateChecksum hrp data) :=
    inWidth_append.mpr ⟨hdata, inWidth_symbols _⟩
  have hsymbols : ∀ x ∈ (data ++ bech32CreateChecksum hrp data).map character,
      x ∈ bech32Charset := forall_mem_map_character (fun _ hx ↦ hx) hwidth
  by_contra hhrp
  have heq : hrp ++ separator :: (data ++ bech32CreateChecksum hrp data).map character =
      before ++ separator :: after := htext.symm.trans hlower
  obtain ⟨-, -, rfl⟩ := (List.append_cons_inj_of_notMem hhrp (separator_notMem hsymbols)).mp heq
  exact htable (hsymbols c hc)

theorem lockingScript_error {maps : CaseMaps} {s before after hrp : List UInt8} {c : UInt8}
    (hlower : toLower maps s = before ++ separator :: after) (hc : c ∈ after)
    (htable : c ∉ bech32Charset) (hhrp : separator ∉ hrp) :
    ∃ e, lockingScriptForAddress maps s hrp = .error e := by
  unfold lockingScriptForAddress decodeAddress
  cases hdecode : bech32Decode maps s with
  | error e => exact ⟨e, rfl⟩
  | ok result =>
    obtain ⟨hrp', data⟩ := result
    have hmem := separator_mem_of_decode hlower hc htable hdecode
    have hne : hrp' ≠ hrp := fun heq ↦ hhrp (heq ▸ hmem)
    exact ⟨.wrongPrefix, by simp [bind, Except.bind, hne]⟩

theorem addressPrefix_of_fromHexPrivateKey {maps : CaseMaps} {h hrp : List UInt8} {w : Wallet}
    (hwallet : fromHexPrivateKey maps h hrp = .ok w) : w.addressPrefix = hrp := by
  cases hbytes : decodeHex h with
  | error e =>
    rw [fromHexPrivateKey_of_error hbytes] at hwallet
    cases hwallet
  | ok b =>
    rw [fromHexPrivateKey_of_ok hbytes] at hwallet
    exact (of_fromPrivateKey hwallet).2

/-- Nothing is built for an address that is not accepted. -/
theorem buildTransaction_error {maps : CaseMaps} {w : Wallet} {toAddress : List UInt8}
    {e : WalletError} (h : lockingScriptForAddress maps toAddress w.addressPrefix = .error e)
    (sign : ℕ → Sign) (provider : UTXOProvider) (amount fee : UInt64) :
    ∃ e', buildTransaction maps w sign provider toAddress amount fee = .error (.error e') := by
  unfold buildTransaction
  split_ifs
  · exact ⟨_, rfl⟩
  · exact ⟨_, rfl⟩
  · cases lockingScriptForAddress maps w.address w.addressPrefix with
    | error e' => exact ⟨_, rfl⟩
    | ok fromScript =>
      rw [h]
      exact ⟨_, rfl⟩

end NevelCore.Wallet

namespace NevelCore.Rpc

open Foundations Wallet

theorem toLower_poolAddress {maps : CaseMaps} (hmaps : maps.KeepsLower)
    (launchId ticker : List UInt8) : ∃ rest, toLower maps (poolAddress maps launchId ticker) =
      bytesOf "nevel" ++ separator :: (bytesOf "pool" ++ rest) := by
  have htext : bytesOf "nevel1pool" = bytesOf "nevel" ++ separator :: bytesOf "pool" := by
    decide +kernel
  have hkept : ∀ c ∈ bytesOf "nevel1pool", c < 0x80 ∧ lowerByte c = c := by decide +kernel
  rw [poolAddress, List.append_assoc, hmaps _ _ hkept, htext]
  exact ⟨_, by rw [List.append_assoc, List.cons_append]⟩

/-- The wallet does not accept the address of a pool. -/
theorem lockingScript_poolAddress {maps : CaseMaps} (hmaps : maps.KeepsLower) {hrp : List UInt8}
    (hhrp : separator ∉ hrp) (launchId ticker : List UInt8) :
    ∃ e, lockingScriptForAddress maps (poolAddress maps launchId ticker) hrp = .error e := by
  obtain ⟨rest, hlower⟩ := toLower_poolAddress hmaps launchId ticker
  have hletter : 0x6f ∈ bytesOf "pool" := by decide +kernel
  exact lockingScript_error hlower (List.mem_append_left rest hletter) (by decide) hhrp

section Trades

variable {s : Service} {json : Json} {moment : Moment} {r : HttpRequest} {st : State}

/-- The address in an answer of `genesisPool`. -/
theorem poolAddress_of_serve {answer : PoolAnswer}
    (h : (serveHTTP s json moment r st).1 = .response (.json (.pool answer))) :
    ∃ launchId ticker, answer.poolAddress = poolAddress s.maps launchId ticker := by
  obtain ⟨endpoint, hhandled, -⟩ := exists_endpoint h
  have hanswers := handle_answers endpoint _ hhandled
  cases endpoint
  case genesisPool =>
    have hshows : (genesisPool s json r st).1.Shows fun value ↦ ∀ answer, value = .pool answer →
        ∃ launchId ticker, answer.poolAddress = poolAddress s.maps launchId ticker := by
      refine shows_onlyPost (shows_withBody fun req ↦ shows_json ?_)
      rintro answer ⟨⟩
      exact ⟨req.launchId, req.ticker, rfl⟩
    exact hshows _ hhandled answer rfl
  all_goals exact hanswers.elim

/-- A trade with an address that is not accepted. -/
theorem genesisTrade_of_error {s : Server} {req : TradeRequest} {e : WalletError}
    (h : lockingScriptForAddress s.maps req.poolAddress s.addressPrefix = .error e)
    {r : Request TradeRequest} (hbody : r.body = some req) (env : Environment) (n : Node) :
    (genesisTrade s env r n).2 = n ∧ (genesisTrade s env r n).1.Shows fun answer ↦
      ∃ reason, answer = .genesisMeta (metaHash req.launchId req.tradeId req.side req.ticker)
        req.side req.ticker reason := by
  unfold genesisTrade
  rw [hbody]
  dsimp only
  split_ifs
  · exact ⟨rfl, shows_error _ _⟩
  · cases hwallet : fromHexPrivateKey s.maps req.privateKeyHex s.addressPrefix with
    | error stop =>
      cases stop with
      | panic => exact ⟨rfl, shows_aborted⟩
      | error e' => exact ⟨rfl, shows_error _ _⟩
    | ok w =>
      rw [← addressPrefix_of_fromHexPrivateKey hwallet] at h
      obtain ⟨e', hbuild⟩ := buildTransaction_error h env.sign env.provider req.amount tradeFee
      dsimp only
      rw [hbuild]
      exact ⟨rfl, shows_json ⟨_, rfl⟩⟩
  · exact ⟨rfl, shows_json ⟨_, rfl⟩⟩

end Trades

/-- A trade with an address from an answer of `genesisPool` changes nothing, and if it is answered
with data, with metadata. -/
theorem pool_trades_move_nothing {s : Service} {json : Json} {moment moment' : Moment}
    {r r' : HttpRequest} {st st' : State} {answer : PoolAnswer} {req : TradeRequest}
    (hmaps : s.maps.KeepsLower) (hseparator : separator ∉ s.addressPrefix)
    (hpool : (serveHTTP s json moment r st).1 = .response (.json (.pool answer)))
    (hbody : json.decodeTrade (1 <<< 20) r'.body = some req)
    (haddress : req.poolAddress = answer.poolAddress) :
    (handle s json moment' r' st' .genesisTrade).2 = st' ∧
      (handle s json moment' r' st' .genesisTrade).1.Shows fun value ↦ ∃ reason, value = .trade
        (.genesisMeta (metaHash req.launchId req.tradeId req.side req.ticker) req.side req.ticker
          reason) := by
  obtain ⟨launchId, ticker, hderived⟩ := poolAddress_of_serve hpool
  obtain ⟨e, herror⟩ := lockingScript_poolAddress hmaps hseparator launchId ticker
  rw [← hderived, ← haddress] at herror
  obtain ⟨hnode, hshows⟩ := genesisTrade_of_error herror (r := ⟨r'.method, _⟩) hbody
    moment'.toEnvironment st'.node
  refine ⟨congrArg (fun n ↦ { st' with node := n }) hnode, hshows.map ?_⟩
  rintro value ⟨reason, rfl⟩
  exact ⟨reason, rfl⟩

namespace Sample

def launchId : List UInt8 := bytesOf "launch-7"

def ticker : List UInt8 := bytesOf "GEM"

def poolRequest : HttpRequest where
  method := "POST"
  escapedPath := bytesOf "/genesis/pool"
  path := bytesOf "/genesis/pool"
  path_eq := by decide +kernel
  authorization := bytesOf "Bearer secret"
  address := []
  body := poolForm.marshal (launchId, ticker, 5000, 1000000, ())

/-- A trade with the address of the pool. -/
def poolTrade : TradeRequest where
  privateKeyHex := keyOne
  poolAddress := poolAddress server.maps launchId ticker
  amount := 1000
  side := bytesOf "buy"
  ticker := ticker
  launchId := launchId
  tradeId := bytesOf "trade-1"

def tradeRequest : HttpRequest where
  method := "POST"
  escapedPath := bytesOf "/genesis/trade"
  path := bytesOf "/genesis/trade"
  path_eq := by decide +kernel
  authorization := bytesOf "Bearer secret"
  address := []
  body := tradeForm.marshal poolTrade

theorem decode_poolRequest : json.decodePool (1 <<< 20) poolRequest.body =
    some ⟨launchId, ticker, floatBits 5000, floatBits 1000000⟩ :=
  congrArg (Option.map _) (poolForm.decodeWithin_marshal (by decide +kernel))

theorem decode_tradeRequest : json.decodeTrade (1 <<< 20) tradeRequest.body = some poolTrade :=
  tradeForm.decodeWithin_marshal (by decide +kernel)

theorem keepsLower_maps : server.maps.KeepsLower := by
  intro s t hs
  have hmap : s.map lowerByte = s := List.map_congr_left (fun c hc ↦ (hs c hc).2) |>.trans s.map_id
  rw [server, Wallet.Sample.toLower_asciiMaps, Wallet.Sample.toLower_asciiMaps, List.map_append,
    hmap]

theorem serve_poolRequest (st : State) : ∃ answer,
    (serveHTTP service json moment poolRequest st).1 = .response (.json (.pool answer)) ∧
      answer.poolAddress = poolAddress server.maps launchId ticker := by
  have hauthorized : service.Authorizes poolRequest := by decide +kernel
  have hroute : HttpMux.route routes (poolRequest.method = "CONNECT") poolRequest.escapedPath
      poolRequest.path = .found .genesisPool := by decide +kernel
  have hpost : ¬ poolRequest.method ≠ "POST" := not_not.mpr rfl
  have hpool : ∃ answer, (genesisPool service json poolRequest st).1 =
      .json (.pool answer) ∧ answer.poolAddress = poolAddress server.maps launchId ticker := by
    rw [genesisPool, onlyPost, if_neg hpost, decode_poolRequest, withBody]
    exact ⟨_, rfl, rfl⟩
  obtain ⟨answer, hshown, haddress⟩ := hpool
  rw [serveHTTP_of_route (fun h ↦ h.2.2 hauthorized) hroute]
  exact ⟨answer, congrArg Reply.response hshown, haddress⟩

end Sample

/-- A trade with the address of a pool from an answer leaves the node as it is. -/
theorem pool_trades_move_nothing_sample :
    (handle Sample.service Sample.json Sample.moment Sample.tradeRequest
      ⟨Regtest.afterGenesis, .new⟩ .genesisTrade).2 = ⟨Regtest.afterGenesis, .new⟩ := by
  obtain ⟨answer, hserved, haddress⟩ := Sample.serve_poolRequest ⟨Regtest.afterGenesis, .new⟩
  exact (pool_trades_move_nothing Sample.keepsLower_maps (by decide) hserved
    Sample.decode_tradeRequest haddress.symm).1

end NevelCore.Rpc
