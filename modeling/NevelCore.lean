import NevelCore.Foundations.Bytes
import NevelCore.Foundations.Sha256
import NevelCore.Foundations.PackedSha256
import NevelCore.Foundations.ByteReader
import NevelCore.Foundations.AtomicProgram
import NevelCore.Foundations.FixedWindow
import NevelCore.Foundations.Interleaving
import NevelCore.Foundations.KeyValueBatch
import NevelCore.Foundations.PairTree
import NevelCore.Foundations.NotedProgram
import NevelCore.Foundations.PrimeCertificate
import NevelCore.Foundations.PrimeOrderCurve
import NevelCore.Foundations.Numeral
import NevelCore.Foundations.SliceSort
import NevelCore.Foundations.SliceMemory
import NevelCore.Foundations.SlashPath
import NevelCore.Foundations.HttpMux
import NevelCore.Foundations.TextFields
import NevelCore.Foundations.Flooding
import NevelCore.Foundations.TextNumerals
import NevelCore.Foundations.JsonText
import NevelCore.Foundations.JsonForms
import NevelCore.Foundations.AesGcm
import NevelCore.Params.Network
import NevelCore.Params.CompactTarget
import NevelCore.Errors
import NevelCore.Tx.Transaction
import NevelCore.Blockchain.Block
import NevelCore.Blockchain.Json
import NevelCore.Consensus.Rules
import NevelCore.Consensus.Passing
import NevelCore.Consensus.Soundness
import NevelCore.Consensus.Commitment
import NevelCore.Consensus.Difficulty
import NevelCore.Consensus.Schedule
import NevelCore.Storage.DB
import NevelCore.Mempool.Mempool
import NevelCore.Mempool.Consistency
import NevelCore.Mempool.FeeRate
import NevelCore.Mempool.Eviction
import NevelCore.Chain.Manager
import NevelCore.Storage.Ledger
import NevelCore.Storage.Failure
import NevelCore.Storage.Calls
import NevelCore.Storage.KeyText
import NevelCore.Storage.FileStore
import NevelCore.Chain.Validation
import NevelCore.Chain.Outcomes
import NevelCore.Chain.Branch
import NevelCore.Chain.MainChain
import NevelCore.Chain.Runs
import NevelCore.Chain.ForkChoice
import NevelCore.Chain.Agreement
import NevelCore.Chain.Supply
import NevelCore.Chain.Rewards
import NevelCore.Chain.GenesisFinal
import NevelCore.Chain.UnspentOutputs
import NevelCore.Chain.Rollback
import NevelCore.Chain.HeightIndex
import NevelCore.Chain.WellFormed
import NevelCore.Chain.Guards
import NevelCore.Chain.Conservation
import NevelCore.Chain.Balances
import NevelCore.Chain.Reorg
import NevelCore.Chain.ReadBack
import NevelCore.Chain.Concurrency
import NevelCore.Chain.Rejection
import NevelCore.Chain.Recovery
import NevelCore.Chain.PoolRuns
import NevelCore.Chain.TransactionOrder
import NevelCore.Chain.ArrivalOrder
import NevelCore.Chain.Mining
import NevelCore.Chain.MiningRuns
import NevelCore.Chain.TxIndex
import NevelCore.P2P.Node
import NevelCore.P2P.Message
import NevelCore.P2P.Peers
import NevelCore.P2P.Handler
import NevelCore.P2P.RateLimit
import NevelCore.P2P.Relay
import NevelCore.P2P.Headers
import NevelCore.P2P.ReadLoops
import NevelCore.P2P.TxRelay
import NevelCore.P2P.Propagation
import NevelCore.Sync.HeaderFirstSync
import NevelCore.Sync.Progress
import NevelCore.Sync.Convergence
import NevelCore.Wallet.Secp256k1
import NevelCore.Wallet.GroupLaw
import NevelCore.Wallet.Parameters
import NevelCore.Wallet.Ripemd160
import NevelCore.Wallet.Verifier
import NevelCore.Wallet.PublicKey
import NevelCore.Wallet.Bech32
import NevelCore.Wallet.Checksum
import NevelCore.Wallet.Address
import NevelCore.Wallet.BurstErrors
import NevelCore.Wallet.Signing
import NevelCore.Wallet.Keys
import NevelCore.Wallet.Builder
import NevelCore.Wallet.Settlement
import NevelCore.Wallet.CoSigning
import NevelCore.Wallet.SeedPhrase
import NevelCore.Wallet.Pbkdf2
import NevelCore.Wallet.Store
import NevelCore.Rpc.Server
import NevelCore.Rpc.Trades
import NevelCore.Pay.Store
import NevelCore.Pay.Lifecycle
import NevelCore.Pay.Webhooks
import NevelCore.Rpc.Endpoints
import NevelCore.Rpc.Access
import NevelCore.Rpc.Finality
import NevelCore.Rpc.Pools
