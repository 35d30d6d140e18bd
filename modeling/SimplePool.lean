import SimplePool.Lib.LinearProbing
import SimplePool.Lib.BoundedFifo
import SimplePool.Lib.RunningWindow
import SimplePool.Lib.Transition
import SimplePool.Lib.Wire
import SimplePool.Store.Schema
import SimplePool.Store.Connection
import SimplePool.Store.PplnsWindow
import SimplePool.Store.Distribute
import SimplePool.Store.DistributeOnce
import SimplePool.Store.Blocks
import SimplePool.Store.Fractions
import SimplePool.Reconcile.Pass
import SimplePool.Reconcile.TemplateRun
import SimplePool.Reconcile.Maturity
import SimplePool.Payout.Db
import SimplePool.Payout.RunOnce
import SimplePool.Payout.AtMostOnce
import SimplePool.Crypto.Sha256
import SimplePool.Coinbase.Address
import SimplePool.Coinbase.Window
import SimplePool.Coinbase.Build
import SimplePool.Coinbase.Template
import SimplePool.Coinbase.TemplateRewrite
import SimplePool.Coinbase.Payee
import SimplePool.Stratum.ShareDedupe
import SimplePool.Stratum.Share
import SimplePool.Stratum.Job
import SimplePool.Stratum.Conn
import SimplePool.Stratum.Submit
import SimplePool.Stratum.Acceptance
import SimplePool.Stratum.Authorize
import SimplePool.Stratum.Server
import SimplePool.Stratum.MinerOutput
import SimplePool.Stratum.JobDifficulty
import SimplePool.Stratum.Retention
import SimplePool.Reconcile.Restore
import SimplePool.Bitcoind.Rpc
import SimplePool.Reconcile.Rejected
import SimplePool.Coinbase.WindowValue
import SimplePool.Pplns.Split
import SimplePool.Coinbase.Budget
import SimplePool.Lib.Proportion
import SimplePool.Store.Conserved
import SimplePool.Store.FractionLedger
import SimplePool.Payout.Consistency
import SimplePool.Stratum.CreditOnce
import SimplePool.Crypto.Sha256Lanes
import SimplePool.Stratum.Visitors
import SimplePool.Lib.MerkleTree
import SimplePool.Main.MerkleBranches
import SimplePool.Store.BlockHashIndex
import SimplePool.Store.WindowComplete
import SimplePool.Stratum.Attribution
import SimplePool.Stratum.HeaderAgreement
import SimplePool.Stratum.WindowFractions
import SimplePool.Lib.RingBuffer
import SimplePool.Store.Writer
import SimplePool.Store.EventAccounting
import SimplePool.Store.PpsLedger
import SimplePool.Payout.PaidTo
import SimplePool.Payout.ProvenPath
import SimplePool.Payout.Json
import SimplePool.Payout.TransferBatch
import SimplePool.Payout.BatchRows
import SimplePool.Payout.Overlap
import SimplePool.Stratum.Refusal
import SimplePool.Stratum.Extranonce
import SimplePool.Stratum.NetworkCeiling
import SimplePool.Lib.KeyedTable
import SimplePool.Store.StagedSets
import SimplePool.Store.RowOwners
import SimplePool.Stratum.RecordedReward
import SimplePool.Pplns.Order
import SimplePool.Main.WindowJob
import SimplePool.Main.TipWatcher
import SimplePool.Main.OwnWindow
import SimplePool.Main.LastBlock
import SimplePool.Reconcile.Interrupted
import SimplePool.Reconcile.OnePerHeight
import SimplePool.Reconcile.QueueFollows
import SimplePool.Lib.Cursor
import SimplePool.Main.ParserWalk
import SimplePool.Main.ParserSafety
import SimplePool.Main.TemplateReadings
import SimplePool.Lib.Positional
import SimplePool.Lib.Bch
import SimplePool.Coinbase.Base58
import SimplePool.Coinbase.Bech32
import SimplePool.Coinbase.AddressGrammar
import SimplePool.Coinbase.AddressParser
import SimplePool.Coinbase.WindowAccepts
import SimplePool.Main.WindowRender
import SimplePool.Lib.Text
import SimplePool.Slipstream.Store
import SimplePool.Slipstream.Service
import SimplePool.Slipstream.LoggedOnce
import SimplePool.Slipstream.OneStory
import SimplePool.Dashboard.PplnsAudit
import SimplePool.Main.RateLog
import SimplePool.Store.ShareRows
import SimplePool.Dashboard.RateVerification
import SimplePool.Thunder.Address
import SimplePool.Main.PayoutSlots
import SimplePool.Main.CompactTarget
import SimplePool.Stratum.DifficultyPolicy
import SimplePool.Stratum.AuthInterleaving
import SimplePool.Stratum.SubmitLimiter
import SimplePool.Stratum.LineFraming
import SimplePool.Stratum.AssembledBlock
import SimplePool.Main.HashrateRace
import SimplePool.Coinbase.HeightPush
import SimplePool.Main.IntegerCodecs
import SimplePool.Dashboard.BlockHistory
