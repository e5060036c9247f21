import Perps.Backend.Controllers
import Perps.Backend.Platform
import Perps.Backend.QueryClient
import Perps.Events.Query
import Perps.Lib.Decimal
import Perps.Lib.Feed
import Perps.Lib.Retain
import Perps.Lib.Runs
import Perps.Proofs.AccountEvents
import Perps.Proofs.AtLeastOnce
import Perps.Proofs.Atomicity
import Perps.Proofs.Backfill
import Perps.Proofs.BalanceSplit
import Perps.Proofs.BookDeltas
import Perps.Proofs.CancelUndoesPlace
import Perps.Proofs.CashLedger
import Perps.Proofs.CodecRoundTrip
import Perps.Proofs.Collateral
import Perps.Proofs.Convergence
import Perps.Proofs.DatabaseFirst
import Perps.Proofs.Idempotence
import Perps.Proofs.LiquidationPrice
import Perps.Proofs.LiquidationSweep
import Perps.Proofs.LiveEngines
import Perps.Proofs.LiveReplay
import Perps.Proofs.LiveStatus
import Perps.Proofs.MarkToMarket
import Perps.Proofs.NoLostOutput
import Perps.Proofs.ObserverSeq
import Perps.Proofs.OpenInterest
import Perps.Proofs.OrderLifecycle
import Perps.Proofs.OrderReports
import Perps.Proofs.PagedReplay
import Perps.Proofs.PlacementMargin
import Perps.Proofs.PoisonMessages
import Perps.Proofs.PositionRecords
import Perps.Proofs.PriceTime
import Perps.Proofs.ProcessedWindow
import Perps.Proofs.Provenance
import Perps.Proofs.QueryOrder
import Perps.Proofs.QueryReads
import Perps.Proofs.ReplayOutputs
import Perps.Proofs.Reply
import Perps.Proofs.Restore
import Perps.Proofs.Resync
import Perps.Proofs.Retries
import Perps.Proofs.SavedSnapshot
import Perps.Proofs.SnapshotFiles
import Perps.Proofs.SnapshotLag
import Perps.Proofs.SnapshotRetention
import Perps.Proofs.SocketPrivacy
import Perps.Proofs.SoundReads
import Perps.Proofs.StraightRun
import Perps.Proofs.TakerReport
import Perps.Proofs.TradeAudit
import Perps.Proofs.UnrealizedPnl
import Perps.Proofs.ValueConserved
import Perps.Proofs.WalletIdentity
import Perps.Runtime.QueryServer
