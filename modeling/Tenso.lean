import Tenso.Api.Routes
import Tenso.Cli.AnyOrder
import Tenso.Cli.CandlePass
import Tenso.Cli.ChainOrder
import Tenso.Cli.Depth
import Tenso.Cli.Flush
import Tenso.Cli.FlushAtomic
import Tenso.Cli.Health
import Tenso.Cli.Ingest
import Tenso.Cli.IngestRuns
import Tenso.Cli.IngestStages
import Tenso.Cli.Integrity
import Tenso.Cli.Latest
import Tenso.Cli.Moments
import Tenso.Cli.Parse
import Tenso.Cli.Pipeline
import Tenso.Cli.Progress
import Tenso.Cli.Ranking
import Tenso.Cli.ReadBack
import Tenso.Cli.Recovery
import Tenso.Cli.Reruns
import Tenso.Cli.RollUp
import Tenso.Cli.RoundTrip
import Tenso.Cli.Server
import Tenso.Cli.ServerRuns
import Tenso.Cli.Sessions
import Tenso.Cli.StoreLoss
import Tenso.Cli.StoreStage
import Tenso.Cli.StoredSlots
import Tenso.Cli.Summaries
import Tenso.Cli.TokenRows
import Tenso.Cli.Trades
import Tenso.Contention.Defs
import Tenso.Contention.Exchange
import Tenso.Contention.Optimal
import Tenso.Contention.Report
import Tenso.Contention.Serial
import Tenso.Contention.Summary
import Tenso.Dashboard.Chart
import Tenso.Dashboard.Page
import Tenso.Ingest.AccountResolution
import Tenso.Ingest.Backoff
import Tenso.Ingest.Classify
import Tenso.Ingest.Decode
import Tenso.Ingest.Defs
import Tenso.Ingest.Fetch
import Tenso.Ingest.NetChange
import Tenso.Ingest.Progress
import Tenso.Ingest.Range
import Tenso.Ingest.RateCap
import Tenso.Ingest.RateLimiter
import Tenso.Ingest.Retry
import Tenso.Ingest.RetryLoop
import Tenso.Ingest.Swap
import Tenso.Ingest.WorkerPool
import Tenso.Lib.BinaryRounding
import Tenso.Lib.Bucket
import Tenso.Lib.Channel
import Tenso.Lib.ConflictOrder
import Tenso.Lib.Conn
import Tenso.Lib.ConnScript
import Tenso.Lib.CutOrder
import Tenso.Lib.Extremes
import Tenso.Lib.Groups
import Tenso.Lib.HashMap
import Tenso.Lib.Infix
import Tenso.Lib.LastOf
import Tenso.Lib.Loop
import Tenso.Lib.Mutex
import Tenso.Lib.Netting
import Tenso.Lib.PrefixCode
import Tenso.Lib.Rounding
import Tenso.Lib.Scale
import Tenso.Lib.Script
import Tenso.Lib.StableSort
import Tenso.Lib.Table
import Tenso.Lib.TopK
import Tenso.Lib.Transition
import Tenso.Lib.View
import Tenso.Lib.WorkPool
import Tenso.Ohlcv.Buckets
import Tenso.Ohlcv.Candles
import Tenso.Ohlcv.Defs
import Tenso.Ohlcv.OpenClose
import Tenso.Ohlcv.RollUp
import Tenso.Ohlcv.Volume
import Tenso.Storage.Atomic
import Tenso.Storage.Columns
import Tenso.Storage.Counts
import Tenso.Storage.ProgramIds
import Tenso.Storage.Query
import Tenso.Storage.Replace
import Tenso.Storage.Repository
import Tenso.Storage.Schema
import Tenso.Storage.SlotRange
import Tenso.Storage.WriteRuns
