import OrderLookup.Cache
import OrderLookup.Config
import OrderLookup.Duration
import OrderLookup.Http.Server
import OrderLookup.Inflight.Timeline
import OrderLookup.Ingest.Session
import OrderLookup.Order.Validation
import OrderLookup.Refresh
import OrderLookup.Repository
import OrderLookup.Repository.Script
import OrderLookup.Resolver
import OrderLookup.Topic
import OrderLookup.Proofs.Cache.Accounts
import OrderLookup.Proofs.Cache.Agreement
import OrderLookup.Proofs.Cache.Filling
import OrderLookup.Proofs.Cache.Index
import OrderLookup.Proofs.Cache.InsertionOrder
import OrderLookup.Proofs.Cache.Queue
import OrderLookup.Proofs.Cache.Turnover
import OrderLookup.Proofs.Calendar
import OrderLookup.Proofs.Clock
import OrderLookup.Proofs.Http.Paths
import OrderLookup.Proofs.Http.Payloads
import OrderLookup.Proofs.Http.RoundTrip
import OrderLookup.Proofs.Http.Serving
import OrderLookup.Proofs.Http.WritePaths
import OrderLookup.Proofs.Inflight.Absence
import OrderLookup.Proofs.Inflight.ArrivalOrder
import OrderLookup.Proofs.Inflight.History
import OrderLookup.Proofs.Inflight.Independence
import OrderLookup.Proofs.Inflight.Leftovers
import OrderLookup.Proofs.Inflight.Mirroring
import OrderLookup.Proofs.Inflight.OneKey
import OrderLookup.Proofs.Inflight.Proceeding
import OrderLookup.Proofs.Inflight.Queues
import OrderLookup.Proofs.Inflight.Sharing
import OrderLookup.Proofs.Inflight.SingleFlight
import OrderLookup.Proofs.Inflight.Timeline
import OrderLookup.Proofs.Ingest.Bookkeeping
import OrderLookup.Proofs.Ingest.Ending
import OrderLookup.Proofs.Ingest.Isolation
import OrderLookup.Proofs.Ingest.Letters
import OrderLookup.Proofs.Ingest.Moves
import OrderLookup.Proofs.Ingest.Pipeline
import OrderLookup.Proofs.Ingest.Publishing
import OrderLookup.Proofs.Ingest.Redelivery
import OrderLookup.Proofs.Ingest.Replay
import OrderLookup.Proofs.Ingest.Session
import OrderLookup.Proofs.Ingest.Unseen
import OrderLookup.Proofs.Instant.Rfc3339
import OrderLookup.Proofs.Order.Sample
import OrderLookup.Proofs.Refresh
import OrderLookup.Proofs.Repository.Contents
import OrderLookup.Proofs.Repository.Newest
import OrderLookup.Proofs.Repository.Upserts
import OrderLookup.Proofs.Resolver.Answers
import OrderLookup.Proofs.Resolver.Asking
import OrderLookup.Proofs.Resolver.Calls
import OrderLookup.Proofs.Resolver.CatchingUp
import OrderLookup.Proofs.Resolver.Closing
import OrderLookup.Proofs.Resolver.Coalescing
import OrderLookup.Proofs.Resolver.Contents
import OrderLookup.Proofs.Resolver.Deadlines
import OrderLookup.Proofs.Resolver.Draining
import OrderLookup.Proofs.Resolver.Effects
import OrderLookup.Proofs.Resolver.Fetching
import OrderLookup.Proofs.Resolver.Followers
import OrderLookup.Proofs.Resolver.Idling
import OrderLookup.Proofs.Resolver.Once
import OrderLookup.Proofs.Resolver.Provenance
import OrderLookup.Proofs.Resolver.ReadBack
import OrderLookup.Proofs.Resolver.Reads
import OrderLookup.Proofs.Resolver.Refreshing
import OrderLookup.Proofs.Resolver.Runs
import OrderLookup.Proofs.Resolver.Saving
import OrderLookup.Proofs.Resolver.Shadows
import OrderLookup.Proofs.Resolver.Timeline
import OrderLookup.Proofs.Resolver.Writing
import OrderLookup.Proofs.Text.Decimal
import OrderLookup.Proofs.Text.Utf8
import OrderLookup.Proofs.Wire.Excerpt
import OrderLookup.Proofs.Wire.Fields
import OrderLookup.Proofs.Wire.Figures
import OrderLookup.Proofs.Wire.Grammar
import OrderLookup.Proofs.Wire.Literal
import OrderLookup.Proofs.Wire.Meaning
import OrderLookup.Proofs.Wire.Members
import OrderLookup.Proofs.Wire.Numeral
import OrderLookup.Proofs.Wire.Order
import OrderLookup.Proofs.Wire.Records
import OrderLookup.Proofs.Wire.Shape
import OrderLookup.Proofs.Wire.Skipping
import OrderLookup.Proofs.Wire.Spelling
