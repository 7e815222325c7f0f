import LayeredCache.Environment
import LayeredCache.Session.Action
import LayeredCache.Proofs.Pool
import LayeredCache.Proofs.Solo
import LayeredCache.Proofs.Memory
import LayeredCache.Proofs.TimedMap
import LayeredCache.Proofs.Ledger
import LayeredCache.Proofs.Flights
import LayeredCache.Proofs.Sky
import LayeredCache.Proofs.Log
import LayeredCache.Proofs.Singleflight
import LayeredCache.Proofs.Retirement
import LayeredCache.Proofs.Warm
import LayeredCache.Proofs.Watch
import LayeredCache.Proofs.Freshness
import LayeredCache.Proofs.Preload
import LayeredCache.Proofs.Removal
import LayeredCache.Proofs.Owned
import LayeredCache.Proofs.Deeds
import LayeredCache.Proofs.Renewal
import LayeredCache.Proofs.Orphaned
import LayeredCache.Proofs.ValueText
import LayeredCache.Proofs.Records
import LayeredCache.Proofs.IntegerText
import LayeredCache.Proofs.Numerals
import LayeredCache.Proofs.ErrorCodes
import LayeredCache.Proofs.SharedFilter
import LayeredCache.Proofs.Doubles
import LayeredCache.Proofs.Probes
import LayeredCache.Proofs.Shielded
import LayeredCache.Proofs.Serving
import LayeredCache.Proofs.Runs
import LayeredCache.Proofs.Stack
import LayeredCache.Proofs.BatchRead
import LayeredCache.Proofs.Written
import LayeredCache.Proofs.Backed
import LayeredCache.Proofs.Coherence
import LayeredCache.Proofs.Refusal
import LayeredCache.Proofs.Deferred
import LayeredCache.Proofs.Closing
import LayeredCache.Proofs.Routes
import LayeredCache.Proofs.Counting
import LayeredCache.Proofs.Alike
import LayeredCache.Proofs.Delayed
import LayeredCache.Proofs.SecondDelete
import LayeredCache.Proofs.Tolerance
import LayeredCache.Proofs.Company
import LayeredCache.Proofs.Filling
import LayeredCache.Proofs.Counters
import LayeredCache.Proofs.Starting
import LayeredCache.Proofs.Settings
import LayeredCache.Proofs.Registration
import LayeredCache.Proofs.Reclamation
import LayeredCache.Proofs.Windows
import LayeredCache.Proofs.Remaining
