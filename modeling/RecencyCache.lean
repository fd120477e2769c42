import RecencyCache.Cache.Run
import RecencyCache.Cache.Series
import RecencyCache.Key.Hash
import RecencyCache.Literal
import RecencyCache.Settings.Document
import RecencyCache.Settings.Environment
import RecencyCache.Time.SharedClocks
import RecencyCache.Proofs.Pool
import RecencyCache.Proofs.Strand
import RecencyCache.Proofs.Chains
import RecencyCache.Proofs.Recency
import RecencyCache.Proofs.Policy
import RecencyCache.Proofs.Shelf
import RecencyCache.Proofs.Shelf.Invariant
import RecencyCache.Proofs.Cache.Wiring
import RecencyCache.Proofs.Cache.Stores
import RecencyCache.Proofs.Cache.Shows
import RecencyCache.Proofs.Cache.Audit
import RecencyCache.Proofs.Cache.Commands
import RecencyCache.Proofs.Cache.Run
import RecencyCache.Proofs.Cache.Coherence
import RecencyCache.Proofs.Cache.Lifetime
import RecencyCache.Proofs.Cache.Staleness
import RecencyCache.Proofs.Cache.Series
import RecencyCache.Proofs.Roster
import RecencyCache.Proofs.Roster.Shrink
import RecencyCache.Proofs.Roster.Refinement
import RecencyCache.Proofs.Roster.Change
import RecencyCache.Proofs.Roster.Size
import RecencyCache.Proofs.Roster.Nesting
import RecencyCache.Proofs.Roster.Shedding
import RecencyCache.Proofs.Roster.Pushes
import RecencyCache.Proofs.Cache.Limits
import RecencyCache.Proofs.Cache.Nesting
import RecencyCache.Proofs.Cache.Pushes
import RecencyCache.Proofs.Cache.Freshness
import RecencyCache.Proofs.Cache.Bound
import RecencyCache.Proofs.Cache.Cursor
import RecencyCache.Proofs.Cache.History
import RecencyCache.Proofs.Cache.Refusals
import RecencyCache.Proofs.Cache.Soundness
import RecencyCache.Proofs.Shelf.Rehash
import RecencyCache.Proofs.Cache.Rehashing
import RecencyCache.Proofs.Roster.Terms
import RecencyCache.Proofs.Roster.Ledger
import RecencyCache.Proofs.Roster.Chronicle
import RecencyCache.Proofs.Cache.Chronicle
import RecencyCache.Proofs.Shelf.Recast
import RecencyCache.Proofs.Shelf.Bare
import RecencyCache.Proofs.Cache.Mirror
import RecencyCache.Proofs.Cache.Ledger
import RecencyCache.Proofs.Cache.Room
import RecencyCache.Proofs.Time.HandClock
import RecencyCache.Proofs.Roster.Aging
import RecencyCache.Proofs.Cache.Trimming
import RecencyCache.Proofs.Cache.Recycling
import RecencyCache.Proofs.Cache.Iteration
import RecencyCache.Proofs.Shelf.Relabel
import RecencyCache.Proofs.Cache.Script
import RecencyCache.Proofs.Cache.Renewal
import RecencyCache.Proofs.Cache.Sifting
import RecencyCache.Proofs.Roster.Retention
import RecencyCache.Proofs.Cache.Retention
import RecencyCache.Proofs.Shelf.Timeless
import RecencyCache.Proofs.Cache.Timeless
import RecencyCache.Proofs.Cache.Ensuring
import RecencyCache.Proofs.Time.SharedClocks
import RecencyCache.Proofs.Cache.Keying
import RecencyCache.Proofs.Cache.Loads
import RecencyCache.Proofs.Cache.Walks
import RecencyCache.Proofs.Cache.Undoing
import RecencyCache.Proofs.Settings.Variables
import RecencyCache.Proofs.Settings.Document
import RecencyCache.Proofs.Policy.Deadline
import RecencyCache.Proofs.Pool.Bookkeeping
