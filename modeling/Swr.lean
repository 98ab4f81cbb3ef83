import Swr.Ages
import Swr.Async.Sequential
import Swr.Async.Turns
import Swr.Backfill
import Swr.Capacity
import Swr.Coherence
import Swr.Eviction
import Swr.EvictionPass
import Swr.Expiry
import Swr.Freshness
import Swr.Isolation
import Swr.LateWrites
import Swr.Metering
import Swr.PlainGet
import Swr.RedisExpiry
import Swr.RedisWindow
import Swr.Refinement
import Swr.Register
import Swr.Renewal
import Swr.Reports
import Swr.Resilience
import Swr.Rewrapping
import Swr.Sections
import Swr.Separation
import Swr.Settling
import Swr.Stamps
import Swr.Supply
import Swr.TierAgreement
import Swr.TierFailures
import Swr.TierParts
import Swr.TierSearch
import Swr.TierWrites
import Swr.Work
