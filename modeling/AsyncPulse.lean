import AsyncPulse.EffectSystem
import AsyncPulse.Requests
import AsyncPulse.Moves
import AsyncPulse.Provenance
import AsyncPulse.Audit
import AsyncPulse.Isolation
import AsyncPulse.Rotation
import AsyncPulse.Overtaking
import AsyncPulse.Finality
import AsyncPulse.Lineage
import AsyncPulse.Lifetime
import AsyncPulse.Transitions
import AsyncPulse.DeviceLimit
import AsyncPulse.CacheInfluence
import AsyncPulse.Atomicity
import AsyncPulse.CacheClient
import AsyncPulse.Expiry
import AsyncPulse.Eviction
import AsyncPulse.Outage
import AsyncPulse.ErrorEnvelope
import AsyncPulse.Paging
import AsyncPulse.RefreshExpiry
import AsyncPulse.Uniqueness
import AsyncPulse.Limits
import AsyncPulse.SignOut
import AsyncPulse.FirstUse
import AsyncPulse.SessionForest
import AsyncPulse.Roles
import AsyncPulse.Exceptions
import AsyncPulse.Completion
import AsyncPulse.NamelessLogin
import AsyncPulse.Departure
import AsyncPulse.Credentials
import AsyncPulse.RegistryRefinement
import AsyncPulse.Replies
