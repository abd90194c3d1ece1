import Elide.Actor.FlushReplies
import Elide.Actor.Generations
import Elide.Actor.PromoteSources
import Elide.Actor.SyncGate
import Elide.Attestation.Discharge
import Elide.Cache.Fetches
import Elide.Coordinator.Cuts
import Elide.Coordinator.Generations
import Elide.Coordinator.HeadsStored
import Elide.ForceClaim.Chain
import Elide.ForceClaim.Resume
import Elide.LbaMap.Pinned
import Elide.Macaroon
import Elide.Names.Claims
import Elide.Names.Import
import Elide.PeerFetch
import Elide.Rewrite.GcPlan
import Elide.Volume.CrashRuns
import Elide.Volume.Discovery
import Elide.Volume.LbaRanges
import Elide.Volume.Manifest
import Elide.Volume.MovingReads
import Elide.Volume.NoopSkip
import Elide.Volume.PendingFiles
import Elide.Volume.PromoteReadable
import Elide.Volume.ReapSafe
import Elide.WriteLog
