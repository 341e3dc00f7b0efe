import Hedronetes.Api.PodSoundness
import Hedronetes.Api.Quantity
import Hedronetes.Apply.Answers
import Hedronetes.Apply.Dropping
import Hedronetes.Apply.Reapply
import Hedronetes.Controllers.Acceptance
import Hedronetes.Controllers.Adoption
import Hedronetes.Controllers.Collection
import Hedronetes.Controllers.Endpoints
import Hedronetes.Controllers.Gateway
import Hedronetes.Controllers.Recreate
import Hedronetes.Controllers.Templates
import Hedronetes.Controllers.RolloutProgress
import Hedronetes.Foundations.EncodedText
import Hedronetes.Kubelet.Expansion
import Hedronetes.Kubelet.HostPaths
import Hedronetes.Kubelet.Logs
import Hedronetes.Kubelet.Recovery
import Hedronetes.Network.NodeAllocation
import Hedronetes.Patch.KeyedLists
import Hedronetes.Proxy.Closure
import Hedronetes.Proxy.ListOrder
import Hedronetes.Proxy.NodeRanges
import Hedronetes.Proxy.Pages
import Hedronetes.Scheduler.Commitments
import Hedronetes.Server.NodeIsolation
import Hedronetes.Server.NodePorts
import Hedronetes.Server.NodeRanges
import Hedronetes.Server.Paths
import Hedronetes.Server.SelectorText
import Hedronetes.Server.ServiceAddresses
import Hedronetes.Server.Settled
import Hedronetes.Server.TokenUse
import Hedronetes.Server.Updates
import Hedronetes.Server.Watches
import Hedronetes.Storage.InitialWatch
import Hedronetes.Storage.LeaseRuns
import Hedronetes.Storage.PostgresWrites
import Hedronetes.Storage.SealedBackups
import Hedronetes.Storage.SqliteCompaction
import Hedronetes.Storage.SqliteReports
import Hedronetes.Storage.Transparency
import Hedronetes.Server.Backends
import Hedronetes.Server.Escalation
import Hedronetes.Server.Enrollment
import Hedronetes.Foundations.Triples
import Hedronetes.Kubelet.Containers
import Hedronetes.Kubelet.Instances
import Hedronetes.Kubelet.Replacements
import Hedronetes.Kubelet.Sweeps
