import Topograph.Cluset.BoundedExpansion
import Topograph.GraphEngine.Reported
import Topograph.Ib.PrintedFabric
import Topograph.Ib.ResolveNames
import Topograph.K8s.LabelOrder
import Topograph.K8s.SourceLabel
import Topograph.Lambdai.TokenSafety
import Topograph.Models.GraphPaths
import Topograph.Models.Spelling
import Topograph.Nautobot.DiscoverSpec
import Topograph.Netq.Discovery
import Topograph.Nfd.Groups
import Topograph.NodeObserver.RequestSafety
import Topograph.Nodelabels.Discovery
import Topograph.Server.LruRefinement
import Topograph.Server.QueueSafety
import Topograph.Topology.MergerQuotient
import Topograph.Topology.NormalizedNames
import Topograph.Translate.BlockNames
import Topograph.Translate.FullPartition
import Topograph.Translate.Restriction
import Topograph.Translate.SingleLevel
import Topograph.Translate.TreeFaithful
import Topograph.Translate.WriteOrder
