import Meili.Lib.Runs
import Meili.Lib.Ring
import Meili.Allocator.Model
import Meili.Allocator.Grant
import Meili.Allocator.Run
import Meili.Allocator.Conservation
import Meili.Allocator.Bandwidth
import Meili.Allocator.Termination
import Meili.Allocator.Placement
import Meili.Allocator.Progress
import Meili.Allocator.Search
import Meili.Reorder.Buffer
import Meili.Reorder.Conservation
import Meili.Reorder.Stream
import Meili.Reorder.Reach
import Meili.Reorder.Retry
import Meili.Reorder.InOrder
import Meili.Reorder.DrainExact
import Meili.Reorder.OrderSlots
import Meili.Reorder.Registry
import Meili.Reorder.Verify
import Meili.DataPlane.Conservation
import Meili.DataPlane.Counters
import Meili.DataPlane.Progress
import Meili.DataPlane.Ordering
import Meili.DataPlane.Statistics
import Meili.DataPlane.Hang
import Meili.DataPlane.Metadata
import Meili.DataPlane.Latency
import Meili.DataPlane.LatencyMode
import Meili.DataPlane.Remote
import Meili.DataPlane.Flush
import Meili.DataPlane.Receive
import Meili.Regex.Batching
import Meili.Regex.Lifetime
import Meili.Runtime.Cleanup
import Meili.Runtime.Launch
import Meili.Runtime.Topology
import Meili.DataPlane.TailLatency
import Meili.Net.FlowTable
import Meili.Net.FlowStore
import Meili.Conf.Decimal
import Meili.Conf.Tokens
import Meili.Conf.Lines
import Meili.Conf.Sources
import Meili.Conf.JsonFile
import Meili.Runtime.PortPools
import Meili.Runtime.OpsArrays
import Meili.Example.Ddos
import Meili.Example.Sha1Stream
import Meili.Network.OneStage
import Meili.Network.Advance
import Meili.Network.Settling
import Meili.Network.FanOut
