import Tyrdbs.Common.AllocatorCoalescing
import Tyrdbs.Common.WtinylfuRuns
import Tyrdbs.Common.SketchAging
import Tyrdbs.Common.SlabListRuns
import Tyrdbs.Common.RingQueue
import Tyrdbs.Common.BitFields
import Tyrdbs.Common.CmdLine
import Tyrdbs.Storage.FileRoundTrip
import Tyrdbs.Storage.FailedWrites
import Tyrdbs.Storage.DiskGrowth
import Tyrdbs.Storage.VolumeRuns
import Tyrdbs.Ushard.CompactLive
import Tyrdbs.Ushard.Settling
import Tyrdbs.Ushard.FailedRewrites
import Tyrdbs.Slices.LowerBound
import Tyrdbs.Slices.Ranges
import Tyrdbs.Slices.FailedLoads
import Tyrdbs.Slices.NodeAdds
import Tyrdbs.Slices.Acceptance
import Tyrdbs.Slices.IndexRuns
import Tyrdbs.Slices.Lz4RoundTrip
import Tyrdbs.Gorilla.Timestamps
import Tyrdbs.Gorilla.Values
import Tyrdbs.Gt.Mutex
import Tyrdbs.Gt.AsyncRuns
import Tyrdbs.Io.IoUring
import Tyrdbs.Io.Channel
import Tyrdbs.Message.Rejections
import Tyrdbs.Net.Http
import Tyrdbs.Server.MergeThreads
import Tyrdbs.Server.Updates
import Tyrdbs.Server.FetchRuns
import Tyrdbs.Server.Fetch
import Tyrdbs.Server.Reassembly
import Tyrdbs.Library.SharedPointers
import Tyrdbs.Library.Shelves
import Tyrdbs.Ushard.Readers
import Tyrdbs.Ushard.SharingRuns
