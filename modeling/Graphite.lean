import Graphite.Library.Outcome
import Graphite.Library.SetAssoc
import Graphite.Library.Link
import Graphite.Directory.Cache
import Graphite.PrL2.Views
import Graphite.PrL2.Thread
import Graphite.PrL2.Home
import Graphite.PrL2.Clients
import Graphite.PrL2.Machine
import Graphite.Msi.Model
import Graphite.Msi.Line
import Graphite.Msi.Directory
import Graphite.Msi.Client
import Graphite.Msi.Safety
import Graphite.Mosi.Model
import Graphite.Sync.Condition
import Graphite.Sync.Barrier
import Graphite.Core.Threads
import Graphite.Core.Atomic
import Graphite.Core.Protocols
import Graphite.Directory.Broadcast
import Graphite.Mosi.Port
import Graphite.Mosi.Line
import Graphite.Mosi.Safety
import Graphite.Library.Server
import Graphite.PrL2.Serial
import Graphite.PrL2.Frame
import Graphite.Msi.Serial
import Graphite.Mosi.Serial
import Graphite.Mosi.Capacity
import Graphite.PrL2.Protocols
import Graphite.Syscall.Futex
import Graphite.Syscall.VmManager
import Graphite.Transport.Framing
import Graphite.Transport.RingBarrier
import Graphite.Thread.Join
import Graphite.Thread.Identifiers
import Graphite.Clock.LaxBarrier
import Graphite.Clock.LaxP2P
import Graphite.Network.Atac
import Graphite.Contention.Agreement
import Graphite.Contention.Interleaving
import Graphite.Cache.Compressor
import Graphite.Cache.Misses
import Graphite.Cache.SetIndex
import Graphite.Misc.MovingMedian
import Graphite.Config.Text
import Graphite.Config.Stacks
import Graphite.SharedL2.Policy
import Graphite.Directory.Limitless
import Graphite.Directory.Histories
import Graphite.Mosi.Histogram
import Graphite.Network.TileMap
