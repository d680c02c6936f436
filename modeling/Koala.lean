import Koala.Keyby.KeyMapCodec
import Koala.LazyBasic.BucketCustody
import Koala.Collector.PeerCollector
import Koala.LazyRescale.Completion
import Koala.LazyRescale.ReconfigTerminated
import Koala.LazyRescale.StateReads
import Koala.Metadata.Protocols
import Koala.Network.InputBuffer
import Koala.NoMigration.SharedStore
import Koala.Partition.EvenHistory
import Koala.Partition.HashRing
import Koala.State.PebbleGetMany
import Koala.State.RemotePebble
import Koala.StateClient.ByKeyFlush
import Koala.StateClient.KeyScan
import Koala.StateComm.TcpExchange
import Koala.StopRestart.Rescale
import Koala.Supplier.TaskWatermark
import Koala.Watermark.PeriodicGenerator
import Koala.Window.CustomWindowJoin
import Koala.Window.Exact
