import MoonGen.Ring.RteCalls
import MoonGen.Ring.BsOwnership
import MoonGen.Crc.Agree
import MoonGen.Lte.Alive
import MoonGen.Lte.BuildDelay
import MoonGen.Lte.Alone
import MoonGen.Lte.HandOver
import MoonGen.Limiter.Pace
import MoonGen.Pcap.Bounds
import MoonGen.Sniff.Threshold
import MoonGen.Sniff.TbbMatch
import MoonGen.Barrier.Rounds
import MoonGen.Flow.Counter
import MoonGen.Flow.Load
import MoonGen.Probe.Latency
import MoonGen.Arp.Table
import MoonGen.Task.Placement
import MoonGen.Driver.I40e
import MoonGen.Checksum.Tcp
import MoonGen.Ring.Sizes
import MoonGen.Ring.Variants
import MoonGen.Lte.Reception
import MoonGen.Lte.Server
import MoonGen.Packet.Faithful
import MoonGen.Configenv.Range
import MoonGen.Pcap.Contents
import MoonGen.Pcap.Batches
import MoonGen.Pcap.Mapping
import MoonGen.Histogram.Moments
import MoonGen.Histogram.Quartiles
import MoonGen.Lte.Backlog
import MoonGen.Device.Queues
import MoonGen.Flow.Count
import MoonGen.Flow.Options
import MoonGen.Options.Uid
import MoonGen.Flow.Parameter
import MoonGen.Options.Quantity
import MoonGen.Flow.Modes
import MoonGen.Ip6.Order
import MoonGen.Utils.IpText
import MoonGen.Ethernet.Header
import MoonGen.Tcp.OptionWrite
import MoonGen.Sflow.Iterate
import MoonGen.Ipfix.DataSet
import MoonGen.Packet.Fill
import MoonGen.Device.Rss
import MoonGen.Device.StatsThread
import MoonGen.Analysis.Bandwidth
import MoonGen.Device.Stamps
import MoonGen.Mbuf.Alloc
import MoonGen.Timestamping.Sync
import MoonGen.Stats.Files
import MoonGen.Pipe.Slow
import MoonGen.Analysis.Tcp
import MoonGen.Analysis.Loss
import MoonGen.Ipsec.Registers
import MoonGen.Pf.Compile
import MoonGen.Ring.RteThreads
import MoonGen.Rfc2544.Search
