import QuietLwip.Arp.Autoip
import QuietLwip.Arp.Calls
import QuietLwip.Arp.Claiming
import QuietLwip.Arp.Custody
import QuietLwip.Arp.Lan
import QuietLwip.Arp.NextHop
import QuietLwip.Arp.RateLimit
import QuietLwip.Buffers.Graph
import QuietLwip.Buffers.Headers
import QuietLwip.Buffers.Ownership
import QuietLwip.Dns.Answers
import QuietLwip.Dns.Timers
import QuietLwip.Dns.Eviction
import QuietLwip.Dns.Encoding
import QuietLwip.Dns.Resolving
import QuietLwip.Driver.Frames
import QuietLwip.Driver.HalfDuplex
import QuietLwip.Foundation.Lock
import QuietLwip.Foundation.Ring
import QuietLwip.Foundation.Serial
import QuietLwip.Foundation.Slots
import QuietLwip.Foundation.Splice
import QuietLwip.Ip.Agreement
import QuietLwip.Ip.EchoReply
import QuietLwip.Ip.Echo
import QuietLwip.Ip.Chains
import QuietLwip.Ip.Codec
import QuietLwip.Ip.Demux
import QuietLwip.Ip.Frag
import QuietLwip.Ip.Icmp
import QuietLwip.Ip.Output
import QuietLwip.Mailbox.Mbox
import QuietLwip.Mailbox.Sections
import QuietLwip.Mailbox.Steps
import QuietLwip.Mailbox.WakeUps
import QuietLwip.Mem.Blocks
import QuietLwip.Mem.Invariant
import QuietLwip.Mem.Malloc
import QuietLwip.Mem.Runs
import QuietLwip.Netconn.Api
import QuietLwip.Netconn.Delete
import QuietLwip.Reassembly.Accounting
import QuietLwip.Reassembly.Assertions
import QuietLwip.Relay.Custody
import QuietLwip.Relay.HandOff
import QuietLwip.Sender.Enqueue
import QuietLwip.Sender.Input
import QuietLwip.Sender.Limits
import QuietLwip.Sender.Persist
import QuietLwip.Sender.RoundTrips
import QuietLwip.Sender.Retries
import QuietLwip.Sender.Transaction
import QuietLwip.Sender.Abstraction
import QuietLwip.Sender.Transfer
import QuietLwip.Sender.Handshake
import QuietLwip.Sockets.Reading
import QuietLwip.Sockets.Select
import QuietLwip.Sockets.Waiting
import QuietLwip.Sockets.WakeUps
import QuietLwip.Stream.Advertise
import QuietLwip.Stream.Delivery
import QuietLwip.Stream.HandOver
import QuietLwip.Stream.Window
import QuietLwip.Tcp.Axioms
import QuietLwip.Tcp.Options
import QuietLwip.Tcp.Pool
import QuietLwip.Tcp.Ports
import QuietLwip.Tcp.TickRuns
import QuietLwip.Timers.Timeouts
import QuietLwip.Udp.Demux
import QuietLwip.Udp.Binding
import QuietLwip.Udp.Output
import QuietLwip.Udp.RoundTrip
import QuietLwip.Udp.Delivery
import QuietLwip.Apps.KvStore
import QuietLwip.Apps.KvServer
import QuietLwip.Apps.KvSession
import QuietLwip.Apps.Socks
import QuietLwip.Apps.SocksCodec
import QuietLwip.Buffers.Copy
import QuietLwip.Buffers.Find
import QuietLwip.Buffers.Pool
import QuietLwip.Driver.Bridge
import QuietLwip.Driver.ReadLoop
import QuietLwip.Mailbox.Timeouts
import QuietLwip.Mem.Search
import QuietLwip.Mem.Sizes
import QuietLwip.Mem.Memp
import QuietLwip.Ip.RoundTrip
import QuietLwip.Ip.Integrity
import QuietLwip.Foundation.Memory
import QuietLwip.Foundation.Places
import QuietLwip.Mailbox.Tcpip
import QuietLwip.Foundation.Selection
import QuietLwip.Tcp.Eviction
