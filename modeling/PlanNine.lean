import PlanNine.Lib.Kern
import PlanNine.Lib.Run
import PlanNine.Lib.History
import PlanNine.Lib.Ulong
import PlanNine.Lib.Cyclic
import PlanNine.Port.Thwack.Encoder
import PlanNine.Port.Thwack.Decoder
import PlanNine.Port.Thwack.Ring
import PlanNine.Port.Sdp.Types
import PlanNine.Port.Sdp.Alg
import PlanNine.Port.Sdp.Conv
import PlanNine.Port.Sdp.Dev
import PlanNine.Port.Sdp.Rules
import PlanNine.Port.Sdp.Held
import PlanNine.Port.Sdp.Lifecycle
import PlanNine.Port.Sdp.Delivery
import PlanNine.Port.Sdp.Receive
import PlanNine.Port.Sdp.Replay
import PlanNine.Port.Sdp.Switch
import PlanNine.Port.Sdp.Cipher
import PlanNine.Port.Sdp.Wrap
import PlanNine.Port.Sdp.Sealed
import PlanNine.Port.Sdp.Roundtrip
import PlanNine.Port.Sdp.Control
import PlanNine.Port.Sdp.Handshake
import PlanNine.Lib.Slice
import PlanNine.Lib.StopWait
import PlanNine.Lib.Tally
import PlanNine.Lib.Numeral
import PlanNine.Port.Qio.Block
import PlanNine.Port.Qio.Trim
import PlanNine.Port.Qio.Queue
import PlanNine.Port.Qio.System
import PlanNine.Port.Qio.Accounting
import PlanNine.Port.Qio.Fidelity
import PlanNine.Port.Qio.Flow
import PlanNine.Port.Mnt.Read
import PlanNine.Port.Mnt.Framing
import PlanNine.Port.Cache.Pool
import PlanNine.Port.Cache.Extent
import PlanNine.Port.Cache.Coherence
import PlanNine.Lib.Demand
import PlanNine.Port.Edf.Task
import PlanNine.Port.Edf.Schedulability
import PlanNine.Ip.Frag4
import PlanNine.Ip.Reassemble
import PlanNine.Lib.Chain
import PlanNine.Lib.Rows
import PlanNine.Lib.Blockwise
import PlanNine.Ip.Ipaux.Hash
import PlanNine.Ip.Ipaux.Lookup
import PlanNine.Ip.Ipaux.Text
import PlanNine.Ip.Ipaux.RoundTrip
import PlanNine.Ip.Tcp.Limbo
import PlanNine.Ip.Tcp.LimboTable
import PlanNine.Ip.Tcp.Rexmit
import PlanNine.Lib.Dlist
import PlanNine.Ip.Tcp.Timer
import PlanNine.Ip.Tcp.Output
import PlanNine.Ip.Ptclcsum
import PlanNine.Ip.Udp.Close
import PlanNine.Ip.Udp.Input
import PlanNine.Ip.Udp.Lock
import PlanNine.Ip.Rudp.Rel
import PlanNine.Ip.Rudp.Exchange
import PlanNine.Ip.Rudp.Input
import PlanNine.Ip.Il.Conn
import PlanNine.Ip.Il.Input
import PlanNine.Ip.Il.Reliable
import PlanNine.Ip.Ip6
import PlanNine.Ip.Ip4
import PlanNine.Ip.Options4
import PlanNine.Ip.Bounds6
import PlanNine.Ip.Path
import PlanNine.Ip.RoundTrip
import PlanNine.Ip.Forward4
import PlanNine.Ip.Forward6
import PlanNine.Lib.Segment
import PlanNine.Lib.Range
import PlanNine.Port.Xalloc.Integrity
import PlanNine.Port.Segment.Attach
import PlanNine.Port.Segment.Layout
import PlanNine.Port.Tls.Secret
import PlanNine.Port.Tls.Record
import PlanNine.Port.Tls.RoundTrip
import PlanNine.Port.Tls.Interrupt
import PlanNine.Port.Ssl.Record
import PlanNine.Port.Ssl.Stream
import PlanNine.Port.Ssl.Cipher
import PlanNine.Port.Ssl.Sealed
import PlanNine.Port.Ssl.RoundTrip
import PlanNine.Port.Bridge.Forward
import PlanNine.Port.Bridge.Learn
import PlanNine.Ip.Arp.Table
import PlanNine.Ip.Arp.Integrity
import PlanNine.Ip.Arp.Rxmitsols
import PlanNine.Ip.Esp.Packet
import PlanNine.Ip.Esp.RoundTrip
import PlanNine.Port.Sysfile.Offset
import PlanNine.Lib.Fifo
import PlanNine.Port.Qlock.Lock
import PlanNine.Port.Qlock.Safe
import PlanNine.Port.Proc.Rendezvous
import PlanNine.Port.Proc.Wait
import PlanNine.Port.Proc.Sleep
import PlanNine.Port.Proc.Runq
import PlanNine.Port.Proc.Sysexec
import PlanNine.Port.Proc.Shargs
import PlanNine.Port.Portclock
import PlanNine.Port.Devsd
import PlanNine.Port.Sdpart
import PlanNine.Ip.Reassemble6
import PlanNine.Port.Netif.Device
import PlanNine.Port.Netif.Counts
import PlanNine.Port.Netif.Multi
import PlanNine.Port.Env
import PlanNine.Ip.Ipifc.Linkfree
import PlanNine.Ip.Ipmux
import PlanNine.Port.Bridge.Mss
import PlanNine.Port.Bridge.Fragment
import PlanNine.Port.Sdp.Resync
import PlanNine.Port.Sdp.Input
import PlanNine.Port.Sdp.Malformed
import PlanNine.Port.Sdp.Unlock
import PlanNine.Lib.Blit
import PlanNine.Lib.Deque
import PlanNine.Port.Paging.Swap
import PlanNine.Port.Paging.Page
import PlanNine.Port.Paging.Pageout
import PlanNine.Port.Paging.Pool
import PlanNine.Ip.Netlog
import PlanNine.Port.Segment.Vmemchr
import PlanNine.Ip.Devip.Setlport
import PlanNine.Ip.Ptclbsum
import PlanNine.Pc.Memory
import PlanNine.Bitsy.Fpiarm
import PlanNine.Bitsy.Convert
import PlanNine.Port.Qio.Laws
import PlanNine.Port.Loopback.Time
import PlanNine.Port.Loopback.Drain
import PlanNine.Ip.Iproute.Routes
