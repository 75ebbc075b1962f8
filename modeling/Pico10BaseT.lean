import Pico10BaseT.LTS.Basic
import Pico10BaseT.LTS.Driven
import Pico10BaseT.Boot.Core1Launch
import Pico10BaseT.Locks.Spinlock
import Pico10BaseT.Queue.Slots
import Pico10BaseT.Queue.DropOldest
import Pico10BaseT.Queue.Writer
import Pico10BaseT.Queue.BoundedMap
import Pico10BaseT.Alloc.FirstFit
import Pico10BaseT.Alloc.Rolling
import Pico10BaseT.Runs.Maximal
import Pico10BaseT.Runs.Blocks
import Pico10BaseT.Bits.Pack
import Pico10BaseT.Arith.OnesComplement
import Pico10BaseT.Arith.Residue
import Pico10BaseT.Rust.Exec
import Pico10BaseT.Conntrack.Basic
import Pico10BaseT.Conntrack.Invariant
import Pico10BaseT.Conntrack.Isolation
import Pico10BaseT.Conntrack.Liveness
import Pico10BaseT.Conntrack.Closing
import Pico10BaseT.Conntrack.Reuse
import Pico10BaseT.Conntrack.Checksum
import Pico10BaseT.Conntrack.Recompute
import Pico10BaseT.Forward.Basic
import Pico10BaseT.Forward.Checksum
import Pico10BaseT.Forward.Device
import Pico10BaseT.Forward.Neighbor
import Pico10BaseT.Forward.NeighborHistory
import Pico10BaseT.Forward.Egress
import Pico10BaseT.Forward.Ingress
import Pico10BaseT.Forward.RoundTrip
import Pico10BaseT.Forward.Local
import Pico10BaseT.Forward.TwoZeros
import Pico10BaseT.Forward.Dropped
import Pico10BaseT.Forward.Fragments
import Pico10BaseT.Wan.Dhcp
import Pico10BaseT.Wan.Dns
import Pico10BaseT.Lan.DhcpCodec
import Pico10BaseT.Lan.DhcpServer
import Pico10BaseT.Lan.TcpSocket
import Pico10BaseT.Lan.TcpServers
import Pico10BaseT.Lan.LoggedSocket
import Pico10BaseT.Lan.HttpContent
import Pico10BaseT.Router.Basic
import Pico10BaseT.Router.Conserve
import Pico10BaseT.Router.Lease
import Pico10BaseT.Router.Firewall
import Pico10BaseT.Router.Gateway
import Pico10BaseT.Frame
import Pico10BaseT.Gf2.Register
import Pico10BaseT.Gf2.Division
import Pico10BaseT.Gf2.Orbit
import Pico10BaseT.Crc.Basic
import Pico10BaseT.Crc.Burst
import Pico10BaseT.Crc.Ieee
import Pico10BaseT.Crc.Table
import Pico10BaseT.Tx.RawFrame
import Pico10BaseT.Tx.UdpFrame
import Pico10BaseT.Tx.Fifo
import Pico10BaseT.Tx.Line
import Pico10BaseT.Pio.Machine
import Pico10BaseT.Pio.Serial
import Pico10BaseT.Tx.CarrierSense
import Pico10BaseT.Tx.Csma
import Pico10BaseT.Rx.Samples
import Pico10BaseT.Rx.Dpll
import Pico10BaseT.Rx.EdgeTrack
import Pico10BaseT.Rx.FrameCap
import Pico10BaseT.Rx.Harness
import Pico10BaseT.Rx.ClockRecovery
import Pico10BaseT.Rx.ActiveRuns
import Pico10BaseT.Rx.IdealSignal
import Pico10BaseT.Rx.RoundTrip
import Pico10BaseT.Rx.Wire
import Pico10BaseT.Rx.Stitch
import Pico10BaseT.Rx.Mac
import Pico10BaseT.Rx.MacSpec
import Pico10BaseT.Rx.MacRuns
import Pico10BaseT.Rx.Deadlock
import Pico10BaseT.Rx.Ring
import Pico10BaseT.Router.Mtu
import Pico10BaseT.Rx.LineFrame
import Pico10BaseT.Rx.Inbox
import Pico10BaseT.Rx.Peek
import Pico10BaseT.Rx.Snapshot
import Pico10BaseT.Rx.Pipeline
import Pico10BaseT.Rx.OpenLoop
import Pico10BaseT.Rx.HarnessOpenLoop
import Pico10BaseT.Wireless.Alarm
import Pico10BaseT.Wireless.Gspi
import Pico10BaseT.Wireless.TimeDriver
