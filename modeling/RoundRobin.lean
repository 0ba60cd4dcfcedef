import RoundRobin.Lib.BigEndian
import RoundRobin.Lib.Table
import RoundRobin.Lib.Chan
import RoundRobin.Lib.Tasks
import RoundRobin.Lib.Machine
import RoundRobin.Lib.Sweep
import RoundRobin.Lib.Tally
import RoundRobin.Lib.Grid
import RoundRobin.Lib.Calendar
import RoundRobin.Frame
import RoundRobin.FrameStream
import RoundRobin.Lib.IpText
import RoundRobin.Lib.Ipv6Text
import RoundRobin.Lib.IntText
import RoundRobin.Socks5
import RoundRobin.Socks5.Target
import RoundRobin.Socks5.Udp
import RoundRobin.Socks5.Readers
import RoundRobin.Socks5.Handshake
import RoundRobin.Config
import RoundRobin.Config.Ports
import RoundRobin.Reorder
import RoundRobin.Reorder.History
import RoundRobin.Tunnel.Drain
import RoundRobin.Tunnel.Transport
import RoundRobin.Tunnel.Lifecycle
import RoundRobin.Tunnel.Pool
import RoundRobin.Tunnel.SendAsync
import RoundRobin.Tunnel.Maintenance
import RoundRobin.Tunnel.Wakeup
import RoundRobin.Tunnel.Proportional
import RoundRobin.Reassembler.Dispatch
import RoundRobin.Reassembler.State
import RoundRobin.Reassembler.Handlers
import RoundRobin.Reassembler.Effects
import RoundRobin.Reassembler.Calls
import RoundRobin.Reassembler.Isolation
import RoundRobin.Reassembler.Resets
import RoundRobin.Reassembler.Handshake.System
import RoundRobin.Reassembler.Handshake
import RoundRobin.Reassembler.Accounting
import RoundRobin.Reassembler.Budget
import RoundRobin.Reassembler.Reserve
import RoundRobin.Reassembler.Ghost
import RoundRobin.Reassembler.Handoff.Parties
import RoundRobin.Reassembler.Handoff.Locals
import RoundRobin.Reassembler.Handoff.Places
import RoundRobin.Reassembler.Handoff
import RoundRobin.Reassembler.HalfClose
import RoundRobin.Reassembler.ForceClose
import RoundRobin.Reassembler.Finish
import RoundRobin.Reassembler.CloseRetry
import RoundRobin.Reassembler.Stream
import RoundRobin.Reassembler.FailStop
import RoundRobin.Reassembler.Upload.System
import RoundRobin.Reassembler.Upload.Conns
import RoundRobin.Reassembler.Upload.Call
import RoundRobin.Reassembler.Upload
import RoundRobin.Reassembler.EgressWriter
import RoundRobin.Reassembler.EgressReader
import RoundRobin.Reassembler.Udp
import RoundRobin.Reassembler.Heartbeat
import RoundRobin.Splitter.State
import RoundRobin.Splitter.Udp
import RoundRobin.Splitter.Accept
import RoundRobin.Splitter.Dial
import RoundRobin.Splitter.ConnIds
import RoundRobin.Splitter.Client
import RoundRobin.Splitter.ClientTask
import RoundRobin.Splitter.ClientWriter
import RoundRobin.Splitter.FinClose
import RoundRobin.Splitter.GraceClose
import RoundRobin.Splitter.Heartbeat
import RoundRobin.Splitter.Delivery
import RoundRobin.Download
import RoundRobin.EndToEnd
import RoundRobin.Association
import RoundRobin.Window
import RoundRobin.Recovery
import RoundRobin.ResetTraffic
import RoundRobin.Reorder.Sizing
import RoundRobin.Logging
import RoundRobin.Logging.Purge
import RoundRobin.Logging.Daily
