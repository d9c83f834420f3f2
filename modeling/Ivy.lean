import Ivy.Timers.Ticks
import Ivy.Timers.Oversleep
import Ivy.Registry.Departure
import Ivy.Registry.Errors
import Ivy.Lib.Perl
import Ivy.Interval.Numeral
import Ivy.Interval.Returns
import Ivy.Binding.Filter
import Ivy.Binding.Unbinding
import Ivy.Binding.Capacity
import Ivy.Binding.Engines
import Ivy.Loop.LifeCycle
import Ivy.Loop.Handler
import Ivy.Loop.ListWalks
import Ivy.Agent.Arbitration
import Ivy.Agent.Silence
import Ivy.Agent.Brackets
import Ivy.Agent.WellBehaved
import Ivy.Agent.Ready
import Ivy.Agent.Duplicates
import Ivy.Agent.Connecting
import Ivy.Discovery.Datagrams
import Ivy.Discovery.Grammar
import Ivy.Discovery.Networks
import Ivy.Ping.RoundTrip
import Ivy.Bus.MainLoop
import Ivy.Bus.Reentrance
import Ivy.Bus.Paths
import Ivy.Fifo.Refinement
import Ivy.Socket.Formatted
import Ivy.Socket.WaitForReply
import Ivy.Protocol.RoundTrip
import Ivy.Protocol.Appending
import Ivy.Registry.Agreement
import Ivy.Registry.Sending
import Ivy.Hash.Calls
import Ivy.Bus.Delivery
import Ivy.Bus.Mesh
import Ivy.Bus.Publishing
import Ivy.Socket.Injection
import Ivy.Socket.MsgFrame
import Ivy.Socket.Reassembly
import Ivy.Interval.Exact
import Ivy.Interval.Blocks
import Ivy.Interval.Sizes
import Ivy.Interval.CopyLoops
import Ivy.Toolkit.Deferred
import Ivy.Toolkit.Safety
import Ivy.Probe.Reading
