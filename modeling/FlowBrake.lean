import FlowBrake.Core.Input
import FlowBrake.Core.Input.Limit
import FlowBrake.Core.Input.Validation
import FlowBrake.Core.Rate
import FlowBrake.Core.Rate.Controller
import FlowBrake.Core.Rate.Samples
import FlowBrake.Core.Rows
import FlowBrake.Core.Rows.Table
import FlowBrake.Core.Rule
import FlowBrake.Core.Speed
import FlowBrake.Lib.Comparison
import FlowBrake.Lib.Growth
import FlowBrake.Lib.History
import FlowBrake.Lib.KeyOrder
import FlowBrake.Lib.Numeral
import FlowBrake.Lib.Transition
import FlowBrake.Lib.Word
import FlowBrake.Ui.AppState
import FlowBrake.Ui.AppState.Adaptive
import FlowBrake.Ui.AppState.Agreement
import FlowBrake.Ui.AppState.Edits
import FlowBrake.Ui.AppState.Feedback
import FlowBrake.Ui.AppState.Frame
import FlowBrake.Ui.AppState.Measured
import FlowBrake.Ui.AppState.Overrides
import FlowBrake.Ui.AppState.Recycling
import FlowBrake.Ui.AppState.Refresh
import FlowBrake.Ui.AppState.Runtime
import FlowBrake.Ui.AppState.Saved
import FlowBrake.Ui.AppState.Selection
import FlowBrake.Ui.AppState.Step
import FlowBrake.Ui.AppState.Table
import FlowBrake.Ui.AppState.Templates
import FlowBrake.Ui.Connections
import FlowBrake.Ui.Settings
import FlowBrake.Ui.Settings.Lines
import FlowBrake.Ui.Settings.RoundTrip
import FlowBrake.Ui.Settings.Separation
import FlowBrake.Ui.Settings.Stability
import FlowBrake.Ui.System
import FlowBrake.Ui.System.InForce
import FlowBrake.Ui.Window
import FlowBrake.Ui.Window.Connections
import FlowBrake.Ui.Window.Saved
import FlowBrake.Ui.Window.Shown
import FlowBrake.Ui.Window.Simulation
import FlowBrake.Windows.DelayQueue.Capacity
import FlowBrake.Windows.DelayQueue.Interference
import FlowBrake.Windows.DelayQueue.Least
import FlowBrake.Windows.DelayQueue.Session
import FlowBrake.Windows.Engine.Bytes
import FlowBrake.Windows.Engine.Conduct
import FlowBrake.Windows.Engine.Config
import FlowBrake.Windows.Engine.Drain
import FlowBrake.Windows.Engine.FilterText
import FlowBrake.Windows.Engine.FlowOrder
import FlowBrake.Windows.Engine.Gate
import FlowBrake.Windows.Engine.Handling
import FlowBrake.Windows.Engine.Held
import FlowBrake.Windows.Engine.Latency
import FlowBrake.Windows.Engine.Ledger
import FlowBrake.Windows.Engine.Limiter
import FlowBrake.Windows.Engine.PortReads
import FlowBrake.Windows.Engine.Sampler
import FlowBrake.Windows.Engine.SocketBlock
import FlowBrake.Windows.Engine.Throttle
import FlowBrake.Windows.Engine.Wake
import FlowBrake.Windows.IpHelper
import FlowBrake.Windows.IpHelper.Listing
import FlowBrake.Windows.IpHelper.Tables
import FlowBrake.Windows.OwnerTable
import FlowBrake.Windows.Packet
import FlowBrake.Windows.Packet.Extent
import FlowBrake.Windows.Packet.Fragments
import FlowBrake.Windows.Process
import FlowBrake.Windows.Tcp.Connections
import FlowBrake.Windows.TcpTable
