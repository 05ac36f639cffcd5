import CncCard.Clocked.Trace
import CncCard.Clocked.Ticks
import CncCard.Clocked.Edges
import CncCard.Clocked.Square
import CncCard.Clocked.Accumulator
import CncCard.Clocked.Rate
import CncCard.Clocked.Fifo
import CncCard.Clocked.Packet
import CncCard.Clocked.Bits
import CncCard.Clocked.Log
import CncCard.Clocked.Level
import CncCard.Clocked.Mux
import CncCard.Clocked.Hold
import CncCard.Clocked.Runs
import CncCard.Clocked.Last
import CncCard.Clocked.OneShot
import CncCard.Clocked.Domain
import CncCard.Clocked.Quadrature
import CncCard.Ports
import CncCard.Motion.Interpolation
import CncCard.Motion.Path
import CncCard.Motion.Schedule
import CncCard.Motion.Windows
import CncCard.Motion.Exactness
import CncCard.Motion.Delivery
import CncCard.Motion.Stops
import CncCard.Motion.Resume
import CncCard.Motion.WindowCount
import CncCard.Motion.Tracking
import CncCard.Motion.Spacing
import CncCard.Motion.CardCount
import CncCard.Motion.Sources
import CncCard.Motion.Stretch
import CncCard.Homing.KeyGen
import CncCard.Homing.KeyPress
import CncCard.Homing.StateCtrl
import CncCard.Homing.MotorCtrl
import CncCard.Homing.SlowPhase
import CncCard.Homing.Reference
import CncCard.Homing.Retract
import CncCard.Homing.Deceleration
import CncCard.Homing.StepPulse
import CncCard.Homing.Profile
import CncCard.Homing.Finish
import CncCard.Homing.Axes
import CncCard.Transition.System
import CncCard.Transition.Holding
import CncCard.Driver.Write
import CncCard.Driver.Invariant
import CncCard.Driver.Delivery
import CncCard.Driver.Alone
import CncCard.Driver.Wakeup
import CncCard.Driver.Progress
import CncCard.Driver.Ioctl
import CncCard.Driver.Read
import CncCard.Driver.Lifecycle
import CncCard.Driver.Access
import CncCard.Pcie.Rsstinf
import CncCard.Pcie.Registers
import CncCard.Pcie.Txproc
import CncCard.Pcie.Interrupt
import CncCard.Pcie.Framing
import CncCard.Pcie.Window
import CncCard.Pcie.Dma
import CncCard.Pcie.DmaWrite
import CncCard.Pcie.DmaRead
import CncCard.Pcie.Rxproc
import CncCard.Pcie.Header
import CncCard.Pcie.HostWrite
import CncCard.Pcie.Stream
import CncCard.Pcie.Transfer
import CncCard.Pcie.Requests
import CncCard.Pcie.DmaQueue
import CncCard.Pcie.ExtInf
import CncCard.Pcie.WordPath
import CncCard.Pcie.WordStream
import CncCard.Pcie.Bus
import CncCard.Pcie.Core
import CncCard.Pcie.Receive
import CncCard.Pcie.Completion
import CncCard.Pcie.Answers
import CncCard.Pcie.Replies
import CncCard.Pcie.Served
import CncCard.Pcie.Outputs
import CncCard.Pcie.DmaHeader
import CncCard.Pcie.CfgSpace
import CncCard.Pcie.Availability
import CncCard.Pcie.Spindle
import CncCard.Pcie.TestFifo
import CncCard.Refill.Card
import CncCard.Refill.System
import CncCard.Refill.Overflow
import CncCard.Refill.Content
import CncCard.Refill.Supply
import CncCard.Refill.Rearm
import CncCard.Refill.Request
import CncCard.Panel.Debouncer
import CncCard.Panel.Check
import CncCard.Panel.Jog
import CncCard.Panel.KeyHold
import CncCard.Panel.Stroke
import CncCard.Tool.MagCtrl
import CncCard.Tool.MagCount
import CncCard.Tool.Select
import CncCard.Tool.CoAssign
import CncCard.Tool.Routing
import CncCard.Tool.Feedback
import CncCard.Tool.Outputs
import CncCard.Encoder.EncodePd
import CncCard.Encoder.Reversal
import CncCard.Encoder.Coordinate
import CncCard.Encoder.FilterEncode
import CncCard.Encoder.Increment
import CncCard.Encoder.Channel
import CncCard.Handwheel.PulsHw
import CncCard.Handwheel.Visit
import CncCard.Handwheel.Ledger
import CncCard.Handwheel.Drain
import CncCard.Handwheel.Conservation
import CncCard.Handwheel.Multiply
import CncCard.Handwheel.Divide
import CncCard.Handwheel.FsmHw
import CncCard.Handwheel.Period
import CncCard.Handwheel.Credit
import CncCard.Handwheel.AxisSel
import CncCard.Handwheel.Wheel
import CncCard.EtherCat.Slave
import CncCard.EtherCat.AlState
import CncCard.EtherCat.Consistency
import CncCard.EtherCat.Teardown
import CncCard.EtherCat.Recovery
import CncCard.EtherCat.MainLoop
import CncCard.EtherCat.Port
import CncCard.EtherCat.ProcessData
import CncCard.EtherCat.Command
import CncCard.EtherCat.Device
import CncCard.EtherCat.Service
import CncCard.Program.Machine
import CncCard.Program.Execution
