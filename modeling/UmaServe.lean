import UmaServe.Lib.System
import UmaServe.Lib.Keyed
import UmaServe.Lib.Framing
import UmaServe.Lib.Grant
import UmaServe.Lib.Decimal
import UmaServe.Lib.Json
import UmaServe.Lib.JsonParse
import UmaServe.Lib.PrefixSum
import UmaServe.Lib.Total
import UmaServe.Lib.Backlog
import UmaServe.Lib.Progress
import UmaServe.Lib.InverseCdf
import UmaServe.Lib.Smoothing
import UmaServe.Lib.Flags
import UmaServe.Runtime.Config
import UmaServe.Runtime.Llama
import UmaServe.Util.Utf8
import UmaServe.Util.Double
import UmaServe.Ipc.Protocol
import UmaServe.Ipc.Json
import UmaServe.Ipc.JsonFacts
import UmaServe.Ipc.Strings
import UmaServe.Ipc.Events
import UmaServe.Ipc.Session
import UmaServe.Ipc.SessionManager
import UmaServe.Ipc.Poller
import UmaServe.Ipc.Delivery
import UmaServe.Ipc.ReadFacts
import UmaServe.Cli.Main
import UmaServe.Sched.Policy
import UmaServe.Sched.Bmt
import UmaServe.Sched.Sampling
import UmaServe.Sched.Sampler
import UmaServe.Sched.Softmax
import UmaServe.Sched.Metrics
import UmaServe.Sched.Scheduler
import UmaServe.Sched.PlanFacts
import UmaServe.Sched.EnactFacts
import UmaServe.Sched.TickFacts
import UmaServe.Sched.MemoryFacts
import UmaServe.Sched.BudgetFacts
import UmaServe.Sched.GuardFacts
import UmaServe.Sched.Asserts
import UmaServe.Sched.Allocation
import UmaServe.Sched.GuardTrim
import UmaServe.Umad.Main
import UmaServe.Ipc.Fields
import UmaServe.Cli.Events
import UmaServe.Cli.Receive
import UmaServe.Cli.ExitStatus
import UmaServe.Cli.Request
import UmaServe.Util.Numbers
import UmaServe.Runtime.Args
import UmaServe.Cli.Args
import UmaServe.Umad.Moves
import UmaServe.Umad.StepFacts
import UmaServe.Umad.Ownership
import UmaServe.Umad.Executor
import UmaServe.Umad.Failure
import UmaServe.Umad.History
import UmaServe.Umad.Inbound
import UmaServe.Umad.Buffer
import UmaServe.Umad.Preferences
import UmaServe.Umad.Progress
import UmaServe.Umad.Limits
import UmaServe.Umad.Text
import UmaServe.Umad.Accounting
import UmaServe.Umad.Dispatch
import UmaServe.Umad.SeqIds
import UmaServe.Umad.Busy
import UmaServe.Umad.Prefill
import UmaServe.Umad.Responses
import UmaServe.Umad.Outbound
import UmaServe.Umad.Tracking
import UmaServe.Umad.Isolation
import UmaServe.Umad.Capacity
import UmaServe.Umad.Draining
import UmaServe.Umad.Tuning
import UmaServe.Umad.Wire
import UmaServe.Umad.Exchange
import UmaServe.Umad.Transcript
import UmaServe.EndToEnd.World
import UmaServe.EndToEnd.Conversation
import UmaServe.Cli.Output
import UmaServe.Cli.Preferences
import UmaServe.Sched.MetricsJson
import UmaServe.EndToEnd.Output
import UmaServe.EndToEnd.Exit
import UmaServe.EndToEnd.Waiting
import UmaServe.EndToEnd.Generation
import UmaServe.EndToEnd.Completion
import UmaServe.EndToEnd.Snapshot
