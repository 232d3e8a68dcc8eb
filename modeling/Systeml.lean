import Systeml.Lib.Text
import Systeml.Lib.TextLines
import Systeml.Lib.Fallible
import Systeml.Lib.IndexMap
import Systeml.Lib.Kahn
import Systeml.Lib.Civil
import Systeml.Lib.DateTime
import Systeml.Unit.Name
import Systeml.Unit.Load
import Systeml.Unit.Calendar
import Systeml.Unit.Schedule
import Systeml.Unit.Advance
import Systeml.Unit.NextFire
import Systeml.Unit.PrevFire
import Systeml.Unit.ExactSearch
import Systeml.Unit.Service
import Systeml.Unit.ServiceSection
import Systeml.Unit.Spec
import Systeml.Deps.Job
import Systeml.Deps.Graph
import Systeml.Deps.Transaction
import Systeml.Deps.Requests
import Systeml.Lib.FirstRoute
import Systeml.Lib.FollowsRoutes
import Systeml.Deps.Routes
import Systeml.Deps.HardClosure
import Systeml.Deps.LoadOrder
import Systeml.Deps.Soundness
import Systeml.Deps.Merge
import Systeml.Deps.Conflicts
import Systeml.Deps.StopClosure
import Systeml.Lib.Slice
import Systeml.Lib.SoftPhase
import Systeml.Deps.Isolate
import Systeml.Deps.Alone
import Systeml.Deps.Order
import Systeml.Deps.Cycle
import Systeml.Deps.Expansion
import Systeml.Deps.Declared
import Systeml.Deps.Queue
import Systeml.Lib.Run
import Systeml.Runtime.Manager
import Systeml.Runtime.Timer
import Systeml.Runtime.Boot
import Systeml.Runtime.CatchUp
import Systeml.Runtime.Scheduler
import Systeml.Runtime.Instants
import Systeml.Runtime.NoDrop
import Systeml.Runtime.Once
import Systeml.Runtime.Notify
import Systeml.Runtime.Runner
import Systeml.Runtime.Ops
import Systeml.Runtime.World
import Systeml.Runtime.Steps
import Systeml.Runtime.Pids
import Systeml.Runtime.Plan
import Systeml.Runtime.Frame
import Systeml.Runtime.Registry
import Systeml.Runtime.Replay
import Systeml.Runtime.Shape
import Systeml.Runtime.Wired
import Systeml.Runtime.Minds
import Systeml.Runtime.Beside
import Systeml.Runtime.StopPhase
import Systeml.Runtime.Kill
import Systeml.Runtime.Outlives
import Systeml.Runtime.JobLog
import Systeml.Runtime.Jobs
import Systeml.Runtime.Rest
import Systeml.Runtime.Restart
import Systeml.Runtime.Reload
import Systeml.Runtime.Final
import Systeml.Runtime.Survives
import Systeml.Runtime.Discovery
import Systeml.Runtime.EnableBoot
import Systeml.Runtime.Environment
import Systeml.Runtime.Exit
import Systeml.Runtime.Forget
import Systeml.Runtime.MainOps
import Systeml.Runtime.OneMain
import Systeml.Runtime.Unknown
import Systeml.Runtime.ExitStatus
import Systeml.Runtime.Stamps
import Systeml.Runtime.CommandOrder
import Systeml.Runtime.Start
import Systeml.Lib.Balance
import Systeml.Lib.Escape
import Systeml.Lib.Assign
import Systeml.Bus.ObjectPath
import Systeml.Unit.Ini
import Systeml.Unit.Render
import Systeml.Unit.Comments
import Systeml.Unit.Exec
import Systeml.Unit.Quoting
import Systeml.Unit.Values
import Systeml.Unit.Directives
import Systeml.Unit.UnitSections
import Systeml.Unit.ServiceTable
import Systeml.Unit.ActivationTables
import Systeml.Unit.Parse
import Systeml.Unit.ListDirectives
import Systeml.Unit.Loader
import Systeml.Unit.LoadedName
import Systeml.Unit.DropinOrder
import Systeml.Unit.Duration
import Systeml.Unit.Composite
import Systeml.Lib.Bisect
import Systeml.Unit.CalendarField
import Systeml.Unit.CalendarValue
import Systeml.Lib.FileSystem
import Systeml.Runtime.Install
import Systeml.Runtime.Undo
import Systeml.Runtime.Mask
import Systeml.Runtime.Triggers
import Systeml.Lib.LineSplit
import Systeml.Journal.Follow
import Systeml.Unit.LinuxOnly
import Systeml.Runtime.Arithmetic
import Systeml.Lib.Descriptors
import Systeml.Runtime.FdPass
import Systeml.Runtime.Listen
import Systeml.Journal.Logger
import Systeml.Runtime.Expand
import Systeml.Runtime.ChildCommand
import Systeml.Lib.FirstKept
import Systeml.Lib.Broadcast
import Systeml.Lib.FixedWindow
import Systeml.Lib.FollowsRoutes
import Systeml.Deps.Routes
import Systeml.Runtime.Backoff
import Systeml.Runtime.Limiter
import Systeml.Runtime.Glob
import Systeml.Runtime.LinkTarget
import Systeml.Runtime.Told
import Systeml.Runtime.Watch
import Systeml.Runtime.Shows
import Systeml.Deps.Mirror
import Systeml.Lib.Counter
import Systeml.Deps.JobIds
import Systeml.Deps.Modes
import Systeml.Deps.Cascade
import Systeml.Lib.Wildcard
import Systeml.Bus.GlobMatch
import Systeml.Bus.Bridge
import Systeml.Bus.Listing
import Systeml.Lib.JsonText
import Systeml.Lib.Utf8
import Systeml.Journal.Show
import Systeml.Runtime.Unmask
