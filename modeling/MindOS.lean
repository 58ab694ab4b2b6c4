import MindOS.Daemon.Tools.Guards
import MindOS.Daemon.Updates.Floor
import MindOS.Daemon.Agent.Sessions
import MindOS.Daemon.Agent.Gate
import MindOS.Daemon.Web.Pinning
import MindOS.Daemon.Audit
import MindOS.Daemon.Notices.Views
import MindOS.Wm.Ipc.Holds
import MindOS.Wm.Ipc.Snapshots
import MindOS.Wm.Desk.Runs
import MindOS.Wm.Desk.Tiles
import MindOS.Wm.Lock.Runs
import MindOS.Wm.Switching
import MindOS.Wm.Fullscreen
import MindOS.Wm.Keys
import MindOS.Shell.LockWindows
import MindOS.Shell.IdleView
import MindOS.Shell.Polkit
import MindOS.Shell.Layouts
import MindOS.Shell.Spaces
import MindOS.Shell.GameMode
import MindOS.Apps.Exec
import MindOS.Apps.Index
import MindOS.Shell.Helpers
import MindOS.Base.Perf
import MindOS.Kernel.Tmpfs.Rename
import MindOS.Games.Relocate
import MindOS.Daemon.Policy.Removal
import MindOS.Daemon.Policy.Wrapping
import MindOS.Kernel.Sched.Runs
import MindOS.Kernel.Proc.Reaping
import MindOS.Kernel.Signal.Delivery
import MindOS.Kernel.Futex.Runs
import MindOS.Daemon.Tools.Shell
import MindOS.Daemon.Web.Basic
import MindOS.Daemon.Web.DenyList
import MindOS.Daemon.Models
import MindOS.Daemon.Updates.Packages
import MindOS.Daemon.Llm.Chat
import MindOS.Daemon.Agent.Fitting
import MindOS.Kernel.Poll.Runs
import MindOS.Daemon.Tools.Cmdline
import MindOS.Daemon.Tools.DownloadPath
import MindOS.Wm.Media
import MindOS.Wm.Ipc.LineBuffer
import MindOS.Wm.Prefs.Apply
import MindOS.Wm.Prefs.Outputs
import MindOS.Wm.Asked.Modes
import MindOS.Wm.Asked.Snaps
import MindOS.Wm.Blur
import MindOS.Wm.Columns
import MindOS.Wm.Tiling
import MindOS.Shell.Sleep
import MindOS.Shell.Greeter.Returns
import MindOS.Wm.Orders
import MindOS.Wm.Markdown.Spans
import MindOS.Shell.Scheme.Ranges
import MindOS.Shell.Pixmaps.Decoding
import MindOS.Base.JsonString
import MindOS.Base.Prune.Safety
import MindOS.Shell.Geometry.Agreement
import MindOS.Shell.Notify.Server
import MindOS.Kernel.Fs.Descriptors
import MindOS.Kernel.Exec.Image
import MindOS.Kernel.Exec.Stack
import MindOS.Kernel.Mm.Allocator
import MindOS.Kernel.Fs.Resolution
import MindOS.Kernel.Mm.Guards
import MindOS.Kernel.Mm.Moves
import MindOS.Kernel.Signal.Masks
import MindOS.Kernel.Fs.Pipes
import MindOS.Kernel.Poll.Sessions
