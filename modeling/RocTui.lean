import RocTui.Lib.Run
import RocTui.Lib.NotifyQueue
import RocTui.Lib.Ring
import RocTui.Lib.RefHeap
import RocTui.Lib.Chorus
import RocTui.Lib.Ledger
import RocTui.Lib.Escapes
import RocTui.Lib.Display
import RocTui.Lib.Sheet
import RocTui.Lib.BufRead
import RocTui.Lib.Framing
import RocTui.Lib.Script
import RocTui.Lib.Lines
import RocTui.Lib.Sections
import RocTui.Lib.Overwrite
import RocTui.Lib.Scope
import RocTui.Lib.Elm
import RocTui.Lib.Span
import RocTui.Abi
import RocTui.Tcp
import RocTui.Dispatch
import RocTui.Effects
import RocTui.Host
import RocTui.Descriptors
import RocTui.Places
import RocTui.Rounds
import RocTui.History
import RocTui.Wakeup
import RocTui.Delivery
import RocTui.Backpressure
import RocTui.Execution
import RocTui.Writers
import RocTui.Activity
import RocTui.Modes
import RocTui.Terminal
import RocTui.Release
import RocTui.Ownership
import RocTui.Consumption
import RocTui.Leaks
import RocTui.Markup
import RocTui.Frame
import RocTui.Layout
import RocTui.Timer
import RocTui.Stdin
import RocTui.Keys
import RocTui.Turns
import RocTui.Suite
import RocTui.Manifest
import RocTui.Cargo
import RocTui.CargoUpdate
import RocTui.ReleaseVersion
import RocTui.AppUrls
import RocTui.Allocators
import RocTui.Counts
import RocTui.Strings
import RocTui.Lists
import RocTui.Boxes
import RocTui.Owners
import RocTui.Lifetimes
import RocTui.App
import RocTui.Platform
import RocTui.Seen
import RocTui.Handover
import RocTui.Behaviour
import RocTui.Hearing
import RocTui.EchoServer
import RocTui.TcpClient
import RocTui.Deadline
import RocTui.TimerExample
import RocTui.ElmExample
