import CoreOS.Lib.Runs
import CoreOS.Lib.Segments
import CoreOS.Lib.BitField
import CoreOS.Lib.Registry
import CoreOS.Lib.Links
import CoreOS.Lib.Router
import CoreOS.Lib.Zipper
import CoreOS.Lib.Filter
import CoreOS.Lib.Memory
import CoreOS.Lib.Blocks
import CoreOS.Lib.Assembly
import CoreOS.Lib.X86
import CoreOS.Lib.Sweep
import CoreOS.Lib.Slide
import CoreOS.Lib.Programs
import CoreOS.Kernel.File
import CoreOS.Kernel.Chars
import CoreOS.Heap.Malloc
import CoreOS.Heap.Map
import CoreOS.Heap.Tiling
import CoreOS.Heap.Bounds
import CoreOS.Heap.Separation
import CoreOS.Heap.Objects
import CoreOS.Rtc.Driver
import CoreOS.Rtc.Clock
import CoreOS.Rtc.Virtual
import CoreOS.Rtc.MaxFrequency
import CoreOS.Rtc.HardwareRate
import CoreOS.Rtc.PendingTicks
import CoreOS.Rtc.TickCount
import CoreOS.Rtc.Alarm
import CoreOS.Rtc.AlarmPeriod
import CoreOS.Rtc.ReadRace
import CoreOS.FileSys.Image
import CoreOS.FileSys.ReadData
import CoreOS.FileSys.Sequential
import CoreOS.FileSys.ReadExtent
import CoreOS.FileSys.Names
import CoreOS.FileSys.Directory
import CoreOS.Kernel.Itoa
import CoreOS.Proc.Table
import CoreOS.Proc.Chains
import CoreOS.Proc.Vidmap
import CoreOS.Proc.Scheduler
import CoreOS.Term.Console
import CoreOS.Term.System
import CoreOS.Term.Editing
import CoreOS.Term.Drawing
import CoreOS.Term.LineEditor
import CoreOS.Term.Screen
import CoreOS.Term.Separation
import CoreOS.Term.Echo
import CoreOS.Term.ReadLine
import CoreOS.Term.EscParser
import CoreOS.Term.SetPosition
import CoreOS.Term.OutputRange
import CoreOS.Term.PageLayout
import CoreOS.Term.Printf
import CoreOS.Term.CanonFifo
import CoreOS.Term.NoEcho
import CoreOS.Files.Invariant
import CoreOS.Files.Syscalls
import CoreOS.Files.Reachable
import CoreOS.Files.FdMap
import CoreOS.Files.KbSignals
import CoreOS.Files.RtcRegistry
import CoreOS.Files.RtcSlots
import CoreOS.Files.ReadBounds
import CoreOS.Signals.Delivery
import CoreOS.Signals.Nesting
import CoreOS.Signals.Flags
import CoreOS.Page.Tables
import CoreOS.Page.Translation
import CoreOS.Page.Isolation
import CoreOS.Kb.Driver
import CoreOS.Kb.Events
import CoreOS.Kb.CapsLock
import CoreOS.Kb.Modifiers
import CoreOS.Kb.Typing
import CoreOS.Pic.Driver
import CoreOS.Pic.Masks
import CoreOS.Sys.Dispatch
import CoreOS.Sys.Checks
import CoreOS.Sys.Restart
import CoreOS.Exec.Execute
import CoreOS.Kernel.MemoryOps
import CoreOS.Kernel.Linkage
import CoreOS.Kernel.Idt
import CoreOS.Exec.Format
import CoreOS.Exec.KernelStack
import CoreOS.Exec.Loader
import CoreOS.Exec.Args
import CoreOS.Serial.Driver
import CoreOS.Serial.Packets
import CoreOS.Serial.Transmission
import CoreOS.Game.MoveTile
import CoreOS.Game.CheckEnd
import CoreOS.Game.Random
import CoreOS.Game.Play
import CoreOS.Game.Bounds
import CoreOS.Game.Accounts
import CoreOS.User.Support
import CoreOS.User.Process
import CoreOS.User.Cat
import CoreOS.User.Ls
import CoreOS.User.Search
import CoreOS.User.Grep
import CoreOS.User.GrepDirectory
