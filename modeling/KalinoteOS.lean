import KalinoteOS.Lib.Run
import KalinoteOS.Spinlock
import KalinoteOS.Scheduler.RunQueue
import KalinoteOS.Scheduler.Invariant
import KalinoteOS.Scheduler.Run
import KalinoteOS.Lib.Linked
import KalinoteOS.Timer.Timer
import KalinoteOS.Timer.Queue
import KalinoteOS.Timer.Delete
import KalinoteOS.Disk.Request
import KalinoteOS.Disk.Fifo
import KalinoteOS.Disk.Run
import KalinoteOS.Disk.Wait
import KalinoteOS.Disk.WaitInvariant
import KalinoteOS.Disk.WaitRun
import KalinoteOS.Disk.Transfer
import KalinoteOS.Printk.Context
import KalinoteOS.Printk.Lock
import KalinoteOS.Lib.Loop
import KalinoteOS.Graphic.Controller
import KalinoteOS.Graphic.Stack
import KalinoteOS.Graphic.Height
import KalinoteOS.Graphic.Order
import KalinoteOS.Graphic.Paint
import KalinoteOS.Graphic.Compose
import KalinoteOS.Graphic.Run
import KalinoteOS.Graphic.Wrapping
import KalinoteOS.Graphic.WrappingRun
import KalinoteOS.Lib.Fifo
import KalinoteOS.Input
import KalinoteOS.Keyboard
import KalinoteOS.Softirq.Serve
import KalinoteOS.Scheduler.Slice
import KalinoteOS.Semaphore
import KalinoteOS.Memory.E820
import KalinoteOS.Memory.Pool
import KalinoteOS.Memory.SlabCache
import KalinoteOS.Memory.Pages
import KalinoteOS.Memory.PageRun
import KalinoteOS.Memory.FirstFit
import KalinoteOS.Memory.Boot
import KalinoteOS.Memory.KmallocRun
import KalinoteOS.Memory.KmallocCounters
import KalinoteOS.Memory.KmallocFail
import KalinoteOS.Memory.PageRef
import KalinoteOS.Memory.Storage
import KalinoteOS.Memory.SlabFail
import KalinoteOS.Lib.WordStack
import KalinoteOS.Entry.Machine
import KalinoteOS.Entry.Stubs
import KalinoteOS.Entry.Frame
import KalinoteOS.Entry.Restore
import KalinoteOS.Entry.Paths
import KalinoteOS.Lib.DoublyLinked
import KalinoteOS.Memory.SlabDestroy
import KalinoteOS.Interrupt.IoApic
import KalinoteOS.Interrupt.Registration
import KalinoteOS.Fat32.Compare
import KalinoteOS.Lib.Chain
import KalinoteOS.Fat32.Parts
import KalinoteOS.Fat32.LongName
import KalinoteOS.Fat32.ShortName
import KalinoteOS.Fat32.Volume
import KalinoteOS.Fat32.Lookup
import KalinoteOS.Fat32.Searched
import KalinoteOS.Fat32.LookupSafe
import KalinoteOS.Fat32.PathWalk
import KalinoteOS.Fat32.Resolve
import KalinoteOS.Fat32.Mount
import KalinoteOS.Fat32.Descend
import KalinoteOS.Fat32.Behind
import KalinoteOS.Fat32.WriteInode
import KalinoteOS.Fat32.RoundTrip
import KalinoteOS.Fat32.WriteEntry
import KalinoteOS.Fat32.Siblings
import KalinoteOS.Scheduler.Fork
import KalinoteOS.Lib.PageWalk
import KalinoteOS.Lib.UserAccess
import KalinoteOS.Paging.Access
import KalinoteOS.Paging.PagetableInit
import KalinoteOS.Paging.DirectMap
import KalinoteOS.Paging.Execve
import KalinoteOS.Lib.StringMove
import KalinoteOS.UserCopy
import KalinoteOS.Printk.Number
import KalinoteOS.Printk.Vsprintf
import KalinoteOS.Printk.Directive
import KalinoteOS.Printk.Format
import KalinoteOS.Printk.Conversion
import KalinoteOS.Printk.PutString
import KalinoteOS.Printk.Console
import KalinoteOS.Keyboard.Keycode
import KalinoteOS.Mouse
import KalinoteOS.LinkedList
import KalinoteOS.FileSystem
import KalinoteOS.Graphic.Access
import KalinoteOS.Printk.Layout
import KalinoteOS.WallClock
import KalinoteOS.Loader.Machine
import KalinoteOS.Loader.ReadSector
import KalinoteOS.Loader.Fat12
import KalinoteOS.Loader.LoadKernel
import KalinoteOS.Loader.KernelFile
import KalinoteOS.Lib.Region
import KalinoteOS.Lib.CString
import KalinoteOS.Strings.Blocks
import KalinoteOS.Strings.Copy
import KalinoteOS.Strings.Compare
import KalinoteOS.Task.Cpu
import KalinoteOS.Task.Switch
import KalinoteOS.Task.KernelThread
import KalinoteOS.Task.Run
import KalinoteOS.Entry.Descent
import KalinoteOS.Task.UserMode
import KalinoteOS.Idt.Gate
import KalinoteOS.Idt.Vectors
import KalinoteOS.Idt.Delivery
import KalinoteOS.Lib.BlockStore
import KalinoteOS.Disk.Medium
import KalinoteOS.Disk.History
import KalinoteOS.Fat32.Store
import KalinoteOS.Printk.Terminal
import KalinoteOS.Paging.Remap
import KalinoteOS.Loader.RootDirectory
