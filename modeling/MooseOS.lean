import MooseOS.Lib.While
import MooseOS.Lib.Output
import MooseOS.Lib.Machine
import MooseOS.Lib.Fifo
import MooseOS.Lib.Chain
import MooseOS.Lib.Pool
import MooseOS.Lib.Lcg
import MooseOS.Hardware
import MooseOS.Pagetable.Basic
import MooseOS.Pagetable.Spec
import MooseOS.Pagetable.Growth
import MooseOS.Pagetable.Insert
import MooseOS.Pagetable.Translate
import MooseOS.Pagetable.Runs
import MooseOS.Pagetable.Termination
import MooseOS.Pagetable.PageMap
import MooseOS.Pagetable.Index
import MooseOS.Pagetable.Inserts
import MooseOS.Queue.Basic
import MooseOS.Queue.Refine
import MooseOS.Queue.Capacity
import MooseOS.Queue.EmptyPop
import MooseOS.Queue.Ring
import MooseOS.Queue.LinkedList
import MooseOS.Queue.LinkedListRefine
import MooseOS.Queue.DoublyLinked
import MooseOS.Queue.Agree
import MooseOS.Memory.Basic
import MooseOS.Memory.Boot
import MooseOS.Memory.Brk
import MooseOS.Memory.Frames
import MooseOS.Memory.Limits
import MooseOS.Memory.LastCall
import MooseOS.Memory.Expand
import MooseOS.Memory.Stores
import MooseOS.Memory.Registers
import MooseOS.Memory.Status
import MooseOS.Memory.Enable
import MooseOS.Memory.Paging
import MooseOS.Memory.InitialPool
import MooseOS.Memory.Coverage
import MooseOS.Memory.HeapPool
import MooseOS.Memory.Safety
import MooseOS.Memory.LinkedPool
import MooseOS.Memory.BootMap
import MooseOS.Memory.Life
import MooseOS.Memory.Sound
import MooseOS.User.Vsnprintf
import MooseOS.User.Numeral
import MooseOS.User.Text
import MooseOS.User.Contract
import MooseOS.User.Directive
import MooseOS.User.Strntoumax
import MooseOS.User.Vsscanf
import MooseOS.User.Scanning
import MooseOS.User.RoundTrip
import MooseOS.User.ScanSafe
import MooseOS.User.ScanSet
import MooseOS.User.Memmem
import MooseOS.User.Strtok
import MooseOS.User.Rand48
import MooseOS.User.Break
import MooseOS.Memory.Expand
import MooseOS.Memory.Stores
import MooseOS.Memory.LinkedPool
