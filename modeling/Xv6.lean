import Xv6.Lib.Crash
import Xv6.Lib.Transition
import Xv6.Lib.Ring
import Xv6.Lib.Ends
import Xv6.Lib.Linked
import Xv6.Lib.Place
import Xv6.Param
import Xv6.Proc.Sleep
import Xv6.Proc.Table
import Xv6.Proc.System
import Xv6.Proc.Exclusive
import Xv6.Proc.Family
import Xv6.Proc.Kill
import Xv6.Proc.Pids
import Xv6.Log.Disk
import Xv6.Log.Commit
import Xv6.Log.Atomicity
import Xv6.Log.Group
import Xv6.Log.GroupSafety
import Xv6.Log.Capacity
import Xv6.Pipe.Buffer
import Xv6.Pipe.System
import Xv6.Pipe.Fifo
import Xv6.Pipe.Wakeup
import Xv6.Fs.Inode
import Xv6.Fs.Sysfile
import Xv6.Fs.Unlinked
import Xv6.Fs.Block
import Xv6.Fs.BlockInv
import Xv6.Fs.BlockSafety
import Xv6.File.Table
import Xv6.File.Open
import Xv6.File.System
import Xv6.File.Shape
import Xv6.File.Refs
import Xv6.File.Release
import Xv6.File.Write
import Xv6.File.Offset
import Xv6.Ide.Driver
import Xv6.Ide.Queue
import Xv6.Lib.Record
import Xv6.Mkfs.Image
import Xv6.Mkfs.Layout
import Xv6.Mkfs.Append
import Xv6.Mkfs.Main
import Xv6.Syscall.Fetch
import Xv6.Console.Line
import Xv6.Console.Read
import Xv6.Fs.Dirlink
import Xv6.Fs.Data
import Xv6.Fs.Path
import Xv6.Fs.Namei
import Xv6.String.Mem
import Xv6.Grep.Match
import Xv6.Grep.Lines
import Xv6.Umalloc.Malloc
import Xv6.Vm.Layout
import Xv6.Vm.Uvm
import Xv6.Vm.Pgdir
import Xv6.Vm.Dealloc
import Xv6.Vm.Map
import Xv6.Sh.Parse
import Xv6.Sh.Grammar
import Xv6.Sh.Tokens
import Xv6.Sh.Strings
import Xv6.Sh.Sound
import Xv6.Sh.Complete
import Xv6.Print.Printint
import Xv6.Print.Digits
import Xv6.Lib.Cycle
import Xv6.Bio.Cache
import Xv6.Bio.Invariant
import Xv6.Bio.Store
import Xv6.Bio.Refinement
import Xv6.Print.Format
import Xv6.Exec.Stack
