import KernelPid.Lib.Tower
import KernelPid.Lib.Runs
import KernelPid.Lib.SearchTree
import KernelPid.Skiplist.Basic
import KernelPid.Skiplist.Invariant
import KernelPid.Skiplist.Search
import KernelPid.Skiplist.Update
import KernelPid.Skiplist.Map
import KernelPid.RbSkiplist.Basic
import KernelPid.RbSkiplist.Invariant
import KernelPid.RbSkiplist.Equivalence
import KernelPid.Skiplist.Writer
import KernelPid.Skiplist.Reader
import KernelPid.Skiplist.LockFree
import KernelPid.Skiplist.ReaderRuns
import KernelPid.Skiplist.ReaderWindow
import KernelPid.Pid.Abstract
import KernelPid.Pid.Reserve
import KernelPid.Lib.Ancestors
import KernelPid.Pid.Levels
import KernelPid.Pid.Refinement
import KernelPid.Pid.System
import KernelPid.Pid.Unique
import KernelPid.Pid.Zap
import KernelPid.Pid.Sequential
import KernelPid.Pid.Results
import KernelPid.Pid.LiveTable
import KernelPid.Lib.Tally
import KernelPid.Lifetime.Basic
import KernelPid.Lifetime.Counts
import KernelPid.Lifetime.Teardown
import KernelPid.Skiplist.Iteration
import KernelPid.Skiplist.WellFormed
import KernelPid.RbSkiplist.Repeats
import KernelPid.RbSkiplist.Shortcut
import KernelPid.RbSkiplist.TopLevel
import KernelPid.Skiplist.Memory
import KernelPid.RbSkiplist.Memory
import KernelPid.Pid.FindGe
import KernelPid.Lib.FlagWord
import KernelPid.Pid.Allocated
import KernelPid.Lib.FirstIn
import KernelPid.Pid.CyclicScan
import KernelPid.Pid.Idr
import KernelPid.Pid.Errors
import KernelPid.Lib.KeyedList
import KernelPid.Skiplist.Entries
import KernelPid.Skiplist.Undo
import KernelPid.RbSkiplist.Failure
import KernelPid.Pid.Cursor
import KernelPid.Lib.IntrusiveList
import KernelPid.Pid.Numbers
import KernelPid.Task.Basic
import KernelPid.Task.Attached
import KernelPid.Lib.WaitLoop
import KernelPid.Pid.Notices
import KernelPid.Pid.ZapWait
import KernelPid.Task.Find
import KernelPid.Lifetime.Drain
import KernelPid.Lifetime.Nesting
import KernelPid.Lifetime.Processes
import KernelPid.Lib.LazyCells
import KernelPid.Lifetime.PidCache
import KernelPid.Pid.Recycling
import KernelPid.Lib.GracePeriods
import KernelPid.Lifetime.Readers
import KernelPid.Pid.Lockstep
import KernelPid.Skiplist.Draws
