import LibSei.Memory.Bytes
import LibSei.Memory.Writes
import LibSei.Memory.Programs
import LibSei.Memory.Copies
import LibSei.Memory.Overlay
import LibSei.Memory.UndoLog
import LibSei.Memory.Locations
import LibSei.Memory.RingBuffer
import LibSei.Memory.Links
import LibSei.Memory.PowersOfTwo
import LibSei.Numerals.Positional
import LibSei.X64.Machine
import LibSei.Control.Loop
import LibSei.Control.RoundRobin
import LibSei.Machine.Exec
import LibSei.Machine.Env
import LibSei.Checksum.Crc
import LibSei.Crc32c.Tables
import LibSei.Crc32c.Implementations
import LibSei.Abuf.Basic
import LibSei.Abuf.Capacity
import LibSei.Abuf.Swap
import LibSei.Abuf.CmpHeap
import LibSei.Abuf.CmpHeapNway
import LibSei.Abuf.Cursors
import LibSei.Abuf.Restore
import LibSei.Abuf.Logs
import LibSei.Abuf.Record
import LibSei.Abuf.Corrupt
import LibSei.Traversal.Alloc
import LibSei.Traversal.Cfc
import LibSei.Traversal.Messages
import LibSei.Traversal.Outbox
import LibSei.Traversal.Slots
import LibSei.Traversal.Wts
import LibSei.Traversal.Tbar
import LibSei.Traversal.Stash
import LibSei.ModeCow.Traversal
import LibSei.ModeCow.Phases
import LibSei.ModeCow.Commit
import LibSei.ModeCow.Frame
import LibSei.ModeCow.LogRoom
import LibSei.ModeCow.PutAside
import LibSei.ModeCow.Allocations
import LibSei.ModeCow.Sequence
import LibSei.ModeCow.Handler
import LibSei.Tmi.Syscalls
import LibSei.Tmi.Locks
import LibSei.Tmi.Thread
import LibSei.Tmi.Phases
import LibSei.Tmi.Transaction
import LibSei.Tmi.Separation
import LibSei.Tmi.LockHistory
import LibSei.Tmi.Process
import LibSei.Tmi.Concurrent
import LibSei.Tmi.Ownership
import LibSei.Tmi.Context
import LibSei.Tmi.MiniTraversals
import LibSei.Itm.Programs
import LibSei.Itm.Memset
import LibSei.Itm.Memcpy
import LibSei.Itm.Memmove
import LibSei.Itm.Calls
import LibSei.Cow.Basic
import LibSei.Cow.View
import LibSei.Cow.Whole
import LibSei.Cow.Traversal
import LibSei.Heap.Basic
import LibSei.Heap.Blocks
import LibSei.Cores.Isolation
import LibSei.Cores.Thread
import LibSei.Cores.Prepare
import LibSei.Cores.Entry
import LibSei.Libc.Strtol
import LibSei.Properties.Isolation
import LibSei.Properties.Comparison
import LibSei.Properties.Detection
import LibSei.Properties.Rollback
import LibSei.Properties.Precheck
import LibSei.Properties.Outputs
import LibSei.Properties.OutputOrder
import LibSei.Properties.OutputRetry
import LibSei.Properties.Bookkeeping
import LibSei.Properties.Conservation
import LibSei.Properties.Barrier
import LibSei.Properties.Checksums
import LibSei.Properties.CoreRedundancy
import LibSei.Properties.CoreProgress
import LibSei.Properties.ControlFlow
import LibSei.Properties.Recovery
import LibSei.Properties.Syscalls
import LibSei.Properties.DeferredSends
import LibSei.Properties.LockReplay
import LibSei.Properties.LockLeaks
import LibSei.Properties.IgnoreState
import LibSei.Properties.TwoPhaseLocking
import LibSei.Properties.Containment
import LibSei.Properties.AllocationCalls
import LibSei.Properties.TrackedWrites
import LibSei.Properties.BlockFunctions
import LibSei.Properties.WriteBack
import LibSei.Properties.HashCommit
import LibSei.Properties.CoreChoice
import LibSei.Properties.HeapBlocks
import LibSei.Properties.OutputRing
import LibSei.Properties.DroppedCalls
import LibSei.Properties.CommitAttempt
import LibSei.Properties.Settings
import LibSei.Properties.PageProtection
import LibSei.Properties.LogReplay
import LibSei.Properties.ConflictBounds
import LibSei.Properties.SizeClasses
import LibSei.Properties.Serializability
import LibSei.Properties.Transparency
import LibSei.Properties.InjectedFaults
import LibSei.Properties.ContextShift
import LibSei.Properties.ContextLevels
import LibSei.Properties.MiniTraversals
import LibSei.Properties.NumberParsing
