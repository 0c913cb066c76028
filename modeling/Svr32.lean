import Svr32.Lib.System
import Svr32.Lib.Span
import Svr32.Malloc.Map
import Svr32.Malloc.Mfree
import Svr32.Callout.Code
import Svr32.Callout.Run
import Svr32.Lib.Links
import Svr32.RecLock.Record
import Svr32.RecLock.Adjust
import Svr32.RecLock.Flckadj
import Svr32.Lib.Chase
import Svr32.RecLock.Reclock
import Svr32.RecLock.Run
import Svr32.Lib.Seg
import Svr32.Lib.Sparse
import Svr32.Ipc.Perm
import Svr32.Semaphore.Semop
import Svr32.Semaphore.UndoInv
import Svr32.Semaphore.Quiet
import Svr32.Semaphore.Rollback
import Svr32.Semaphore.Semctl
import Svr32.Semaphore.Calm
import Svr32.Semaphore.Turn
import Svr32.Semaphore.Run
import Svr32.Semaphore.Ledger
import Svr32.CharQueue.Code
import Svr32.CharQueue.Run
import Svr32.Lib.Count
import Svr32.Stream.Account
import Svr32.Stream.Blocks
import Svr32.Stream.Message
import Svr32.Stream.Pullup
import Svr32.Stream.PoolRun
import Svr32.Lib.Deque
import Svr32.Stream.Links
import Svr32.Stream.Place
import Svr32.Stream.Flow
import Svr32.Stream.Take
import Svr32.Stream.Flush
import Svr32.Stream.QueueStep
import Svr32.Stream.QueueMove
import Svr32.Stream.QueueRun
import Svr32.S5.Alloc
import Svr32.S5.FreeRun
import Svr32.S5.Ialloc
import Svr32.S5.InodeCache
import Svr32.S5.InodeRun
import Svr32.Swapalloc.Find
import Svr32.Swapalloc.Books
import Svr32.Swapalloc.Ops
import Svr32.Lp.Codec
import Svr32.Lp.Message
import Svr32.Lp.Fifo
import Svr32.Lib.Greedy
import Svr32.Lp.FifoRun
import Svr32.Lp.WriteFifo
import Svr32.Lib.FirstFit
import Svr32.Rfs.Heap
import Svr32.Rfs.HeapRun
import Svr32.Rfs.Glid
import Svr32.Rfs.Rglid
import Svr32.Rfs.Inverse
import Svr32.Canon.Layout
import Svr32.Canon.Passes
import Svr32.Canon.RoundTrip
import Svr32.Lib.Linked
import Svr32.Cron.Elm
import Svr32.Cron.Blocks
import Svr32.Cron.Add
import Svr32.Cron.Lose
import Svr32.Cron.Rotate
import Svr32.Cron.Advance
import Svr32.Cron.Remove
import Svr32.Cron.ElmRun
import Svr32.Libgen.Tree
import Svr32.Libgen.Insert
import Svr32.Libgen.TreeRun
import Svr32.Libgen.TreeDelete
import Svr32.Libgen.Hash
import Svr32.Libgen.HashRun
import Svr32.Sccs.Lockit
import Svr32.Lib.Text
import Svr32.Sccs.Packet
import Svr32.Sccs.Delta
import Svr32.Sccs.Sums
import Svr32.Sccs.SumsRun
import Svr32.Lib.Probe
import Svr32.Sccs.Newsid
import Svr32.Lib.Patch
import Svr32.Bdiff.Fixnum
import Svr32.Bdiff.Relay
import Svr32.Bdiff.Segment
import Svr32.Bdiff.Run
import Svr32.Lib.Ring
import Svr32.Fifo.Code
import Svr32.Fifo.Stored
import Svr32.Fifo.Run
import Svr32.Region.Tables
import Svr32.Region.Code
import Svr32.Region.Balance
import Svr32.Region.Undo
import Svr32.Region.Run
import Svr32.Nami.Run
import Svr32.Ptbl.Alloc
import Svr32.Lib.Join
import Svr32.Join.Turns
import Svr32.Sh.Stack
import Svr32.Term.Run
import Svr32.Rfs.Auth
import Svr32.Rfs.Granted
import Svr32.Rfs.Setid
import Svr32.Stream.Pool
import Svr32.Stream.Adjusted
import Svr32.S5.Itrunc
import Svr32.RecLock.Effect
import Svr32.RecLock.Overwrite
import Svr32.RecLock.Written
import Svr32.RecLock.Enolck
import Svr32.RecLock.Cursor
import Svr32.Stream.Pulls
import Svr32.Spell.Huff
import Svr32.Lib.BitStream
import Svr32.Spell.Hashlook
import Svr32.Lib.OpenAddr
import Svr32.Libc.Hsearch
import Svr32.Diff.Check
import Svr32.Diff.Readhash
import Svr32.Diff.Offsets
import Svr32.Lib.Mem
import Svr32.Diff.Stone
import Svr32.Lib.Lcs
import Svr32.Diff.Sorted
import Svr32.Diff.Candidates
import Svr32.Diff.Longest
import Svr32.Pack.Tree
import Svr32.Pack.Inside
import Svr32.Unpack.Decode
import Svr32.Dc.Number
import Svr32.Dc.Exact
import Svr32.Dc.Root
import Svr32.Uucp.Frame
import Svr32.Uucp.Framing
import Svr32.Libc.Drand48
import Svr32.Libgen.Strccpy
import Svr32.Libgen.Pathfind
import Svr32.Lib.Calendar
import Svr32.Libc.TimeComm
import Svr32.Libgen.ToDate
import Svr32.Libc.Tsearch
import Svr32.Libc.TsearchRun
import Svr32.Lib.Partition
import Svr32.Libc.Qsort
import Svr32.Libgen.Gmatch
import Svr32.Libgen.GmatchRun
import Svr32.Lib.Weave
import Svr32.Sccs.Rdmod
import Svr32.Sccs.Dolist
import Svr32.Sccs.DelAb
import Svr32.S5.Blklist
import Svr32.Sort.Qksort
import Svr32.Lib.Runs
import Svr32.Sort.Msort
import Svr32.Regexp.Code
import Svr32.Regexp.Turn
import Svr32.Regexp.Program
import Svr32.Regexp.Ends
