import SnuSysProg.Decomment.Basic
import SnuSysProg.Decomment.Counters
import SnuSysProg.Decomment.Correct
import SnuSysProg.Decomment.Idempotent
import SnuSysProg.Heapmgr.Allocating
import SnuSysProg.Heapmgr.Calls
import SnuSysProg.Heapmgr.Chunk
import SnuSysProg.Heapmgr.Heapmgr1
import SnuSysProg.Heapmgr.Heapmgr1Calls
import SnuSysProg.Heapmgr.Heapmgr1Runs
import SnuSysProg.Heapmgr.Heapmgr2
import SnuSysProg.Heapmgr.Heapmgr2Bins
import SnuSysProg.Heapmgr.Heapmgr2Calls
import SnuSysProg.Heapmgr.Heapmgr2Growth
import SnuSysProg.Heapmgr.Heapmgr2Runs
import SnuSysProg.Heapmgr.Heapmgr2Sizes
import SnuSysProg.Heapmgr.Layout
import SnuSysProg.Heapmgr.Operations
import SnuSysProg.Heapmgr.Oversized
import SnuSysProg.Heapmgr.Represents
import SnuSysProg.Heapmgr.Runs
import SnuSysProg.Lib.Cells
import SnuSysProg.Lib.Linearizability
import SnuSysProg.Lib.Links
import SnuSysProg.Lib.Ring
import SnuSysProg.Lib.Run
import SnuSysProg.Rwlock.Basic
import SnuSysProg.Rwlock.Exclusion
import SnuSysProg.Rwlock.Queue
import SnuSysProg.Rwlock.Wakeup
import SnuSysProg.Skvs.Chains
import SnuSysProg.Skvs.Connection
import SnuSysProg.Skvs.Hashtable
import SnuSysProg.Skvs.Heads
import SnuSysProg.Skvs.OneLine
import SnuSysProg.Skvs.Parse
import SnuSysProg.Skvs.Refinement
import SnuSysProg.Skvs.Replies
import SnuSysProg.Skvs.Represents
import SnuSysProg.Skvs.Serve
import SnuSysProg.Skvs.Threads
import SnuSysProg.Skvs.Words
import SnuSysProg.Skvs.Workers
import SnuSysProg.Skvs.References
import SnuSysProg.Lib.Program
import SnuSysProg.Shell.Tokens
import SnuSysProg.Shell.Program
import SnuSysProg.Shell.Syntax
import SnuSysProg.Shell.Descriptors
import SnuSysProg.Shell.Wiring
import SnuSysProg.Lib.Discipline
import SnuSysProg.Shell.Handler
import SnuSysProg.Shell.Main
import SnuSysProg.Shell.Interleaving
import SnuSysProg.Shell.Calls
import SnuSysProg.Shell.Launch
import SnuSysProg.Shell.Steps
import SnuSysProg.Shell.BackgroundTable
import SnuSysProg.Shell.Done
import SnuSysProg.Shell.Foreground
import SnuSysProg.Shell.ForegroundChild
import SnuSysProg.Shell.HandlerRun
import SnuSysProg.Shell.TableBounds
import SnuSysProg.Shell.Leaks
import SnuSysProg.Shell.Grammar
import SnuSysProg.Shell.Commands
import SnuSysProg.Shell.Lexer
import SnuSysProg.Shell.Allocations
import SnuSysProg.Shell.LineEnd
import SnuSysProg.Shell.Spelling
import SnuSysProg.Rwlock.Priority
import SnuSysProg.Rwlock.Order
import SnuSysProg.Rwlock.Failures
import SnuSysProg.Skvs.Grammar
import SnuSysProg.Skvs.Oversized
import SnuSysProg.Skvs.Incomplete
import SnuSysProg.Heapmgr.Heapmgr1Growth
import SnuSysProg.Decomment.Lines
import SnuSysProg.Lib.Sort
import SnuSysProg.Dirtree.Basic
import SnuSysProg.Dirtree.Reading
import SnuSysProg.Dirtree.Printing
import SnuSysProg.Dirtree.Listing
import SnuSysProg.Dirtree.Enumeration
import SnuSysProg.Dirtree.Main
import SnuSysProg.Dirtree.Summaries
import SnuSysProg.Skvs.Locking
import SnuSysProg.Lib.Ownership
import SnuSysProg.Skvs.Lifetime
import SnuSysProg.Skvs.Answers
import SnuSysProg.Skvs.Client
import SnuSysProg.Skvs.Session
import SnuSysProg.Skvs.Prints
import SnuSysProg.Heapmgr.Accounting
import SnuSysProg.Shell.Jobs
import SnuSysProg.Shell.Execution
import SnuSysProg.Shell.Lines
import SnuSysProg.Dirtree.Outline
import SnuSysProg.Dirtree.Arguments
import SnuSysProg.Dirtree.Shortage
import SnuSysProg.Skvs.Server
import SnuSysProg.Skvs.Clients
import SnuSysProg.Shell.Memory
import SnuSysProg.Shell.Notices
