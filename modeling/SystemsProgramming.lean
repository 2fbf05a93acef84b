import SystemsProgramming.Runs
import SystemsProgramming.ArrayPrefix
import SystemsProgramming.Chains
import SystemsProgramming.Refinement
import SystemsProgramming.ThreadPool.Model
import SystemsProgramming.ThreadPool.Moves
import SystemsProgramming.ThreadPool.Ledger
import SystemsProgramming.ThreadPool.Completion
import SystemsProgramming.ThreadPool.Program
import SystemsProgramming.ThreadPool.Order
import SystemsProgramming.ThreadPool.Waiters
import SystemsProgramming.ThreadPool.Machine
import SystemsProgramming.ThreadPool.Simulation
import SystemsProgramming.ThreadPool.Statements
import SystemsProgramming.ThreadPool.Execution
import SystemsProgramming.ThreadPool.Memory
import SystemsProgramming.ThreadPool.Bound
import SystemsProgramming.ThreadPool.Termination
import SystemsProgramming.Scheduler.Model
import SystemsProgramming.Scheduler.Queues
import SystemsProgramming.Scheduler.Books
import SystemsProgramming.Scheduler.Entries
import SystemsProgramming.Scheduler.LockOwner
import SystemsProgramming.Scheduler.SignalMask
import SystemsProgramming.Scheduler.RoundRobin
import SystemsProgramming.Scheduler.Rounds
import SystemsProgramming.Scheduler.Results
import SystemsProgramming.Scheduler.Transactions
import SystemsProgramming.Scheduler.Balance
import SystemsProgramming.Scheduler.Completion
import SystemsProgramming.FlatBytes
import SystemsProgramming.Board.Model
import SystemsProgramming.LastWrites
import SystemsProgramming.Board.LockedSlots
import SystemsProgramming.Cursor
import SystemsProgramming.Board.Fairness
import SystemsProgramming.Board.Records
import SystemsProgramming.Board.Listing
import SystemsProgramming.Board.Framing
import SystemsProgramming.Board.RoundTrip
import SystemsProgramming.Board.Cache
import SystemsProgramming.Board.Sharing
import SystemsProgramming.Board.SystemCalls
import SystemsProgramming.Board.Atomicity
import SystemsProgramming.Board.LockDiscipline
import SystemsProgramming.Board.WaitFree
import SystemsProgramming.Board.Posts
import SystemsProgramming.Board.Connections
import SystemsProgramming.Board.Fields
import SystemsProgramming.LoopLog
import SystemsProgramming.Board.Client
import SystemsProgramming.Forest
import SystemsProgramming.Services.Model
import SystemsProgramming.Services.Search
import SystemsProgramming.Services.Kill
import SystemsProgramming.Services.SafeRuns
import SystemsProgramming.Services.Network
import SystemsProgramming.Services.Edges
import SystemsProgramming.Services.LockStep
import SystemsProgramming.Services.Turns
import SystemsProgramming.Services.Moves
import SystemsProgramming.Services.Delivery
import SystemsProgramming.Services.Errands
import SystemsProgramming.Services.Messages
import SystemsProgramming.Services.Walks
import SystemsProgramming.Services.Standing
import SystemsProgramming.Services.Shutdown
import SystemsProgramming.FileTable
import SystemsProgramming.Services.Descriptors
import SystemsProgramming.Services.Numbers
import SystemsProgramming.Services.Preorder
import SystemsProgramming.Services.Replies
import SystemsProgramming.Services.Script
import SystemsProgramming.Services.Names
import SystemsProgramming.Services.Words
import SystemsProgramming.Services.Reports
import SystemsProgramming.Services.Instructions
import SystemsProgramming.Services.Resting
import SystemsProgramming.Services.Fading
import SystemsProgramming.Services.Output
import SystemsProgramming.Services.Pending
import SystemsProgramming.Services.Courses
import SystemsProgramming.Services.Serving
import SystemsProgramming.Services.Interleavings
import SystemsProgramming.Services.Outcomes
